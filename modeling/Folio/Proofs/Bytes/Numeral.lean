import Mathlib.Data.List.Basic
import Mathlib.Data.List.Induction
import Mathlib.Data.List.TakeWhile
import Mathlib.Tactic.IntervalCases
import Folio.Bytes

/-!
# Numerals that are read back

The decimal digits of a number are digits all through, with nothing in front that reading would
skip, and they are read as this number. What is read as a number is such digits, maybe after zeros,
a sign and white space.
-/

set_option autoImplicit false

namespace Folio.Bytes

theorem untilNul_eq_self {s : Bytes} (h : 0 ∉ s) : s.untilNul = s := by
  rw [untilNul, List.takeWhile_eq_self_iff]
  intro b hb
  simpa using fun h0 : b = 0 => h (h0 ▸ hb)

theorem isDigit_iff {b : UInt8} : isDigit b = true ↔ 48 ≤ b.toNat ∧ b.toNat ≤ 57 := by
  simp [isDigit, UInt8.le_iff_toNat_le]

theorem toUInt8_digit {c : Char} (h : c.isDigit = true) :
    isDigit c.toUInt8 = true ∧ digitValue c.toUInt8 = c.toNat - 48 := by
  have hrange : 48 ≤ c.toNat ∧ c.toNat ≤ 57 := by
    simpa [Char.isDigit, UInt32.le_iff_toNat_le] using h
  have hvalue : c.toUInt8.toNat = c.toNat := by
    show c.toNat % 256 = c.toNat
    omega
  rw [isDigit_iff, digitValue, hvalue]
  exact ⟨hrange, rfl⟩

theorem digits_ofNat (n : Nat) : ∀ c ∈ Nat.toDigits 10 n, c.isDigit = true := fun _ hc =>
  Nat.isDigit_of_mem_toDigits (by decide) (Nat.le_refl 10) hc

theorem isDigit_of_mem_ofNat {n : Nat} {b : UInt8} (h : b ∈ ofNat n) : isDigit b = true := by
  obtain ⟨c, hc, rfl⟩ := List.mem_map.1 h
  exact (toUInt8_digit (digits_ofNat n c hc)).1

theorem nul_notMem_ofNat (n : Nat) : 0 ∉ ofNat n :=
  fun h => absurd (isDigit_of_mem_ofNat h) (by decide)

theorem ofNat_ne_nil (n : Nat) : ofNat n ≠ [] := by
  simp [ofNat, Nat.toDigits_ne_nil]

theorem natural?_ofNat (n : Nat) : natural? (ofNat n) = some n := by
  have hsome : (ofNat n).isEmpty = false := by simp [ofNat_ne_nil]
  have hall : (ofNat n).all isDigit = true := List.all_eq_true.2 fun b hb => isDigit_of_mem_ofNat hb
  have hvalue : (ofNat n).foldl (fun n b => 10 * n + digitValue b) 0 = n := by
    calc (ofNat n).foldl (fun n b => 10 * n + digitValue b) 0
        = (Nat.toDigits 10 n).foldl (fun n c => 10 * n + (c.toNat - 48)) 0 := by
          rw [ofNat, List.foldl_map]
          exact List.foldl_ext _ _ _ fun m c hc => by rw [(toUInt8_digit (digits_ofNat n c hc)).2]
      _ = Nat.ofDigitChars 10 (Nat.toDigits 10 n) 0 := Nat.ofDigitChars_eq_foldl.symm
      _ = n := Nat.ofDigitChars_ten_toDigits
  rw [natural?, hsome, hall, hvalue]
  rfl

theorem isDigit_of_mem_zeros {zeros n : Nat} {b : UInt8}
    (h : b ∈ List.replicate zeros 48 ++ ofNat n) : isDigit b = true := by
  rcases List.mem_append.1 h with h | h
  · rw [List.eq_of_mem_replicate h]
    rfl
  · exact isDigit_of_mem_ofNat h

theorem isBlank_of_isDigit {b : UInt8} (h : isDigit b = true) : isBlank b = false := by
  grind [isDigit, isBlank]

theorem isSpace_of_isDigit {b : UInt8} (h : isDigit b = true) : isSpace b = false := by
  grind [isDigit, isSpace]

theorem natural?_zeros (zeros n : Nat) :
    natural? (List.replicate zeros 48 ++ ofNat n) = some n := by
  induction zeros with
  | zero => exact natural?_ofNat n
  | succ zeros ih =>
    have hsome : (List.replicate zeros 48 ++ ofNat n).isEmpty = false := by simp [ofNat_ne_nil]
    have hzero : isDigit 48 = true ∧ 10 * 0 + digitValue 48 = 0 := by decide
    rw [natural?, hsome] at ih
    rw [List.replicate_succ, List.cons_append, natural?, List.all_cons, hzero.1, List.foldl_cons,
      hzero.2]
    exact ih

/-- The decimal digits of a number, maybe after zeros. -/
def Digits (n : Nat) (s : Bytes) : Prop := ∃ zeros, s = List.replicate zeros 48 ++ ofNat n

/-- Digits with at most one sign before them. -/
inductive Signed : Int → Bytes → Prop
  | bare {n : Nat} {s : Bytes} (digits : Digits n s) : Signed n s
  | plus {n : Nat} {s : Bytes} (digits : Digits n s) : Signed n (43 :: s)
  | minus {n : Nat} {s : Bytes} (digits : Digits n s) : Signed (-n) (45 :: s)

/-- The text is a numeral from its first to its last byte: white space, at most one sign, digits. -/
def Numeral (n : Int) (s : Bytes) : Prop :=
  ∃ space rest, (∀ b ∈ space, isSpace b = true) ∧ Signed n rest ∧ s = space ++ rest

theorem Digits.isDigit {n : Nat} {s : Bytes} (h : Digits n s) : ∀ b ∈ s, isDigit b = true := by
  obtain ⟨zeros, rfl⟩ := h
  exact fun b hb => isDigit_of_mem_zeros hb

theorem Digits.ne_nil {n : Nat} {s : Bytes} (h : Digits n s) : s ≠ [] := by
  obtain ⟨zeros, rfl⟩ := h
  simp [ofNat_ne_nil]

theorem ofNat_digitValue {b : UInt8} (h : isDigit b = true) : ofNat (digitValue b) = [b] := by
  obtain ⟨hlow, hhigh⟩ := isDigit_iff.1 h
  rw [ofNat, digitValue, Nat.toDigits_of_lt_base (by omega), List.map_singleton]
  congr 1
  rw [← UInt8.toNat_inj]
  interval_cases b.toNat <;> rfl

theorem Digits.concat {n : Nat} {s : Bytes} {b : UInt8} (h : Digits n s)
    (hb : Bytes.isDigit b = true) : Digits (10 * n + digitValue b) (s ++ [b]) := by
  obtain ⟨zeros, rfl⟩ := h
  have hlast := ofNat_digitValue hb
  have hsmall : digitValue b < 10 := by
    have hrange := isDigit_iff.1 hb
    unfold digitValue
    omega
  by_cases hn : n = 0
  · subst hn
    refine ⟨zeros + 1, ?_⟩
    rw [Nat.mul_zero, Nat.zero_add, hlast, List.replicate_succ', ofNat, Nat.toDigits_zero]
    rfl
  · refine ⟨zeros, ?_⟩
    have hdigits := Nat.toDigits_append_toDigits (show 1 < 10 by decide) (Nat.pos_of_ne_zero hn)
      hsmall
    rw [List.append_assoc, ← hlast, ofNat, ofNat, ofNat, ← List.map_append, hdigits]

theorem natural?_eq_some {s : Bytes} {n : Nat} : natural? s = some n ↔ Digits n s := by
  constructor
  · induction s using List.reverseRecOn generalizing n with
    | nil => exact nofun
    | append_singleton s b ih =>
      intro h
      unfold natural? at h
      split at h
      next hs =>
        obtain ⟨hdigits, hb⟩ : (∀ a ∈ s, Bytes.isDigit a = true) ∧ Bytes.isDigit b = true := by
          simpa [or_imp, forall_and] using hs
        obtain rfl := Option.some.inj h
        rw [List.foldl_concat]
        by_cases hnil : s = []
        · subst hnil
          exact ⟨0, by simp [ofNat_digitValue hb]⟩
        · apply Digits.concat _ hb
          apply ih
          simp [natural?, hnil, List.all_eq_true.2 hdigits]
      · cases h
  · rintro ⟨zeros, rfl⟩
    exact natural?_zeros zeros n

theorem signed?_eq_some {s : Bytes} {n : Int} : signed? s = some n ↔ Signed n s := by
  constructor
  · intro h
    unfold signed? at h
    split at h
    · obtain ⟨m, hm, rfl⟩ : ∃ m, natural? _ = some m ∧ -(m : Int) = n := by
        simpa [Option.bind_eq_some_iff] using h
      exact .minus (natural?_eq_some.1 hm)
    · obtain ⟨m, hm, rfl⟩ := Option.map_eq_some_iff.1 h
      exact .plus (natural?_eq_some.1 hm)
    · obtain ⟨m, hm, rfl⟩ := Option.map_eq_some_iff.1 h
      exact .bare (natural?_eq_some.1 hm)
  · intro h
    cases h with
    | plus digits => rw [signed?, natural?_eq_some.2 digits]; rfl
    | minus digits => rw [signed?, natural?_eq_some.2 digits]; rfl
    | @bare m s digits =>
      have hfirst := digits.isDigit
      unfold signed?
      split
      · exact absurd (hfirst 45 List.mem_cons_self) (by decide)
      · exact absurd (hfirst 43 List.mem_cons_self) (by decide)
      · rw [natural?_eq_some.2 digits]; rfl

theorem Signed.bytes {n : Int} {s : Bytes} (h : Signed n s) :
    (∃ b rest, s = b :: rest ∧ isSpace b = false) ∧ 0 ∉ s := by
  have hnul {n : Nat} {s : Bytes} (digits : Digits n s) : 0 ∉ s := fun hmem =>
    absurd (digits.isDigit 0 hmem) (by decide)
  cases h with
  | plus digits => exact ⟨⟨_, _, rfl, rfl⟩, by simpa using hnul digits⟩
  | minus digits => exact ⟨⟨_, _, rfl, rfl⟩, by simpa using hnul digits⟩
  | bare digits =>
    refine ⟨?_, hnul digits⟩
    obtain ⟨b, rest, rfl⟩ := List.exists_cons_of_ne_nil digits.ne_nil
    exact ⟨b, rest, rfl, isSpace_of_isDigit (digits.isDigit b List.mem_cons_self)⟩

theorem Numeral.nul_notMem {n : Int} {s : Bytes} (h : Numeral n s) : 0 ∉ s := by
  obtain ⟨space, rest, hspace, hsigned, rfl⟩ := h
  rw [List.mem_append, not_or]
  exact ⟨fun hmem => absurd (hspace 0 hmem) (by decide), hsigned.bytes.2⟩

theorem Numeral.ne_nil {n : Int} {s : Bytes} (h : Numeral n s) : s ≠ [] := by
  obtain ⟨space, rest, -, hsigned, rfl⟩ := h
  obtain ⟨b, tail, rfl, -⟩ := hsigned.bytes.1
  simp

theorem signed_dropWhile {n : Int} {s : Bytes} :
    Signed n (s.dropWhile isSpace) ↔ Numeral n s := by
  constructor
  · intro h
    exact ⟨s.takeWhile isSpace, s.dropWhile isSpace, fun _ => List.mem_takeWhile_imp, h,
      List.takeWhile_append_dropWhile.symm⟩
  · rintro ⟨space, rest, hspace, hsigned, rfl⟩
    obtain ⟨b, tail, rfl, hb⟩ := hsigned.bytes.1
    rwa [List.dropWhile_append_of_pos hspace, List.dropWhile_cons_of_neg (by simp [hb])]

/-- What is read as a number: a numeral up to the first NUL, or nothing before it, which is zero. -/
theorem integer?_eq_some {s : Bytes} {n : Int} :
    integer? s = some n ↔ s.untilNul = [] ∧ n = 0 ∨ Numeral n s.untilNul := by
  unfold integer?
  by_cases hnil : s.untilNul = []
  · have hnumeral : ¬ Numeral n [] := fun h => h.ne_nil rfl
    simp [hnil, hnumeral, eq_comm]
  · simp [hnil, signed?_eq_some, signed_dropWhile]

theorem numeral_untilNul {n : Int} {s : Bytes} :
    Numeral n s ↔ 0 ∉ s ∧ Numeral n s.untilNul := by
  constructor
  · intro h
    exact ⟨h.nul_notMem, by rwa [untilNul_eq_self h.nul_notMem]⟩
  · rintro ⟨hnul, h⟩
    rwa [untilNul_eq_self hnul] at h

theorem Digits.numeral {n : Nat} {s : Bytes} (h : Digits n s) : Numeral n s :=
  ⟨[], s, by simp, .bare h, rfl⟩

theorem numeral_ofNat (n : Nat) : Numeral n (ofNat n) := Digits.numeral ⟨0, rfl⟩

theorem integer?_of_natural? {s : Bytes} {n : Nat} (h : natural? s = some n) :
    integer? s = some (n : Int) := by
  have hnumeral := (natural?_eq_some.1 h).numeral
  exact integer?_eq_some.2 (.inr (numeral_untilNul.1 hnumeral).2)

end Folio.Bytes
