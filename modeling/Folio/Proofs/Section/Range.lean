import Mathlib.Data.List.Forall2
import Mathlib.Data.List.Sort
import Folio.Proofs.Bytes.Numeral
import Folio.Proofs.Bytes.Search
import Folio.Proofs.Bytes.Trim
import Folio.Proofs.Outcome
import Folio.Section.Edit

/-!
# What ranges of section numbers select

A specification is a list of parts between commas, each of which asks for one number, for those
between two, for those on one side of a number, or for all. What it selects is what some part asks
for, with one exception: a part that is open behind and starts behind the last section is turned
round like one that was written the wrong way, and so it selects the last section.
-/

set_option autoImplicit false

namespace Folio.Range

theorem mem_dropRepeats {n : Nat} {ns : List Nat} : n ∈ dropRepeats ns ↔ n ∈ ns := by
  fun_induction dropRepeats ns with
  | case1 a rest ih => simp [ih]
  | case2 a b rest hne ih => rw [List.mem_cons, ih, ← List.mem_cons]
  | case3 short => rfl

theorem dropRepeats_ascends {ns : List Nat} (h : ns.Pairwise (· ≤ ·)) :
    (dropRepeats ns).Pairwise (· < ·) := by
  fun_induction dropRepeats ns with
  | case1 a rest ih => exact ih h.tail
  | case2 a b rest hne ih =>
    refine .cons ?_ (ih h.tail)
    intro n hn
    have hle : b ≤ n := by
      rcases List.mem_cons.1 (mem_dropRepeats.1 hn) with rfl | hn
      · exact Nat.le_refl n
      · exact List.rel_of_pairwise_cons h.tail hn
    have hab : a ≤ b := List.rel_of_pairwise_cons h List.mem_cons_self
    omega
  | case3 short hshort =>
    cases short with
    | nil => exact .nil
    | cons a rest =>
      cases rest with
      | nil => exact List.pairwise_singleton _ a
      | cons b rest => exact absurd rfl (hshort a b rest)

theorem mem_listed {n : Nat} {ns : List Nat} : n ∈ listed ns ↔ n ∈ ns :=
  mem_dropRepeats.trans List.mem_mergeSort

theorem listed_ascends (ns : List Nat) : (listed ns).Pairwise (· < ·) := by
  apply dropRepeats_ascends
  simpa using List.pairwise_mergeSort' (· ≤ ·) ns

theorem listed_eq {ns ms : List Nat} (hms : ms.Pairwise (· < ·)) (h : ∀ n, n ∈ ns ↔ n ∈ ms) :
    listed ns = ms :=
  (listed_ascends ns).eq_of_mem_iff hms fun n => mem_listed.trans (h n)

theorem mem_places {total : Int} {range : Int × Int} {i : Nat} :
    i ∈ places total range ↔ range.1 ≤ i ∧ i ≤ range.2 ∧ i < total := by
  rw [places, List.mem_range'_1]
  omega

/-- What a part asks for: one number, the numbers between two, those from one on, those up to one,
or all. -/
inductive Form where
  | one (n : Nat)
  | between (n m : Nat)
  | onward (n : Nat)
  | upTo (m : Nat)
  | all

namespace Form

def asksFor : Form → Nat → Bool
  | one n, k => k == n
  | between n m, k => min n m ≤ k && k ≤ max n m
  | onward n, k => n ≤ k
  | upTo m, k => 1 ≤ k && k ≤ m
  | all, _ => true

/-- Whether a part is open behind and starts behind the last of so many sections. -/
def startsBehind (total : Nat) : Form → Bool
  | onward n => total < n
  | _ => false

/-- Whether a part takes place `i` of so many sections, be it only because it is turned round. -/
def takes (total i : Nat) (f : Form) : Bool :=
  f.asksFor (i + 1) || (f.startsBehind total && i + 1 == total)

def span (total : Int) : Form → Int × Int
  | one n => (n - 1, n - 1)
  | between n m => (min (n - 1) (m - 1), max (n - 1) (m - 1))
  | onward n => (min (n - 1) (total - 1), max (n - 1) (total - 1))
  | upTo m => (min 0 (m - 1), max 0 (m - 1))
  | all => (min 0 (total - 1), max 0 (total - 1))

end Form

def Blank (text : Bytes) : Prop := ∀ b ∈ text, Bytes.isBlank b = true

/-- A positive number of 32 bits in decimal digits, maybe after zeros, with blanks around. -/
structure Writes (n : Nat) (text : Bytes) : Prop where
  inRange : 1 ≤ n ∧ n ≤ Bytes.maxNumber
  digits : ∃ zeros, Bytes.Padded (List.replicate zeros 48 ++ Bytes.ofNat n) text

/-- The spellings of a part: its bounds around a dash, or its number alone. -/
inductive Spells : Form → Bytes → Prop
  | one {n : Nat} {text : Bytes} (number : Writes n text) : Spells (.one n) text
  | between {n m : Nat} {before after : Bytes} (low : Writes n before) (high : Writes m after) :
      Spells (.between n m) (before ++ 45 :: after)
  | onward {n : Nat} {before after : Bytes} (low : Writes n before) (high : Blank after) :
      Spells (.onward n) (before ++ 45 :: after)
  | upTo {m : Nat} {before after : Bytes} (low : Blank before) (high : Writes m after) :
      Spells (.upTo m) (before ++ 45 :: after)
  | all {before after : Bytes} (low : Blank before) (high : Blank after) :
      Spells .all (before ++ 45 :: after)

/-- The pieces of a text between commas, but for those that are blank, spell these parts. -/
def Specifies (forms : List Form) (ranges : Bytes) : Prop :=
  List.Forall₂ Spells forms ((List.splitOn 44 ranges).filter fun piece => !piece.all Bytes.isBlank)

def asked (total : Nat) (forms : List Form) : List Nat :=
  (List.range total).filter fun i => forms.any fun f => f.asksFor (i + 1)

def taken (total : Nat) (forms : List Form) : List Nat :=
  (List.range total).filter fun i => forms.any (Form.takes total i)

theorem Writes.trim_eq {n : Nat} {text : Bytes} (h : Writes n text) :
    ∃ zeros, text.trim = List.replicate zeros 48 ++ Bytes.ofNat n := by
  obtain ⟨zeros, hpadded⟩ := h.digits
  have hdigits : ∀ b ∈ List.replicate zeros 48 ++ Bytes.ofNat n, Bytes.isBlank b = false :=
    fun _ hb => Bytes.isBlank_of_isDigit (Bytes.isDigit_of_mem_zeros hb)
  exact ⟨zeros, by rw [hpadded.trim, Bytes.trim_eq_self hdigits]⟩

theorem Writes.trim {n : Nat} {text : Bytes} (h : Writes n text) : Writes n text.trim := by
  obtain ⟨zeros, htrim⟩ := h.trim_eq
  exact ⟨h.inRange, zeros, htrim ▸ Bytes.padded_self _⟩

theorem Writes.trim_isEmpty {n : Nat} {text : Bytes} (h : Writes n text) :
    text.trim.isEmpty = false := by
  obtain ⟨zeros, htrim⟩ := h.trim_eq
  simp [htrim, Bytes.ofNat_ne_nil]

theorem Writes.dash_notMem {n : Nat} {text : Bytes} (h : Writes n text) : 45 ∉ text := by
  obtain ⟨zeros, before, after, hbefore, hafter, rfl⟩ := h.digits
  have hblank : Bytes.isBlank 45 ≠ true := by decide
  have hdigit : Bytes.isDigit 45 ≠ true := by decide
  rw [List.mem_append, List.mem_append]
  rintro ((hb | hd) | ha)
  · exact hblank (hbefore _ hb)
  · exact hdigit (Bytes.isDigit_of_mem_zeros hd)
  · exact hblank (hafter _ ha)

def IsBound (n : Int) : Prop := Bytes.minNumber ≤ n ∧ n ≤ Bytes.maxNumber

instance : DecidablePred IsBound := fun n =>
  inferInstanceAs (Decidable (Bytes.minNumber ≤ n ∧ n ≤ Bytes.maxNumber))

theorem bound_eq_ok {ranges text : Bytes} {n : Int} :
    (bound ranges text).result = .ok n ↔
      text.trim ≠ [] ∧ text.trim.integer? = some n ∧ IsBound n := by
  unfold bound IsBound
  dsimp only
  constructor
  · intro h
    split at h
    · cases h
    next m hm =>
      split at h
      · cases h
      next hsome =>
        split at h
        · cases h
        next hsize =>
          obtain rfl := Except.ok.inj h
          rw [Bool.or_eq_true, decide_eq_true_eq, decide_eq_true_eq] at hsize
          exact ⟨by simpa using hsome, hm, by omega⟩
  · rintro ⟨hsome, hread, hlow, hhigh⟩
    have hsize : ¬ (n < Bytes.minNumber || Bytes.maxNumber < n) = true := by
      rw [Bool.or_eq_true, decide_eq_true_eq, decide_eq_true_eq]
      omega
    rw [hread]
    dsimp only
    rw [if_neg (by simpa using hsome), if_neg hsize]
    rfl

theorem Writes.bound {n : Nat} {text : Bytes} (h : Writes n text) (ranges : Bytes) :
    (bound ranges text).result = .ok (n : Int) := by
  obtain ⟨zeros, htrim⟩ := h.trim_eq
  have hvalue : text.trim.integer? = some (n : Int) := by
    rw [htrim]
    exact Bytes.integer?_of_natural? (Bytes.natural?_zeros zeros n)
  have hsome : text.trim ≠ [] := by simpa using h.trim_isEmpty
  have hbound : IsBound n := by
    have hleast : Bytes.minNumber = -2147483648 := rfl
    exact ⟨by omega, h.inRange.2⟩
  exact bound_eq_ok.2 ⟨hsome, hvalue, hbound⟩

/-- What stands on one side of a dash: the number of a place, or nothing for a place `absent`. -/
inductive Side (absent : Int) : Int → Bytes → Prop
  | number {n : Nat} {text : Bytes} (number : Writes n text) : Side absent (n - 1) text
  | blank {text : Bytes} (blank : Blank text) : Side absent absent text

section Side

variable {absent place : Int} {text : Bytes}

theorem Side.dash_notMem (h : Side absent place text) : 45 ∉ text := by
  cases h with
  | number number => exact number.dash_notMem
  | blank blank => exact fun hmem => absurd (blank _ hmem) (by decide)

theorem Side.result_bind {α : Type} (h : Side absent place text) (ranges : Bytes)
    (f : Int → Outcome α) :
    (if text.trim.isEmpty then pure absent >>= f
      else (· - 1) <$> bound ranges text.trim >>= f).result = (f place).result := by
  cases h with
  | number number =>
    rw [if_neg (by simp [number.trim_isEmpty])]
    exact Outcome.result_bind_ok f (Outcome.result_map_ok (· - 1) (number.trim.bound ranges))
  | blank blank =>
    rw [Bytes.trim_eq_nil_iff.2 blank]
    rfl

end Side

theorem ends_dash {first last total : Int} {before after : Bytes} (low : Side 0 first before)
    (high : Side (total - 1) last after) (ranges : Bytes) :
    (ends ranges total (before ++ 45 :: after).trim).result =
      .ok (min first last, max first last) := by
  have htrim : (before ++ 45 :: after).trim =
      before.dropWhile Bytes.isBlank ++ 45 :: after.rdropWhile Bytes.isBlank :=
    Bytes.trim_around rfl before after
  have hfront : 45 ∉ before.dropWhile Bytes.isBlank := fun hmem =>
    low.dash_notMem ((List.dropWhile_suffix _).subset hmem)
  rw [htrim, ends, Bytes.cutFirst?_append hfront]
  simp only [Bytes.trim_dropWhile, Bytes.trim_rdropWhile]
  exact (low.result_bind ranges _).trans (high.result_bind ranges _)

theorem Spells.ends {f : Form} {text : Bytes} (h : Spells f text) (ranges : Bytes) (total : Int) :
    (ends ranges total text.trim).result = .ok (f.span total) := by
  cases h with
  | @one n text number =>
    have hnone : Bytes.cutFirst? 45 text.trim = none :=
      Bytes.cutFirst?_eq_none number.trim.dash_notMem
    rw [Range.ends, hnone]
    exact Outcome.result_map_ok (fun n => (n - 1, n - 1)) (number.trim.bound ranges)
  | between low high => exact ends_dash (.number low) (.number high) ranges
  | onward low high => exact ends_dash (.number low) (.blank high) ranges
  | upTo low high => exact ends_dash (.blank low) (.number high) ranges
  | all low high => exact ends_dash (.blank low) (.blank high) ranges

/-- A part takes what it asks for, and the last section if it starts behind it. -/
theorem Spells.mem_places {f : Form} {text : Bytes} (h : Spells f text) {total i : Nat} :
    i ∈ places total (f.span total) ↔ i < total ∧ f.takes total i = true := by
  rw [Range.mem_places]
  cases h with
  | upTo low high =>
    have hrange := high.inRange
    simp [Form.span, Form.takes, Form.asksFor, Form.startsBehind]
    omega
  | _ =>
    simp [Form.span, Form.takes, Form.asksFor, Form.startsBehind]
    omega

theorem parts_eq (ranges : Bytes) :
    parts ranges =
      ((List.splitOn 44 ranges).filter fun piece => !piece.all Bytes.isBlank).map Bytes.trim := by
  have hblank (piece : Bytes) : (!piece.trim.isEmpty) = !piece.all Bytes.isBlank := by
    rw [Bool.eq_iff_iff]
    simp [Bytes.trim_eq_nil_iff]
  rw [parts, List.filter_map, Bytes.splitOn_eq]
  simp only [Function.comp_def, hblank]

variable {forms : List Form} {ranges : Bytes}

theorem Specifies.spans (h : Specifies forms ranges) (total : Int) :
    (Outcome.sequence ((parts ranges).map (ends ranges total))).result =
      .ok (forms.map (Form.span total)) := by
  rw [parts_eq, List.map_map]
  apply Outcome.result_sequence_forall₂
  rw [List.forall₂_map_left_iff, List.forall₂_map_right_iff]
  exact h.flip.imp fun _ _ hspells => hspells.ends ranges total

theorem mem_spans {pieces : List Bytes} (h : List.Forall₂ Spells forms pieces) {total i : Nat} :
    i ∈ ((forms.map (Form.span total)).map (places total)).flatten ↔
      i < total ∧ ∃ f ∈ forms, f.takes total i = true := by
  induction h with
  | nil => simp
  | cons hspells _ ih =>
    rw [List.map_cons, List.map_cons, List.flatten_cons, List.mem_append, hspells.mem_places, ih,
      List.exists_mem_cons_iff, and_or_left]

theorem mem_asked {total i : Nat} :
    i ∈ asked total forms ↔ i < total ∧ ∃ f ∈ forms, f.asksFor (i + 1) = true := by
  rw [asked, List.mem_filter, List.mem_range, List.any_eq_true]

theorem mem_taken {total i : Nat} :
    i ∈ taken total forms ↔ i < total ∧ ∃ f ∈ forms, f.takes total i = true := by
  rw [taken, List.mem_filter, List.mem_range, List.any_eq_true]

theorem asked_ascends (total : Nat) (forms : List Form) : (asked total forms).Pairwise (· < ·) :=
  List.pairwise_lt_range.filter _

theorem taken_ascends (total : Nat) (forms : List Form) : (taken total forms).Pairwise (· < ·) :=
  List.pairwise_lt_range.filter _

theorem Specifies.select (h : Specifies forms ranges) (total : Nat) :
    (select ranges total).result = .ok (taken total forms) := by
  unfold Range.select
  rw [Outcome.result_bind_ok _ (h.spans total),
    listed_eq (taken_ascends total forms) fun _ => (mem_spans h).trans mem_taken.symm]
  rfl

theorem Form.takes_iff {f : Form} {total i : Nat} :
    f.takes total i = true ↔
      f.asksFor (i + 1) = true ∨ f.startsBehind total = true ∧ i + 1 = total := by
  simp [Form.takes]

/-- What is taken beyond what is asked for is the last section. -/
theorem taken_eq_asked_iff {total : Nat} :
    taken total forms = asked total forms ↔
      ((∃ f ∈ forms, f.startsBehind total = true) → total = 0 ∨
        ∃ f ∈ forms, f.asksFor total = true) := by
  constructor
  · rintro heq ⟨f, hf, hbehind⟩
    by_cases hnone : total = 0
    · exact .inl hnone
    · have hlast : total - 1 + 1 = total := by omega
      have htaken : total - 1 ∈ taken total forms :=
        mem_taken.2 ⟨by omega, f, hf, Form.takes_iff.2 (.inr ⟨hbehind, hlast⟩)⟩
      rw [heq, mem_asked, hlast] at htaken
      exact .inr htaken.2
  · intro hlast
    apply (taken_ascends total forms).eq_of_mem_iff (asked_ascends total forms)
    intro i
    rw [mem_taken, mem_asked]
    apply and_congr_right
    intro hi
    constructor
    · rintro ⟨f, hf, htakes⟩
      rcases Form.takes_iff.1 htakes with hasks | ⟨hbehind, rfl⟩
      · exact ⟨f, hf, hasks⟩
      · exact (hlast ⟨f, hf, hbehind⟩).resolve_left (by omega)
    · rintro ⟨f, hf, hasks⟩
      exact ⟨f, hf, Form.takes_iff.2 (.inl hasks)⟩

/-- A specification selects what some part of it asks for, in order and each place once, and
besides the last section if some part starts behind it. So what is selected is what is asked for
just when there is no such part, there is no section, or the last one is asked for anyway. -/
theorem select_takes (h : Specifies forms ranges) (total : Nat) :
    (select ranges total).result = .ok (taken total forms) ∧
    ((select ranges total).result = .ok (asked total forms) ↔
      ((∃ f ∈ forms, f.startsBehind total = true) → total = 0 ∨
        ∃ f ∈ forms, f.asksFor total = true)) := by
  have hselect := h.select total
  refine ⟨hselect, ?_⟩
  rw [hselect, ← taken_eq_asked_iff, Except.ok.injEq]

def pastEnd : Bytes := utf8 "8-, ,03 - 2"

theorem pastEnd_specifies : Specifies [.onward 8, .between 3 2] pastEnd := by
  have height : Writes 8 (utf8 "8") := ⟨by decide, 0, Bytes.padded_self _⟩
  have hthree : Writes 3 (utf8 "03 ") :=
    ⟨by decide, 1, [], utf8 " ", by simp, List.all_eq_true.1 rfl, rfl⟩
  have htwo : Writes 2 (utf8 " 2") :=
    ⟨by decide, 0, utf8 " ", [], List.all_eq_true.1 rfl, by simp, rfl⟩
  have hnone : Blank [] := by simp [Blank]
  exact .cons (.onward height hnone) (.cons (.between hthree htwo) .nil)

theorem pastEnd_select_takes :
    Specifies [.onward 8, .between 3 2] pastEnd ∧
    (select pastEnd 5).result = .ok [1, 2, 4] ∧
    (select pastEnd 5).result ≠ .ok (asked 5 [.onward 8, .between 3 2]) := by
  obtain ⟨htakes, hasked⟩ := select_takes pastEnd_specifies 5
  refine ⟨pastEnd_specifies, htakes, fun heq => absurd (hasked.1 heq) ?_⟩
  decide

/-- A range that starts behind the last section still selects it. -/
theorem fiveOnward_selects_last :
    Specifies [.onward 5] (utf8 "5-") ∧ asked 3 [.onward 5] = [] ∧
    (select (utf8 "5-") 3).result = .ok [2] ∧
    (select (utf8 "5-") 3).result ≠ .ok (asked 3 [.onward 5]) := by
  have hfive : Writes 5 (utf8 "5") := ⟨by decide, 0, Bytes.padded_self _⟩
  have hspecifies : Specifies [.onward 5] (utf8 "5-") :=
    .cons (.onward hfive (by simp [Blank])) .nil
  have hselect : (select (utf8 "5-") 3).result = .ok [2] := hspecifies.select 3
  refine ⟨hspecifies, rfl, hselect, ?_⟩
  rw [hselect]
  exact nofun

end Folio.Range
