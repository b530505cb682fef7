import Mathlib.Data.List.Induction
import Folio.Proofs.Bytes.Trim

/-!
# Texts of characters

A valid UTF-8 text spells characters, and no other text spells the same ones. A character of ASCII
is spelled by its own byte, any other one by bytes that are not of ASCII. So no blank is a part of a
longer character, and what is left of a valid text once it is trimmed is valid.
-/

set_option autoImplicit false

namespace Folio.Bytes

def spell (cs : List Char) : Bytes := cs.flatMap String.utf8EncodeChar

def IsUtf8 (s : Bytes) : Prop := ∃ cs, s = spell cs

@[simp] theorem spell_singleton (c : Char) : spell [c] = String.utf8EncodeChar c :=
  List.flatMap_singleton _ _

theorem spell_cons (c : Char) (cs : List Char) :
    spell (c :: cs) = String.utf8EncodeChar c ++ spell cs := List.flatMap_cons

theorem spell_append (cs ds : List Char) : spell (cs ++ ds) = spell cs ++ spell ds :=
  List.flatMap_append

theorem characters?_spell (cs : List Char) : (spell cs).characters? = some cs := by
  have hbytes : ByteArray.mk (spell cs).toArray = cs.utf8Encode :=
    ByteArray.ext (List.data_toByteArray).symm
  rw [characters?, hbytes, List.utf8Decode?_utf8Encode]
  rfl

theorem characters?_eq_some_iff {s : Bytes} {cs : List Char} :
    s.characters? = some cs ↔ s = spell cs := by
  constructor
  · intro h
    obtain ⟨chars, hchars, rfl⟩ := Option.map_eq_some_iff.1 h
    have hsome : (ByteArray.mk s.toArray).utf8Decode?.isSome = true := by rw [hchars]; rfl
    have hencode : chars.toList.utf8Encode = ByteArray.mk s.toArray := by
      rw [← ByteArray.utf8Encode_get_utf8Decode? (h := hsome)]
      simp only [hchars, Option.get_some]
    calc s = (ByteArray.mk s.toArray).data.toList := rfl
      _ = chars.toList.utf8Encode.data.toList := by rw [hencode]
      _ = spell chars.toList := List.toList_data_toByteArray
  · rintro rfl
    exact characters?_spell cs

theorem spell_injective : Function.Injective spell := fun cs ds h =>
  Option.some.inj ((characters?_spell cs).symm.trans (h ▸ characters?_spell ds))

theorem isUtf8_iff {s : Bytes} : IsUtf8 s ↔ s.characters?.isSome = true := by
  simp only [IsUtf8, Option.isSome_iff_exists, characters?_eq_some_iff]

instance : DecidablePred IsUtf8 := fun _ => decidable_of_iff _ isUtf8_iff.symm

theorem utf8EncodeChar_ascii {c : Char} (h : c.toNat ≤ 127) :
    String.utf8EncodeChar c = [UInt8.ofNat c.toNat] := if_pos h

theorem utf8EncodeChar_high {c : Char} (h : 127 < c.toNat) :
    ∀ b ∈ String.utf8EncodeChar c, 127 < b := by
  have hlong : ¬c.val.toNat ≤ 127 := Nat.not_le.2 h
  intro b hb
  rw [UInt8.lt_iff_toNat_lt]
  simp only [String.utf8EncodeChar, hlong, ↓reduceIte] at hb
  split at hb
  · simp only [List.mem_cons, List.not_mem_nil, or_false] at hb
    obtain rfl | rfl := hb <;> simp <;> omega
  split at hb
  · simp only [List.mem_cons, List.not_mem_nil, or_false] at hb
    obtain rfl | rfl | rfl := hb <;> simp <;> omega
  · simp only [List.mem_cons, List.not_mem_nil, or_false] at hb
    obtain rfl | rfl | rfl | rfl := hb <;> simp <;> omega

theorem high_ne {a b : UInt8} (hb : 127 < b) (ha : a ≤ 127) : b ≠ a := by
  rintro rfl
  exact absurd hb (UInt8.not_lt.2 ha)

theorem isBlank_high {b : UInt8} (h : 127 < b) : isBlank b = false := by
  have hne (a : UInt8) (ha : a ≤ 127) : (b == a) = false := beq_eq_false_iff_ne.2 (high_ne h ha)
  simp [isBlank, hne]

theorem utf8EncodeChar_blank (c : Char) :
    (∃ b, isBlank b = true ∧ String.utf8EncodeChar c = [b]) ∨
      ∀ b ∈ String.utf8EncodeChar c, isBlank b = false := by
  rcases Nat.lt_or_ge 127 c.toNat with hhigh | hascii
  · exact .inr fun b hb => isBlank_high (utf8EncodeChar_high hhigh b hb)
  rw [utf8EncodeChar_ascii hascii]
  cases hblank : isBlank (UInt8.ofNat c.toNat) with
  | true => exact .inl ⟨_, hblank, rfl⟩
  | false => exact .inr fun b hb => List.mem_singleton.1 hb ▸ hblank

theorem IsUtf8.dropWhile {s : Bytes} (h : IsUtf8 s) : IsUtf8 (s.dropWhile isBlank) := by
  obtain ⟨cs, rfl⟩ := h
  induction cs with
  | nil => exact ⟨[], rfl⟩
  | cons c cs ih =>
    rw [spell_cons]
    rcases utf8EncodeChar_blank c with ⟨b, hblank, hc⟩ | hkept
    · rwa [hc, List.singleton_append, List.dropWhile_cons_of_pos hblank]
    · refine ⟨c :: cs, ?_⟩
      obtain ⟨b, bs, hc⟩ := List.exists_cons_of_ne_nil (String.utf8EncodeChar_ne_nil (c := c))
      have hb : isBlank b = false := hkept b (hc ▸ List.mem_cons_self)
      rw [spell_cons, hc, List.cons_append, List.dropWhile_cons_of_neg (by simp [hb])]

theorem IsUtf8.rdropWhile {s : Bytes} (h : IsUtf8 s) : IsUtf8 (s.rdropWhile isBlank) := by
  obtain ⟨cs, rfl⟩ := h
  induction cs using List.reverseRecOn with
  | nil => exact ⟨[], rfl⟩
  | append_singleton cs c ih =>
    rw [spell_append, spell_singleton]
    rcases utf8EncodeChar_blank c with ⟨b, hblank, hc⟩ | hkept
    · rwa [hc, List.rdropWhile_concat_pos _ _ _ hblank]
    · refine ⟨cs ++ [c], ?_⟩
      rw [spell_append, spell_singleton, List.rdropWhile_eq_self_iff]
      intro hne
      rw [List.getLast_append_of_ne_nil _ String.utf8EncodeChar_ne_nil]
      simp [hkept _ (List.getLast_mem _)]

theorem IsUtf8.trim {s : Bytes} (h : IsUtf8 s) : IsUtf8 s.trim := h.dropWhile.rdropWhile

end Folio.Bytes
