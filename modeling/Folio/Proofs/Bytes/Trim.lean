import Mathlib.Data.List.DropRight
import Folio.Bytes

/-!
# Trimmed texts

Trimming takes the blanks off both ends of a text. So blanks that are put around a text make no
difference to what is trimmed, and the two sides of a byte that is no blank are trimmed apart.
-/

set_option autoImplicit false

namespace Folio.Bytes

def Padded (s text : Bytes) : Prop :=
  ∃ before after, (∀ b ∈ before, isBlank b = true) ∧ (∀ b ∈ after, isBlank b = true) ∧
    text = before ++ s ++ after

theorem padded_self (s : Bytes) : Padded s s := ⟨[], [], by simp⟩

theorem rdropWhile_append_blank {after : Bytes} (h : ∀ b ∈ after, isBlank b = true) (s : Bytes) :
    (s ++ after).rdropWhile isBlank = s.rdropWhile isBlank := by
  have hblank : ∀ b ∈ after.reverse, isBlank b = true := by simpa using h
  rw [List.rdropWhile, List.reverse_append, List.dropWhile_append_of_pos hblank]
  rfl

theorem Padded.trim {s text : Bytes} (h : Padded s text) : text.trim = s.trim := by
  obtain ⟨before, after, hbefore, hafter, rfl⟩ := h
  have hfront : (before ++ s ++ after).dropWhile isBlank = (s ++ after).dropWhile isBlank := by
    rw [List.append_assoc, List.dropWhile_append_of_pos hbefore]
  have hall : after.dropWhile isBlank = [] := List.dropWhile_eq_nil_iff.2 hafter
  show ((before ++ s ++ after).dropWhile isBlank).rdropWhile isBlank =
    (s.dropWhile isBlank).rdropWhile isBlank
  rw [hfront, List.dropWhile_append]
  split
  next hnone => rw [hall, List.isEmpty_iff.1 hnone]
  · exact rdropWhile_append_blank hafter _

theorem trim_dropWhile (s : Bytes) : trim (s.dropWhile isBlank) = s.trim := by
  refine (Padded.trim ⟨s.takeWhile isBlank, [], ?_, by simp, ?_⟩).symm
  · exact fun b hb => (List.mem_takeWhile_imp hb)
  · simp

theorem trim_rdropWhile (s : Bytes) : trim (s.rdropWhile isBlank) = s.trim := by
  refine (Padded.trim ⟨[], s.rtakeWhile isBlank, by simp, ?_, ?_⟩).symm
  · exact fun b hb => List.mem_rtakeWhile_imp hb
  · simp

theorem trim_trim (s : Bytes) : s.trim.trim = s.trim :=
  (trim_rdropWhile (s.dropWhile isBlank)).trans (trim_dropWhile s)

theorem dropWhile_of_trim {s : Bytes} (h : s.trim = s) : s.dropWhile isBlank = s := by
  apply (List.dropWhile_suffix isBlank).eq_of_length_le
  have hprefix : s.trim <+: s.dropWhile isBlank := List.rdropWhile_prefix isBlank _
  have hlength := hprefix.length_le
  rwa [h] at hlength

theorem dropWhile_around {b : UInt8} (h : isBlank b = false) (s t : Bytes) :
    (s ++ b :: t).dropWhile isBlank = s.dropWhile isBlank ++ b :: t := by
  have hstop : (b :: t).dropWhile isBlank = b :: t := List.dropWhile_cons_of_neg (by simp [h])
  rw [List.dropWhile_append, hstop]
  split
  next hnone => rw [List.isEmpty_iff.1 hnone, List.nil_append]
  · rfl

theorem rdropWhile_around {b : UInt8} (h : isBlank b = false) (s t : Bytes) :
    (s ++ b :: t).rdropWhile isBlank = s ++ b :: t.rdropWhile isBlank := by
  induction t using List.reverseRecOn with
  | nil => exact List.rdropWhile_concat_neg _ _ _ (by simp [h])
  | append_singleton t c ih =>
    have hcons : s ++ b :: (t ++ [c]) = s ++ b :: t ++ [c] := by simp
    rw [hcons, List.rdropWhile_concat, List.rdropWhile_concat]
    split
    · exact ih
    · exact hcons.symm

/-- A byte that is no blank stays, and what is before it is trimmed in front, what is after it
behind. -/
theorem trim_around {b : UInt8} (h : isBlank b = false) (s t : Bytes) :
    trim (s ++ b :: t) = s.dropWhile isBlank ++ b :: t.rdropWhile isBlank := by
  show ((s ++ b :: t).dropWhile isBlank).rdropWhile isBlank = _
  rw [dropWhile_around h, rdropWhile_around h]

theorem trim_eq_self {s : Bytes} (h : ∀ b ∈ s, isBlank b = false) : s.trim = s := by
  have hfront : s.dropWhile isBlank = s := by
    rw [List.dropWhile_eq_self_iff]
    intro hs
    simp [h _ (List.getElem_mem hs)]
  have hback : s.rdropWhile isBlank = s := by
    rw [List.rdropWhile_eq_self_iff]
    intro hs
    simp [h _ (List.getLast_mem hs)]
  show (s.dropWhile isBlank).rdropWhile isBlank = s
  rw [hfront, hback]

theorem trim_eq_nil_iff {s : Bytes} : s.trim = [] ↔ ∀ b ∈ s, isBlank b = true := by
  show (s.dropWhile isBlank).rdropWhile isBlank = [] ↔ _
  rw [List.rdropWhile_eq_nil_iff]
  constructor
  · intro h b hb
    rw [← List.takeWhile_append_dropWhile (p := isBlank) (l := s)] at hb
    exact (List.mem_append.1 hb).elim List.mem_takeWhile_imp (h b)
  · intro h b hb
    exact h b ((List.dropWhile_suffix isBlank).subset hb)

end Folio.Bytes
