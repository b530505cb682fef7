import Mathlib.Algebra.GroupWithZero.Nat
import Folio.Text

/-!
# Words of joined texts

Joining texts by a space neither makes nor loses a word, so the words of a list of
nodes are those of its nodes taken together.
-/

set_option autoImplicit false

namespace Folio

theorem wordsFrom_space (inside : Bool) (s t : Bytes) :
    wordsFrom inside (s ++ 32 :: t) = wordsFrom inside s + wordsFrom false t := by
  induction s generalizing inside with
  | nil =>
    have hspace : Bytes.isSpace 32 = true := by decide
    simp [wordsFrom, hspace]
  | cons b s ih => by_cases hb : Bytes.isSpace b = true <;> simp [wordsFrom, hb, ih, Nat.add_assoc]

@[simp] theorem countWords_nil : countWords [] = 0 := rfl

theorem countWords_join (texts : List Bytes) :
    countWords (Bytes.join [32] texts) = (texts.map countWords).sum := by
  induction texts with
  | nil => rfl
  | cons s texts ih =>
    cases texts with
    | nil => simp [Bytes.join, List.intercalate]
    | cons t texts =>
      have hjoin : Bytes.join [32] (s :: t :: texts) = s ++ 32 :: Bytes.join [32] (t :: texts) := by
        simp [Bytes.join, List.intercalate]
      rw [hjoin, countWords, wordsFrom_space, List.map_cons, List.sum_cons, ← ih]
      rfl

theorem countWords_joinPieces (pieces : List Bytes) :
    countWords (joinPieces [32] pieces) = (pieces.map countWords).sum := by
  rw [joinPieces, countWords_join]
  induction pieces with
  | nil => rfl
  | cons s pieces ih =>
    cases s with
    | nil => simpa using ih
    | cons b s => simpa using ih

theorem textWords_eq (ns : List Node) :
    textWords ns = (ns.map fun n => countWords n.text).sum := by
  rw [textWords, extractTexts, countWords_joinPieces, List.map_map]
  rfl

@[simp] theorem textWords_append (ns ms : List Node) :
    textWords (ns ++ ms) = textWords ns + textWords ms := by
  simp [textWords_eq]

theorem textWords_flatten (nss : List (List Node)) :
    textWords nss.flatten = (nss.map textWords).sum := by
  induction nss with
  | nil => rfl
  | cons ns nss ih => simp [ih]

theorem countWords_extractSlots (slots : List Slot) :
    countWords (extractSlots [32] slots) = countSlotWords slots := by
  have hslot : (countWords ∘ fun slot : Slot => slot.elim [] (Node.extractText [32])) =
      fun slot => slot.elim 0 fun n => countWords n.text := by
    funext slot
    cases slot <;> rfl
  rw [extractSlots, countWords_joinPieces, List.map_map, hslot]
  rfl

theorem countSlotWords_append (xs ys : List Slot) :
    countSlotWords (xs ++ ys) = countSlotWords xs + countSlotWords ys := by
  have hsum (slots : List Slot) : countSlotWords slots =
      (slots.map fun slot => slot.elim 0 fun n => countWords n.text).sum := rfl
  rw [hsum, hsum, hsum, List.map_append, List.sum_append]

/-- Counting the words of slots one by one, empty slots among them, comes to counting the words of
their text, so the words of one list behind another add up; and the text of a document is that of
its children, whatever the joiner. -/
theorem extractSlots_counts :
    (∀ slots, countSlotWords slots = countWords (extractSlots [32] slots)) ∧
    (∀ xs ys, countWords (extractSlots [32] (xs ++ ys)) =
      countWords (extractSlots [32] xs) + countWords (extractSlots [32] ys)) ∧
    ∀ (d : Document) (joiner : Bytes),
      d.toNode.extractText joiner = extractSlots joiner (d.children.map some) := by
  refine ⟨fun slots => (countWords_extractSlots slots).symm, fun xs ys => ?_, fun d joiner => ?_⟩
  · rw [countWords_extractSlots, countWords_extractSlots, countWords_extractSlots,
      countSlotWords_append]
  · rw [extractText_toNode, extractSlots_some]

end Folio
