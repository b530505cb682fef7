import Folio.Proofs.Section.Outline
import Folio.Section.Contents

/-!
# How a nested table is built

Placing the lines of a table from the last to the first makes the same items as a descent
through the levels, which takes the deeper lines after a line as the items beneath it and
hoists deeper lines that follow no such line.
-/

set_option autoImplicit false

namespace Folio.Contents

def placed (ls : List Line) : List (Int × Node) := ls.foldr place []

theorem placed_cons (l : Line) (ls : List Line) :
    placed (l :: ls) =
      (l.level, item l.text ((deeper Prod.fst l.level (placed ls)).map Prod.snd)) ::
        onward Prod.fst l.level (placed ls) := rfl

theorem deeper_placed (a : Int) (ls : List Line) :
    deeper Prod.fst a (placed ls) = placed (deeper Line.level a ls) := by
  induction ls with
  | nil => rfl
  | cons l ls ih =>
    by_cases h : a < l.level
    · have hle : a ≤ l.level := by omega
      rw [deeper_cons_deep h, placed_cons, placed_cons, ← ih, deeper_deeper hle,
        onward_deeper hle]
      exact deeper_cons_deep (by exact h) _
    · rw [deeper_cons_shallow (x := l) (by omega), placed_cons]
      exact deeper_cons_shallow (by simp; omega) _

theorem onward_placed (a : Int) (ls : List Line) :
    onward Prod.fst a (placed ls) = placed (onward Line.level a ls) := by
  induction ls with
  | nil => rfl
  | cons l ls ih =>
    by_cases h : a < l.level
    · have hle : a ≤ l.level := by omega
      rw [onward_cons_deep h, ← ih, placed_cons, ← onward_onward hle (placed ls)]
      exact onward_cons_deep (by exact h) _
    · rw [onward_cons_shallow (x := l) (by omega), placed_cons]
      exact onward_cons_shallow (by simp; omega) _

theorem nested_cons (l : Line) (ls : List Line) :
    nested (l :: ls) =
      item l.text (nested (deeper Line.level l.level ls)) ::
        nested (onward Line.level l.level ls) := by
  show (placed (l :: ls)).map Prod.snd = _
  rw [placed_cons, deeper_placed, onward_placed]
  rfl

theorem nested_append_nested (a : Int) (ls : List Line) :
    nested (deeper Line.level a ls) ++ nested (onward Line.level a ls) = nested ls := by
  show (placed _).map Prod.snd ++ (placed _).map Prod.snd = (placed ls).map Prod.snd
  rw [← List.map_append, ← deeper_placed, ← onward_placed, deeper_append_onward]

/-- The descent at a level: from lines, the items that it makes and the lines that it leaves. -/
inductive Builds : Int → List Line → List Node → List Line → Prop
  | stop {level : Int} {ls : List Line} (h : ∀ l ∈ ls.head?, l.level < level) :
      Builds level ls [] ls
  | own {level : Int} {l : Line} {ls rest left : List Line} {beneath items : List Node}
      (h : l.level = level) (hbeneath : Builds (level + 1) ls beneath rest)
      (hitems : Builds level rest items left) :
      Builds level (l :: ls) (item l.text beneath :: items) left
  | hoist {level : Int} {l : Line} {ls rest left : List Line} {hoisted items : List Node}
      (h : level < l.level) (hhoisted : Builds (level + 1) (l :: ls) hoisted rest)
      (hitems : Builds level rest items left) :
      Builds level (l :: ls) (hoisted ++ items) left

/-- The descent takes in all lines from its level on, if it does so for fewer lines. The
induction is on the distance from the level to that of the first line, which says how often
the descent hoists. -/
theorem builds_cons (l : Line) {ls : List Line} (k : Nat) (level : Int)
    (hk : l.level = level + k)
    (ih : ∀ ms : List Line, ms.length ≤ ls.length → ∀ level,
      Builds level ms (nested (deeper Line.level (level - 1) ms))
        (onward Line.level (level - 1) ms)) :
    Builds level (l :: ls) (nested (deeper Line.level (level - 1) (l :: ls)))
      (onward Line.level (level - 1) (l :: ls)) := by
  have hle : level - 1 ≤ level := by omega
  have hin : level - 1 < l.level := by omega
  have hrest := ih (onward Line.level level ls) (length_onward_le _ _ _) level
  rw [onward_onward hle] at hrest
  rw [deeper_cons_deep hin, onward_cons_deep hin]
  cases k with
  | zero =>
    have hlevel : l.level = level := by omega
    have hbeneath := ih ls (Nat.le_refl _) (level + 1)
    rw [show level + 1 - 1 = level by omega] at hbeneath
    rw [nested_cons, hlevel, deeper_deeper hle, onward_deeper hle]
    exact .own hlevel hbeneath hrest
  | succ k =>
    have hdeep : level < l.level := by omega
    have hhoisted := builds_cons l k (level + 1) (by omega) ih
    rw [show level + 1 - 1 = level by omega, deeper_cons_deep hdeep,
      onward_cons_deep hdeep] at hhoisted
    rw [← nested_append_nested level, deeper_cons_deep hdeep, onward_cons_deep hdeep,
      deeper_deeper hle, onward_deeper hle]
    exact .hoist hdeep hhoisted hrest

theorem builds_nested (ls : List Line) (level : Int) :
    Builds level ls (nested (deeper Line.level (level - 1) ls))
      (onward Line.level (level - 1) ls) := by
  -- Both runs that a line leaves are shorter, but neither is the tail of the lines.
  induction hn : ls.length using Nat.strongRecOn generalizing ls level with
  | ind n ih =>
    cases ls with
    | nil => exact .stop (by simp)
    | cons l ls =>
      by_cases hlevel : level ≤ l.level
      · obtain ⟨k, hk⟩ := Int.le.dest hlevel
        apply builds_cons l k level hk.symm
        intro ms hms level
        exact ih ms.length (by simp at hn; omega) ms level rfl
      · rw [deeper_cons_shallow (x := l) (by omega), onward_cons_shallow (x := l) (by omega)]
        exact .stop (by simp; omega)

theorem Builds.unique {level : Int} {ls left left' : List Line} {items items' : List Node}
    (h : Builds level ls items left) (h' : Builds level ls items' left') :
    items = items' ∧ left = left' := by
  induction h generalizing items' left' with
  | stop hout =>
    cases h' with
    | stop _ => exact ⟨rfl, rfl⟩
    | own hl _ _ =>
      have hlow := hout _ rfl
      omega
    | hoist hl _ _ =>
      have hlow := hout _ rfl
      omega
  | own hl _ _ ihbeneath ihitems =>
    cases h' with
    | stop hout =>
      have hlow := hout _ rfl
      omega
    | own _ hbeneath hitems =>
      obtain ⟨rfl, rfl⟩ := ihbeneath hbeneath
      obtain ⟨rfl, rfl⟩ := ihitems hitems
      exact ⟨rfl, rfl⟩
    | hoist hdeep _ _ => omega
  | hoist hdeep _ _ ihhoisted ihitems =>
    cases h' with
    | stop hout =>
      have hlow := hout _ rfl
      omega
    | own hl _ _ => omega
    | hoist _ hhoisted hitems =>
      obtain ⟨rfl, rfl⟩ := ihhoisted hhoisted
      obtain ⟨rfl, rfl⟩ := ihitems hitems
      exact ⟨rfl, rfl⟩

end Folio.Contents
