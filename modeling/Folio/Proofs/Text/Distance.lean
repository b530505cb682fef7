import Mathlib.Order.Bounds.Defs
import Folio.Text

/-!
# What the edit distance measures

The rows of distances are those of the full matrix, whose entries are told by its recursion from
the last bytes of two prefixes. An entry is the least number of edits that turn the one prefix
into the other: so many edits do it, and an edit changes an entry by no more than one.
-/

set_option autoImplicit false

namespace Folio

inductive Edit : Bytes → Bytes → Prop
  | insert (before : Bytes) (b : UInt8) (after : Bytes) :
      Edit (before ++ after) (before ++ b :: after)
  | delete (before : Bytes) (b : UInt8) (after : Bytes) :
      Edit (before ++ b :: after) (before ++ after)
  | change (before : Bytes) (b c : UInt8) (after : Bytes) :
      Edit (before ++ b :: after) (before ++ c :: after)

inductive Edits : Nat → Bytes → Bytes → Prop
  | refl (s : Bytes) : Edits 0 s s
  | step {n : Nat} {s t u : Bytes} (first : Edit s t) (rest : Edits n t u) : Edits (n + 1) s u

/-- The entry of the full matrix in the corner that two prefixes make up, by its recursion. Each
prefix is given with its last byte first. -/
def corner : Bytes → Bytes → Nat
  | [], t => t.length
  | a :: s, [] => (a :: s).length
  | a :: s, b :: t =>
    min (min (corner s (b :: t) + 1) (corner (a :: s) t + 1)) (corner s t + if a = b then 0 else 1)

@[simp] theorem corner_nil_left (t : Bytes) : corner [] t = t.length := by
  rw [corner]

@[simp] theorem corner_nil_right (s : Bytes) : corner s [] = s.length := by
  cases s <;> rw [corner]

theorem corner_cons_cons (a b : UInt8) (s t : Bytes) :
    corner (a :: s) (b :: t) =
      min (min (corner s (b :: t) + 1) (corner (a :: s) t + 1))
        (corner s t + if a = b then 0 else 1) := by
  rw [corner]

/-- The entries of a row for the prefix `u` with more and more of the bytes that follow it. -/
def entriesFrom (s u : Bytes) : Bytes → List Nat
  | [] => []
  | b :: bs => corner s (b :: u) :: entriesFrom s (b :: u) bs

def matrixRow (bs s : Bytes) : List Nat := corner s [] :: entriesFrom s [] bs

theorem nextEntries_entriesFrom (a : UInt8) (s u bs : Bytes) :
    nextEntries a (corner (a :: s) u) (corner s u) (entriesFrom s u bs) bs =
      entriesFrom (a :: s) u bs := by
  induction bs generalizing u with
  | nil => rfl
  | cons b bs ih =>
    have hcorner : min (min (corner s (b :: u) + 1) (corner (a :: s) u + 1))
        (corner s u + if a = b then 0 else 1) = corner (a :: s) (b :: u) := by
      rw [corner_cons_cons]
    simp only [entriesFrom, nextEntries, hcorner, ih]

theorem nextRow_matrixRow (bs s : Bytes) (a : UInt8) :
    nextRow bs (matrixRow bs s) a = matrixRow bs (a :: s) := by
  have hfirst : corner s [] + 1 = corner (a :: s) [] := by simp
  rw [matrixRow, nextRow, hfirst, nextEntries_entriesFrom]
  rfl

theorem foldl_nextRow (bs as s : Bytes) :
    as.foldl (nextRow bs) (matrixRow bs s) = matrixRow bs (as.reverse ++ s) := by
  induction as generalizing s with
  | nil => rfl
  | cons a as ih =>
    rw [List.foldl_cons, nextRow_matrixRow, ih]
    simp

theorem entriesFrom_nil (u bs : Bytes) :
    entriesFrom [] u bs = List.range' (u.length + 1) bs.length := by
  induction bs generalizing u with
  | nil => rfl
  | cons b bs ih => simp [entriesFrom, ih, List.range'_succ]

theorem matrixRow_nil (bs : Bytes) : matrixRow bs [] = List.range (bs.length + 1) := by
  rw [matrixRow, entriesFrom_nil, List.range_eq_range', List.range'_succ]
  simp

theorem getLastD_entriesFrom (s u bs : Bytes) :
    (corner s u :: entriesFrom s u bs).getLastD 0 = corner s (bs.reverse ++ u) := by
  induction bs generalizing u with
  | nil => rfl
  | cons b bs ih =>
    have hlast := ih (b :: u)
    simpa [entriesFrom] using hlast

theorem editDistance_eq_corner (as bs : Bytes) :
    editDistance as bs = corner as.reverse bs.reverse := by
  have hcorner := getLastD_entriesFrom as.reverse [] bs
  rw [editDistance, ← matrixRow_nil, foldl_nextRow, matrixRow, List.append_nil, hcorner,
    List.append_nil]

theorem Edit.symm {s t : Bytes} (h : Edit s t) : Edit t s := by
  cases h with
  | insert before b after => exact .delete before b after
  | delete before b after => exact .insert before b after
  | change before b c after => exact .change before c b after

theorem Edit.cons {s t : Bytes} (h : Edit s t) (c : UInt8) : Edit (c :: s) (c :: t) := by
  cases h with
  | insert before b after => exact .insert (c :: before) b after
  | delete before b after => exact .delete (c :: before) b after
  | change before b b' after => exact .change (c :: before) b b' after

theorem Edit.reverse {s t : Bytes} (h : Edit s t) : Edit s.reverse t.reverse := by
  cases h with
  | insert before b after => simpa using Edit.insert after.reverse b before.reverse
  | delete before b after => simpa using Edit.delete after.reverse b before.reverse
  | change before b c after => simpa using Edit.change after.reverse b c before.reverse

theorem Edits.trans {m n : Nat} {s t u : Bytes} (h : Edits m s t) (h' : Edits n t u) :
    Edits (m + n) s u := by
  induction h with
  | refl s => rwa [Nat.zero_add]
  | step first rest ih =>
    rw [Nat.add_right_comm]
    exact .step first (ih h')

theorem Edits.map {n : Nat} {s t : Bytes} {f : Bytes → Bytes}
    (hf : ∀ s t, Edit s t → Edit (f s) (f t)) (h : Edits n s t) : Edits n (f s) (f t) := by
  induction h with
  | refl s => exact .refl (f s)
  | step first rest ih => exact .step (hf _ _ first) ih

theorem Edits.cons {n : Nat} {s t : Bytes} (h : Edits n s t) (c : UInt8) :
    Edits n (c :: s) (c :: t) :=
  h.map fun _ _ hedit => hedit.cons c

theorem Edits.reverse {n : Nat} {s t : Bytes} (h : Edits n s t) : Edits n s.reverse t.reverse :=
  h.map fun _ _ hedit => hedit.reverse

theorem Edits.symm {n : Nat} {s t : Bytes} (h : Edits n s t) : Edits n t s := by
  induction h with
  | refl s => exact .refl s
  | step first rest ih => exact ih.trans (.step first.symm (.refl _))

theorem edits_zero_iff {s t : Bytes} : Edits 0 s t ↔ s = t := by
  constructor
  · rintro ⟨⟩
    rfl
  · rintro rfl
    exact .refl s

theorem Edit.length_le {s t : Bytes} (h : Edit s t) : s.length ≤ t.length + 1 := by
  cases h <;> simp <;> omega

theorem Edits.length_le {n : Nat} {s t : Bytes} (h : Edits n s t) : s.length ≤ t.length + n := by
  induction h with
  | refl s => exact Nat.le_refl _
  | step first rest ih =>
    have hfirst := first.length_le
    omega

/-- So many edits as the entry says are enough. -/
theorem edits_corner (s t : Bytes) : Edits (corner s t) s t := by
  induction s, t using corner.induct with
  | case1 t =>
    rw [corner_nil_left]
    induction t with
    | nil => exact .refl []
    | cons b t ih => exact .step (.insert [] b []) (ih.cons b)
  | case2 a s =>
    rw [corner_nil_right]
    induction a :: s with
    | nil => exact .refl []
    | cons a s ih => exact .step (.delete [] a s) ih
  | case3 a s b t hdelete hinsert hboth =>
    have hleast : corner (a :: s) (b :: t) = corner s (b :: t) + 1 ∨
        corner (a :: s) (b :: t) = corner (a :: s) t + 1 ∨
        corner (a :: s) (b :: t) = corner s t + if a = b then 0 else 1 := by
      rw [corner_cons_cons]
      omega
    rcases hleast with h | h | h
    · rw [h]
      exact .step (.delete [] a s) hdelete
    · rw [h]
      exact .step (.insert [] b (a :: s)) (hinsert.cons b)
    · rw [h]
      by_cases hab : a = b
      · rw [if_pos hab, hab]
        exact hboth.cons b
      · rw [if_neg hab]
        exact .step (.change [] a b s) (hboth.cons b)

theorem corner_cons_right_le (s : Bytes) (b : UInt8) (t : Bytes) :
    corner s (b :: t) ≤ corner s t + 1 := by
  cases s with
  | nil => simp
  | cons a s =>
    rw [corner_cons_cons]
    omega

theorem corner_cons_left_le (a : UInt8) (s t : Bytes) : corner (a :: s) t ≤ corner s t + 1 := by
  cases t with
  | nil => simp
  | cons b t =>
    rw [corner_cons_cons]
    omega

theorem corner_le_cons_right (s : Bytes) (b : UInt8) (t : Bytes) :
    corner s t ≤ corner s (b :: t) + 1 := by
  induction s with
  | nil =>
    simp
    omega
  | cons a s ih =>
    have hleft := corner_cons_left_le a s t
    rw [corner_cons_cons]
    omega

theorem corner_change_le (s : Bytes) (b c : UInt8) (t : Bytes) :
    corner s (c :: t) ≤ corner s (b :: t) + 1 := by
  induction s with
  | nil => simp
  | cons a s ih =>
    rw [corner_cons_cons, corner_cons_cons]
    split <;> split <;> omega

/-- What is put before two texts does not bring their entries further apart. -/
theorem corner_append_le {t t' : Bytes} (h : ∀ s, corner s t' ≤ corner s t + 1) (u s : Bytes) :
    corner s (u ++ t') ≤ corner s (u ++ t) + 1 := by
  induction u generalizing s with
  | nil => exact h s
  | cons c u ih =>
    rw [List.cons_append, List.cons_append]
    induction s with
    | nil =>
      have hlength := ih []
      simp at hlength ⊢
      omega
    | cons a s ihs =>
      have hdrop := ih (a :: s)
      have hboth := ih s
      rw [corner_cons_cons, corner_cons_cons]
      omega

theorem Edit.corner_le {t t' : Bytes} (h : Edit t t') (s : Bytes) :
    corner s t' ≤ corner s t + 1 := by
  cases h with
  | insert before b after => exact corner_append_le (corner_cons_right_le · b after) before s
  | delete before b after => exact corner_append_le (corner_le_cons_right · b after) before s
  | change before b c after => exact corner_append_le (corner_change_le · b c after) before s

theorem Edits.corner_le {n : Nat} {t u : Bytes} (h : Edits n t u) (s : Bytes) :
    corner s u ≤ corner s t + n := by
  induction h with
  | refl t => exact Nat.le_refl _
  | step first rest ih =>
    have hfirst := first.corner_le s
    omega

theorem corner_self (s : Bytes) : corner s s = 0 := by
  induction s with
  | nil => simp
  | cons a s ih =>
    rw [corner_cons_cons, ih, if_pos rfl]
    omega

theorem isLeast_editDistance (as bs : Bytes) :
    IsLeast {n | Edits n as bs} (editDistance as bs) := by
  rw [editDistance_eq_corner]
  constructor
  · have hedits := (edits_corner as.reverse bs.reverse).reverse
    rwa [List.reverse_reverse, List.reverse_reverse] at hedits
  · intro n hn
    have hcorner := hn.reverse.corner_le as.reverse
    rwa [corner_self, Nat.zero_add] at hcorner

theorem edits_editDistance (as bs : Bytes) : Edits (editDistance as bs) as bs :=
  (isLeast_editDistance as bs).1

theorem Edits.editDistance_le {n : Nat} {as bs : Bytes} (h : Edits n as bs) :
    editDistance as bs ≤ n :=
  (isLeast_editDistance as bs).2 h

theorem editDistance_comm (as bs : Bytes) : editDistance as bs = editDistance bs as := by
  apply Nat.le_antisymm
  · exact (edits_editDistance bs as).symm.editDistance_le
  · exact (edits_editDistance as bs).symm.editDistance_le

theorem editDistance_eq_zero {as bs : Bytes} : editDistance as bs = 0 ↔ as = bs := by
  constructor
  · intro hzero
    exact edits_zero_iff.1 (hzero ▸ edits_editDistance as bs)
  · intro heq
    exact Nat.le_zero.1 (edits_zero_iff.2 heq).editDistance_le

theorem editDistance_triangle (as bs cs : Bytes) :
    editDistance as cs ≤ editDistance as bs + editDistance bs cs :=
  ((edits_editDistance as bs).trans (edits_editDistance bs cs)).editDistance_le

/-- The distance of two texts is the least number of edits that turn the one into the other, and
the corner of their full matrix. It is the same both ways, it is zero only between equal texts,
and no way over a third text is shorter. -/
theorem editDistance_measures :
    (∀ as bs, IsLeast {n | Edits n as bs} (editDistance as bs)) ∧
    (∀ as bs, editDistance as bs = corner as.reverse bs.reverse) ∧
    (∀ as bs, editDistance as bs = editDistance bs as) ∧
    (∀ as bs, editDistance as bs = 0 ↔ as = bs) ∧
    ∀ as bs cs, editDistance as cs ≤ editDistance as bs + editDistance bs cs :=
  ⟨isLeast_editDistance, editDistance_eq_corner, editDistance_comm,
    fun _ _ => editDistance_eq_zero, editDistance_triangle⟩

example : editDistance (utf8 "kitten") (utf8 "sitting") = 3 := by decide

end Folio
