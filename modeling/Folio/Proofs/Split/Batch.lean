import Mathlib.Data.List.Chain
import Folio.Proofs.Text.Words
import Folio.Split.Strategy

/-!
# Batches of passages

Filling passages up merges runs of them. A run is named here by the batch of passages
that it merges: a batch of several stays within the target, and a batch ends only where
the next passage would have taken it past the target.
-/

set_option autoImplicit false

namespace Folio.Passage

def merge (batch : List Passage) : Passage :=
  ⟨(batch.head?.map title).getD none, (batch.map nodes).flatten⟩

def batchWords (batch : List Passage) : Nat := (batch.map words).sum

/-- The batches that are filled, when `batch` is the one that is open. -/
def batches (target : Nat) (batch : List Passage) : List Passage → List (List Passage)
  | [] => [batch]
  | p :: ps =>
    if target < batchWords batch + p.words then batch :: batches target [p] ps
    else batches target (batch ++ [p]) ps

theorem merge_singleton (p : Passage) : merge [p] = p := by
  simp [merge]

theorem merge_append {batch : List Passage} (h : batch ≠ []) (p : Passage) :
    (merge batch).append p = merge (batch ++ [p]) := by
  cases batch with
  | nil => exact absurd rfl h
  | cons q batch => simp [append, merge]

theorem merge_words (batch : List Passage) : (merge batch).words = batchWords batch := by
  have hwords : (batch.map nodes).map textWords = batch.map words := by
    rw [List.map_map]
    rfl
  show textWords (batch.map nodes).flatten = _
  rw [textWords_flatten, hwords, batchWords]

theorem batchWords_append (batch : List Passage) (p : Passage) :
    batchWords (batch ++ [p]) = batchWords batch + p.words := by
  simp [batchWords]

theorem fill_eq (target : Nat) (batch ps : List Passage) (h : batch ≠ []) :
    fill target (merge batch) (batchWords batch) ps = (batches target batch ps).map merge := by
  induction ps generalizing batch with
  | nil => rfl
  | cons p ps ih =>
    unfold fill batches
    by_cases hfull : target < batchWords batch + p.words
    · have hnext := ih [p] (by simp)
      rw [merge_singleton, show batchWords [p] = p.words by simp [batchWords]] at hnext
      rw [if_pos hfull, if_pos hfull, List.map_cons, hnext]
    · rw [if_neg hfull, if_neg hfull, merge_append h, ← batchWords_append]
      exact ih (batch ++ [p]) (by simp)

theorem fillAll_eq (target : Nat) (p : Passage) (ps : List Passage) :
    fillAll target (p :: ps) = (batches target [p] ps).map merge := by
  have hfill := fill_eq target [p] ps (by simp)
  rw [merge_singleton] at hfill
  rw [← hfill]
  simp [fillAll, batchWords]

theorem batches_flatten (target : Nat) (batch ps : List Passage) :
    (batches target batch ps).flatten = batch ++ ps := by
  induction ps generalizing batch with
  | nil => simp [batches]
  | cons p ps ih =>
    unfold batches
    split
    · simp [ih]
    · simp [ih]

theorem batches_eq_cons (target : Nat) (batch ps : List Passage) :
    ∃ more rest, batches target batch ps = (batch ++ more) :: rest := by
  induction ps generalizing batch with
  | nil => exact ⟨[], [], by simp [batches]⟩
  | cons p ps ih =>
    unfold batches
    split
    · exact ⟨[], batches target [p] ps, by simp⟩
    · obtain ⟨more, rest, h⟩ := ih (batch ++ [p])
      exact ⟨p :: more, rest, by simp [h]⟩

theorem batches_ne_nil {target : Nat} {batch ps : List Passage} (h : batch ≠ []) :
    ∀ b ∈ batches target batch ps, b ≠ [] := by
  induction ps generalizing batch with
  | nil => simpa [batches] using h
  | cons p ps ih =>
    unfold batches
    split
    · intro b hb
      rcases List.mem_cons.1 hb with rfl | hb
      · exact h
      · exact ih (by simp) b hb
    · exact ih (by simp)

/-- A batch of several passages has at most as many words as the target. -/
def Within (target : Nat) (batch : List Passage) : Prop :=
  1 < batch.length → batchWords batch ≤ target

theorem batches_within {target : Nat} {batch ps : List Passage} (h : Within target batch) :
    ∀ b ∈ batches target batch ps, Within target b := by
  induction ps generalizing batch with
  | nil => simpa [batches] using h
  | cons p ps ih =>
    unfold batches
    split
    · intro b hb
      rcases List.mem_cons.1 hb with rfl | hb
      · exact h
      · exact ih (fun hlen => by simp at hlen) b hb
    next hroom =>
      have hgrown : Within target (batch ++ [p]) := by
        intro _
        rw [batchWords_append]
        omega
      exact ih hgrown

/-- The first passage of the second batch does not fit into the first batch. -/
def Forced (target : Nat) (b c : List Passage) : Prop :=
  ∀ p ∈ c.head?, target < batchWords b + p.words

theorem batches_forced (target : Nat) (batch ps : List Passage) :
    (batches target batch ps).IsChain (Forced target) := by
  induction ps generalizing batch with
  | nil => simp [batches]
  | cons p ps ih =>
    unfold batches
    split
    next hfull =>
      obtain ⟨more, rest, hnext⟩ := batches_eq_cons target [p] ps
      have hchain := ih [p]
      rw [hnext] at hchain ⊢
      -- The next batch still starts with the passage that did not fit.
      have hforced : Forced target batch ([p] ++ more) := by
        intro q hq
        obtain rfl : p = q := by simpa using hq
        exact hfull
      exact List.isChain_cons_cons.2 ⟨hforced, hchain⟩
    · exact ih (batch ++ [p])

theorem batches_eq_singleton {target : Nat} {batch ps : List Passage}
    (h : batchWords (batch ++ ps) ≤ target) : batches target batch ps = [batch ++ ps] := by
  induction ps generalizing batch with
  | nil => simp [batches]
  | cons p ps ih =>
    have hsum : batchWords (batch ++ p :: ps) = batchWords batch + p.words + batchWords ps := by
      simp [batchWords, Nat.add_assoc]
    have hroom : ¬ target < batchWords batch + p.words := by omega
    unfold batches
    rw [if_neg hroom, ih (by simpa using h)]
    simp

end Folio.Passage
