import Mathlib.Data.List.Induction
import Folio.Proofs.Split.Cover

/-!
# How many parts there are

Filling parts up to a target makes every two neighbours exceed it together, so a document has
at most one pair of parts for each target that its words make up. A split into so many parts
takes an even share as its target, and comes out with less than twice as many.
-/

set_option autoImplicit false

namespace Folio

/-- Numbers of which every two neighbours exceed a target go in pairs into their sum. -/
theorem pairs_mul_le_sum {target : Nat} {ws : List Nat}
    (h : ws.IsChain fun v w => target < v + w) : ws.length / 2 * (target + 1) ≤ ws.sum := by
  induction ws using List.twoStepInduction with
  | nil => simp
  | singleton w => simp
  | cons_cons v w ws ih _ =>
    obtain ⟨hpair, hrest⟩ := List.isChain_cons_cons.1 h
    have hsum := ih hrest.tail
    have hpairs : (v :: w :: ws).length / 2 = ws.length / 2 + 1 := by
      rw [List.length_cons, List.length_cons]
      omega
    rw [hpairs, Nat.add_mul, List.sum_cons, List.sum_cons]
    omega

namespace Passage

theorem Forced.exceeds {target : Nat} {b c : List Passage} (h : Forced target b c) (hc : c ≠ []) :
    target < batchWords b + batchWords c := by
  cases c with
  | nil => exact absurd rfl hc
  | cons p c =>
    have hfirst := h p rfl
    simp only [batchWords, List.map_cons, List.sum_cons] at hfirst ⊢
    omega

theorem fillAll_exceeds (target : Nat) (ps : List Passage) :
    ((fillAll target ps).map words).IsChain fun v w => target < v + w := by
  cases ps with
  | nil => exact .nil
  | cons p ps =>
    rw [fillAll_eq, List.map_map, List.isChain_map]
    apply (batches_forced target [p] ps).imp_of_mem_imp
    intro b c _ hc hforced
    have hsome : c ≠ [] := batches_ne_nil (by simp) c hc
    rw [Function.comp_apply, Function.comp_apply, merge_words, merge_words]
    exact hforced.exceeds hsome

end Passage

namespace Document

theorem splitByWords_exceeds {d : Document} {target : Int} {parts : List Part} (h : 1 ≤ target)
    (hparts : (d.splitByWords target).result = .ok parts) :
    (parts.map Part.words).IsChain fun v w => target.toNat < v + w := by
  by_cases hsections : d.partition 6 = []
  · rw [splitByWords_whole h hsections, keptWhole_result] at hparts
    obtain rfl := Except.ok.inj hparts
    exact .singleton _
  · obtain ⟨_, hresult, hshown⟩ := splitByWords_result h hsections
    obtain rfl := Except.ok.inj (hresult.symm.trans hparts)
    rw [hshown.map_eq fun _ _ hshows => hshows.words]
    exact Passage.fillAll_exceeds _ _

/-- Splitting into so many parts makes at least one, and less than twice as many as asked for,
however large the sections are and whatever the even share is rounded to. -/
theorem splitByParts_length (d : Document) {count : Int} (h : 1 ≤ count) :
    ∃ parts, (d.splitByParts count).result = .ok parts ∧ 1 ≤ parts.length ∧
      (parts.length : Int) ≤ 2 * count - 1 := by
  obtain ⟨parts, hresult, hdivides⟩ := d.splitByParts_covers h
  have hsome : parts.length ≠ 0 := by simpa using hdivides.nonempty
  refine ⟨parts, hresult, by omega, ?_⟩
  obtain ⟨n, rfl⟩ := Int.eq_ofNat_of_zero_le (show 0 ≤ count by omega)
  by_cases hwords : textWords d.children = 0
  · rw [splitByParts_whole h hwords, whole_result] at hresult
    obtain rfl := Except.ok.inj hresult
    show (1 : Int) ≤ _
    omega
  · rw [splitByParts_share h hwords, Int.toNat_natCast] at hresult
    have hpairs := pairs_mul_le_sum (splitByWords_exceeds (by omega) hresult)
    rw [hdivides.words, List.length_map, Int.toNat_natCast] at hpairs
    -- Each pair of parts takes more than the even share, and there are `n` shares at most.
    have hless : parts.length / 2 < n := by
      apply Nat.lt_of_mul_lt_mul_right
      calc parts.length / 2 * (max 1 (textWords d.children / n) + 1)
          ≤ textWords d.children := hpairs
        _ < n * (textWords d.children / n + 1) := Nat.lt_mul_div_succ _ (by omega)
        _ ≤ n * (max 1 (textWords d.children / n) + 1) := Nat.mul_le_mul_left n (by omega)
    omega

def uneven : Document :=
  { children := [Node.plain (.heading 1) [Node.plainText (utf8 "one")],
      Node.plain (.heading 1) [Node.plainText (utf8 "two three")],
      Node.plain (.heading 1) [Node.plainText (utf8 "four")]] }

/-- Three parts are the most that a split into two can make. -/
theorem uneven_splitByParts_length :
    (1 : Int) ≤ 2 ∧
    ∃ parts, (uneven.splitByParts 2).result = .ok parts ∧ parts.map Part.words = [1, 2, 1] ∧
      1 ≤ parts.length ∧ (parts.length : Int) ≤ 2 * 2 - 1 := by
  have hcount : (1 : Int) ≤ 2 := by decide
  obtain ⟨parts, hresult, hbounds⟩ := splitByParts_length uneven hcount
  have hwords : (uneven.splitByParts 2).result.map (List.map Part.words) = .ok [1, 2, 1] := by rfl
  rw [hresult] at hwords
  exact ⟨hcount, parts, hresult, Except.ok.inj hwords, hbounds⟩

end Document
end Folio
