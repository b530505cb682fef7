import Mathlib.Data.List.Sort
import Folio.Proofs.Text.Distance

/-!
# Which close names are offered

A candidate is close to a name when few edits make the one of the other, letter case aside. Those
that are offered are the first close ones in one order: the nearer goes before the farther, and of
two that are equally near the one that the list of candidates has first. Nothing else comes into
it, so the order and the number of names tell what is offered.
-/

set_option autoImplicit false

namespace Folio

def nameDistance (name candidate : Bytes) : Nat :=
  editDistance (Bytes.lower name) (Bytes.lower candidate)

/-- At most three edits, or a third of a longer name, make the candidate of the name. -/
def CloseTo (name candidate : Bytes) : Prop :=
  ∃ n ≤ max 3 (name.length / 3), Edits n (Bytes.lower name) (Bytes.lower candidate)

/-- One candidate is nearer than the other, or as near and the earlier one. -/
def Ahead (name : Bytes) (candidates : List Bytes) (a b : Bytes) : Prop :=
  nameDistance name a < nameDistance name b ∨
    nameDistance name a = nameDistance name b ∧ candidates.idxOf a < candidates.idxOf b

/-- The names to offer: different close candidates in their order, and no candidate that goes
before one of them is left out, nor any as long as there is room. -/
structure Suggests (name : Bytes) (candidates : List Bytes) (maxCount : Nat)
    (found : List Bytes) : Prop where
  nodup : found.Nodup
  length_le : found.length ≤ maxCount
  close : ∀ c ∈ found, c ∈ candidates ∧ CloseTo name c
  ordered : found.Pairwise (Ahead name candidates)
  left_out : ∀ c ∈ candidates, CloseTo name c → c ∉ found →
    found.length = maxCount ∧ ∀ r ∈ found, Ahead name candidates r c

section

variable {name : Bytes} {candidates : List Bytes}

theorem closeTo_iff {candidate : Bytes} :
    CloseTo name candidate ↔ nameDistance name candidate ≤ editAllowance name := by
  constructor
  · rintro ⟨n, hn, hedits⟩
    exact hedits.editDistance_le.trans hn
  · intro h
    exact ⟨_, h, edits_editDistance _ _⟩

theorem CloseTo.length_le {candidate : Bytes} (h : CloseTo name candidate) :
    name.length ≤ candidate.length + max 3 (name.length / 3) := by
  obtain ⟨n, hn, hedits⟩ := h
  have hlength := hedits.length_le
  rw [Bytes.length_lower, Bytes.length_lower] at hlength
  omega

theorem Ahead.asymm {a b : Bytes} (h : Ahead name candidates a b) :
    ¬ Ahead name candidates b a := by
  unfold Ahead at h ⊢
  omega

theorem mem_closeNames {p : Bytes × Nat} :
    p ∈ closeNames name candidates ↔
      p.1 ∈ candidates ∧ CloseTo name p.1 ∧ p.2 = nameDistance name p.1 := by
  obtain ⟨c, n⟩ := p
  induction candidates with
  | nil => simp [closeNames]
  | cons candidate rest ih =>
    have hkeep : nameDistance name candidate ≤ editAllowance name ↔ CloseTo name candidate :=
      closeTo_iff.symm
    unfold nameDistance at hkeep
    by_cases hclose : CloseTo name candidate
    · rw [closeNames, if_pos (hkeep.2 hclose), List.mem_cons, List.mem_filter, ih]
      by_cases hc : c = candidate
      · subst hc
        simp [hclose, nameDistance]
      · simp [hc]
    · rw [closeNames, if_neg (mt hkeep.1 hclose), ih, List.mem_cons]
      constructor
      · rintro ⟨hmem, h⟩
        exact ⟨.inr hmem, h⟩
      · rintro ⟨rfl | hmem, h⟩
        · exact absurd h.1 hclose
        · exact ⟨hmem, h⟩

theorem closeNames_places :
    (closeNames name candidates).Pairwise
      fun p q => candidates.idxOf p.1 < candidates.idxOf q.1 := by
  induction candidates with
  | nil => exact .nil
  | cons candidate rest ih =>
    -- What follows a candidate is another one, so its first place moves by one.
    have hmoved {ps : List (Bytes × Nat)} (hsub : ps.Sublist (closeNames name rest))
        (hne : ∀ p ∈ ps, p.1 ≠ candidate) :
        ps.Pairwise fun p q =>
          (candidate :: rest).idxOf p.1 < (candidate :: rest).idxOf q.1 := by
      refine (ih.sublist hsub).imp_of_mem ?_
      intro p q hp hq hpq
      rw [List.idxOf_cons_ne rest (hne p hp).symm, List.idxOf_cons_ne rest (hne q hq).symm]
      exact Nat.succ_lt_succ hpq
    rw [closeNames]
    split
    · have hne : ∀ p ∈ (closeNames name rest).filter fun other => other.1 != candidate,
          p.1 ≠ candidate := by
        intro p hp
        simpa using (List.mem_filter.1 hp).2
      refine .cons ?_ (hmoved List.filter_sublist hne)
      intro q hq
      rw [List.idxOf_cons_self, List.idxOf_cons_ne rest (hne q hq).symm]
      exact Nat.succ_pos _
    next hfar =>
      refine hmoved (List.Sublist.refl _) ?_
      rintro p hp rfl
      exact hfar (closeTo_iff.1 (mem_closeNames.1 hp).2.1)

def ranked (name : Bytes) (candidates : List Bytes) : List (Bytes × Nat) :=
  (closeNames name candidates).mergeSort fun a b => a.2 ≤ b.2

theorem suggest_eq (name : Bytes) (candidates : List Bytes) (maxCount : Nat) :
    suggest name candidates maxCount = ((ranked name candidates).map (·.1)).take maxCount := by
  rw [suggest, List.map_take]
  rfl

theorem mem_ranked {p : Bytes × Nat} :
    p ∈ ranked name candidates ↔
      p.1 ∈ candidates ∧ CloseTo name p.1 ∧ p.2 = nameDistance name p.1 :=
  List.mem_mergeSort.trans mem_closeNames

theorem mem_ranked_names {c : Bytes} :
    c ∈ (ranked name candidates).map (·.1) ↔ c ∈ candidates ∧ CloseTo name c := by
  simp only [List.mem_map, mem_ranked]
  constructor
  · rintro ⟨p, ⟨hmem, hclose, -⟩, rfl⟩
    exact ⟨hmem, hclose⟩
  · rintro ⟨hmem, hclose⟩
    exact ⟨(c, nameDistance name c), ⟨hmem, hclose, rfl⟩, rfl⟩

/-- Sorting by distance leaves those of one distance in their order. -/
theorem filter_ranked (n : Nat) :
    (ranked name candidates).filter (·.2 = n) =
      (closeNames name candidates).filter (·.2 = n) := by
  have hperm := List.mergeSort_perm (closeNames name candidates) fun a b => a.2 ≤ b.2
  have hequal : ((closeNames name candidates).filter (·.2 = n)).Pairwise
      fun a b => decide (a.2 ≤ b.2) = true := by
    apply List.pairwise_of_forall_mem_list
    intro p hp q hq
    have hp : p.2 = n := of_decide_eq_true (List.mem_filter.1 hp).2
    have hq : q.2 = n := of_decide_eq_true (List.mem_filter.1 hq).2
    exact decide_eq_true (hp.trans hq.symm).le
  have hsub : ((closeNames name candidates).filter (·.2 = n)).Sublist (ranked name candidates) := by
    refine List.sublist_mergeSort ?_ ?_ hequal List.filter_sublist
    · intro a b c hab hbc
      simp only [decide_eq_true_eq] at hab hbc ⊢
      omega
    · intro a b
      simp only [Bool.or_eq_true, decide_eq_true_eq]
      omega
  have hfiltered := hsub.filter (·.2 = n)
  rw [List.filter_filter] at hfiltered
  simp only [Bool.and_self] at hfiltered
  exact (hfiltered.eq_of_length (hperm.filter _).length_eq.symm).symm

theorem ranked_ordered (name : Bytes) (candidates : List Bytes) :
    ((ranked name candidates).map (·.1)).Pairwise (Ahead name candidates) := by
  rw [List.pairwise_map, List.pairwise_iff_forall_sublist]
  intro p q hpq
  have hp : p.2 = nameDistance name p.1 := (mem_ranked.1 (hpq.subset (by simp))).2.2
  have hq : q.2 = nameDistance name q.1 := (mem_ranked.1 (hpq.subset (by simp))).2.2
  have hsorted : (ranked name candidates).Pairwise fun a b => a.2 ≤ b.2 := by
    simpa [ranked] using
      List.pairwise_mergeSort' (fun a b : Bytes × Nat => a.2 ≤ b.2) (closeNames name candidates)
  have hle : p.2 ≤ q.2 := List.pairwise_iff_forall_sublist.1 hsorted hpq
  rcases Nat.lt_or_eq_of_le hle with hlt | heq
  · exact .inl (hp ▸ hq ▸ hlt)
  · refine .inr ⟨hp ▸ hq ▸ heq, ?_⟩
    have hsub := hpq.filter (·.2 = q.2)
    rw [filter_ranked] at hsub
    simp only [heq, List.filter_cons, decide_true, ↓reduceIte, List.filter_nil] at hsub
    exact List.pairwise_iff_forall_sublist.1 closeNames_places (hsub.trans List.filter_sublist)

theorem ordered_nodup {found : List Bytes} (h : found.Pairwise (Ahead name candidates)) :
    found.Nodup := by
  refine h.imp ?_
  rintro a _ hab rfl
  exact hab.asymm hab

theorem suggest_suggests (name : Bytes) (candidates : List Bytes) (maxCount : Nat) :
    Suggests name candidates maxCount (suggest name candidates maxCount) := by
  have hsplit := List.take_append_drop maxCount ((ranked name candidates).map (·.1))
  have hordered := ranked_ordered name candidates
  rw [← hsplit, List.pairwise_append] at hordered
  obtain ⟨hfront, -, hacross⟩ := hordered
  rw [suggest_eq]
  constructor
  case nodup => exact ordered_nodup hfront
  case length_le => exact List.length_take_le _ _
  case close => exact fun c hc => mem_ranked_names.1 (List.mem_of_mem_take hc)
  case ordered => exact hfront
  case left_out =>
    intro c hc hclose hout
    have hback : c ∈ ((ranked name candidates).map (·.1)).drop maxCount := by
      have hmem := mem_ranked_names.2 ⟨hc, hclose⟩
      rw [← hsplit, List.mem_append] at hmem
      exact hmem.resolve_left hout
    refine ⟨?_, fun r hr => hacross r hr c hback⟩
    have hlong := List.length_pos_of_mem hback
    rw [List.length_drop] at hlong
    exact List.length_take_of_le (by omega)

theorem Suggests.subset {maxCount : Nat} {found others : List Bytes}
    (h : Suggests name candidates maxCount found) (h' : Suggests name candidates maxCount others) :
    found ⊆ others := by
  intro c hc
  by_contra hout
  obtain ⟨hfull, hahead⟩ := h'.left_out c (h.close c hc).1 (h.close c hc).2 hout
  -- The other list is full, so it has a name that this one lacks, and that is ahead and behind.
  have hmore : ∃ r ∈ others, r ∉ found := by
    by_contra! hsub
    have hcons := (List.subperm_of_subset (List.nodup_cons.2 ⟨hout, h'.nodup⟩)
      (List.cons_subset.2 ⟨hc, hsub⟩)).length_le
    have hlength := h.length_le
    rw [List.length_cons] at hcons
    omega
  obtain ⟨r, hr, hrout⟩ := hmore
  have hbehind := (h.left_out r (h'.close r hr).1 (h'.close r hr).2 hrout).2 c hc
  exact (hahead r hr).asymm hbehind

instance : Std.Asymm (Ahead name candidates) := ⟨fun _ _ => Ahead.asymm⟩

theorem Suggests.unique {maxCount : Nat} {found others : List Bytes}
    (h : Suggests name candidates maxCount found) (h' : Suggests name candidates maxCount others) :
    found = others :=
  List.Subset.antisymm_of_pairwise h.ordered h'.ordered (h.subset h') (h'.subset h)

theorem suggest_eq_nil_iff {maxCount : Nat} (hroom : 0 < maxCount) :
    suggest name candidates maxCount = [] ↔ ∀ c ∈ candidates, ¬ CloseTo name c := by
  have hsuggests := suggest_suggests name candidates maxCount
  constructor
  · intro hnil c hc hclose
    have hfull := (hsuggests.left_out c hc hclose (by simp [hnil])).1
    rw [hnil, List.length_nil] at hfull
    omega
  · intro hfar
    rw [List.eq_nil_iff_forall_not_mem]
    intro c hfound
    obtain ⟨hc, hclose⟩ := hsuggests.close c hfound
    exact hfar c hc hclose

end

/-- What is offered are the different close candidates in their order, up to the number that is
asked for. No other list of names is so. -/
theorem suggest_eq_iff (name : Bytes) (candidates : List Bytes) (maxCount : Nat)
    (found : List Bytes) :
    suggest name candidates maxCount = found ↔ Suggests name candidates maxCount found := by
  constructor
  · rintro rfl
    exact suggest_suggests name candidates maxCount
  · intro h
    have hsuggests := suggest_suggests name candidates maxCount
    have hperm : (suggest name candidates maxCount).Perm found :=
      (List.perm_ext_iff_of_nodup hsuggests.nodup h.nodup).2 fun _ =>
        ⟨fun hc => hsuggests.subset h hc, fun hc => h.subset hsuggests hc⟩
    refine hperm.eq_of_pairwise ?_ hsuggests.ordered h.ordered
    intro a b _ _ hab hba
    exact absurd hba hab.asymm

example : suggest (utf8 "setup") [utf8 "Stup", utf8 "SETUP", utf8 "Set", utf8 "Setup"] 3 =
    [utf8 "SETUP", utf8 "Setup", utf8 "Stup"] := by
  cbv

end Folio
