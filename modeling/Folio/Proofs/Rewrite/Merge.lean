import Mathlib.Data.List.Induction
import Mathlib.Data.List.ReduceOption
import Mathlib.Data.List.Sort
import Folio.Proofs.Outcome
import Folio.Rewrite

/-!
# Merging in groups

What a merge keeps under a name is told from the values that the documents have for it, in their
order: it is the last of them, or the first, or all their elements where they are arrays. So it
makes no difference whether documents are merged all at once or group by group, unless arrays are
joined and meet other values under one name.
-/

set_option autoImplicit false

namespace Folio

namespace Members

variable {name : Bytes} {value : Value} {members : Members}

/-- The names are in byte order, none of them twice. -/
def Ordered (members : Members) : Prop := members.Pairwise fun a b => a.1 < b.1

def valuesOf (name : Bytes) (members : Members) : List Value :=
  (members.filter (·.1 = name)).map (·.2)

theorem eq_or_mem_of_mem_insert {m : Bytes × Value} (h : m ∈ insert name value members) :
    m = (name, value) ∨ m ∈ members := by
  induction members with
  | nil => exact .inl (List.mem_singleton.1 h)
  | cons n rest ih =>
    rw [insert] at h
    split at h
    · exact (List.mem_cons.1 h).imp_right (List.mem_cons_of_mem n)
    · split at h
      · exact List.mem_cons.1 h
      · rcases List.mem_cons.1 h with rfl | hrest
        · exact .inr List.mem_cons_self
        · exact (ih hrest).imp_right (List.mem_cons_of_mem n)

theorem Ordered.insert (h : members.Ordered) (name : Bytes) (value : Value) :
    (members.insert name value).Ordered := by
  induction members with
  | nil => exact List.pairwise_singleton _ _
  | cons n rest ih =>
    obtain ⟨hfront, hrest⟩ := List.pairwise_cons.1 h
    rw [Members.insert]
    split
    next hname => exact List.pairwise_cons.2 ⟨hname ▸ hfront, hrest⟩
    next hname =>
      split
      next hlt =>
        refine List.pairwise_cons.2 ⟨List.forall_mem_cons.2 ⟨hlt, ?_⟩, h⟩
        exact fun m hm => List.lt_trans hlt (hfront m hm)
      next hlt =>
        have hbehind : n.1 < name := by
          by_contra hnot
          exact hname (List.le_antisymm hlt hnot)
        refine List.pairwise_cons.2 ⟨fun m hm => ?_, ih hrest⟩
        rcases eq_or_mem_of_mem_insert hm with rfl | hm
        · exact hbehind
        · exact hfront m hm

theorem Ordered.valuesOf_eq (h : members.Ordered) :
    members.valuesOf name = (members.get? name).toList := by
  induction members with
  | nil => rfl
  | cons n rest ih =>
    obtain ⟨hfront, hrest⟩ := List.pairwise_cons.1 h
    by_cases hname : n.1 = name
    · have hnone : rest.filter (·.1 = name) = [] := by
        rw [List.filter_eq_nil_iff]
        intro m hm heq
        have hlt := hfront m hm
        rw [hname, of_decide_eq_true heq] at hlt
        exact List.lt_irrefl name hlt
      simp [valuesOf, get?, hname, hnone]
    · simpa [valuesOf, get?, hname] using ih hrest

theorem Ordered.ext {others : Members} (h : members.Ordered) (h' : others.Ordered)
    (hget : ∀ name, members.get? name = others.get? name) : members = others := by
  have hmem {ms : Members} (hms : ms.Ordered) (m : Bytes × Value) :
      m ∈ ms ↔ ms.get? m.1 = some m.2 := by
    rw [← Option.mem_toList, ← hms.valuesOf_eq, valuesOf, List.mem_map]
    simp
  have : Std.Irrefl fun a b : Bytes × Value => a.1 < b.1 := ⟨fun a => List.lt_irrefl a.1⟩
  have : Std.Antisymm fun a b : Bytes × Value => a.1 < b.1 :=
    ⟨fun a b hab hba => absurd (List.lt_trans hab hba) (List.lt_irrefl a.1)⟩
  refine List.Pairwise.eq_of_mem_iff h h' fun m => ?_
  rw [hmem h, hmem h', hget]

end Members

namespace Value

def isArray : Value → Bool
  | .arr _ => true
  | _ => false

def elements : Value → List Value
  | .arr es => es
  | _ => []

theorem eq_arr_elements {v : Value} (h : v.isArray = true) : v = .arr v.elements := by
  cases v with
  | arr es => rfl
  | _ => exact nomatch h

end Value

/-- Either all values are arrays or none is. -/
def Uniform (vs : List Value) : Prop :=
  (∀ v ∈ vs, v.isArray = true) ∨ ∀ v ∈ vs, v.isArray = false

namespace MergePolicy

def appended : Option Value → Value → Value
  | some (.arr earlier), .arr later => .arr (earlier ++ later)
  | _, later => later

theorem appended_eq_self {earlier : Option Value} {later : Value}
    (h : ∀ es ls, earlier = some (.arr es) → later ≠ .arr ls) : appended earlier later = later := by
  unfold appended
  split
  · exact absurd rfl (h _ _ rfl)
  · rfl

/-- What stands under a name after one more value. -/
def combine (policy : MergePolicy) (earlier : Option Value) (later : Value) : Value :=
  match policy with
  | .lastWins => later
  | .firstWins => earlier.getD later
  | .joinLists => appended earlier later

def kept (policy : MergePolicy) (vs : List Value) : Option Value :=
  vs.foldl (fun o v => some (policy.combine o v)) none

theorem kept_concat (policy : MergePolicy) (vs : List Value) (v : Value) :
    policy.kept (vs ++ [v]) = some (policy.combine (policy.kept vs) v) := by
  rw [kept, List.foldl_append]
  rfl

theorem kept_lastWins (vs : List Value) : lastWins.kept vs = vs.getLast? := by
  induction vs using List.reverseRecOn with
  | nil => rfl
  | append_singleton vs v ih => rw [kept_concat, List.getLast?_concat, combine]

theorem kept_firstWins (vs : List Value) : firstWins.kept vs = vs.head? := by
  induction vs using List.reverseRecOn with
  | nil => rfl
  | append_singleton vs v ih =>
    rw [kept_concat, ih]
    cases vs <;> rfl

theorem kept_arrays {vs : List Value} (h : ∀ v ∈ vs, v.isArray = true) (hne : vs ≠ []) :
    joinLists.kept vs = some (.arr (vs.flatMap Value.elements)) := by
  induction vs using List.reverseRecOn with
  | nil => exact absurd rfl hne
  | append_singleton vs v ih =>
    rw [List.forall_mem_append, List.forall_mem_singleton] at h
    rw [kept_concat, List.flatMap_append, List.flatMap_singleton, Value.eq_arr_elements h.2]
    cases vs with
    | nil => rfl
    | cons u us =>
      rw [ih h.1 (List.cons_ne_nil u us)]
      rfl

theorem kept_others {vs : List Value} (h : ∀ v ∈ vs, v.isArray = false) :
    joinLists.kept vs = vs.getLast? := by
  induction vs using List.reverseRecOn with
  | nil => rfl
  | append_singleton vs v ih =>
    have hv : ∀ ls, v ≠ .arr ls := by
      rintro ls rfl
      exact nomatch h (.arr ls) (by simp)
    rw [kept_concat, List.getLast?_concat, combine, appended_eq_self fun _ ls _ => hv ls]

theorem kept_toList (policy : MergePolicy) (o : Option Value) : policy.kept o.toList = o := by
  cases o with
  | none => rfl
  | some v => cases policy <;> rfl

/-- What is kept of values is what is kept of that which is kept of two groups of them. -/
theorem kept_append {policy : MergePolicy} {vs ws : List Value}
    (h : policy = .joinLists → Uniform (vs ++ ws)) :
    policy.kept (vs ++ ws) = policy.kept ((policy.kept vs).toList ++ (policy.kept ws).toList) := by
  cases policy with
  | lastWins =>
    simp only [kept_lastWins, List.getLast?_append]
    cases vs.getLast? <;> cases ws.getLast? <;> rfl
  | firstWins =>
    simp only [kept_firstWins, List.head?_append]
    cases vs.head? <;> cases ws.head? <;> rfl
  | joinLists =>
    rcases h rfl with harrays | hothers
    · obtain ⟨hv, hw⟩ := List.forall_mem_append.1 harrays
      by_cases hvs : vs = []
      · subst hvs
        exact (kept_toList joinLists (joinLists.kept ws)).symm
      by_cases hws : ws = []
      · subst hws
        rw [List.append_nil, show joinLists.kept [] = none from rfl, Option.toList_none,
          List.append_nil, kept_toList]
      rw [kept_arrays harrays (by simp [hvs]), kept_arrays hv hvs, kept_arrays hw hws,
        List.flatMap_append]
      rfl
    · obtain ⟨hv, hw⟩ := List.forall_mem_append.1 hothers
      have hlasts : ∀ v ∈ vs.getLast?.toList ++ ws.getLast?.toList, v.isArray = false := by
        rw [List.forall_mem_append]
        exact ⟨fun v h => hv v (List.mem_of_getLast? (Option.mem_toList.1 h)),
          fun v h => hw v (List.mem_of_getLast? (Option.mem_toList.1 h))⟩
      rw [kept_others hothers, kept_others hv, kept_others hw, kept_others hlasts,
        List.getLast?_append, List.getLast?_append]
      cases vs.getLast? <;> cases ws.getLast? <;> rfl

end MergePolicy

namespace Members

variable {policy : MergePolicy} {name : Bytes}

theorem mergeOne_joinLists (merged : Members) (m : Bytes × Value) :
    merged.mergeOne .joinLists m =
      merged.insert m.1 (MergePolicy.appended (merged.get? m.1) m.2) := by
  unfold mergeOne
  dsimp only
  split
  next hearlier hlater => rw [hearlier, hlater, MergePolicy.appended]
  next hnot => rw [MergePolicy.appended_eq_self hnot]

theorem get?_mergeOne (merged : Members) (m : Bytes × Value) :
    (merged.mergeOne policy m).get? name =
      if m.1 = name then some (policy.combine (merged.get? name) m.2) else merged.get? name := by
  cases policy with
  | lastWins => exact get?_insert m.1 name m.2 merged
  | firstWins =>
    by_cases hname : m.1 = name
    · subst hname
      cases hget : merged.get? m.1 with
      | none =>
        have hinserted : merged.mergeOne .firstWins m = merged.insert m.1 m.2 := by
          simp [mergeOne, hget]
        rw [hinserted, get?_insert, if_pos rfl, if_pos rfl]
        rfl
      | some earlier => simp [mergeOne, hget, MergePolicy.combine]
    · rw [mergeOne, if_neg hname]
      split
      · rfl
      · rw [get?_insert, if_neg hname]
  | joinLists =>
    rw [mergeOne_joinLists, get?_insert]
    by_cases hname : m.1 = name
    · rw [if_pos hname, if_pos hname, hname]
      rfl
    · rw [if_neg hname, if_neg hname]

theorem Ordered.mergeOne {merged : Members} (h : merged.Ordered) (m : Bytes × Value) :
    (merged.mergeOne policy m).Ordered := by
  cases policy with
  | lastWins => exact h.insert m.1 m.2
  | firstWins =>
    rw [Members.mergeOne]
    split
    · exact h
    · exact h.insert m.1 m.2
  | joinLists =>
    rw [mergeOne_joinLists]
    exact h.insert m.1 _

theorem Ordered.foldl_mergeOne {merged : Members} (h : merged.Ordered) (incoming : Members) :
    (incoming.foldl (Members.mergeOne policy) merged).Ordered := by
  induction incoming generalizing merged with
  | nil => exact h
  | cons m incoming ih => exact ih (h.mergeOne m)

theorem get?_foldl_mergeOne (merged incoming : Members) :
    (incoming.foldl (mergeOne policy) merged).get? name =
      (incoming.valuesOf name).foldl (fun o v => some (policy.combine o v)) (merged.get? name) := by
  induction incoming generalizing merged with
  | nil => rfl
  | cons m incoming ih =>
    rw [List.foldl_cons, ih, get?_mergeOne]
    by_cases hname : m.1 = name <;> simp [valuesOf, hname]

end Members

namespace Document

variable {policy : MergePolicy}

def members (d : Document) : Members :=
  match d.attrs.metadata with
  | .obj members => members
  | _ => []

def valuesOf (name : Bytes) (ds : List Document) : List Value :=
  ds.flatMap fun d => d.members.valuesOf name

theorem valuesOf_append (name : Bytes) (as bs : List Document) :
    valuesOf name (as ++ bs) = valuesOf name as ++ valuesOf name bs :=
  List.flatMap_append

/-- Under each name documents have either nothing but arrays or no array. -/
def Compatible (ds : List Document) : Prop := ∀ name, Uniform (valuesOf name ds)

theorem flatMap_areBlocks (ds : List Document) :
    ∀ n ∈ ds.flatMap Document.children, n.kind.isDocumentBlock = true := by
  intro n hn
  obtain ⟨d, -, hn⟩ := List.mem_flatMap.1 hn
  exact d.areBlocks n hn

def united (policy : MergePolicy) (ds : List Document) : Document :=
  { children := ds.flatMap Document.children
    attrs := { metadata := .obj (mergedMetadata policy ds) }
    areBlocks := flatMap_areBlocks ds }

theorem merge_members (merged : Members) (d : Document) :
    merged.merge policy d.attrs.metadata = d.members.foldl (Members.mergeOne policy) merged := by
  unfold Members.merge members
  cases d.attrs.metadata <;> rfl

theorem mergedMetadata_eq (policy : MergePolicy) (ds : List Document) :
    mergedMetadata policy ds = (ds.flatMap members).foldl (Members.mergeOne policy) [] := by
  simp only [mergedMetadata, merge_members, List.foldl_flatMap]

theorem mergedMetadata_ordered (policy : MergePolicy) (ds : List Document) :
    (mergedMetadata policy ds).Ordered := by
  rw [mergedMetadata_eq]
  exact Members.Ordered.foldl_mergeOne .nil _

theorem get?_mergedMetadata (policy : MergePolicy) (ds : List Document) (name : Bytes) :
    (mergedMetadata policy ds).get? name = policy.kept (valuesOf name ds) := by
  have hvalues : Members.valuesOf name (ds.flatMap members) = valuesOf name ds := by
    rw [Members.valuesOf, List.filter_flatMap, List.map_flatMap]
    rfl
  rw [mergedMetadata_eq, Members.get?_foldl_mergeOne, hvalues]
  rfl

theorem valuesOf_united (policy : MergePolicy) (ds : List Document) (name : Bytes) :
    (united policy ds).members.valuesOf name = (policy.kept (valuesOf name ds)).toList := by
  rw [← get?_mergedMetadata]
  exact (mergedMetadata_ordered policy ds).valuesOf_eq

theorem united_append {as bs : List Document} (h : policy = .joinLists → Compatible (as ++ bs)) :
    united policy (as ++ bs) = united policy [united policy as, united policy bs] := by
  have hmetadata : mergedMetadata policy (as ++ bs) =
      mergedMetadata policy [united policy as, united policy bs] := by
    apply (mergedMetadata_ordered policy _).ext (mergedMetadata_ordered policy _)
    intro name
    have hgroups : valuesOf name [united policy as, united policy bs] =
        (policy.kept (valuesOf name as)).toList ++ (policy.kept (valuesOf name bs)).toList := by
      rw [← valuesOf_united, ← valuesOf_united]
      simp [valuesOf]
    rw [get?_mergedMetadata, get?_mergedMetadata, hgroups, valuesOf_append]
    exact MergePolicy.kept_append fun hjoin => valuesOf_append name as bs ▸ h hjoin name
  simp [united, hmetadata]

theorem present_some (ds : List Document) : (present (ds.map some)).result = .ok ds := by
  induction ds with
  | nil => rfl
  | cons d ds ih => exact Outcome.result_bind_ok (fun others => pure (d :: others)) ih

theorem present_none {slots : List (Option Document)} (h : none ∈ slots) :
    (present slots).result = .error (.rewrite .mergeNothing) := by
  induction slots with
  | nil => exact nomatch h
  | cons slot slots ih =>
    cases slot with
    | none => rfl
    | some d =>
      have hrest := ih (by simpa using h)
      exact Outcome.result_bind_error (fun others => pure (d :: others)) hrest

theorem merge_some (policy : MergePolicy) (ds : List Document) :
    (merge policy (ds.map some)).result = .ok (united policy ds) := by
  rw [merge, Outcome.result_bind_ok _ (present_some ds)]
  exact build_result (flatMap_areBlocks ds) { metadata := .obj (mergedMetadata policy ds) }

theorem merge_none (policy : MergePolicy) {slots : List (Option Document)} (h : none ∈ slots) :
    (merge policy slots).result = .error (.rewrite .mergeNothing) :=
  Outcome.result_bind_error _ (present_none h)

theorem slots_cases (slots : List (Option Document)) :
    none ∈ slots ∨ ∃ ds : List Document, slots = ds.map some := by
  induction slots with
  | nil => exact .inr ⟨[], rfl⟩
  | cons slot slots ih =>
    cases slot with
    | none => exact .inl List.mem_cons_self
    | some d =>
      rcases ih with hnone | ⟨ds, rfl⟩
      · exact .inl (List.mem_cons_of_mem _ hnone)
      · exact .inr ⟨d :: ds, rfl⟩

/-- The document has the blocks of all documents, and under each name what is kept of theirs. -/
structure Unites (policy : MergePolicy) (ds : List Document) (d : Document) : Prop where
  children : d.children = ds.flatMap Document.children
  kept : ∀ name, d.members.get? name = policy.kept (valuesOf name ds)

theorem united_unites (policy : MergePolicy) (ds : List Document) :
    Unites policy ds (united policy ds) :=
  ⟨rfl, get?_mergedMetadata policy ds⟩

theorem merge_answers (policy : MergePolicy) (slots : List (Option Document)) :
    (merge policy slots).Answers (Unites policy slots.reduceOption) .invalidArgument ∧
    ((merge policy slots).Succeeds ↔ none ∉ slots) := by
  rcases slots_cases slots with hnone | ⟨ds, rfl⟩
  · have hmerge := merge_none policy hnone
    refine ⟨⟨?_, ?_⟩, ?_⟩
    · intro d hd
      exact nomatch hmerge.symm.trans hd
    · intro e he
      obtain rfl := Except.error.inj (hmerge.symm.trans he)
      rfl
    · simp [Outcome.Succeeds, hmerge, hnone]
  · have hmerge := merge_some policy ds
    have hpresent : (ds.map some).reduceOption = ds := by simp [List.reduceOption]
    refine ⟨⟨?_, ?_⟩, ?_⟩
    · intro d hd
      obtain rfl := Except.ok.inj (hmerge.symm.trans hd)
      exact hpresent.symm ▸ united_unites policy ds
    · intro e he
      exact nomatch hmerge.symm.trans he
    · simp [Outcome.Succeeds, hmerge]

theorem merge_append {policy : MergePolicy} {as bs : List (Option Document)}
    (h : policy = .joinLists → Compatible (as ++ bs).reduceOption) :
    (merge policy (as ++ bs)).result =
      (do
        let a ← merge policy as
        let b ← merge policy bs
        merge policy [some a, some b]).result := by
  rcases slots_cases as with hnone | ⟨as, rfl⟩
  · rw [Outcome.result_bind_error _ (merge_none policy hnone),
      merge_none policy (List.mem_append_left bs hnone)]
  rw [Outcome.result_bind_ok _ (merge_some policy as)]
  rcases slots_cases bs with hnone | ⟨bs, rfl⟩
  · rw [Outcome.result_bind_error _ (merge_none policy hnone),
      merge_none policy (List.mem_append_right _ hnone)]
  rw [Outcome.result_bind_ok _ (merge_some policy bs), ← List.map_append, merge_some,
    united_append (by simpa [List.reduceOption] using h)]
  exact (merge_some policy [united policy as, united policy bs]).symm

/-- A merged document has all blocks in order and what is kept under each name, and only an empty
slot makes a merge fail. To merge all at once and to merge group by group is the same, whichever
value of a name is kept, and also where arrays are joined, unless they meet other values. -/
theorem merge_regroups (policy : MergePolicy) :
    (∀ slots, (merge policy slots).Answers (Unites policy slots.reduceOption) .invalidArgument ∧
      ((merge policy slots).Succeeds ↔ none ∉ slots)) ∧
    ∀ as bs, (policy = .joinLists → Compatible (as ++ bs).reduceOption) →
      (merge policy (as ++ bs)).result =
        (do
          let a ← merge policy as
          let b ← merge policy bs
          merge policy [some a, some b]).result :=
  ⟨merge_answers policy, fun _ _ => merge_append⟩

def titled (title : Bytes) (tags : Members) : Document :=
  { children := [], attrs := { metadata := .obj (tags ++ [(utf8 "title", .str title)]) } }

def tags (names : List Bytes) : Members := [(utf8 "tags", .arr (names.map .str))]

def volumes : List (Option Document) × List (Option Document) :=
  ([some (titled (utf8 "One") (tags [utf8 "a"])), some (titled (utf8 "Two") [])],
    [some (titled (utf8 "Three") (tags [utf8 "b", utf8 "a"]))])

theorem volumes_compatible : Compatible (volumes.1 ++ volumes.2).reduceOption := by
  intro name
  by_cases hname : utf8 "tags" = name
  · subst hname
    exact .inl (List.all_eq_true.1 rfl)
  · refine .inr fun v hv => ?_
    have hv : name = utf8 "title" ∧ v = .str (utf8 "One") ∨
        name = utf8 "title" ∧ v = .str (utf8 "Two") ∨
        name = utf8 "title" ∧ v = .str (utf8 "Three") := by
      simpa [volumes, valuesOf, titled, tags, members, Members.valuesOf, hname] using hv
    rcases hv with ⟨-, rfl⟩ | ⟨-, rfl⟩ | ⟨-, rfl⟩ <;> rfl

theorem volumes_merge_regroups :
    Compatible (volumes.1 ++ volumes.2).reduceOption ∧
    (merge .joinLists (volumes.1 ++ volumes.2)).result =
      (do
        let a ← merge .joinLists volumes.1
        let b ← merge .joinLists volumes.2
        merge .joinLists [some a, some b]).result :=
  ⟨volumes_compatible,
    (merge_regroups .joinLists).2 volumes.1 volumes.2 fun _ => volumes_compatible⟩

end Document

end Folio
