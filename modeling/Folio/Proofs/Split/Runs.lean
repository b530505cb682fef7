import Folio.Proofs.Split.Cover

/-!
# What separators leave

Separators cut the blocks of a document into runs, and a run that is not empty reaches as far as
blocks that do not separate go on. The runs are the parts, numbered in their order. A document
that has no separator, or nothing else, stays whole.
-/

set_option autoImplicit false

namespace Folio

/-- The blocks from place `first` up to `stop` do not separate, and what stands next to them
does. -/
structure MaximalRun (Separates : Node → Prop) (ns : List Node) (first stop : Nat) : Prop where
  range : first < stop ∧ stop ≤ ns.length
  inside : ∀ i n, first ≤ i → i < stop → ns[i]? = some n → ¬ Separates n
  left : ∀ i n, i + 1 = first → ns[i]? = some n → Separates n
  right : ∀ n, ns[stop]? = some n → Separates n

structure MaximalRuns (Separates : Node → Prop) (ns : List Node) (places : List (Nat × Nat)) :
    Prop where
  mem_iff : ∀ p, p ∈ places ↔ MaximalRun Separates ns p.1 p.2
  ordered : places.Pairwise fun p q => p.2 < q.1

section Places

variable {Separates : Node → Prop} {run rest : List Node} {m : Node} {first stop : Nat}

/-- The maximal runs behind a separator are those of the blocks there, by themselves. -/
theorem maximalRun_behind (hm : Separates m) (run rest : List Node) (first stop : Nat) :
    MaximalRun Separates (run ++ m :: rest) (run.length + 1 + first) (run.length + 1 + stop) ↔
      MaximalRun Separates rest first stop := by
  have hlength : (run ++ m :: rest).length = run.length + 1 + rest.length := by
    rw [List.length_append, List.length_cons]
    omega
  constructor
  · intro h
    have hrange := h.range
    refine ⟨by omega, fun i n hfirst hstop hn => ?_, fun i n hi hn => ?_, fun n hn => ?_⟩
    · exact h.inside (run.length + 1 + i) n (by omega) (by omega) (by rwa [getElem?_behind])
    · exact h.left (run.length + 1 + i) n (by omega) (by rwa [getElem?_behind])
    · exact h.right n (by rwa [getElem?_behind])
  · intro h
    have hrange := h.range
    refine ⟨by omega, fun i n hfirst hstop hn => ?_, fun i n hi hn => ?_, fun n hn => ?_⟩
    · obtain ⟨j, rfl⟩ := Nat.exists_eq_add_of_le (show run.length + 1 ≤ i by omega)
      rw [getElem?_behind] at hn
      exact h.inside j n (by omega) (by omega) hn
    · cases first with
      | zero =>
        obtain rfl : i = run.length := by omega
        rw [List.getElem?_append_right (Nat.le_refl _), Nat.sub_self] at hn
        exact Option.some.inj hn ▸ hm
      | succ first =>
        obtain rfl : i = run.length + 1 + first := by omega
        rw [getElem?_behind] at hn
        exact h.left first n rfl hn
    · rw [getElem?_behind] at hn
      exact h.right n hn

theorem exists_front (hrun : ∀ n ∈ run, ¬ Separates n) (rest : List Node) {i : Nat}
    (hi : i < run.length) : ∃ n, (run ++ rest)[i]? = some n ∧ ¬ Separates n := by
  refine ⟨run[i], ?_, hrun _ (List.getElem_mem hi)⟩
  rw [List.getElem?_append_left hi, List.getElem?_eq_getElem hi]

theorem maximalRun_front (hrun : ∀ n ∈ run, ¬ Separates n) (rest : List Node)
    (hrest : ∀ n ∈ rest.head?, Separates n) (hfirst : first ≤ run.length) :
    MaximalRun Separates (run ++ rest) first stop ↔
      first = 0 ∧ stop = run.length ∧ run ≠ [] := by
  have hbehind : (run ++ rest)[run.length]? = rest.head? := by
    rw [List.getElem?_append_right (Nat.le_refl _), Nat.sub_self, List.head?_eq_getElem?]
  constructor
  · intro h
    obtain ⟨hlt, hstop⟩ := h.range
    have hzero : first = 0 := by
      by_contra hne
      obtain ⟨n, hn, hnot⟩ := exists_front hrun rest (show first - 1 < run.length by omega)
      exact hnot (h.left (first - 1) n (by omega) hn)
    have hge : run.length ≤ stop := by
      by_contra hshort
      obtain ⟨n, hn, hnot⟩ := exists_front hrun rest (show stop < run.length by omega)
      exact hnot (h.right n hn)
    -- A longer run would have the separator in it.
    have hle : stop ≤ run.length := by
      by_contra hlong
      cases hhead : rest.head? with
      | none =>
        rw [List.head?_eq_none_iff.1 hhead, List.append_nil] at hstop
        exact hlong hstop
      | some m =>
        rw [hhead] at hbehind
        exact h.inside run.length m hfirst (by omega) hbehind (hrest m hhead)
    have hpos : 0 < run.length := by omega
    exact ⟨hzero, by omega, List.length_pos_iff.1 hpos⟩
  · rintro ⟨rfl, rfl, hne⟩
    have hpos : 0 < run.length := List.length_pos_of_ne_nil hne
    refine ⟨⟨hpos, by simp⟩, fun i n _ hi hn => ?_, fun i n hi => by omega, fun n hn => ?_⟩
    · obtain ⟨m, hm, hnot⟩ := exists_front hrun rest hi
      rw [hm] at hn
      exact Option.some.inj hn ▸ hnot
    · rw [hbehind] at hn
      exact hrest n hn

/-- The place of the run in front of the first separator, unless nothing stands there. -/
def frontPlace (run : List Node) : List (Nat × Nat) := if run.isEmpty then [] else [(0, run.length)]

theorem mem_frontPlace {p : Nat × Nat} :
    p ∈ frontPlace run ↔ p.1 = 0 ∧ p.2 = run.length ∧ run ≠ [] := by
  cases run <;> simp [frontPlace, Prod.ext_iff]

theorem maximalRuns_last (hrun : ∀ n ∈ run, ¬ Separates n) :
    MaximalRuns Separates run (frontPlace run) where
  mem_iff p := by
    have hfront : p.1 ≤ run.length → (MaximalRun Separates run p.1 p.2 ↔ p ∈ frontPlace run) := by
      intro hfirst
      rw [mem_frontPlace, ← maximalRun_front hrun [] (by simp) hfirst, List.append_nil]
    by_cases hfirst : p.1 ≤ run.length
    · exact (hfront hfirst).symm
    · constructor
      · intro h
        have hzero := (mem_frontPlace.1 h).1
        omega
      · intro h
        have hrange := h.range
        omega
  ordered := by
    cases run <;> simp [frontPlace]

theorem MaximalRuns.more {places : List (Nat × Nat)} (h : MaximalRuns Separates rest places)
    (hrun : ∀ n ∈ run, ¬ Separates n) (hm : Separates m) :
    MaximalRuns Separates (run ++ m :: rest) (frontPlace run ++
      places.map fun p => (run.length + 1 + p.1, run.length + 1 + p.2)) where
  mem_iff p := by
    rw [List.mem_append, mem_frontPlace]
    by_cases hfirst : p.1 ≤ run.length
    · rw [maximalRun_front hrun (m :: rest) (by simpa using hm) hfirst]
      constructor
      · intro h
        apply h.resolve_right
        intro hmem
        obtain ⟨q, -, rfl⟩ := List.mem_map.1 hmem
        have hle : run.length + 1 + q.1 ≤ run.length := hfirst
        omega
      · intro h
        exact Or.inl h
    · constructor
      · rintro (⟨hzero, -⟩ | hmem)
        · omega
        · obtain ⟨q, hq, rfl⟩ := List.mem_map.1 hmem
          exact (maximalRun_behind hm run rest q.1 q.2).2 ((h.mem_iff q).1 hq)
      · intro hp
        have hrange := hp.range
        obtain ⟨first, hfirst⟩ := Nat.exists_eq_add_of_le (show run.length + 1 ≤ p.1 by omega)
        obtain ⟨stop, hstop⟩ := Nat.exists_eq_add_of_le (show run.length + 1 ≤ p.2 by omega)
        rw [hfirst, hstop, maximalRun_behind hm] at hp
        right
        apply List.mem_map.2
        exact ⟨(first, stop), (h.mem_iff _).2 hp, Prod.ext hfirst.symm hstop.symm⟩
  ordered := by
    rw [List.pairwise_append]
    refine ⟨?_, ?_, ?_⟩
    · cases run <;> simp [frontPlace]
    · apply List.Pairwise.map _ _ h.ordered
      intro p q hpq
      show run.length + 1 + p.2 < run.length + 1 + q.1
      omega
    · intro p hp q hq
      have hstop := (mem_frontPlace.1 hp).2.1
      obtain ⟨q, -, rfl⟩ := List.mem_map.1 hq
      show p.2 < run.length + 1 + q.1
      omega

end Places

/-- A list cut at all its separators, as it reads from the front. -/
inductive CutAt (separates : Node → Bool) : List Node → List (List Node) → Prop where
  | last {run : List Node} (hrun : ∀ n ∈ run, ¬ separates n = true) : CutAt separates run [run]
  | more {run rest : List Node} {m : Node} {runs : List (List Node)}
      (hrun : ∀ n ∈ run, ¬ separates n = true) (hm : separates m = true)
      (hrest : CutAt separates rest runs) :
      CutAt separates (run ++ m :: rest) (run :: runs)

theorem CutAt.cons {separates : Node → Bool} {n : Node} {ns run : List Node}
    {more : List (List Node)} (hn : ¬ separates n = true)
    (h : CutAt separates ns (run :: more)) :
    CutAt separates (n :: ns) ((n :: run) :: more) := by
  cases h with
  | last hrun => exact .last (List.forall_mem_cons.2 ⟨hn, hrun⟩)
  | more hrun hm hrest => exact .more (List.forall_mem_cons.2 ⟨hn, hrun⟩) hm hrest

theorem CutAt.ne_nil {separates : Node → Bool} {ns : List Node} {runs : List (List Node)}
    (h : CutAt separates ns runs) : runs ≠ [] := by
  cases h <;> simp

theorem Document.cutAt_runs (separates : Node → Bool) (ns : List Node) :
    CutAt separates ns (runs separates ns) := by
  induction ns with
  | nil => exact .last (by simp)
  | cons n ns ih =>
    unfold runs
    by_cases hn : separates n = true
    · rw [if_pos hn]
      have hnone : ∀ m ∈ ([] : List Node), ¬ separates m = true := nofun
      exact .more hnone hn ih
    · rw [if_neg hn]
      cases hruns : runs separates ns with
      | nil => exact absurd hruns ih.ne_nil
      | cons run more =>
        rw [hruns] at ih
        exact ih.cons hn

def stretch (ns : List Node) (p : Nat × Nat) : List Node := (ns.take p.2).drop p.1

theorem stretch_subset (ns : List Node) (p : Nat × Nat) : stretch ns p ⊆ ns :=
  List.Subset.trans (List.drop_subset _ _) (List.take_subset _ _)

theorem stretch_frontPlace (run rest : List Node) :
    (frontPlace run).map (stretch (run ++ rest)) = [run].filter fun run => !run.isEmpty := by
  cases run <;> simp [frontPlace, stretch]

theorem stretch_behind (run : List Node) (m : Node) (rest : List Node) (p : Nat × Nat) :
    stretch (run ++ m :: rest) (run.length + 1 + p.1, run.length + 1 + p.2) = stretch rest p := by
  have hfront : run ++ m :: rest = (run ++ [m]) ++ rest := by simp
  have hlength : (run ++ [m]).length = run.length + 1 := by simp
  rw [stretch, stretch, hfront, ← hlength, List.take_length_add_append,
    List.drop_length_add_append]

/-- The runs with blocks in them are what stands at the places of the maximal runs. -/
theorem CutAt.exists_places {separates : Node → Bool} {ns : List Node}
    {runs : List (List Node)} (h : CutAt separates ns runs) :
    ∃ places, MaximalRuns (fun n => separates n = true) ns places ∧
      (runs.filter fun run => !run.isEmpty) = places.map (stretch ns) := by
  induction h with
  | @last run hrun =>
    refine ⟨frontPlace run, maximalRuns_last hrun, ?_⟩
    have hfront := stretch_frontPlace run []
    rw [List.append_nil] at hfront
    exact hfront.symm
  | @more run rest m runs hrun hm _ ih =>
    obtain ⟨places, hplaces, hfilter⟩ := ih
    refine ⟨_, hplaces.more hrun hm, ?_⟩
    have hbehind : stretch (run ++ m :: rest) ∘
        (fun p => (run.length + 1 + p.1, run.length + 1 + p.2)) = stretch rest :=
      funext fun p => stretch_behind run m rest p
    rw [List.map_append, List.map_map, hbehind, ← hfilter, stretch_frontPlace, ← List.filter_append]
    rfl

theorem CutAt.filter_eq_nil_iff {separates : Node → Bool} {ns : List Node}
    {runs : List (List Node)} (h : CutAt separates ns runs) :
    (runs.filter fun run => !run.isEmpty) = [] ↔ ∀ n ∈ ns, separates n = true := by
  induction h with
  | @last run hrun =>
    cases run with
    | nil => simp
    | cons n run => simp [hrun n List.mem_cons_self]
  | @more run rest m runs hrun hm _ ih =>
    have hrest : (∀ n ∈ m :: rest, separates n = true) ↔ ∀ n ∈ rest, separates n = true := by
      simp [hm]
    cases run with
    | nil => exact ih.trans hrest.symm
    | cons n run => simp [hrun n List.mem_cons_self]

namespace Document

def partAt (d : Document) (p : Nat × Nat) (number : Nat) : Part where
  document := d.withChildren (stretch d.children p) fun n hn =>
    d.areBlocks n (stretch_subset d.children p hn)
  index := number
  title := some (utf8 "Part " ++ .ofNat number)
  words := textWords (stretch d.children p)

/-- A document with separators and with other blocks is cut into the maximal runs of the others,
numbered from one. Else it is the only part, with the reason noted. -/
def SeparatedBy (d : Document) (Separates : Node → Prop) (reason : Bytes)
    (split : Outcome (List Part)) : Prop :=
  ((∃ n ∈ d.children, Separates n) → (∃ n ∈ d.children, ¬ Separates n) →
    ∃ places, MaximalRuns Separates d.children places ∧
      split.result = .ok (places.zipIdx.map fun (p, i) => d.partAt p (i + 1))) ∧
  (((∀ n ∈ d.children, ¬ Separates n) ∨ ∀ n ∈ d.children, Separates n) →
    split.result = .ok [{
      document := d
      index := 1
      title := some (utf8 "Part 1")
      words := textWords d.children
      metadata := [(utf8 "reason", .str reason)] }])

theorem splitAtSeparators_whole {d : Document} {separates : Node → Bool} (reason : Bytes)
    (h : (∀ n ∈ d.children, ¬ separates n = true) ∨ ∀ n ∈ d.children, separates n = true) :
    d.splitAtSeparators separates reason = d.keptWhole (some (partTitle 1)) reason := by
  have hfilter := (cutAt_runs separates d.children).filter_eq_nil_iff
  unfold splitAtSeparators
  simp only
  apply if_pos
  rcases h with hnone | hall
  · have hany : d.children.any separates = false := List.any_eq_false.2 hnone
    rw [hany]
    rfl
  · rw [hfilter.2 hall, List.isEmpty_nil, Bool.or_true]

theorem splitAtSeparators_result {d : Document} {separates : Node → Bool} (reason : Bytes)
    (hsome : ∃ n ∈ d.children, separates n = true)
    (hother : ∃ n ∈ d.children, ¬ separates n = true) :
    (d.splitAtSeparators separates reason).result =
      (Part.ofPassages d
        (((runs separates d.children).filter fun run => !run.isEmpty).zipIdx.map
          fun (run, i) => ⟨some (partTitle (i + 1)), run⟩)).result := by
  have hfilter := (cutAt_runs separates d.children).filter_eq_nil_iff
  have hany : d.children.any separates = true := List.any_eq_true.2 hsome
  have hfound : ((runs separates d.children).filter fun run => !run.isEmpty).isEmpty = false := by
    rw [List.isEmpty_eq_false_iff, Ne, hfilter]
    simpa using hother
  unfold splitAtSeparators
  simp only [hany, hfound]
  rfl

theorem ofPassages_numbered (d : Document) (places : List (Nat × Nat)) :
    (Part.ofPassages d ((places.map (stretch d.children)).zipIdx.map
      fun q => ⟨some (partTitle (q.2 + 1)), q.1⟩)).result =
      .ok (places.zipIdx.map fun q => d.partAt q.1 (q.2 + 1)) := by
  have hbuilt (p : Nat × Nat) (i : Nat) :
      (Part.ofPassage d (i + 1) ⟨some (partTitle (i + 1)), stretch d.children p⟩).result =
        .ok (d.partAt p (i + 1)) :=
    Outcome.result_bind_ok _ (build_attrs _ d)
  have hsteps : ((places.map (stretch d.children)).zipIdx.map
      fun q => (⟨some (partTitle (q.2 + 1)), q.1⟩ : Passage)).zipIdx.map
        (fun q => Part.ofPassage d (q.2 + 1) q.1) =
      places.zipIdx.map fun q =>
        Part.ofPassage d (q.2 + 1) ⟨some (partTitle (q.2 + 1)), stretch d.children q.1⟩ := by
    apply List.ext_getElem?
    intro i
    cases h : places[i]? with
    | none => simp [h]
    | some p => simp [h]
  rw [Part.ofPassages, hsteps]
  exact Outcome.result_sequence fun q _ => hbuilt q.1 q.2

theorem splitAtSeparators_separatedBy (d : Document) (separates : Node → Bool) (reason : Bytes) :
    d.SeparatedBy (fun n => separates n = true) reason (d.splitAtSeparators separates reason) := by
  constructor
  · intro hsome hother
    obtain ⟨places, hplaces, hfilter⟩ := (cutAt_runs separates d.children).exists_places
    refine ⟨places, hplaces, ?_⟩
    rw [splitAtSeparators_result reason hsome hother, hfilter, ofPassages_numbered]
  · intro h
    rw [splitAtSeparators_whole reason h]
    exact d.keptWhole_result _ reason

def IsRule (s : Bytes) : Prop := ∃ mark ∈ [45, 42, 95], ∃ k, 3 ≤ k ∧ s = List.replicate k mark

/-- What separates parts at a delimiter: a break where the delimiter is a rule, and a paragraph
that reads like the delimiter. -/
inductive Separator (wanted : Bytes) (n : Node) : Prop where
  | rule (hkind : n.kind = .thematicBreak) (hrule : IsRule wanted)
  | paragraph (hkind : n.kind = .paragraph) (htext : (n.extractText []).trim = wanted)

theorem isRuleLike_iff {s : Bytes} : isRuleLike s = true ↔ IsRule s := by
  have hall (mark : UInt8) : (s.all (· == mark)) = true ↔ s = List.replicate s.length mark := by
    simp [List.eq_replicate_iff]
  rw [isRuleLike, Bool.and_eq_true, decide_eq_true_iff, List.any_eq_true]
  constructor
  · rintro ⟨hlength, mark, hmark, hs⟩
    exact ⟨mark, hmark, s.length, hlength, (hall mark).1 hs⟩
  · rintro ⟨mark, hmark, k, hk, rfl⟩
    exact ⟨by simpa using hk, mark, hmark, by simp⟩

theorem isDelimiter_iff {wanted : Bytes} {n : Node} :
    isDelimiter wanted n = true ↔ Separator wanted n := by
  constructor
  · intro h
    unfold isDelimiter at h
    split at h
    next hkind => exact .rule hkind (isRuleLike_iff.1 h)
    next hkind => exact .paragraph hkind (eq_of_beq h)
    next => cases h
  · intro h
    cases h with
    | rule hkind hrule =>
      rw [isDelimiter, hkind]
      exact isRuleLike_iff.2 hrule
    | paragraph hkind htext =>
      rw [isDelimiter, hkind]
      exact beq_iff_eq.2 htext

theorem isBreak_iff {n : Node} : isBreak n = true ↔ n.kind = .thematicBreak := beq_iff_eq

theorem splitByDelimiter_separatedBy (d : Document) {delimiter : Bytes} (h : delimiter.trim ≠ []) :
    d.SeparatedBy (Separator delimiter.trim) (utf8 "no_delimiters_found")
      (d.splitByDelimiter delimiter) := by
  have hseparator : (fun n => isDelimiter delimiter.trim n = true) = Separator delimiter.trim :=
    funext fun n => propext isDelimiter_iff
  rw [splitByDelimiter_eq d h, ← hseparator]
  exact d.splitAtSeparators_separatedBy _ _

theorem splitByBreak_separatedBy (d : Document) :
    d.SeparatedBy (fun n => n.kind = .thematicBreak) (utf8 "no_breaks_found") d.splitByBreak := by
  have hseparator : (fun n => isBreak n = true) = fun n : Node => n.kind = .thematicBreak :=
    funext fun n => propext isBreak_iff
  rw [← hseparator]
  exact d.splitAtSeparators_separatedBy _ _

/-- Parts that differ at most in the text of the reason why the document is not cut. -/
structure Alike (p q : Part) : Prop where
  document : p.document = q.document
  index : p.index = q.index
  title : p.title = q.title
  words : p.words = q.words
  metadata : ∀ key, key ≠ utf8 "reason" → p.metadata.get? key = q.metadata.get? key
  reason : (p.metadata.get? (utf8 "reason")).isSome = (q.metadata.get? (utf8 "reason")).isSome

theorem Alike.refl (p : Part) : Alike p p := ⟨rfl, rfl, rfl, rfl, fun _ _ => rfl, rfl⟩

theorem alike_note (p : Part) (reason other : Bytes) :
    Alike (p.note (utf8 "reason") reason) (p.note (utf8 "reason") other) where
  document := rfl
  index := rfl
  title := rfl
  words := rfl
  metadata key hkey := by
    simp only [Part.note, Members.get?_insert, if_neg (Ne.symm hkey)]
  reason := by
    simp only [Part.note, Members.get?_insert, if_pos, Option.isSome_some]

theorem runs_congr {separates other : Node → Bool} {ns : List Node}
    (h : ∀ n ∈ ns, separates n = other n) : runs separates ns = runs other ns := by
  induction ns with
  | nil => rfl
  | cons n ns ih =>
    obtain ⟨hn, hns⟩ := List.forall_mem_cons.1 h
    rw [runs, runs, hn, ih hns]

theorem any_congr {separates other : Node → Bool} {ns : List Node}
    (h : ∀ n ∈ ns, separates n = other n) : ns.any separates = ns.any other := by
  rw [Bool.eq_iff_iff, List.any_eq_true, List.any_eq_true]
  exact exists_congr fun n => and_congr_right fun hn => by rw [h n hn]

theorem splitAtSeparators_alike {d : Document} {separates other : Node → Bool}
    (h : ∀ n ∈ d.children, separates n = other n) (reason why : Bytes) :
    ∃ ps qs, (d.splitAtSeparators separates reason).result = .ok ps ∧
      (d.splitAtSeparators other why).result = .ok qs ∧ List.Forall₂ Alike ps qs := by
  have hsplit : d.splitAtSeparators separates reason = d.splitAtSeparators other reason := by
    rw [splitAtSeparators, splitAtSeparators, runs_congr h, any_congr h]
  rw [hsplit]
  by_cases hboth : (∃ n ∈ d.children, other n = true) ∧ ∃ n ∈ d.children, ¬ other n = true
  · obtain ⟨hsome, hother⟩ := hboth
    obtain ⟨places, -, hparts⟩ := (d.splitAtSeparators_separatedBy other reason).1 hsome hother
    refine ⟨_, _, hparts, ?_, List.forall₂_same.2 fun p _ => .refl p⟩
    rw [splitAtSeparators_result why hsome hother, ← splitAtSeparators_result reason hsome hother,
      hparts]
  · have hwhole : (∀ n ∈ d.children, ¬ other n = true) ∨ ∀ n ∈ d.children, other n = true := by
      rw [not_and_or] at hboth
      simpa using hboth
    rw [splitAtSeparators_whole reason hwhole, splitAtSeparators_whole why hwhole]
    exact ⟨_, _, d.keptWhole_result _ reason, d.keptWhole_result _ why,
      .cons (alike_note _ reason why) .nil⟩

/-- A delimiter with text in it separates at breaks, if it is a rule, and at the paragraphs that
read like it, and a split at breaks separates at breaks. Either way the parts are the maximal runs
of the other blocks, and a rule that no paragraph reads like cuts as breaks do. -/
theorem split_maximalRuns (d : Document) :
    (∀ delimiter, delimiter.trim ≠ [] →
      d.SeparatedBy (Separator delimiter.trim) (utf8 "no_delimiters_found")
        (d.splitByDelimiter delimiter)) ∧
    d.SeparatedBy (fun n => n.kind = .thematicBreak) (utf8 "no_breaks_found") d.splitByBreak ∧
    ∀ delimiter, IsRule delimiter.trim →
      (∀ n ∈ d.children, n.kind = .paragraph → (n.extractText []).trim ≠ delimiter.trim) →
        ∃ ps qs, (d.splitByDelimiter delimiter).result = .ok ps ∧
          d.splitByBreak.result = .ok qs ∧ List.Forall₂ Alike ps qs := by
  constructor
  · intro delimiter h
    exact d.splitByDelimiter_separatedBy h
  constructor
  · exact d.splitByBreak_separatedBy
  intro delimiter hrule hparagraph
  have hne : delimiter.trim ≠ [] := by
    obtain ⟨mark, -, k, hk, htrim⟩ := hrule
    intro hnil
    rw [hnil, eq_comm, List.replicate_eq_nil_iff] at htrim
    omega
  have hagree : ∀ n ∈ d.children, isDelimiter delimiter.trim n = isBreak n := by
    intro n hn
    rw [Bool.eq_iff_iff, isDelimiter_iff, isBreak_iff]
    constructor
    · intro h
      cases h with
      | rule hkind _ => exact hkind
      | paragraph hkind htext => exact absurd htext (hparagraph n hn hkind)
    · intro hkind
      exact .rule hkind hrule
  rw [splitByDelimiter_eq d hne]
  exact splitAtSeparators_alike hagree _ _

def divided : Document :=
  { children := [Node.plain .paragraph [Node.plainText (utf8 "one")],
      Node.plain .thematicBreak [], Node.plain .paragraph [Node.plainText (utf8 "two")],
      Node.plain .thematicBreak []] }

theorem divided_split_maximalRuns :
    divided.SeparatedBy (Separator (utf8 "---")) (utf8 "no_delimiters_found")
      (divided.splitByDelimiter (utf8 " --- ")) ∧
    divided.SeparatedBy (fun n => n.kind = .thematicBreak) (utf8 "no_breaks_found")
      divided.splitByBreak ∧
    IsRule (utf8 "---") ∧
    (∀ n ∈ divided.children, n.kind = .paragraph →
      (n.extractText []).trim ≠ (utf8 " --- ").trim) ∧
    ∃ ps qs, (divided.splitByDelimiter (utf8 " --- ")).result = .ok ps ∧
      divided.splitByBreak.result = .ok qs ∧ List.Forall₂ Alike ps qs := by
  obtain ⟨hdelimiter, hbreak, halike⟩ := split_maximalRuns divided
  have hrule : IsRule (utf8 "---") := ⟨45, by decide, 3, by decide, by decide⟩
  have hparagraph : ∀ n ∈ divided.children, n.kind = .paragraph →
      (n.extractText []).trim ≠ (utf8 " --- ").trim := by decide
  exact ⟨hdelimiter (utf8 " --- ") (by decide), hbreak, hrule, hparagraph,
    halike (utf8 " --- ") hrule hparagraph⟩

end Document
end Folio
