import Folio.Proofs.Split.Cover

/-!
# Splitting by words

Word counting never cuts inside a unit: what stands before the first section of the
partition, or one of its sections. A part of several units stays within the target,
no part could have taken in the unit after it, and a part taken alone is not split again.
-/

set_option autoImplicit false

namespace Folio

inductive SplitUnit where
  | preamble (nodes : List Node)
  | titled (s : Section)

namespace SplitUnit

def nodes : SplitUnit → List Node
  | preamble ns => ns
  | titled s => s.nodes

def title : SplitUnit → Bytes
  | preamble _ => utf8 "Preamble"
  | titled s => s.text

def words (u : SplitUnit) : Nat := textWords u.nodes

def passage (u : SplitUnit) : Passage := ⟨some u.title, u.nodes⟩

end SplitUnit

/-- What stands before the sections of the partition, unless it is empty, and the sections. -/
def Document.units (d : Document) : List SplitUnit :=
  (match d.beforeParts (d.partition 6) with
  | [] => []
  | ns => [.preamble ns]) ++ (d.partition 6).map .titled

theorem Document.units_passages (d : Document) : d.units.map SplitUnit.passage = d.passages := by
  have hbefore : (match d.beforeParts (d.partition 6) with
      | [] => []
      | ns => [SplitUnit.preamble ns]).map SplitUnit.passage =
        Passage.before d (d.partition 6) := by
    unfold Passage.before
    cases d.beforeParts (d.partition 6) <;> rfl
  rw [units, passages, List.map_append, hbefore, List.map_map]
  rfl

theorem exists_batches {α β : Type} (f : α → β) {as : List α} {bss : List (List β)}
    (h : bss.flatten = as.map f) : ∃ ass : List (List α), ass.flatten = as ∧
      ass.map (List.map f) = bss := by
  induction bss generalizing as with
  | nil =>
    have has : as = [] := by simpa using h.symm
    exact ⟨[], by simp [has]⟩
  | cons bs bss ih =>
    obtain ⟨front, back, rfl, hfront, hback⟩ := List.map_eq_append_iff.1 h.symm
    obtain ⟨ass, rfl, hmap⟩ := ih hback.symm
    exact ⟨front :: ass, rfl, by simp [hfront, hmap]⟩

namespace SplitUnit

def together (us : List SplitUnit) : Passage := Passage.merge (us.map passage)

theorem together_nodes (us : List SplitUnit) :
    (together us).nodes = (us.map SplitUnit.nodes).flatten := by
  rw [together, Passage.merge, List.map_map]
  rfl

theorem together_words (us : List SplitUnit) :
    (together us).words = Passage.batchWords (us.map passage) :=
  Passage.merge_words _

theorem shows_of_mem_zip {d : Document} {parts : List Part} {groups : List (List SplitUnit)}
    {part : Part} {us : List SplitUnit}
    (hshown : List.Forall₂ (Part.Shows d) (groups.map together) parts)
    (h : (part, us) ∈ parts.zip groups) : Part.Shows d (together us) part := by
  have hpairs := List.forall₂_map_left_iff.1 hshown
  exact List.forall₂_zip hpairs.flip h

end SplitUnit

namespace Document

theorem passages_stretches (d : Document) :
    d.passages.map Passage.nodes = Section.stretches 6 d.children :=
  Passage.partition_stretches d 6

theorem splitByWords_single {d : Document} {target : Int} (h : 1 ≤ target)
    (hfit : d.passages.length ≤ 1 ∨ (textWords d.children : Int) ≤ target) :
    ∃ q, (d.splitByWords target).result = .ok [q] ∧ q.document.children = d.children := by
  by_cases hparts : d.partition 6 = []
  · rw [splitByWords_whole h hparts]
    exact ⟨_, d.keptWhole_result none _, rfl⟩
  · have hcuts := Passage.cuts_partition hparts
    have hnodes : (d.passages.map Passage.nodes).flatten = d.children := hcuts.nodes
    obtain ⟨parts, hresult, hshown⟩ := splitByWords_result h hparts
    cases hps : d.passages with
    | nil => exact absurd hps hcuts.nonempty
    | cons p ps =>
      rw [hps] at hfit hnodes hshown
      have hone : Passage.batches target.toNat [p] ps = [p :: ps] := by
        rcases hfit with hlen | hwords
        · have hnil : ps = [] := by simpa using hlen
          rw [hnil]
          rfl
        · apply Passage.batches_eq_singleton
          rw [← Passage.merge_words]
          show textWords (((p :: ps).map Passage.nodes).flatten) ≤ _
          rw [hnodes]
          omega
      rw [Passage.fillAll_eq, hone] at hshown
      obtain ⟨q, rest, hq, hrest, rfl⟩ := List.forall₂_cons_left_iff.1 hshown.shown
      obtain rfl := List.forall₂_nil_left_iff.1 hrest
      exact ⟨q, hresult, hq.children.trans hnodes⟩

end Document

/-- A part that is made of a run of units, no more than the target allows. -/
structure Part.Holds (target : Int) (part : Part) (us : List SplitUnit) : Prop where
  children : part.document.children = (us.map SplitUnit.nodes).flatten
  words : part.words = textWords part.document.children
  title : ∃ u ∈ us.head?, part.title = some u.title
  within : 1 < us.length → (part.words : Int) ≤ target

namespace SplitUnit

variable {d : Document} {target : Int} {us : List SplitUnit}

theorem together_within (h : 1 ≤ target)
    (hwithin : Passage.Within target.toNat (us.map passage)) (hlen : 1 < us.length) :
    ((together us).words : Int) ≤ target := by
  have hwords := hwithin (by simpa using hlen)
  rw [together_words]
  omega

theorem together_holds {part : Part} (h : 1 ≤ target) (hsome : us ≠ [])
    (hwithin : Passage.Within target.toNat (us.map passage))
    (hshows : Part.Shows d (together us) part) : part.Holds target us where
  children := hshows.children.trans (together_nodes us)
  words := by
    rw [hshows.words, hshows.children]
    rfl
  title := by
    rw [hshows.title]
    cases us with
    | nil => exact absurd rfl hsome
    | cons u us => exact ⟨u, rfl, rfl⟩
  within hlen := by
    rw [hshows.words]
    exact together_within h hwithin hlen

theorem parts_chain {parts : List Part} {groups : List (List SplitUnit)} (h : 1 ≤ target)
    (hshown : List.Forall₂ (Part.Shows d) (groups.map together) parts)
    (hchain : groups.IsChain fun us vs =>
      Passage.Forced target.toNat (us.map passage) (vs.map passage)) :
    (parts.zip groups).IsChain fun r s =>
      ∀ u ∈ s.2.head?, target < (r.1.words : Int) + u.words := by
  have hgroups : (parts.zip groups).map Prod.snd = groups :=
    List.map_snd_zip (by simpa using hshown.length_eq.le)
  rw [← hgroups, List.isChain_map] at hchain
  apply hchain.imp_of_mem_imp
  rintro ⟨part, us⟩ ⟨_, vs⟩ hr - hforced v hv
  have hwords : part.words = Passage.batchWords (us.map passage) := by
    rw [(shows_of_mem_zip hshown hr).words, together_words]
  have hnext : target.toNat < Passage.batchWords (us.map passage) + v.words :=
    hforced v.passage (by simpa using ⟨v, hv, rfl⟩)
  show target < (part.words : Int) + v.words
  omega

theorem units_passages_of_children {e : Document} (hsub : us.Sublist d.units)
    (hchildren : e.children = (us.map SplitUnit.nodes).flatten) :
    e.passages.map Passage.nodes = us.map SplitUnit.nodes := by
  have hnodes : d.units.map SplitUnit.nodes = Section.stretches 6 d.children := by
    rw [← d.passages_stretches, ← d.units_passages, List.map_map]
    rfl
  have hseparated : Section.Separated 6 (us.map SplitUnit.nodes) := by
    apply (Section.separated_stretches d.children).sublist
    rw [← hnodes]
    exact hsub.map _
  rw [Document.passages_stretches, hchildren]
  exact Section.stretches_flatten hseparated

/-- A part that is made of units is not split again. -/
theorem together_kept {e : Document} (h : 1 ≤ target) (hsub : us.Sublist d.units)
    (hwithin : Passage.Within target.toNat (us.map passage))
    (hchildren : e.children = (together us).nodes) :
    ∃ q, (e.splitByWords target).result = .ok [q] ∧ q.document.children = e.children := by
  apply Document.splitByWords_single h
  have hlength := congrArg List.length
    (units_passages_of_children hsub (hchildren.trans (together_nodes us)))
  rw [List.length_map, List.length_map] at hlength
  rw [hlength, hchildren]
  by_cases hlen : 1 < us.length
  · right
    exact together_within h hwithin hlen
  · left
    omega

end SplitUnit

namespace Document

/-- Splitting by words makes every part of whole units that follow one another. A part of several
units stays within the target and ends only where the next unit would exceed it; it is titled
after its first unit, and splitting it again leaves it whole. -/
theorem splitByWords_greedy (d : Document) {target : Int} (h : 1 ≤ target)
    (hopens : ∃ n ∈ d.children, n.opens 6 = true) :
    ∃ runs : List (Part × List SplitUnit),
      (d.splitByWords target).result = .ok (runs.map Prod.fst) ∧
      (runs.map Prod.snd).flatten = d.units ∧
      (∀ r ∈ runs, r.1.Holds target r.2) ∧
      runs.IsChain (fun r s => ∀ u ∈ s.2.head?, target < (r.1.words : Int) + u.words) ∧
      ∀ r ∈ runs, ∃ q, (r.1.document.splitByWords target).result = .ok [q] ∧
        q.document.children = r.1.document.children := by
  obtain ⟨n, hn, hopens⟩ := hopens
  obtain ⟨parts, hresult, ⟨hshown, -⟩⟩ := splitByWords_result h (partition_ne_nil hn hopens)
  cases hps : d.passages with
  | nil => exact absurd hps (Passage.cuts_partition (partition_ne_nil hn hopens)).nonempty
  | cons p ps =>
    have hflat : (Passage.batches target.toNat [p] ps).flatten =
        d.units.map SplitUnit.passage := by
      rw [Passage.batches_flatten, units_passages, hps]
      rfl
    obtain ⟨groups, hunits, hgroups⟩ := exists_batches SplitUnit.passage hflat
    rw [hps, Passage.fillAll_eq, ← hgroups, List.map_map] at hshown
    have hlength : groups.length = parts.length := by simpa using hshown.length_eq
    have hbatch : ∀ us ∈ groups,
        us.map SplitUnit.passage ∈ Passage.batches target.toNat [p] ps := by
      intro us hus
      rw [← hgroups]
      exact List.mem_map_of_mem hus
    have hwithin : ∀ us ∈ groups, Passage.Within target.toNat (us.map SplitUnit.passage) :=
      fun us hus => Passage.batches_within (fun hlen => by simp at hlen) _ (hbatch us hus)
    -- In the order of the statement: result, units, each part, neighbours, splitting again.
    refine ⟨parts.zip groups, ?_, ?_, ?_, ?_, ?_⟩
    · rw [hresult, List.map_fst_zip hlength.ge]
    · rw [List.map_snd_zip hlength.le, hunits]
    · rintro ⟨part, us⟩ hr
      have hus : us ∈ groups := (List.of_mem_zip hr).2
      have hsome : us ≠ [] := by
        rintro rfl
        exact Passage.batches_ne_nil (by simp) _ (hbatch [] hus) rfl
      exact SplitUnit.together_holds h hsome (hwithin us hus)
        (SplitUnit.shows_of_mem_zip hshown hr)
    · have hchain := Passage.batches_forced target.toNat [p] ps
      rw [← hgroups, List.isChain_map] at hchain
      exact SplitUnit.parts_chain h hshown hchain
    · rintro ⟨part, us⟩ hr
      have hus : us ∈ groups := (List.of_mem_zip hr).2
      have hsub : us.Sublist d.units := by
        rw [← hunits]
        exact List.sublist_flatten_of_mem hus
      exact SplitUnit.together_kept h hsub (hwithin us hus)
        (SplitUnit.shows_of_mem_zip hshown hr).children

theorem prefaced_splitByWords_greedy :
    ∃ runs : List (Part × List SplitUnit),
      (prefaced.splitByWords 1).result = .ok (runs.map Prod.fst) ∧
      (runs.map Prod.snd).flatten = prefaced.units ∧ ∀ r ∈ runs, r.1.Holds 1 r.2 := by
  have hopens : ∃ n ∈ prefaced.children, n.opens 6 = true :=
    ⟨_, List.mem_cons_of_mem _ List.mem_cons_self, rfl⟩
  have hone : (1 : Int) ≤ 1 := by decide
  obtain ⟨runs, hresult, hunits, hholds, -⟩ := splitByWords_greedy prefaced hone hopens
  exact ⟨runs, hresult, hunits, hholds⟩

end Document
end Folio
