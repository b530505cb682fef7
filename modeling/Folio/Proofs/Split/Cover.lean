import Folio.Proofs.Outcome
import Folio.Proofs.Section.Partition
import Folio.Proofs.Split.Batch

/-!
# Splits cover the document

Splitting at headings, by words, into so many parts or by what suits the document
hands out its blocks in order, each to one part. The parts are numbered, are documents
with the attributes of the whole, and their words add up to its words.
-/

set_option autoImplicit false

namespace Folio

/-- The parts are the blocks `nodes` of a document, cut in order. -/
structure Divides (d : Document) (nodes : List Node) (parts : List Part) : Prop where
  children : (parts.map fun p => p.document.children).flatten = nodes
  nonempty : parts ≠ []
  numbered : parts.map Part.index = List.range' 1 parts.length
  filled : ∀ p ∈ parts, p.document.children = [] → d.children = []
  attrs : ∀ p ∈ parts, p.document.attrs = d.attrs
  words : (parts.map Part.words).sum = textWords nodes

def Document.Covers (d : Document) (nodes : List Node) (split : Outcome (List Part)) : Prop :=
  ∃ parts, split.result = .ok parts ∧ Divides d nodes parts

/-- A part that is a passage of a document, with the attributes of the whole and nothing noted. -/
structure Part.Shows (d : Document) (p : Passage) (part : Part) : Prop where
  children : part.document.children = p.nodes
  attrs : part.document.attrs = d.attrs
  title : part.title = p.title
  words : part.words = p.words
  metadata : part.metadata = []

structure PartsOf (d : Document) (ps : List Passage) (parts : List Part) : Prop where
  shown : List.Forall₂ (Part.Shows d) ps parts
  numbered : parts.map Part.index = List.range' 1 parts.length

theorem ofPassage_result {d : Document} {p : Passage} (h : p.nodes ⊆ d.children) (index : Nat) :
    ∃ part, (Part.ofPassage d index p).result = .ok part ∧ Part.Shows d p part ∧
      part.index = index := by
  have hblocks : ∀ n ∈ p.nodes, n.kind.isDocumentBlock = true := fun n hn => d.areBlocks n (h hn)
  have hbuilt := Document.build_attrs hblocks d
  exact ⟨_, Outcome.result_bind_ok _ hbuilt, ⟨rfl, rfl, rfl, rfl, rfl⟩, rfl⟩

theorem ofPassages_result {d : Document} {ps : List Passage}
    (h : ∀ p ∈ ps, p.nodes ⊆ d.children) :
    ∃ parts, (Part.ofPassages d ps).result = .ok parts ∧ PartsOf d ps parts := by
  have hbuilt : ∀ q ∈ ps.zipIdx, ∃ part, (Part.ofPassage d (q.2 + 1) q.1).result = .ok part ∧
      Part.Shows d q.1 part ∧ part.index = q.2 + 1 := fun q hq =>
    ofPassage_result (h q.1 (List.fst_mem_of_mem_zipIdx hq)) (q.2 + 1)
  obtain ⟨parts, hresult, hparts⟩ := Outcome.exists_sequence hbuilt
  refine ⟨parts, hresult, ?_, ?_⟩
  · rw [← List.zipIdx_map_fst 0 ps, List.forall₂_map_left_iff]
    exact hparts.imp fun _ _ hpart => hpart.1
  · apply List.ext_getElem (by simp)
    intro i hi _
    rw [List.length_map] at hi
    have hplace : i < ps.zipIdx.length := hparts.length_eq ▸ hi
    have hindex : parts[i].index = ps.zipIdx[i].2 + 1 := (hparts.get hplace hi).2
    rw [List.getElem_map, hindex, List.getElem_zipIdx, List.getElem_range']
    omega

theorem exists_shown {d : Document} {ps : List Passage} {parts : List Part}
    (h : List.Forall₂ (Part.Shows d) ps parts) {part : Part} (hpart : part ∈ parts) :
    ∃ p ∈ ps, Part.Shows d p part := by
  obtain ⟨i, hi, rfl⟩ := List.getElem_of_mem hpart
  have hlength := h.length_eq
  exact ⟨ps[i], List.getElem_mem _, h.get (by omega) hi⟩

namespace PartsOf

variable {d : Document} {ps : List Passage} {parts : List Part} (h : PartsOf d ps parts)
include h

theorem map_eq {α : Type} {f : Part → α} {g : Passage → α}
    (hfg : ∀ p part, Part.Shows d p part → f part = g p) : parts.map f = ps.map g := by
  have hsame : List.Forall₂ (fun p part => g p = f part) ps parts :=
    h.shown.imp fun p part hshows => (hfg p part hshows).symm
  exact (List.forall₂_eq_eq_eq ▸ List.forall₂_map_left_iff.2 (List.forall₂_map_right_iff.2 hsame) :
    ps.map g = parts.map f).symm

theorem exists_passage {part : Part} (hpart : part ∈ parts) : ∃ p ∈ ps, Part.Shows d p part :=
  exists_shown h.shown hpart

theorem ne_nil (hps : ps ≠ []) : parts ≠ [] := by
  rintro rfl
  exact hps (List.forall₂_nil_right_iff.1 h.shown)

theorem divides (hps : ps ≠ []) (hfilled : ∀ p ∈ ps, p.nodes = [] → d.children = []) :
    Divides d (ps.map Passage.nodes).flatten parts where
  children := by rw [h.map_eq fun _ _ hshows => hshows.children]
  nonempty := h.ne_nil hps
  numbered := h.numbered
  filled part hpart hempty := by
    obtain ⟨p, hp, hshows⟩ := h.exists_passage hpart
    exact hfilled p hp (hshows.children.symm.trans hempty)
  attrs part hpart := by
    obtain ⟨p, -, hshows⟩ := h.exists_passage hpart
    exact hshows.attrs
  words := by
    rw [h.map_eq fun _ _ hshows => hshows.words, textWords_flatten, List.map_map]
    rfl

end PartsOf

theorem Divides.note {d : Document} {nodes : List Node} {parts : List Part}
    (h : Divides d nodes parts) (key text : Bytes) :
    Divides d nodes (parts.map (Part.note key text)) where
  children := by
    rw [List.map_map]
    exact h.children
  nonempty := by simpa using h.nonempty
  numbered := by
    rw [List.map_map, List.length_map]
    exact h.numbered
  filled part hpart := by
    obtain ⟨p, hp, rfl⟩ := List.mem_map.1 hpart
    exact h.filled p hp
  attrs part hpart := by
    obtain ⟨p, hp, rfl⟩ := List.mem_map.1 hpart
    exact h.attrs p hp
  words := by
    rw [List.map_map]
    exact h.words

namespace Passage

/-- Passages that are the blocks `nodes` in order, none of them empty. -/
structure Cuts (nodes : List Node) (ps : List Passage) : Prop where
  nodes : (ps.map Passage.nodes).flatten = nodes
  nonempty : ps ≠ []
  filled : ∀ p ∈ ps, p.nodes ≠ []

theorem Cuts.subset {nodes : List Node} {ps : List Passage} (h : Cuts nodes ps) :
    ∀ p ∈ ps, p.nodes ⊆ nodes := by
  intro p hp n hn
  rw [← h.nodes]
  exact List.mem_flatten_of_mem (List.mem_map_of_mem hp) hn

theorem Cuts.divides {d : Document} {nodes : List Node} {ps : List Passage} {parts : List Part}
    (h : Cuts nodes ps) (hparts : PartsOf d ps parts) : Divides d nodes parts := by
  have hdivides := hparts.divides h.nonempty fun p hp hempty => absurd hempty (h.filled p hp)
  rwa [h.nodes] at hdivides

theorem before_nodes (d : Document) (parts : List Section) :
    ((before d parts).map Passage.nodes).flatten = d.beforeParts parts := by
  unfold before
  cases h : d.beforeParts parts <;> simp

theorem before_filled {d : Document} {parts : List Section} :
    ∀ p ∈ before d parts, p.nodes ≠ [] := by
  unfold before
  cases h : d.beforeParts parts <;> simp

theorem cuts_sections {d : Document} {level : Int} (h : d.partition level ≠ []) :
    Cuts (d.children.dropWhile fun n => !n.opens level)
      ((d.partition level).map ofSection) where
  nodes := by
    rw [List.map_map]
    exact Section.cut_nodes_flatten 0 d.children
  nonempty := by simpa using h
  filled p hp := by
    obtain ⟨s, hs, rfl⟩ := List.mem_map.1 hp
    exact Document.partition_nodes_ne_nil hs

theorem cuts_partition {d : Document} {level : Int} (h : d.partition level ≠ []) :
    Cuts d.children
      (before d (d.partition level) ++ (d.partition level).map ofSection) where
  nodes := by
    rw [List.map_append, List.flatten_append, before_nodes, List.map_map]
    exact d.partition_covers level
  nonempty := by simp [h]
  filled p hp := by
    rcases List.mem_append.1 hp with hp | hp
    · exact before_filled p hp
    · exact (cuts_sections h).filled p hp

/-- The passages of a split at headings are the stretches of the partition. -/
theorem partition_stretches (d : Document) (level : Int) :
    (before d (d.partition level) ++ (d.partition level).map ofSection).map Passage.nodes =
      Section.stretches level d.children := by
  have hbefore : (before d (d.partition level)).map Passage.nodes =
      if (Section.upToOpener level d.children).isEmpty then []
      else [Section.upToOpener level d.children] := by
    rw [before, Document.beforeParts_eq]
    split <;> rfl
  rw [List.map_append, hbefore, List.map_map]
  rfl

theorem merge_nodes (bs : List (List Passage)) :
    ((bs.map merge).map Passage.nodes).flatten = (bs.flatten.map Passage.nodes).flatten := by
  rw [List.map_flatten, List.flatten_flatten, List.map_map, List.map_map]
  rfl

theorem merge_filled {batch : List Passage} (h : batch ≠ []) (hfilled : ∀ p ∈ batch, p.nodes ≠ []) :
    (merge batch).nodes ≠ [] := by
  cases batch with
  | nil => exact absurd rfl h
  | cons p batch =>
    have hp := hfilled p (by simp)
    simp [merge, hp]

theorem Cuts.fillAll {nodes : List Node} {ps : List Passage} (h : Cuts nodes ps) (target : Nat) :
    Cuts nodes (fillAll target ps) := by
  cases ps with
  | nil => exact absurd rfl h.nonempty
  | cons p ps =>
    have hflat : (batches target [p] ps).flatten = p :: ps := batches_flatten target [p] ps
    rw [fillAll_eq]
    constructor
    · rw [merge_nodes, hflat]
      exact h.nodes
    · obtain ⟨more, rest, hbatches⟩ := batches_eq_cons target [p] ps
      simp [hbatches]
    · intro q hq
      obtain ⟨batch, hbatch, rfl⟩ := List.mem_map.1 hq
      apply merge_filled
      · exact batches_ne_nil (by simp) batch hbatch
      · intro r hr
        apply h.filled
        rw [← hflat]
        exact List.mem_flatten_of_mem hbatch hr

end Passage

namespace Document

def onlyPart (d : Document) (title : Option Bytes) : Part where
  document := d
  index := 1
  title := title
  words := textWords d.children

theorem whole_result (d : Document) (title : Option Bytes) :
    (d.whole title).result = .ok [d.onlyPart title] := by
  have hbuilt := build_attrs d.areBlocks d
  exact Outcome.result_bind_ok _ (Outcome.result_bind_ok _ hbuilt)

theorem keptWhole_result (d : Document) (title : Option Bytes) (reason : Bytes) :
    (d.keptWhole title reason).result =
      .ok [(d.onlyPart title).note (utf8 "reason") reason] :=
  Outcome.result_bind_ok _ (d.whole_result title)

theorem onlyPart_divides (d : Document) (title : Option Bytes) :
    Divides d d.children [d.onlyPart title] where
  children := List.flatten_singleton
  nonempty := List.cons_ne_nil _ _
  numbered := rfl
  filled _ hp hempty := by rwa [List.mem_singleton.1 hp] at hempty
  attrs _ hp := by rw [List.mem_singleton.1 hp]; rfl
  words := List.sum_singleton

theorem keptWhole_covers (d : Document) (title : Option Bytes) (reason : Bytes) :
    d.Covers d.children (d.keptWhole title reason) :=
  ⟨_, d.keptWhole_result title reason, (d.onlyPart_divides title).note _ reason⟩

theorem partition_of_hasHeadingAt {d : Document} {level : Int}
    (h : d.hasHeadingAt level = true) : d.partition level ≠ [] := by
  obtain ⟨n, hn, hlevel⟩ := List.any_eq_true.1 h
  have hopens : n.opens level = true := by
    rw [Node.opens, eq_of_beq hlevel]
    simp
  exact partition_ne_nil hn hopens

theorem splitByHeading_whole {d : Document} {level : Int} (h : 1 ≤ level ∧ level ≤ 6)
    (hat : d.hasHeadingAt level = false) (includePreamble : Bool) :
    d.splitByHeading level includePreamble = d.keptWhole none (utf8 "no_headings_found") := by
  simp [splitByHeading, outOfRange_eq_false h, hat]

theorem splitByHeading_result {d : Document} {level : Int} (h : 1 ≤ level ∧ level ≤ 6)
    (hat : d.hasHeadingAt level = true) (includePreamble : Bool)
    (hsub : ∀ p ∈ (if includePreamble then Passage.before d (d.partition level) else []) ++
      (d.partition level).map Passage.ofSection, p.nodes ⊆ d.children) :
    ∃ parts, (d.splitByHeading level includePreamble).result = .ok parts ∧
      PartsOf d ((if includePreamble then Passage.before d (d.partition level) else []) ++
        (d.partition level).map Passage.ofSection) parts := by
  obtain ⟨parts, hresult, hparts⟩ := ofPassages_result hsub
  refine ⟨parts, ?_, hparts⟩
  unfold splitByHeading
  simp only [outOfRange_eq_false h, hat, Bool.false_eq_true, if_false, Bool.not_true]
  exact Outcome.result_bind_ok _ hresult

theorem splitByHeading_covers (d : Document) {level : Int} (h : 1 ≤ level ∧ level ≤ 6) :
    d.Covers d.children (d.splitByHeading level true) := by
  cases hat : d.hasHeadingAt level with
  | false =>
    rw [splitByHeading_whole h hat]
    exact d.keptWhole_covers none _
  | true =>
    have hcuts := Passage.cuts_partition (partition_of_hasHeadingAt hat)
    obtain ⟨parts, hresult, hparts⟩ := splitByHeading_result h hat true hcuts.subset
    exact ⟨parts, hresult, hcuts.divides hparts⟩

theorem splitByHeading_covers_sections {d : Document} {level : Int} (h : 1 ≤ level ∧ level ≤ 6)
    (hat : d.hasHeadingAt level = true) :
    d.Covers (d.children.dropWhile fun n => !n.opens level) (d.splitByHeading level false) := by
  have hcuts := Passage.cuts_sections (partition_of_hasHeadingAt hat)
  have hsub := fun p hp =>
    List.Subset.trans (hcuts.subset p hp) (List.dropWhile_suffix _).subset
  obtain ⟨parts, hresult, hparts⟩ := splitByHeading_result h hat false hsub
  exact ⟨parts, hresult, hcuts.divides hparts⟩

theorem splitByWords_whole {d : Document} {target : Int} (h : 1 ≤ target)
    (hparts : d.partition 6 = []) :
    d.splitByWords target = d.keptWhole none (utf8 "no_sections") := by
  unfold splitByWords
  rw [if_neg (by omega), hparts]
  rfl

theorem splitByWords_result {d : Document} {target : Int} (h : 1 ≤ target)
    (hparts : d.partition 6 ≠ []) :
    ∃ parts, (d.splitByWords target).result = .ok parts ∧
      PartsOf d (Passage.fillAll target.toNat d.passages) parts := by
  have hcuts := (Passage.cuts_partition hparts).fillAll target.toNat
  have hsome : (d.partition 6).isEmpty = false := by simpa using hparts
  obtain ⟨parts, hresult, hshown⟩ := ofPassages_result hcuts.subset
  refine ⟨parts, ?_, hshown⟩
  unfold splitByWords
  rw [if_neg (by omega), hsome]
  exact Outcome.result_bind_ok _ hresult

theorem splitByWords_covers (d : Document) {target : Int} (h : 1 ≤ target) :
    d.Covers d.children (d.splitByWords target) := by
  by_cases hparts : d.partition 6 = []
  · rw [splitByWords_whole h hparts]
    exact d.keptWhole_covers none _
  · have hcuts := (Passage.cuts_partition hparts).fillAll target.toNat
    obtain ⟨parts, hresult, hshown⟩ := splitByWords_result h hparts
    exact ⟨parts, hresult, hcuts.divides hshown⟩

theorem splitByParts_whole {d : Document} {count : Int} (h : 1 ≤ count)
    (hwords : textWords d.children = 0) : d.splitByParts count = d.whole none := by
  unfold splitByParts
  rw [if_neg (by omega)]
  exact if_pos hwords

theorem splitByParts_share {d : Document} {count : Int} (h : 1 ≤ count)
    (hwords : textWords d.children ≠ 0) :
    d.splitByParts count =
      d.splitByWords (max 1 (textWords d.children / count.toNat) : Nat) := by
  have hshare : ((max 1 (textWords d.children / count.toNat) : Nat) : Int) =
      max 1 ((textWords d.children : Int) / count.toNat) := by
    rw [← Int.natCast_ediv]
    omega
  unfold splitByParts
  rw [if_neg (by omega), hshare]
  exact if_neg hwords

theorem splitByParts_covers (d : Document) {count : Int} (h : 1 ≤ count) :
    d.Covers d.children (d.splitByParts count) := by
  by_cases hwords : textWords d.children = 0
  · rw [splitByParts_whole h hwords]
    exact ⟨_, d.whole_result none, d.onlyPart_divides none⟩
  · rw [splitByParts_share h hwords]
    exact d.splitByWords_covers (by omega)

theorem splitByDelimiter_eq (d : Document) {delimiter : Bytes} (h : delimiter.trim ≠ []) :
    d.splitByDelimiter delimiter =
      d.splitAtSeparators (isDelimiter delimiter.trim) (utf8 "no_delimiters_found") := by
  have hsome : delimiter.trim.isEmpty = false := by simpa using h
  unfold splitByDelimiter
  simp [hsome]

theorem chose_result {split : Outcome (List Part)} {parts : List Part}
    (h : split.result = .ok parts) (strategy : Bytes) :
    (chose strategy split).result = .ok (parts.map (Part.note (utf8 "strategy") strategy)) := by
  unfold chose
  rw [Outcome.result_bind_ok _ h]
  rfl

theorem chose_covers {d : Document} {nodes : List Node} {split : Outcome (List Part)}
    (h : d.Covers nodes split) (strategy : Bytes) : d.Covers nodes (chose strategy split) := by
  obtain ⟨parts, hsplit, hdivides⟩ := h
  exact ⟨_, chose_result hsplit strategy, hdivides.note _ strategy⟩

theorem suitsTop_ok (d : Document) (target : Int) : ∃ b, (d.suitsTop target).result = .ok b := by
  unfold suitsTop
  split
  · exact ⟨_, rfl⟩
  · exact ⟨_, rfl⟩

theorem suitsSecond_ok (d : Document) (target : Int) :
    ∃ b, (d.suitsSecond target).result = .ok b := by
  unfold suitsSecond
  split
  · exact ⟨_, rfl⟩
  · exact ⟨_, rfl⟩

theorem splitAuto_covers (d : Document) {target : Int} (h : 1 ≤ target) :
    d.Covers d.children (d.splitAuto target) := by
  obtain ⟨top, htop⟩ := d.suitsTop_ok target
  obtain ⟨second, hsecond⟩ := d.suitsSecond_ok target
  unfold Covers splitAuto
  rw [if_neg (by omega), Outcome.result_bind_ok _ htop]
  cases top with
  | true => exact chose_covers (d.splitByHeading_covers (by omega)) _
  | false =>
    simp only [Bool.false_eq_true, if_false]
    rw [Outcome.result_bind_ok _ hsecond]
    cases second with
    | true => exact chose_covers (d.splitByHeading_covers (by omega)) _
    | false => exact chose_covers (d.splitByWords_covers h) _

/-- Every split at headings with what stands before them, by words, into so many parts or by
what suits divides all blocks of the document. Without what stands before them, a split at
headings divides the blocks from the first heading that opens a part on, if a heading of the
very level exists, and else all blocks. -/
theorem split_covers (d : Document) :
    (∀ level, 1 ≤ level ∧ level ≤ 6 → d.Covers d.children (d.splitByHeading level true)) ∧
    (∀ target, 1 ≤ target → d.Covers d.children (d.splitByWords target)) ∧
    (∀ count, 1 ≤ count → d.Covers d.children (d.splitByParts count)) ∧
    (∀ target, 1 ≤ target → d.Covers d.children (d.splitAuto target)) ∧
    ∀ level, 1 ≤ level ∧ level ≤ 6 →
      ((∃ n ∈ d.children, n.level? = some level) →
        d.Covers (d.children.dropWhile fun n => !n.opens level) (d.splitByHeading level false)) ∧
      ((¬ ∃ n ∈ d.children, n.level? = some level) →
        d.Covers d.children (d.splitByHeading level false)) := by
  have hat (level : Int) : d.hasHeadingAt level = true ↔
      ∃ n ∈ d.children, n.level? = some level := by
    simp [hasHeadingAt]
  constructor
  · intro level h
    exact d.splitByHeading_covers h
  constructor
  · intro target h
    exact d.splitByWords_covers h
  constructor
  · intro count h
    exact d.splitByParts_covers h
  constructor
  · intro target h
    exact d.splitAuto_covers h
  intro level h
  constructor
  · intro hsome
    exact splitByHeading_covers_sections h ((hat level).2 hsome)
  · intro hnone
    have hfalse : d.hasHeadingAt level = false := by
      rw [← Bool.not_eq_true, hat]
      exact hnone
    rw [splitByHeading_whole h hfalse]
    exact d.keptWhole_covers none _

def prefaced : Document :=
  { children := [Node.plain .paragraph [Node.plainText (utf8 "preface")],
      Node.plain (.heading 2) [Node.plainText (utf8 "title")]] }

theorem prefaced_split_covers :
    prefaced.Covers prefaced.children (prefaced.splitByHeading 3 true) ∧
    prefaced.Covers prefaced.children (prefaced.splitByWords 1) ∧
    prefaced.Covers prefaced.children (prefaced.splitByParts 2) ∧
    prefaced.Covers prefaced.children (prefaced.splitAuto 1) ∧
    prefaced.Covers (prefaced.children.drop 1) (prefaced.splitByHeading 2 false) ∧
    prefaced.Covers prefaced.children (prefaced.splitByHeading 3 false) := by
  obtain ⟨hheading, hwords, hparts, hauto, hbare⟩ := split_covers prefaced
  have hsome : ∃ n ∈ prefaced.children, n.level? = some 2 :=
    ⟨_, List.mem_cons_of_mem _ List.mem_cons_self, rfl⟩
  have hnone : ¬ ∃ n ∈ prefaced.children, n.level? = some 3 := by
    simp [prefaced, Node.level?, Node.plain, Node.shape]
  exact ⟨hheading 3 (by decide), hwords 1 (by decide), hparts 2 (by decide),
    hauto 1 (by decide), (hbare 2 (by decide)).1 hsome, (hbare 3 (by decide)).2 hnone⟩

end Document
end Folio
