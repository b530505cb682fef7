import Folio.Proofs.Outcome
import Folio.Proofs.Section.Extent
import Folio.Proofs.Section.Outline
import Folio.Section.Edit

/-!
# The parts of a partition end to end

The parts of a partition take up the blocks one after the other, from the first heading that
opens a part to the last block. Where no heading lies above level one they are the sections of
the outline, each cut off where the next one starts.
-/

set_option autoImplicit false

namespace Folio

namespace Section

variable {deepest : Int}

def Tiles : Nat → List Section → Nat → Prop
  | i, [], j => i = j
  | i, s :: ss, j => s.start = i ∧ Tiles s.stop ss j

/-- A part of a partition of the blocks `ns`: the blocks of its range, a heading down to the
level in front and no other such heading behind it. -/
structure IsPart (deepest : Int) (ns : List Node) (s : Section) : Prop where
  range : s.start < s.stop ∧ s.stop ≤ ns.length
  nodes : s.nodes = (ns.take s.stop).drop s.start
  heading : ∃ n, s.heading = some n ∧ n.level? = some s.level ∧ s.level ≤ deepest
  content : ∀ n ∈ s.content, ∀ l, n.level? = some l → deepest < l

theorem cut_cons {n : Node} (h : n.opens deepest = true) (i : Nat) (ns : List Node) :
    ∃ s : Section, s.Found (fun _ m => m ≤ deepest) i n ns ∧ s.level ≤ deepest ∧
      cut deepest i (n :: ns) = s :: cut deepest (i + 1) ns := by
  rcases scan_cons (fun l => l ≤ deepest) (fun _ m => m ≤ deepest) i n ns with
    ⟨s, hs, ho, hcut⟩ | ⟨hskip, -⟩
  · exact ⟨s, hs, by simpa using ho, hcut⟩
  · rw [Node.opens, hskip] at h
    cases h

theorem outlineFrom_cons {n : Node} {ns : List Node} (h : Levelled (n :: ns))
    (ho : n.opens deepest = true) (i : Nat) :
    ∃ t : Section, t.Found (fun l m => m ≤ l) i n ns ∧ t.level ≤ deepest ∧
      outlineFrom deepest i (n :: ns) = t :: outlineFrom deepest (i + 1) ns := by
  obtain ⟨l, hl, hle⟩ := Node.opens_iff.1 ho
  rcases scan_cons (fun l => 1 ≤ l && l ≤ deepest) (fun l m => m ≤ l) i n ns with
    ⟨t, ht, hopens, hscan⟩ | ⟨hskip, -⟩
  · have hrange : 1 ≤ t.level ∧ t.level ≤ deepest := by simpa using hopens
    exact ⟨t, ht, hrange.2, hscan⟩
  · have hlow := h.head hl
    simp [hl, hlow, hle] at hskip

theorem cut_tiles (i : Nat) (ns : List Node) :
    Tiles (i + (upToOpener deepest ns).length) (cut deepest i ns) (i + ns.length) := by
  induction ns generalizing i with
  | nil => rfl
  | cons n ns ih =>
    have hnext := ih (i + 1)
    rw [Nat.add_right_comm i 1 ns.length] at hnext
    cases ho : n.opens deepest with
    | false =>
      have hgrow : (upToOpener deepest (n :: ns)).length = (upToOpener deepest ns).length + 1 := by
        simp [upToOpener, ho]
      rw [cut_cons_plain ho, hgrow, Nat.add_comm _ 1, ← Nat.add_assoc]
      exact hnext
    | true =>
      obtain ⟨s, hs, -, hcut⟩ := cut_cons ho i ns
      have hnone : upToOpener deepest (n :: ns) = [] := by simp [upToOpener, ho]
      have hstop : s.stop = i + 1 + (upToOpener deepest ns).length := by
        rw [hs.stop, hs.content]
        rfl
      rw [hcut, hnone, Tiles, hstop]
      exact ⟨hs.start, hnext⟩

theorem Found.nodes {closes : Int → Int → Bool} {s : Section} {before after : List Node}
    {n : Node} (h : s.Found closes before.length n after) :
    s.nodes = ((before ++ n :: after).take s.stop).drop s.start ∧
      s.stop ≤ (before ++ n :: after).length := by
  have hprefix : s.content <+: after := by
    rw [h.content]
    exact List.takeWhile_prefix _
  have hlength := hprefix.length_le
  constructor
  · rw [h.stop, h.start, List.drop_take, List.drop_left, Section.nodes, h.heading,
      Nat.add_right_comm, Nat.add_assoc, Nat.add_sub_cancel_left, List.take_succ_cons,
      ← List.prefix_iff_eq_take.1 hprefix]
    rfl
  · rw [h.stop, List.length_append, List.length_cons]
    omega

theorem isPart_of_mem_cut {ns : List Node} {s : Section} (hs : s ∈ cut deepest 0 ns) :
    s.IsPart deepest ns := by
  obtain ⟨before, n, after, rfl, hfound, ho⟩ := mem_scan hs
  rw [Nat.zero_add] at hfound
  obtain ⟨hnodes, hend⟩ := hfound.nodes
  have hlevel : s.level ≤ deepest := by simpa using ho
  refine ⟨⟨?_, hend⟩, hnodes, ⟨n, hfound.heading, hfound.level, hlevel⟩, ?_⟩
  · rw [hfound.start, hfound.stop]
    omega
  · intro m hm l hl
    rw [hfound.content] at hm
    simpa [hl] using List.mem_takeWhile_imp hm

def upTo (s : Section) (place : Nat) : Section :=
  { s with content := s.content.take (place - (s.start + 1)), stop := min s.stop place }

def abutting : List Section → List Section
  | [] => []
  | [s] => [s]
  | s :: t :: ss => s.upTo t.start :: abutting (t :: ss)

theorem abutting_heading (ss : List Section) :
    (abutting ss).map heading = ss.map heading := by
  induction ss with
  | nil => rfl
  | cons s ss ih =>
    cases ss with
    | nil => rfl
    | cons t ss => simp [abutting, ih, upTo]

theorem abutting_start (ss : List Section) : (abutting ss).map start = ss.map start := by
  induction ss with
  | nil => rfl
  | cons s ss ih =>
    cases ss with
    | nil => rfl
    | cons t ss => simp [abutting, ih, upTo]

theorem upToOpener_prefix {l : Int} (h : l ≤ deepest) (ns : List Node) :
    upToOpener deepest ns <+: upToOpener l ns := by
  have hstop : upToOpener deepest ns = upToOpener deepest (upToOpener l ns) := by
    rw [upToOpener, upToOpener, upToOpener, List.takeWhile_takeWhile]
    congr 1
    funext n
    cases hn : n.opens l with
    | false => simp
    | true => simp [Node.opens_mono hn h]
  rw [hstop]
  exact List.takeWhile_prefix _

theorem upTo_eq_self {s : Section} {place : Nat} (hstop : s.stop = s.start + 1 + s.content.length)
    (h : s.stop ≤ place) : s.upTo place = s := by
  have hcontent : s.content.take (place - (s.start + 1)) = s.content :=
    List.take_of_length_le (by omega)
  rw [upTo, hcontent, Nat.min_eq_left h]

theorem Found.eq_upTo {s t : Section} {i : Nat} {n : Node} {ns : List Node}
    (hs : s.Found (fun _ m => m ≤ deepest) i n ns) (ht : t.Found (fun l m => m ≤ l) i n ns)
    (h : t.level ≤ deepest) : s = t.upTo (i + 1 + (upToOpener deepest ns).length) := by
  have hlevel : s.level = t.level := Option.some.inj (hs.level.symm.trans ht.level)
  have hcontent : s.content = upToOpener deepest ns := hs.content
  have hprefix : s.content <+: t.content := by
    rw [hcontent, ht.content]
    exact upToOpener_prefix h ns
  have hlength := hprefix.length_le
  have htake : t.content.take (i + 1 + s.content.length - (t.start + 1)) = s.content := by
    rw [ht.start, Nat.add_sub_cancel_left]
    exact (List.prefix_iff_eq_take.1 hprefix).symm
  have hstop : min t.stop (i + 1 + s.content.length) = s.stop := by
    rw [ht.stop, hs.stop]
    omega
  rw [← hcontent, upTo, htake, hstop, ht.heading, ht.start, ← hlevel, ← hs.heading, ← hs.start]

/-- A partition has a part for each section of the outline down to its level, in the same order,
and each part ends where the next one starts. -/
theorem cut_eq_abutting {ns : List Node} (h : Levelled ns) (i : Nat) :
    cut deepest i ns = abutting (outlineFrom deepest i ns) := by
  induction ns generalizing i with
  | nil => rfl
  | cons n ns ih =>
    have hrest := ih h.tail (i + 1)
    cases ho : n.opens deepest with
    | false => rw [cut_cons_plain ho, outlineFrom_cons_skip ho, hrest]
    | true =>
      obtain ⟨s, hs, -, hcut⟩ := cut_cons ho i ns
      obtain ⟨t, ht, hle, houtline⟩ := outlineFrom_cons h ho i
      have hst := hs.eq_upTo ht hle
      rw [hcut, houtline, hrest]
      cases hlater : outlineFrom deepest (i + 1) ns with
      | nil =>
        -- No heading opens another part, so both sections take up all blocks that are left.
        rw [hlater] at hrest
        have hall : upToOpener deepest ns = ns := by
          have hsplit : upToOpener deepest ns ++ fromOpener deepest ns = ns :=
            upToOpener_append_fromOpener ns
          simpa [cut_eq_nil hrest] using hsplit
        have hshort : t.content.length ≤ ns.length := by
          rw [ht.content]
          exact (List.takeWhile_prefix _).length_le
        have hstop : t.stop = t.start + 1 + t.content.length := by rw [ht.stop, ht.start]
        rw [hall, upTo_eq_self hstop (by rw [ht.stop]; omega)] at hst
        rw [hst]
        rfl
      | cons r rs =>
        have hstart : r.start = i + 1 + (upToOpener deepest ns).length := by
          have hheads := congrArg (List.map start) hrest
          rw [hlater, abutting_start] at hheads
          cases hparts : cut deepest (i + 1) ns with
          | nil => simp [hparts] at hheads
          | cons p ps =>
            rw [hparts] at hheads
            rw [← (List.cons.inj hheads).1]
            exact cut_eq_cons hparts
        rw [hst, ← hstart]
        rfl

end Section

namespace Document

variable {deepest : Int}

theorem partition_eq_abutting {d : Document} (h : Levelled d.children) :
    d.partition deepest = Section.abutting (d.outline 1 deepest) :=
  Section.cut_eq_abutting h 0

theorem splitBySections_children (d : Document) : ∃ docs,
    (d.splitBySections true).result = .ok docs ∧
      (docs.map Document.children).flatten = d.children := by
  let before := d.beforeParts (d.partition 6)
  let runs := (if true && !before.isEmpty then [before] else []) ++
    (d.partition 6).map Section.nodes
  have hruns : runs.flatten = d.children := by
    have hbefore : (if true && !before.isEmpty then [before] else []).flatten = before := by
      cases before <;> simp
    rw [List.flatten_append, hbefore]
    exact d.partition_covers 6
  have hbuilt : ∀ ns ∈ runs, ∃ e, (d.excerpt ns).result = .ok e ∧ e.children = ns := by
    intro ns hns
    have hblocks : ∀ n ∈ ns, n.kind.isDocumentBlock = true := fun n hn =>
      d.areBlocks n (hruns ▸ List.mem_flatten_of_mem hns hn)
    exact ⟨_, excerpt_result hblocks, rfl⟩
  obtain ⟨docs, hresult, hdocs⟩ := Outcome.exists_sequence hbuilt
  have hchildren : docs.map Document.children = runs := by
    rw [← List.forall₂_eq_eq_eq, List.forall₂_map_left_iff]
    exact hdocs.flip
  exact ⟨docs, hresult, hchildren.symm ▸ hruns⟩

/-- What stands before the parts of a partition and the parts make up the blocks of the document,
whatever the level. The parts lie end to end up to the last block, each of them under a heading
that opens it and without a second one, and the documents of the split by sections hold all
blocks in order. Where all headings have a level of at least one, the parts down to one of the
levels one to six are the sections down to it, each cut off where the next one starts. -/
theorem partition_tiles (d : Document) (deepest : Int) :
    d.beforeParts (d.partition deepest) ++ ((d.partition deepest).map Section.nodes).flatten =
      d.children ∧
    Section.Tiles (d.beforeParts (d.partition deepest)).length (d.partition deepest)
      d.children.length ∧
    (∀ s ∈ d.partition deepest, s.IsPart deepest d.children) ∧
    (∃ docs, (d.splitBySections true).result = .ok docs ∧
      (docs.map Document.children).flatten = d.children) ∧
    (Levelled d.children → 1 ≤ deepest ∧ deepest ≤ 6 →
      ∃ sections, (d.sectionsBetween 1 deepest).result = .ok sections ∧
        (d.partition deepest).map Section.heading = sections.map Section.heading ∧
        d.partition deepest = Section.abutting sections) := by
  constructor
  · exact d.partition_covers deepest
  constructor
  · have htiles : Section.Tiles (0 + (Section.upToOpener deepest d.children).length)
        (d.partition deepest) (0 + d.children.length) := Section.cut_tiles 0 d.children
    rwa [Nat.zero_add, Nat.zero_add, ← beforeParts_eq] at htiles
  constructor
  · intro s hs
    exact Section.isPart_of_mem_cut hs
  constructor
  · exact d.splitBySections_children
  intro hlevels hrange
  have hparts : d.partition deepest = Section.abutting (d.outline 1 deepest) :=
    partition_eq_abutting hlevels
  refine ⟨d.outline 1 deepest, sectionsBetween_result ⟨by omega, hrange⟩ d, ?_, hparts⟩
  rw [hparts, Section.abutting_heading]

def terraced : Document :=
  { children := [Node.plain .paragraph [], Node.plain (.heading 4) [],
      Node.plain (.heading 2) [], Node.plain .paragraph [], Node.plain (.heading 3) [],
      Node.plain (.heading 1) [], Node.plain (.heading 2) []] }

theorem terraced_levelled : Levelled terraced.children := by decide

/-- The section of level one holds the one behind it, and its part does not. -/
theorem terraced_partition_tiles :
    Levelled terraced.children ∧
    ((terraced.outline 1 2).map fun s => (s.start, s.stop)) = [(2, 5), (5, 7), (6, 7)] ∧
    ((terraced.partition 2).map fun s => (s.start, s.stop)) = [(2, 5), (5, 6), (6, 7)] ∧
    ∃ sections, (terraced.sectionsBetween 1 2).result = .ok sections ∧
      (terraced.partition 2).map Section.heading = sections.map Section.heading ∧
      terraced.partition 2 = Section.abutting sections := by
  obtain ⟨-, -, -, -, houtline⟩ := partition_tiles terraced 2
  exact ⟨terraced_levelled, by decide, by decide, houtline terraced_levelled (by decide)⟩

end Document
end Folio
