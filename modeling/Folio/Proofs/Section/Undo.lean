import Folio.Proofs.Section.Insertion

/-!
# Edits that are undone

A section in its own place changes nothing. A new section beside an old one ends where the old
blocks go on, if it is no higher than the old one: behind it comes the old section itself, or what
ended the old section, or nothing. So it is taken out again by its number, which counts the
headings in front of it.
-/

set_option autoImplicit false

namespace Folio

def Node.opensSection (n : Node) : Bool := n.level?.any fun l => 1 ≤ l && l ≤ 6

namespace Section

theorem Closed.found {level : Int} {taken rest : List Node} (h : Closed level taken rest)
    (hlevel : 1 ≤ level ∧ level ≤ 6) (before : List Node) :
    ∃ s : Section, s.start = before.length ∧ s.stop = before.length + taken.length ∧
      (outlineOf (fun l => 1 ≤ l && l ≤ 6) 0
        (before ++ (taken ++ rest)))[before.countP Node.opensSection]? = some s := by
  obtain ⟨n, inner, rfl, hn, hinner⟩ := h.opened
  have hopens : n.level?.any (fun l => 1 ≤ l && l ≤ 6) = true := by simp [hn, hlevel]
  obtain ⟨s, hheads, hs⟩ := getElem?_outlineOf hopens 0 before (inner ++ rest)
  rw [Nat.zero_add] at hheads
  have hsame : s.level = level := Option.some.inj (hheads.level.symm.trans hn)
  have hnodes : s.nodes = n :: inner := by
    rw [hheads.nodes, hsame, upToOpener_plain_append hinner, upToOpener_eq_nil h.ended,
      List.append_nil]
  exact ⟨s, hheads.start, hnodes ▸ hheads.stop_eq, hs⟩

end Section

namespace Document

theorem replaceSection_self {d : Document} {target : Target} {s : Section}
    (hs : (d.resolve target).result = .ok s) :
    (d.replaceSection target s.slots).result = .ok d := by
  obtain ⟨before, n, after, hchildren, hheads, -⟩ :=
    Section.mem_outlineOf (mem_sections_of_resolve hs)
  rw [Nat.zero_add] at hheads
  obtain ⟨hsplit, hstop⟩ := hheads.split
  rw [← hchildren] at hsplit
  have hslots : s.slots = s.nodes.map some := by
    rw [Section.slots, Section.nodes, hheads.heading]
    rfl
  have htakes : Shape.document.Takes s.nodes := by
    have hall : Shape.document.Takes d.children := d.areBlocks
    rw [hsplit, Shape.takes_document_append, Shape.takes_document_append] at hall
    exact hall.1.2
  have hfront : d.children.take s.start = before := by
    rw [hchildren, hheads.start, List.take_left]
  have hback : d.children.drop s.stop = Section.fromOpener s.level after := by
    rw [hsplit, hstop, List.drop_left]
  obtain ⟨same, hresult, hsame, hattrs⟩ := replaceSection_result hs htakes
  rw [hfront, hback, ← hsplit] at hsame
  rw [hslots, hresult, Document.ext hsame hattrs]

theorem removeSection_closed {d : Document} {before taken rest : List Node}
    (hchildren : d.children = before ++ (taken ++ rest)) {level : Int}
    (h : Section.Closed level taken rest) (hlevel : 1 ≤ level ∧ level ≤ 6) :
    ∃ left, (d.removeSection (.index (before.countP Node.opensSection))).result = .ok left ∧
      left.children = before ++ rest ∧ left.attrs = d.attrs := by
  obtain ⟨s, hstart, hstop, hs⟩ := h.found hlevel before
  rw [← hchildren] at hs
  obtain ⟨left, hresult, hleft, hattrs⟩ := removeSection_result (resolve_place hs)
  rw [hchildren, hstart, List.take_left, ← List.append_assoc, hstop, ← List.length_append,
    List.drop_left] at hleft
  exact ⟨left, hresult, hleft, hattrs⟩

/-- Blocks that make a section where they are put in are taken out again by its number. -/
theorem insertAt_undone {d : Document} {before taken rest : List Node}
    (hchildren : d.children = before ++ rest) {level : Int}
    (h : Section.Closed level taken rest) (hlevel : 1 ≤ level ∧ level ≤ 6)
    (htakes : Shape.document.Takes taken) :
    ∃ wider, (d.insertAt before.length (taken.map some)).result = .ok wider ∧
      (wider.removeSection (.index (before.countP Node.opensSection))).result = .ok d := by
  have hwider : (d.inserted before.length taken htakes).children = before ++ (taken ++ rest) := by
    rw [inserted_children, hchildren, List.take_left, List.drop_left, List.append_assoc]
  obtain ⟨left, hremoved, hleft, hattrs⟩ := removeSection_closed hwider h hlevel
  refine ⟨_, d.insertAt_result before.length htakes, ?_⟩
  rw [hremoved, Document.ext (hleft.trans hchildren.symm) hattrs]

theorem countP_start_lt {d : Document} {front rest : List Node} (h : d.children = front ++ rest) :
    d.sections.countP (fun t => t.start < front.length) = front.countP Node.opensSection := by
  obtain ⟨own, happend, hlong, hown⟩ :=
    Section.outlineOf_append (fun l => 1 ≤ l && l ≤ 6) 0 front rest
  rw [← h, Nat.zero_add] at happend
  have hfront : own.countP (fun t => t.start < front.length) = own.length := by
    refine List.countP_eq_length.2 fun t ht => ?_
    have hrange := hown t ht
    simp
    omega
  have hback : (Section.outlineOf (fun l => 1 ≤ l && l ≤ 6) front.length rest).countP
      (fun t => t.start < front.length) = 0 := by
    refine List.countP_eq_zero.2 fun t ht => ?_
    obtain ⟨before, n, after, -, hheads, -⟩ := Section.mem_outlineOf ht
    have hplace := hheads.start
    simp
    omega
  show (Section.outlineOf (fun l => 1 ≤ l && l ≤ 6) 0 d.children).countP _ = _
  rw [happend, List.countP_append, hfront, hback, Nat.add_zero, hlong]
  rfl

/-- A section that replaces itself leaves the document as it is. A new section that is no higher
than a section of the document, put in front of it or behind it, is taken out again by its number:
that is the number of the old section, or how many sections start before the end of that one. -/
theorem removeSection_undoes {d : Document} {i : Int} {s : Section}
    (hs : (d.resolve (.index i)).result = .ok s) :
    (d.replaceSection (.index i) s.slots).result = .ok d ∧
    ∀ (n : Node) (inner : List Node) (level : Int), n.level? = some level →
      1 ≤ level ∧ level ≤ 6 → s.level ≤ level →
      (∀ m ∈ inner, m.kind.isBlock = true ∧ m.kind ≠ .document) →
      (∀ m ∈ inner, ∀ l, m.level? = some l → level < l) →
      (∃ wider, (d.addSectionBefore (.index i) ((n :: inner).map some)).result = .ok wider ∧
        (wider.removeSection (.index i)).result = .ok d) ∧
      ∃ wider, (d.addSectionAfter (.index i) ((n :: inner).map some)).result = .ok wider ∧
        (wider.removeSection
          (.index (d.sections.countP fun t => t.start < s.stop))).result = .ok d := by
  refine ⟨replaceSection_self hs, ?_⟩
  intro n inner level hn hrange hle hblocks hdeep
  obtain ⟨k, rfl, hk⟩ := exists_place_of_resolve hs
  obtain ⟨before, m, after, hchildren, hheads, -, rfl⟩ := Section.heads_of_getElem? hk
  rw [Nat.zero_add] at hheads
  have htakes : Shape.document.Takes (n :: inner) := by
    have hheading : n.kind = .heading := Node.kind_eq_heading_iff.2 ⟨level, hn⟩
    refine List.forall_mem_cons.2 ⟨by rw [hheading]; rfl, fun c hc => ?_⟩
    simpa [Kind.isDocumentBlock] using hblocks c hc
  have hplain : Section.Plain level inner := Section.plain_of_deeper hdeep
  constructor
  · -- The old section comes next, and its heading ends the new one.
    have hclosed : Section.Closed level (n :: inner) (m :: after) := by
      refine ⟨⟨n, inner, rfl, hn, hplain⟩, ?_⟩
      rintro _ ⟨⟩
      exact Node.opens_iff.2 ⟨s.level, hheads.level, hle⟩
    obtain ⟨wider, hadded, hremoved⟩ := insertAt_undone hchildren hclosed hrange htakes
    refine ⟨wider, ?_, hremoved⟩
    rw [addSectionBefore, Outcome.result_bind_ok _ hs, hheads.start]
    exact hadded
  · -- What ended the old section comes next, and ends the new one as well.
    obtain ⟨hsplit, hstop⟩ := hheads.split
    rw [← hchildren] at hsplit
    have hclosed : Section.Closed level (n :: inner) (Section.fromOpener s.level after) := by
      refine ⟨⟨n, inner, rfl, hn, hplain⟩, fun c hc => ?_⟩
      exact Node.opens_mono (Section.opens_of_head_fromOpener c hc) hle
    obtain ⟨wider, hadded, hremoved⟩ := insertAt_undone hsplit hclosed hrange htakes
    refine ⟨wider, ?_, ?_⟩
    · rw [addSectionAfter, Outcome.result_bind_ok _ hs, hstop]
      exact hadded
    · rw [hstop, countP_start_lt hsplit]
      exact hremoved

/-- Behind the section that holds another one, the new section has the number three and not two. -/
theorem chaptered_removeSection_undoes :
    (chaptered.resolve (.index 1)).result = .ok chapter ∧
    (chaptered.replaceSection (.index 1) chapter.slots).result = .ok chaptered ∧
    (chaptered.sections.countP fun t => t.start < chapter.stop) = 3 ∧
    (∃ wider, (chaptered.addSectionBefore (.index 1)
        [some (Node.plain (.heading 2) []), some (Node.plain .paragraph [])]).result = .ok wider ∧
      (wider.removeSection (.index 1)).result = .ok chaptered) ∧
    ∃ wider, (chaptered.addSectionAfter (.index 1)
        [some (Node.plain (.heading 2) []), some (Node.plain .paragraph [])]).result = .ok wider ∧
      (wider.removeSection
        (.index (chaptered.sections.countP fun t => t.start < chapter.stop))).result =
        .ok chaptered := by
  have hresolve : (chaptered.resolve (.index 1)).result = .ok chapter := rfl
  have hblocks : ∀ m ∈ [Node.plain .paragraph []],
      m.kind.isBlock = true ∧ m.kind ≠ .document := by decide
  have hdeep : ∀ m ∈ [Node.plain .paragraph []], ∀ l, m.level? = some l → 2 < l := by
    intro m hm l hl
    obtain rfl := List.mem_singleton.1 hm
    exact nomatch hl
  obtain ⟨hself, hnew⟩ := removeSection_undoes hresolve
  obtain ⟨hbefore, hafter⟩ := hnew (Node.plain (.heading 2) []) [Node.plain .paragraph []] 2 rfl
    (by decide) (by decide) hblocks hdeep
  exact ⟨hresolve, hself, by decide, hbefore, hafter⟩

end Document
end Folio
