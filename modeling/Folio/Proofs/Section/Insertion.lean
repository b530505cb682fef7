import Folio.Proofs.Node.Built
import Folio.Proofs.Section.Removal

/-!
# Blocks put into a section

A section keeps its number and its heading when blocks are put into it, since nothing in front of
it changes, and it still ends where it ended if no heading among the blocks closes it. So it
holds its own blocks and the new ones, in front of them or behind.
-/

set_option autoImplicit false

namespace Folio

def Position.fill (position : Position) (content ns : List Node) : List Node :=
  match position with
  | .atStart | .afterHeading => ns ++ content
  | .atEnd => content ++ ns

namespace Section

variable {opens : Int → Bool}

theorem heads_of_getElem? {i k : Nat} {ns : List Node} {s : Section}
    (h : (outlineOf opens i ns)[k]? = some s) :
    ∃ before n after, ns = before ++ n :: after ∧ s.Heads (i + before.length) n after ∧
      opens s.level = true ∧ before.countP (fun m => m.level?.any opens) = k := by
  induction ns generalizing i k with
  | nil => cases h
  | cons n ns ih =>
    have hplace (before : List Node) : i + 1 + before.length = i + (n :: before).length := by
      rw [List.length_cons]
      omega
    rcases outlineOf_cons opens i n ns with ⟨t, ht, ho, hcut⟩ | ⟨hskip, hcut⟩
    · rw [hcut] at h
      cases k with
      | zero =>
        obtain rfl : t = s := Option.some.inj h
        exact ⟨[], n, ns, rfl, ht, ho, rfl⟩
      | succ k =>
        obtain ⟨before, m, after, rfl, hheads, ho', hcount⟩ := ih h
        rw [hplace] at hheads
        refine ⟨n :: before, m, after, rfl, hheads, ho', ?_⟩
        rw [List.countP_cons_of_pos (by simp [ht.level, ho]), hcount]
    · rw [hcut] at h
      obtain ⟨before, m, after, rfl, hheads, ho, hcount⟩ := ih h
      rw [hplace] at hheads
      refine ⟨n :: before, m, after, rfl, hheads, ho, ?_⟩
      rw [List.countP_cons_of_neg (by simp [hskip]), hcount]

theorem getElem?_outlineOf {n : Node} (h : n.level?.any opens = true) (i : Nat)
    (before after : List Node) :
    ∃ s : Section, s.Heads (i + before.length) n after ∧
      (outlineOf opens i (before ++ n :: after))[before.countP fun m => m.level?.any opens]? =
        some s := by
  obtain ⟨own, happend, hlong, -⟩ := outlineOf_append opens i before (n :: after)
  rcases outlineOf_cons opens (i + before.length) n after with ⟨s, hs, -, hcut⟩ | ⟨hskip, -⟩
  · refine ⟨s, hs, ?_⟩
    rw [happend, ← hlong, List.getElem?_append_right (Nat.le_refl _), Nat.sub_self, hcut]
    rfl
  · rw [h] at hskip
    cases hskip

theorem plain_of_deeper {l : Int} {ns : List Node}
    (h : ∀ n ∈ ns, ∀ m, n.level? = some m → l < m) : Plain l ns := by
  intro n hn
  rw [← Bool.not_eq_true]
  intro hopens
  obtain ⟨m, hm, hle⟩ := Node.opens_iff.1 hopens
  have hdeeper := h n hn m hm
  omega

theorem upToOpener_fromOpener (l : Int) (ns : List Node) : upToOpener l (fromOpener l ns) = [] :=
  upToOpener_eq_nil opens_of_head_fromOpener

def placeFor (s : Section) (position : Position) : Nat :=
  if position = .atEnd then s.stop else s.start + 1

/-- Blocks that do not close a section are its own once they are put in: what stood behind the
heading of the section becomes blocks of which it takes up just these. -/
theorem Heads.insert {s : Section} {before after ns : List Node} {n : Node}
    (h : s.Heads before.length n after) (hns : Plain s.level ns) (position : Position) :
    ∃ after', upToOpener s.level after' = position.fill s.content ns ∧
      (before ++ n :: after).take (s.placeFor position) ++ ns ++
        (before ++ n :: after).drop (s.placeFor position) = before ++ n :: after' := by
  have hfront : before ++ n :: after = (before ++ [n]) ++ after := by simp
  have hstart : s.start + 1 = (before ++ [n]).length := by simp [h.start]
  cases position with
  | atEnd =>
    obtain ⟨hback, hstop⟩ := h.split
    have hplain : Plain s.level s.content := h.content ▸ plain_upToOpener after
    refine ⟨s.content ++ (ns ++ fromOpener s.level after), ?_, ?_⟩
    · rw [upToOpener_plain_append hplain, upToOpener_plain_append hns, upToOpener_fromOpener,
        List.append_nil]
      rfl
    · rw [hback, placeFor, if_pos rfl, hstop, List.take_left, List.drop_left, h.nodes, ← h.content]
      simp
  | _ =>
    refine ⟨ns ++ after, ?_, ?_⟩
    · rw [upToOpener_plain_append hns, ← h.content]
      rfl
    · rw [placeFor, if_neg nofun, hfront, hstart, List.take_left, List.drop_left]
      simp

end Section

namespace Document

theorem takes_around (d : Document) (place : Nat) {ns : List Node}
    (hns : Shape.document.Takes ns) :
    Shape.document.Takes (d.children.take place ++ ns ++ d.children.drop place) := by
  rw [Shape.takes_document_append, Shape.takes_document_append]
  exact ⟨⟨fun c hc => d.areBlocks c (List.mem_of_mem_take hc), hns⟩,
    fun c hc => d.areBlocks c (List.mem_of_mem_drop hc)⟩

def inserted (d : Document) (place : Nat) (ns : List Node) (hns : Shape.document.Takes ns) :
    Document where
  children := d.children.take place ++ ns ++ d.children.drop place
  attrs := d.attrs
  areBlocks := d.takes_around place hns
  hasMetadata := d.hasMetadata

theorem inserted_children {d : Document} {place : Nat} {ns : List Node}
    {hns : Shape.document.Takes ns} : (d.inserted place ns hns).children =
      d.children.take place ++ ns ++ d.children.drop place := rfl

theorem insertAt_result (d : Document) (place : Nat) {ns : List Node}
    (hns : Shape.document.Takes ns) :
    (d.insertAt place (ns.map some)).result = .ok (d.inserted place ns hns) := by
  have hbuilt := build_attrs (d.takes_around place hns) d
  rw [List.map_append, List.map_append] at hbuilt
  exact hbuilt

/-- Blocks that do not close a section are its own once they are put in, in front of its blocks
or behind them. It keeps its number and its heading, and the document its attributes. Whatever the
blocks are, putting them at the end of a section is putting them behind it. -/
theorem insertIntoSection_fills {d : Document} {target : Target} {s : Section}
    (hs : (d.resolve target).result = .ok s) :
    ∃ k : Nat, d.sections[k]? = some s ∧
      (∀ ns : List Node, (∀ n ∈ ns, n.kind.isBlock = true ∧ n.kind ≠ .document) →
        (∀ n ∈ ns, ∀ l, n.level? = some l → s.level < l) → ∀ position, ∃ filled s',
          (d.insertIntoSection target (ns.map some) position).result = .ok filled ∧
          filled.attrs = d.attrs ∧ filled.sections[k]? = some s' ∧
          s'.heading = s.heading ∧ s'.content = position.fill s.content ns) ∧
      ∀ slots, d.insertIntoSection target slots .atEnd = d.addSectionAfter target slots := by
  obtain ⟨k, hk⟩ := List.mem_iff_getElem?.1 (mem_sections_of_resolve hs)
  refine ⟨k, hk, ?_, fun slots => rfl⟩
  intro ns hblocks hdeep position
  obtain ⟨before, n, after, hchildren, hheads, ho, hcount⟩ := Section.heads_of_getElem? hk
  rw [Nat.zero_add] at hheads
  obtain ⟨after', hfill, hinserted⟩ := hheads.insert (Section.plain_of_deeper hdeep) position
  have htakes : Shape.document.Takes ns := by
    intro m hm
    simpa [Kind.isDocumentBlock] using hblocks m hm
  have hfilled : (d.inserted (s.placeFor position) ns htakes).children = before ++ n :: after' := by
    rw [inserted_children, hchildren, hinserted]
  have hopens : n.level?.any (fun l => 1 ≤ l && l ≤ 6) = true := by
    rw [hheads.level]
    exact ho
  obtain ⟨s', hheads', hfound⟩ := Section.getElem?_outlineOf hopens 0 before after'
  have hlevel : s'.level = s.level :=
    Option.some.inj (hheads'.level.symm.trans hheads.level)
  refine ⟨d.inserted (s.placeFor position) ns htakes, s', ?_, rfl, ?_, ?_, ?_⟩
  · rw [insertIntoSection, Outcome.result_bind_ok _ hs]
    exact d.insertAt_result _ htakes
  · rw [sections, outline, hfilled, ← hcount]
    exact hfound
  · rw [hheads'.heading, hheads.heading]
  · rw [hheads'.content, hlevel, hfill]

theorem chaptered_insertIntoSection_fills :
    (chaptered.resolve (.index 1)).result = .ok chapter ∧
    ∃ k : Nat, chaptered.sections[k]? = some chapter ∧ ∀ position, ∃ filled s',
      (chaptered.insertIntoSection (.index 1) [some (Node.plain (.heading 4) [])] position).result =
        .ok filled ∧
      filled.sections[k]? = some s' ∧
      s'.content = position.fill [Node.plain (.heading 3) []] [Node.plain (.heading 4) []] := by
  have hresolve : (chaptered.resolve (.index 1)).result = .ok chapter := rfl
  have hblocks : ∀ n ∈ [Node.plain (.heading 4) []],
      n.kind.isBlock = true ∧ n.kind ≠ .document := by decide
  have hdeep : ∀ n ∈ [Node.plain (.heading 4) []], ∀ l, n.level? = some l → chapter.level < l := by
    intro n hn l hl
    obtain rfl := List.mem_singleton.1 hn
    obtain rfl : 4 = l := Option.some.inj hl
    decide
  obtain ⟨k, hk, hfills, -⟩ := insertIntoSection_fills hresolve
  refine ⟨hresolve, k, hk, fun position => ?_⟩
  obtain ⟨filled, s', hresult, -, hfound, -, hcontent⟩ := hfills _ hblocks hdeep position
  exact ⟨filled, s', hresult, hfound, hcontent⟩

end Document
end Folio
