import Folio.Proofs.Check.Run
import Folio.Proofs.Rewrite.Refusal
import Folio.Proofs.Section.Extent

/-!
# Moved levels

Moving the heading levels of a tree by an offset, within bounds that are levels, gives each
heading a new level at whatever depth it stands, and leaves everything else as it is. A check
finds nothing in the result that it did not find before. Moving levels twice in one direction is
moving them once, though some stop at a bound; and the outline keeps its sections where no heading
of it has to stop.
-/

set_option autoImplicit false

namespace Folio

def Shape.relevel (f : Int → Int) : Shape → Shape
  | .heading level => .heading (Int32.ofInt (f level.toInt))
  | s => s

abbrev Node.relevel (f : Int → Int) : Node → Node := reshape fun n => n.shape.relevel f

def Levels (f : Int → Int) : Prop := ∀ l, 1 ≤ f l ∧ f l ≤ 6

theorem Levels.toInt {f : Int → Int} (hf : Levels f) (l : Int) :
    (Int32.ofInt (f l)).toInt = f l := by
  obtain ⟨hlow, hhigh⟩ := hf l
  exact Int32.toInt_ofInt_of_le (by omega) (by omega)

section Relevel

variable (f : Int → Int)

theorem Shape.relevel_kind (s : Shape) : (s.relevel f).kind = s.kind := by
  cases s <;> rfl

theorem Shape.Takes.relevel {s : Shape} {cs : List Node} (h : s.Takes cs) :
    (s.relevel f).Takes cs := by
  cases s with
  | heading => trivial
  | _ => exact h

namespace Node

theorem relevel_kind (n : Node) : (n.relevel f).kind = n.kind :=
  kind_reshape (fun n => n.shape.relevel_kind f) n

theorem relevel_checked {n : Node} (h : n.All Checked) : (n.relevel f).All Checked :=
  reshape_checked (fun n => n.shape.relevel_kind f) (fun _ _ htakes => htakes.relevel f) h

variable {f} {g : Int → Int}

theorem level?_relevel (hf : Levels f) (n : Node) : (n.relevel f).level? = n.level?.map f := by
  obtain ⟨s, a, cs⟩ := n
  rw [level?, shape_reshape]
  cases s with
  | heading level => exact congrArg some (hf.toInt level.toInt)
  | _ => rfl

theorem relevel_congr {n : Node} (h : n.All fun m => ∀ l, m.level? = some l → f l = g l) :
    n.relevel f = n.relevel g := by
  refine reshape_congr fun m hm => ?_
  obtain ⟨s, a, cs⟩ := m
  cases s with
  | heading level =>
    exact congrArg (fun l => Shape.heading (Int32.ofInt l)) (h _ hm level.toInt rfl)
  | _ => rfl

theorem relevel_relevel (hf : Levels f) (n : Node) :
    (n.relevel f).relevel g = n.relevel fun l => g (f l) := by
  have hshape : (fun m : Node => (m.relevel f).shape.relevel g) =
      fun m => m.shape.relevel fun l => g (f l) := by
    funext m
    rw [shape_reshape]
    cases m.shape with
    | heading level =>
      exact congrArg (fun l => Shape.heading (Int32.ofInt (g l))) (hf.toInt level.toInt)
    | _ => rfl
  rw [relevel, reshape_reshape, hshape]

end Node
end Relevel

namespace Node

section Findings

variable {g : Node → Node} (hkind : ∀ c, (g c).kind = c.kind)

include hkind in
theorem isInline_map (c : Node) : (g c).isInline = c.isInline := by
  rw [isInline, hkind]
  rfl

include hkind in
theorem blockChildren_map (owner : Kind) (cs : List Node) :
    blockChildren owner (cs.map g) = blockChildren owner cs := by
  simp [blockChildren, List.zipIdx_map, List.filterMap_map, isInline_map hkind, hkind]

include hkind in
theorem inlineChildren_map (owner : Kind) (cs : List Node) :
    inlineChildren owner (cs.map g) = inlineChildren owner cs := by
  simp [inlineChildren, List.zipIdx_map, List.filterMap_map, isInline_map hkind, hkind]

theorem bodyRows_map (hasHeader : Bool) (cs : List Node) :
    bodyRows hasHeader (cs.map g) = (bodyRows hasHeader cs).map g := by
  cases hasHeader with
  | false => rfl
  | true => exact List.map_tail.symm

variable (hlength : ∀ c, (g c).children.length = c.children.length)

include hlength in
theorem tableFindings_map (hasHeader : Bool) (alignments : List Alignment) (cs : List Node) :
    tableFindings hasHeader alignments (cs.map g) = tableFindings hasHeader alignments cs := by
  cases cs with
  | nil => rfl
  | cons first rest =>
    simp only [tableFindings, List.map_cons]
    rw [← List.map_cons, bodyRows_map, List.zipIdx_map, List.filterMap_map]
    simp only [Function.comp_def, Prod.map, hlength, id]

include hkind hlength in
/-- Of its children a node's own findings see the kinds, and how many children these have. -/
theorem ownFindings_map (o : CheckOptions) (s : Shape) (a : Attrs) (cs : List Node) :
    (mk s a (cs.map g)).ownFindings o = (mk s a cs).ownFindings o := by
  cases s <;>
    simp [ownFindings, shape, kind, children, blockChildren_map hkind, inlineChildren_map hkind,
      tableFindings_map hlength]

end Findings

theorem ownFindings_relevel {f : Int → Int} (hf : Levels f) (o : CheckOptions) (n : Node) :
    ((n.relevel f).ownFindings o).Sublist (n.ownFindings o) := by
  have hlength (c : Node) : (c.relevel f).children.length = c.children.length := by
    rw [children_reshape, List.length_map]
  obtain ⟨s, a, cs⟩ := n
  rw [relevel, reshape_eq]
  show ((mk (s.relevel f) a (cs.map (relevel f))).ownFindings o).Sublist _
  rw [ownFindings_map (relevel_kind f) hlength]
  cases s with
  | heading level =>
    have hlevel : levelInRange (Int32.ofInt (f level.toInt)).toInt = true := by
      rw [hf.toInt]
      simpa [levelInRange] using hf level.toInt
    have hnone : findingIf (!levelInRange (Int32.ofInt (f level.toInt)).toInt)
        (.headingLevel (Int32.ofInt (f level.toInt)).toInt) = [] := by
      rw [hlevel]
      rfl
    show (findingIf _ _ ++ _).Sublist (findingIf _ _ ++ _)
    rw [hnone]
    exact List.sublist_append_right _ _
  | _ => exact List.Sublist.refl _

theorem validate_strictly_ok {o : CheckOptions} {n : Node} :
    (n.validate o.strictly).result = .ok [] ↔ n.All fun m => m.ownFindings o.strictly = [] := by
  have hfindings : n.findings o.strictly = [] ↔ n.All fun m => m.ownFindings o.strictly = [] := by
    simpa [All] using not_congr (findings_ne_nil (o := o.strictly) (n := n))
  rw [validate_strict rfl, ← hfindings]
  cases n.findings o.strictly <;> simp

theorem relevel_passes {f : Int → Int} (hf : Levels f) {o : CheckOptions} {n : Node}
    (h : (n.validate o.strictly).result = .ok []) :
    ((n.relevel f).validate o.strictly).result = .ok [] := by
  rw [validate_strictly_ok] at h ⊢
  intro m hm
  rw [relevel, preorder_reshape] at hm
  obtain ⟨m, hmem, rfl⟩ := List.mem_map.1 hm
  exact List.sublist_nil.1 (h m hmem ▸ ownFindings_relevel hf o.strictly m)

end Node

namespace Section

/-- The section with its level and its nodes put through functions, at the place where it was. -/
def through (f : Int → Int) (g : Node → Node) (s : Section) : Section :=
  { s with heading := s.heading.map g, level := f s.level, content := s.content.map g }

variable {opens : Int → Bool} {f : Int → Int} {g : Node → Node} {ns : List Node}

theorem upToOpener_map {k l : Int} (h : ∀ n ∈ ns, (g n).opens k = n.opens l) :
    upToOpener k (ns.map g) = (upToOpener l ns).map g := by
  induction ns with
  | nil => rfl
  | cons n ns ih =>
    obtain ⟨hn, hns⟩ := List.forall_mem_cons.1 h
    cases ho : n.opens l with
    | true => simp [upToOpener, hn, ho]
    | false => simpa [upToOpener, hn, ho] using ih hns

/-- Blocks whose levels are moved in their order, by a function that keeps the chosen headings
chosen, have their sections at the same places. -/
theorem outlineOf_through (hlevel : ∀ n ∈ ns, (g n).level? = n.level?.map f)
    (horder : ∀ l m, f m ≤ f l ↔ m ≤ l)
    (hopens : ∀ n ∈ ns, ∀ l, n.level? = some l → opens (f l) = opens l) (i : Nat) :
    outlineOf opens i (ns.map g) = (outlineOf opens i ns).map (through f g) := by
  induction ns generalizing i with
  | nil => rfl
  | cons n ns ih =>
    obtain ⟨hn, hns⟩ := List.forall_mem_cons.1 hlevel
    obtain ⟨ho, hos⟩ := List.forall_mem_cons.1 hopens
    have hlater := ih hns hos (i + 1)
    unfold outlineOf at hlater ⊢
    rw [List.map_cons, scan, scan, hn, hlater]
    cases hl : n.level? with
    | none => rfl
    | some l =>
      have hcontent : upToOpener (f l) (ns.map g) = (upToOpener l ns).map g := by
        refine upToOpener_map fun m hm => ?_
        rw [Node.opens, Node.opens, hns m hm]
        cases m.level? <;> simp [horder]
      cases hopen : opens l with
      | false => simp [ho l hl, hopen]
      | true =>
        have hlength : (upToOpener (f l) (ns.map g)).length = (upToOpener l ns).length := by
          rw [hcontent, List.length_map]
        simp only [Option.map_some, ho l hl, hopen, if_true, List.map_cons, List.cons.injEq,
          and_true, through, Section.mk.injEq, true_and]
        exact ⟨hcontent, congrArg (i + 1 + ·) hlength⟩

end Section

namespace Rewriter

variable {offset low high : Int}

theorem headingLevels_eq (hbounds : 1 ≤ low ∧ low ≤ high ∧ high ≤ 6) (offset : Int) :
    headingLevels offset low high = pure (shiftHeadings offset low high) := by
  rw [headingLevels, Document.levels_in_order hbounds]
  rfl

theorem levels_shiftedLevel (hbounds : 1 ≤ low ∧ low ≤ high ∧ high ≤ 6) (offset : Int) :
    Levels (shiftedLevel offset low high) := by
  intro l
  unfold shiftedLevel
  omega

theorem shiftHeadings_keeps (hbounds : 1 ≤ low ∧ low ≤ high ∧ high ≤ 6) (offset : Int) (n : Node) :
    ∃ own, (shiftHeadings offset low high n).result = .ok own ∧
      own.Keeps (n.shape.relevel (shiftedLevel offset low high)) := by
  have hlevels := levels_shiftedLevel hbounds offset
  unfold shiftHeadings
  cases n.shape with
  | heading level =>
    refine ⟨_, rfl, rfl, ?_⟩
    rw [hlevels.toInt]
    simpa [Node.levelInRange] using hlevels level.toInt
  | _ => exact ⟨_, rfl, rfl⟩

/-- A level between the bounds that is moved twice in one direction, or stopped on the way, comes
to where it is moved to at once. -/
theorem shiftedLevel_shiftedLevel {a b l : Int} (hl : low ≤ l ∧ l ≤ high)
    (hsign : 0 ≤ a ∧ 0 ≤ b ∨ a ≤ 0 ∧ b ≤ 0) :
    shiftedLevel b low high (shiftedLevel a low high l) = shiftedLevel (a + b) low high l := by
  unfold shiftedLevel
  omega

end Rewriter

namespace Document

def relevel (f : Int → Int) (d : Document) : Document :=
  d.reshape fun n => n.shape.relevel_kind f

theorem toNode_relevel (f : Int → Int) (d : Document) :
    (d.relevel f).toNode = d.toNode.relevel f :=
  toNode_reshape (fun n => n.shape.relevel_kind f) d

def shift (offset low high : Int) (d : Document) : Outcome Document :=
  Rewriter.headingLevels offset low high >>= d.rewrite

section Shift

variable {d : Document} {low high : Int} (hbounds : 1 ≤ low ∧ low ≤ high ∧ high ≤ 6)
include hbounds

theorem shift_result (h : d.toNode.All Node.Checked) (offset : Int) :
    (d.shift offset low high).result =
      .ok (d.relevel (Rewriter.shiftedLevel offset low high)) := by
  rw [shift, Rewriter.headingLevels_eq hbounds]
  exact rewrite_reshape (fun n => n.shape.relevel_kind _) (fun _ _ htakes => htakes.relevel _) h
    (Rewriter.shiftHeadings_keeps hbounds offset)

theorem shift_shift (h : d.toNode.All Node.Checked) {a b : Int}
    (hlevels : d.toNode.All fun n => ∀ l, n.level? = some l → low ≤ l ∧ l ≤ high)
    (hsign : 0 ≤ a ∧ 0 ≤ b ∨ a ≤ 0 ∧ b ≤ 0) :
    (d.shift a low high >>= shift b low high).result = (d.shift (a + b) low high).result := by
  have hlevelled := Rewriter.levels_shiftedLevel hbounds a
  have hchecked : (d.relevel (Rewriter.shiftedLevel a low high)).toNode.All Node.Checked := by
    rw [toNode_relevel]
    exact Node.relevel_checked _ h
  have htwice : (d.relevel (Rewriter.shiftedLevel a low high)).relevel
      (Rewriter.shiftedLevel b low high) = d.relevel (Rewriter.shiftedLevel (a + b) low high) := by
    rw [← toNode_inj, toNode_relevel, toNode_relevel, toNode_relevel,
      Node.relevel_relevel hlevelled]
    refine Node.relevel_congr fun n hn l hl => ?_
    exact Rewriter.shiftedLevel_shiftedLevel (hlevels n hn l hl) hsign
  rw [Outcome.result_bind_ok _ (shift_result hbounds h a), shift_result hbounds hchecked,
    shift_result hbounds h, htwice]

/-- Where no heading of the outline has to stop at a bound, the outline keeps its sections. -/
theorem outline_relevel {offset : Int}
    (hlevels : ∀ n ∈ d.children, ∀ l, n.level? = some l →
      (1 ≤ l ∧ l ≤ 6) ∧ low ≤ l + offset ∧ l + offset ≤ high) :
    (d.relevel (Rewriter.shiftedLevel offset low high)).outline 1 6 =
      (d.outline 1 6).map (Section.through (· + offset)
        (Node.relevel (Rewriter.shiftedLevel offset low high))) := by
  have hmoved := Rewriter.levels_shiftedLevel hbounds offset
  refine Section.outlineOf_through (fun n hn => ?_) (fun l m => by omega) (fun n hn l hl => ?_) 0
  · rw [Node.level?_relevel hmoved]
    cases hl : n.level? with
    | none => rfl
    | some l =>
      have hkept : Rewriter.shiftedLevel offset low high l = l + offset := by
        have hfree := (hlevels n hn l hl).2
        unfold Rewriter.shiftedLevel
        omega
      exact congrArg some hkept
  · have hl := hlevels n hn l hl
    rw [Bool.eq_iff_iff]
    simp
    omega

end Shift

/-- Moving the levels of a document by any offset goes through. Each heading, at whatever depth,
has its level moved and held between the bounds, and nothing else is changed; so the result passes
a strict check that the document passes. Where no heading among the blocks has to stop at a bound,
and all have levels from one to six, all sections keep their places and move with their headings.
Where all levels lie between the bounds, moving them on in the same direction comes to moving them
once by the sum. -/
theorem shift_moves {d : Document} (h : d.toNode.Built) {low high : Int}
    (hbounds : 1 ≤ low ∧ low ≤ high ∧ high ≤ 6) (offset : Int) :
    (∃ e, (d.shift offset low high).result = .ok e ∧
      e.toNode = d.toNode.relevel (fun l => max low (min high (l + offset))) ∧
      e.toNode.preorder.map Node.level? =
        d.toNode.preorder.map (fun n => n.level?.map fun l => max low (min high (l + offset))) ∧
      (∀ o : CheckOptions, (d.toNode.validate o.strictly).result = .ok [] →
        (e.toNode.validate o.strictly).result = .ok []) ∧
      ((∀ n ∈ d.children, ∀ l, n.level? = some l →
          (1 ≤ l ∧ l ≤ 6) ∧ low ≤ l + offset ∧ l + offset ≤ high) →
        ∃ before after, (d.sectionsBetween 1 6).result = .ok before ∧
          (e.sectionsBetween 1 6).result = .ok after ∧
          after.map (fun s => (s.start, s.stop, s.level)) =
            before.map fun s => (s.start, s.stop, s.level + offset))) ∧
    ∀ b, (d.toNode.All fun n => ∀ l, n.level? = some l → low ≤ l ∧ l ≤ high) →
      0 ≤ offset ∧ 0 ≤ b ∨ offset ≤ 0 ∧ b ≤ 0 →
      (d.shift offset low high >>= shift b low high).result =
        (d.shift (offset + b) low high).result := by
  have hlevels := Rewriter.levels_shiftedLevel hbounds offset
  have htree := toNode_relevel (Rewriter.shiftedLevel offset low high) d
  refine ⟨⟨_, shift_result hbounds h.checked offset, htree, ?_, fun o hpasses => ?_,
    fun hfree => ?_⟩, fun b hwithin hsign => shift_shift hbounds h.checked hwithin hsign⟩
  · rw [htree, Node.preorder_reshape, List.map_map]
    exact List.map_congr_left fun n _ => Node.level?_relevel hlevels n
  · rw [htree]
    exact Node.relevel_passes hlevels hpasses
  · have hrange : (1 : Int) ≤ 1 ∧ (1 : Int) ≤ 6 ∧ (6 : Int) ≤ 6 := by decide
    refine ⟨_, _, sectionsBetween_result hrange d, sectionsBetween_result hrange _, ?_⟩
    rw [outline_relevel hbounds hfree, List.map_map]
    rfl

def quotedHeading (first quoted second : Int32) : Document :=
  { children := [
      Node.plain (.heading first) [],
      Node.plain .blockQuote [Node.plain (.heading quoted) []],
      Node.plain (.heading second) [Node.plainText (utf8 "x")]]
    areBlocks :=
      List.forall_mem_cons.2 ⟨rfl, List.forall_mem_cons.2 ⟨rfl, List.forall_mem_singleton.2 rfl⟩⟩ }

/-- The quoted heading stops at level six, and the sections move with the other two. -/
theorem quotedHeading_shift_moves :
    (quotedHeading 1 6 3).toNode.Built ∧
    ((quotedHeading 1 6 3).toNode.validate {}).result = .ok [] ∧
    (∃ e, ((quotedHeading 1 6 3).shift 2 1 6).result = .ok e ∧
      e.toNode = (quotedHeading 3 6 5).toNode ∧
      (e.toNode.validate {}).result = .ok [] ∧
      ∃ after, (e.sectionsBetween 1 6).result = .ok after ∧
        after.map (fun s => (s.start, s.stop, s.level)) = [(0, 3, 3), (2, 3, 5)]) ∧
    ((quotedHeading 1 6 3).shift 2 1 6 >>= shift 1 1 6).result =
      ((quotedHeading 1 6 3).shift 3 1 6).result := by
  have hbuilt : (quotedHeading 1 6 3).toNode.Built := by decide
  have hpasses : ((quotedHeading 1 6 3).toNode.validate {}).result = .ok [] := by decide
  have hbounds : (1 : Int) ≤ 1 ∧ (1 : Int) ≤ 6 ∧ (6 : Int) ≤ 6 := by decide
  obtain ⟨⟨e, he, htree, -, hcheck, hsections⟩, honce⟩ := shift_moves hbuilt hbounds 2
  obtain ⟨before, after, hbefore, hafter, hmoved⟩ := hsections (by decide)
  refine ⟨hbuilt, hpasses, ⟨e, he, htree.trans (by decide), hcheck {} hpasses, after, hafter, ?_⟩,
    honce 1 (by decide) (by decide)⟩
  obtain rfl := Except.ok.inj hbefore
  exact hmoved

end Document
end Folio
