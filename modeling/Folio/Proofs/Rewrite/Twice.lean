import Folio.Proofs.Rewrite.Filter

/-!
# Filtered twice

A test that goes by the kind of a node says the same of a node before and after nodes beneath it
are deleted. So filtering by one such test and then by another deletes what filtering by both at
once deletes, in whichever order, and filtering by the same test again deletes nothing.
-/

set_option autoImplicit false

namespace Folio

section Map

variable {keep : Node → Bool} {g : Node → Node}

namespace Node

theorem definitions_map (hkind : ∀ c, (g c).kind = c.kind) (cs : List Node) :
    definitions (cs.map g) = (definitions cs).map fun e => (g e.1, e.2.map g) := by
  have hdescription : isDescription ∘ g = isDescription := by
    funext c
    simp [isDescription, hkind]
  rw [definitions, gather_map, hdescription]
  rfl

theorem entriesLeft_map (hkeep : ∀ c, keep (g c) = keep c) (es : List (Node × List Node)) :
    entriesLeft keep (es.map fun e => (g e.1, e.2.map g)) =
      (entriesLeft keep es).map fun e => (g e.1, e.2.map g) := by
  simp [entriesLeft, List.filter_map, Function.comp_def, hkeep]

end Node

namespace Shape

variable (hkeep : ∀ c, keep (g c) = keep c)
include hkeep

theorem leaving_map (s : Shape) (cs : List Node) :
    s.leaving keep (cs.map g) = s.leaving keep cs := by
  cases cs with
  | nil => rfl
  | cons header rows =>
    cases s with
    | table hasHeader => cases hasHeader <;> simp [leaving, hkeep]
    | _ => rfl

theorem staying_map (hkind : ∀ c, (g c).kind = c.kind) (s : Shape) (cs : List Node) :
    s.staying keep (cs.map g) = (s.staying keep cs).map g := by
  have hfilter : (cs.map g).filter keep = (cs.filter keep).map g := by
    rw [List.filter_map, show keep ∘ g = keep from funext hkeep]
  cases s with
  | definitionList =>
    rw [staying, staying, Node.definitions_map hkind, Node.entriesLeft_map hkeep,
      List.flatMap_map, List.map_flatMap]
    rfl
  | _ => exact hfilter

end Shape

end Map

section Twice

variable {p q : Node → Bool}

theorem Shape.leaving_leaving (p q : Node → Bool) (s : Shape) (cs : List Node) :
    (s.leaving p cs).leaving q (s.staying p cs) = s.leaving (fun n => p n && q n) cs := by
  cases s with
  | table hasHeader alignments caption =>
    cases hasHeader with
    | false => rfl
    | true =>
      cases cs with
      | nil => rfl
      | cons header rows => cases hp : p header <;> simp [leaving, staying, hp]
  | _ => rfl

namespace Node

theorem pruned_checked (keep : Node → Bool) {n : Node} (h : n.All Checked) :
    (n.pruned keep).All Checked := by
  induction n using induct with
  | step s a cs ih =>
    obtain ⟨hchecked, hbelow⟩ := all_mk.1 h
    have htakes : s.Takes cs := hchecked.takes
    rw [pruned_mk, all_mk]
    constructor
    · refine ⟨(htakes.staying keep).map fun c _ => pruned_kind keep c, fun hleaf => ?_,
        hchecked.metadata⟩
      have hnone : cs = [] := by
        apply hchecked.leaf
        rw [Shape.isLeaf_eq] at hleaf ⊢
        exact Shape.leaving_kind keep s cs ▸ hleaf
      have hstaying : s.staying keep cs = [] :=
        List.eq_nil_iff_forall_not_mem.2 fun c hc => by simpa [hnone] using (Shape.mem_staying hc).1
      exact congrArg (List.map (pruned keep)) hstaying
    · intro c hc
      obtain ⟨b, hb, rfl⟩ := List.mem_map.1 hc
      have hmem := (Shape.mem_staying hb).1
      exact ih b hmem (hbelow b hmem)

theorem pruned_all {n : Node} (h : n.All Checked) : n.pruned (fun _ => true) = n := by
  induction n using induct with
  | step s a cs ih =>
    obtain ⟨hchecked, hbelow⟩ := all_mk.1 h
    have htakes : s.Takes cs := hchecked.takes
    have hchildren : cs.map (pruned fun _ => true) = cs := by
      rw [List.map_congr_left fun c hc => ih c hc (hbelow c hc), List.map_id']
    rw [pruned_mk, Shape.leaving_eq_self fun _ _ => rfl,
      Shape.staying_eq_self htakes fun _ _ => rfl, hchildren]

/-- Deletion by a second test that a first deletion does not sway is deletion by both tests. -/
theorem pruned_pruned (hq : ∀ m, q (m.pruned p) = q m) {n : Node} (h : n.All Checked) :
    (n.pruned p).pruned q = n.pruned fun m => p m && q m := by
  induction n using induct with
  | step s a cs ih =>
    obtain ⟨hchecked, hbelow⟩ := all_mk.1 h
    have htakes : s.Takes cs := hchecked.takes
    have hboth : s.staying q (s.staying p cs) = s.staying (fun m => p m && q m) cs := by
      simpa only [Bool.and_comm] using Shape.staying_staying (p := q) (q := p) htakes
    have hchildren : ((s.staying (fun m => p m && q m) cs).map (pruned p)).map (pruned q) =
        (s.staying (fun m => p m && q m) cs).map (pruned fun m => p m && q m) := by
      rw [List.map_map]
      refine List.map_congr_left fun c hc => ?_
      have hmem := (Shape.mem_staying hc).1
      exact ih c hmem (hbelow c hmem)
    rw [pruned_mk, pruned_mk, pruned_mk, Shape.leaving_map hq, Shape.leaving_leaving,
      Shape.leaving_staying, Shape.staying_map hq (pruned_kind p), hboth, hchildren]

end Node
end Twice

namespace Document

variable {d : Document}

def keepKinds (p : Kind → Bool) (d : Document) : Outcome Document :=
  d.filterNodes fun n => p n.kind

theorem passes_both (p q : Kind → Bool) :
    (fun n => Rewriter.passes (fun m => p m.kind) n && Rewriter.passes (fun m => q m.kind) n) =
      Rewriter.passes fun n => p n.kind && q n.kind := by
  funext n
  simp [Rewriter.passes, Bool.or_and_distrib_left]

theorem keepKinds_keepKinds (h : d.toNode.All Node.Checked) (p q : Kind → Bool) :
    (d.keepKinds p >>= keepKinds q).result = (d.keepKinds fun k => p k && q k).result := by
  have hkind : ∀ n : Node, Rewriter.passes (fun m => q m.kind)
      (n.pruned (Rewriter.passes fun m => p m.kind)) = Rewriter.passes (fun m => q m.kind) n := by
    intro n
    rw [Rewriter.passes, Rewriter.passes, Node.pruned_kind]
  have hchecked : (d.pruned (Rewriter.passes fun n => p n.kind)).toNode.All Node.Checked := by
    rw [toNode_pruned]
    exact Node.pruned_checked _ h
  have htwice : (d.pruned (Rewriter.passes fun n => p n.kind)).pruned
      (Rewriter.passes fun n => q n.kind) =
        d.pruned (Rewriter.passes fun n => p n.kind && q n.kind) := by
    rw [← toNode_inj, toNode_pruned, toNode_pruned, toNode_pruned, Node.pruned_pruned hkind h,
      passes_both]
  rw [keepKinds, Outcome.result_bind_ok _ (filterNodes_result h _), keepKinds,
    filterNodes_result hchecked, keepKinds, filterNodes_result h, htwice]

theorem keepKinds_all (h : d.toNode.All Node.Checked) {p : Kind → Bool} (hp : ∀ k, p k = true) :
    (d.keepKinds p).result = .ok d := by
  have hkeep : (Rewriter.passes fun n => p n.kind) = fun _ => true := by
    funext n
    simp [Rewriter.passes, hp]
  have hsame : d.pruned (fun _ => true) = d := by
    rw [← toNode_inj, toNode_pruned, Node.pruned_all h]
  rw [keepKinds, filterNodes_result h, hkeep, hsame]

/-- Filtering a document by the kinds of its nodes, and what comes of that by kinds again, goes
through, and comes to filtering it by both tests at once, in either order. The same test changes
nothing a second time, and a test that lets all kinds pass changes nothing at all. -/
theorem keepKinds_combines {d : Document} (h : d.toNode.Built) (p q : Kind → Bool) :
    (∃ e, (d.keepKinds fun k => p k && q k).result = .ok e ∧
      (d.keepKinds p >>= keepKinds q).result = .ok e ∧
      (d.keepKinds q >>= keepKinds p).result = .ok e) ∧
    (d.keepKinds p >>= keepKinds p).result = (d.keepKinds p).result ∧
    ((∀ k, p k = true) → (d.keepKinds p).result = .ok d) := by
  have hboth : (d.keepKinds fun k => p k && q k).result = .ok _ := filterNodes_result h.checked _
  have hcomm : (fun k => q k && p k) = fun k => p k && q k := funext fun k => Bool.and_comm _ _
  have hsame : (fun k => p k && p k) = p := funext fun k => Bool.and_self _
  refine ⟨⟨_, hboth, ?_, ?_⟩, ?_, keepKinds_all h.checked⟩
  · rw [keepKinds_keepKinds h.checked, hboth]
  · rw [keepKinds_keepKinds h.checked, hcomm, hboth]
  · rw [keepKinds_keepKinds h.checked, hsame]

def compiled : Document :=
  { children := [Node.plain .blockQuote
      [Node.plain .definitionList
        [Node.plain .definitionTerm [], Node.plain .definitionDescription []],
      Node.plain (.table true [.left] none)
        [Node.plain (.tableRow true) [], Node.plain (.tableRow false) []]]] }

/-- Without terms the description goes too, and without rows the table has no header. -/
theorem compiled_keepKinds_combines :
    compiled.toNode.Built ∧
    ∃ e : Document, (compiled.keepKinds (· != .definitionTerm) >>=
        keepKinds (· != .tableRow)).result = .ok e ∧
      (compiled.keepKinds (· != .tableRow) >>= keepKinds (· != .definitionTerm)).result = .ok e ∧
      e = { children := [Node.plain .blockQuote
        [Node.plain .definitionList [], Node.plain (.table false [.left] none) []]] } := by
  have hbuilt : compiled.toNode.Built := by decide
  obtain ⟨⟨e, hboth, hfirst, hsecond⟩, -⟩ :=
    keepKinds_combines hbuilt (· != .definitionTerm) (· != .tableRow)
  refine ⟨hbuilt, e, hfirst, hsecond, ?_⟩
  exact Except.ok.inj (hboth.symm.trans rfl)

end Document
end Folio
