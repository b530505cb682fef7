import Folio.Proofs.Rewrite.Rebuild

/-!
# Rewriters that refuse

A rewriter that keeps every node it does not refuse returns the whole tree in other shapes, or it
fails: nodes are put to it each before its children, and the first that it refuses ends the run.
No node is spared, whatever its owner does to build itself again.
-/

set_option autoImplicit false

namespace Folio

theorem Node.findSome?_preorder {α : Type} (p : Node → Option α) (n : Node) :
    n.preorder.findSome? p = (p n).or (n.children.findSome? fun c => c.preorder.findSome? p) := by
  have hbelow : (n.children.map preorder).flatten.findSome? p =
      n.children.findSome? fun c => c.preorder.findSome? p := by
    rw [← List.head?_filterMap, List.filterMap_flatten, List.head?_flatten, List.map_map,
      List.findSome?_map]
    simp [Function.comp_def, List.head?_filterMap]
  rw [preorder_eq, List.findSome?_cons, hbelow]
  cases p n <;> rfl

/-- The step keeps a node in a shape, which is a heading of one of the levels if the step has it
checked. -/
def Step.Keeps (shape : Shape) : Step → Prop
  | .keep own => own = shape
  | .heading level => shape = .heading level ∧ Node.levelInRange level.toInt = true
  | .replace _ => False

namespace Rewriter

section Reassemble

variable {f : Node → Outcome Slot}

theorem kept_failure? (cs : List Node) :
    (kept (cs.map f)).failure? = cs.findSome? fun c => (f c).failure? := by
  show ((fun slots : List Slot => slots.filterMap id) <$>
    Outcome.sequence (cs.map f)).failure? = _
  rw [Outcome.failure?_map, Outcome.failure?_sequence, List.findSome?_map]
  rfl

/-- Where no term is deleted, all terms and descriptions are looked at. -/
theorem keptEntries_failure? (es : List (Node × List Node))
    (hterms : ∀ e ∈ es, (f e.1).Yields fun slot => slot.isSome = true) :
    (keptEntries (es.map fun e => ((e.1, f e.1), e.2.map fun d => (d, f d)))).failure? =
      (es.flatMap fun e => e.1 :: e.2).findSome? fun c => (f c).failure? := by
  induction es with
  | nil => rfl
  | cons e es ih =>
    obtain ⟨hterm, hterms⟩ := List.forall_mem_cons.1 hterms
    rw [List.map_cons, keptEntries, List.flatMap_cons, List.cons_append, List.findSome?_cons]
    cases hfirst : (f e.1).failure? with
    | some e' => exact Outcome.failure?_bind_some _ hfirst
    | none =>
      obtain ⟨slot, hslot⟩ := Outcome.failure?_eq_none.1 hfirst
      obtain ⟨t, rfl⟩ := Option.isSome_iff_exists.1 (hterm slot hslot)
      rw [Outcome.failure?_bind_ok _ hslot, List.findSome?_append, ← kept_failure? e.2,
        ← ih hterms, List.map_map]
      exact Outcome.failure?_bind fun ds _ => Outcome.failure?_map (_ :: ·) _

theorem reassemble_failure? {n : Node} {shape : Shape} {e : Failure}
    (htakes : shape.Takes n.children)
    (hresults : ∀ c ∈ n.children, (f c).Yields fun slot => slot.isSome = true)
    (h : (n.children.findSome? fun c => (f c).failure?) = some e) :
    (reassemble n shape (n.children.map f)).failure? = some e := by
  have hkept := (kept_failure? n.children).trans h
  cases shape with
  | table hasHeader alignments caption =>
    cases hasHeader with
    | false =>
      show (kept (n.children.map f) >>= _).failure? = _
      exact Outcome.failure?_bind_some _ hkept
    | true =>
      cases hcs : n.children with
      | nil => exact absurd hcs (htakes.1 rfl)
      | cons header rows =>
        rw [hcs, List.findSome?_cons] at h
        show (f header >>= fun h => kept (rows.map f) >>= fun rows =>
          Node.buildTable h (rows.map some) alignments caption n.attrs).failure? = _
        cases hheader : (f header).failure? with
        | some e' =>
          rw [hheader] at h
          exact (Outcome.failure?_bind_some _ hheader).trans h
        | none =>
          obtain ⟨slot, hslot⟩ := Outcome.failure?_eq_none.1 hheader
          rw [hheader] at h
          rw [Outcome.failure?_bind_ok _ hslot]
          exact Outcome.failure?_bind_some _ ((kept_failure? rows).trans h)
  | definitionList =>
    have hentries := keptEntries_failure? (Node.definitions n.children) fun e he =>
      hresults e.1 (Node.mem_of_definitions he).1
    have hflat := Node.flatten_definitions (Node.takes_definitions.1 htakes).1
    rw [List.flatMap, hflat] at hentries
    show (keptEntries (Node.gather (fun p => Node.isDescription p.1)
      (n.children.zip (n.children.map f))).2 >>= _).failure? = _
    rw [Node.gather_zip]
    exact Outcome.failure?_bind_some _ (hentries.trans h)
  | _ => exact Outcome.failure?_bind_some _ hkept

/-- A node whose children are kept, but for those that fail, fails as the first of these does, or
else is built again as it was. -/
theorem reassemble_or {n : Node} {shape : Shape} {p : Node → Option Failure} {g : Node → Node}
    (hmeta : n.attrs.metadata ≠ .null) (htakes : shape.Takes n.children)
    (hresults : ∀ c ∈ n.children, (f c).result = (p c).elim (.ok (some (g c))) .error)
    (hg : ∀ c ∈ n.children, (g c).kind = c.kind) :
    (reassemble n shape (n.children.map f)).result =
      (n.children.findSome? p).elim (.ok (.mk shape n.attrs (n.children.map g))) .error := by
  cases hfirst : n.children.findSome? p with
  | some e =>
    have hfailures : n.children.map (fun c => (f c).failure?) = n.children.map p :=
      List.map_congr_left fun c hc => Outcome.failure?_of_result (hresults c hc)
    have hfails : (n.children.findSome? fun c => (f c).failure?) = some e := by
      rw [← hfirst]
      simpa [List.findSome?_map] using congrArg (List.findSome? id) hfailures
    have hkept (c : Node) (hc : c ∈ n.children) : (f c).Yields fun slot => slot.isSome = true := by
      intro slot hslot
      rw [Outcome.yields_of_result (hresults c hc) slot hslot]
      rfl
    exact Outcome.failure?_eq_some.1 (reassemble_failure? htakes hkept hfails)
  | none =>
    refine reassemble_result hmeta htakes (fun c hc => ?_) hg
    rw [hresults c hc, List.findSome?_eq_none_iff.1 hfirst c hc]
    rfl

/-- Within the bounds a heading of a checked level is built as one whose level is not. -/
theorem carryOut_heading {level : Int32} (h : Node.levelInRange level.toInt = true) (n : Node)
    (results : List (Outcome Slot)) :
    (carryOut n results (.heading level)).result =
      (carryOut n results (.keep (.heading level))).result := by
  have hbuilt (children : List Node) : (some <$> Node.buildHeading level n.attrs
        (children.map some)).result =
      (some <$> Node.buildAnyHeading level n.attrs (children.map some)).result := by
    rw [Outcome.result_map, Outcome.result_map, buildHeading_result h, buildAnyHeading_result]
  show (kept results >>= fun children => some <$>
      Node.buildHeading level n.attrs (children.map some)).result =
    (some <$> (kept results >>= fun children =>
      Node.buildAnyHeading level n.attrs (children.map some))).result
  rw [Outcome.result_map, Outcome.result_bind, Outcome.result_bind]
  cases (kept results).result with
  | error e => rfl
  | ok children => exact (hbuilt children).trans (Outcome.result_map _ _)

theorem carryOut_or {n : Node} {shape : Shape} {own : Step} {p : Node → Option Failure}
    {g : Node → Node} (hown : own.Keeps shape) (hmeta : n.attrs.metadata ≠ .null)
    (htakes : shape.Takes n.children)
    (hresults : ∀ c ∈ n.children, (f c).result = (p c).elim (.ok (some (g c))) .error)
    (hg : ∀ c ∈ n.children, (g c).kind = c.kind) :
    (carryOut n (n.children.map f) own).result =
      (n.children.findSome? p).elim (.ok (some (.mk shape n.attrs (n.children.map g)))) .error := by
  have hbuilt := Outcome.result_map_or (reassemble_or hmeta htakes hresults hg) some
  cases own with
  | keep own =>
    obtain rfl : own = shape := hown
    exact hbuilt
  | heading level =>
    obtain ⟨rfl, hlevel⟩ := hown
    rw [carryOut_heading hlevel]
    exact hbuilt
  | replace slot => exact hown.elim

end Reassemble

section Run

variable {r : Rewriter} {f : Node → Shape} {n : Node}

/-- A rewriter that keeps every node it does not refuse, in a shape of its kind that takes the same
children, fails as it does on the first node in document order that it refuses, or else returns the
tree in these shapes. -/
theorem run_or (hr : ∀ n, (r n).Yields (Step.Keeps (f n))) (hkind : ∀ n, (f n).kind = n.kind)
    (htakes : ∀ n cs, n.shape.Takes cs → (f n).Takes cs) (h : n.All Node.Checked) :
    (r.run n).result =
      (n.preorder.findSome? fun m => (r m).failure?).elim (.ok (some (n.reshape f))) .error := by
  induction n using Node.induct with
  | step s a cs ih =>
    obtain ⟨hchecked, hbelow⟩ := Node.all_mk.1 h
    have hkinds : ∀ c ∈ cs, (c.reshape f).kind = c.kind := by
      intro c _
      rw [Node.reshape_eq]
      exact hkind c
    rw [Node.findSome?_preorder, run_eq, step]
    cases hown : (r (.mk s a cs)).failure? with
    | some e => exact Outcome.result_bind_error _ (Outcome.failure?_eq_some.1 hown)
    | none =>
      obtain ⟨own, hkept⟩ := Outcome.failure?_eq_none.1 hown
      rw [Outcome.result_bind_ok _ hkept, Option.none_or, Node.reshape_eq]
      exact carryOut_or (n := .mk s a cs) (hr _ own hkept) hchecked.metadata
        (htakes _ _ hchecked.takes) (fun c hc => ih c hc (hbelow c hc)) hkinds

theorem run_reshape (hr : ∀ n, ∃ own, (r n).result = .ok own ∧ own.Keeps (f n))
    (hkind : ∀ n, (f n).kind = n.kind)
    (htakes : ∀ n cs, n.shape.Takes cs → (f n).Takes cs) (h : n.All Node.Checked) :
    (r.run n).result = .ok (some (n.reshape f)) := by
  have hnone : (n.preorder.findSome? fun m => (r m).failure?) = none := by
    refine List.findSome?_eq_none_iff.2 fun m _ => Outcome.failure?_eq_none.2 ?_
    obtain ⟨own, hown, -⟩ := hr m
    exact ⟨own, hown⟩
  have hyields (m : Node) : (r m).Yields (Step.Keeps (f m)) := by
    intro own hown
    obtain ⟨own', hown', hkeeps⟩ := hr m
    obtain rfl := Except.ok.inj (hown'.symm.trans hown)
    exact hkeeps
  rw [run_or hyields hkind htakes h, hnone]
  rfl

end Run
end Rewriter

namespace Document

theorem rewrite_of_run {r : Rewriter} {d e : Document}
    (h : (r.run d.toNode).result = .ok (some e.toNode)) : (d.rewrite r).result = .ok e := by
  rw [rewrite, Outcome.result_bind_ok _ h, Option.bind_some, Node.document?_toNode]
  rfl

section SameKinds

variable {r : Rewriter} {f : Node → Shape} (hkind : ∀ n, (f n).kind = n.kind)

def reshape (d : Document) : Document :=
  d.withChildren (d.children.map (Node.reshape f)) <| by
    intro n hn
    obtain ⟨m, hm, rfl⟩ := List.mem_map.1 hn
    rw [Node.kind_reshape hkind]
    exact d.areBlocks m hm

theorem toNode_reshape (d : Document) : (d.reshape hkind).toNode = d.toNode.reshape f := by
  have hshape : f d.toNode = .document := by
    have hdocument : (f d.toNode).kind = .document := hkind d.toNode
    cases hf : f d.toNode with
    | document => rfl
    | _ => simp [hf, Shape.kind] at hdocument
  rw [Node.reshape_eq, hshape]
  rfl

variable {d : Document} (htakes : ∀ n cs, n.shape.Takes cs → (f n).Takes cs)
  (h : d.toNode.All Node.Checked)
include htakes h

theorem rewrite_or (hr : ∀ n, (r n).Yields (Step.Keeps (f n))) :
    (d.rewrite r).result =
      (d.toNode.preorder.findSome? fun m => (r m).failure?).elim
        (.ok (d.reshape hkind)) .error := by
  have hrun := Rewriter.run_or hr hkind htakes h
  cases hfirst : d.toNode.preorder.findSome? fun m => (r m).failure? with
  | some e =>
    rw [hfirst] at hrun
    exact Outcome.result_bind_error _ hrun
  | none =>
    rw [hfirst, ← toNode_reshape hkind] at hrun
    exact rewrite_of_run hrun

theorem rewrite_reshape (hr : ∀ n, ∃ own, (r n).result = .ok own ∧ own.Keeps (f n)) :
    (d.rewrite r).result = .ok (d.reshape hkind) := by
  have hrun := Rewriter.run_reshape hr hkind htakes h
  rw [← toNode_reshape hkind] at hrun
  exact rewrite_of_run hrun

end SameKinds

end Document
end Folio
