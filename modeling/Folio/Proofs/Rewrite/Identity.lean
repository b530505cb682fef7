import Folio.Proofs.Rewrite.Refusal

/-!
# The identity

Rewriting a tree by the identity returns the tree. That stays so when all visits share one slot
for their results, since a slot is emptied before each visit and what it leaves is taken out.
-/

set_option autoImplicit false

namespace Folio
namespace Rewriter

/-- A visit finds something in the slot, and leaves its result there. -/
abbrev Visit := Slot → Outcome Slot

def take (visit : Visit) (_ : Slot) : Outcome (Slot × Slot) := do
  let left ← visit none
  return (left, none)

def takeAll : List Visit → Slot → Outcome (List Slot × Slot)
  | [], slot => pure ([], slot)
  | visit :: visits, slot => do
    let (first, slot) ← take visit slot
    let (others, slot) ← takeAll visits slot
    return (first :: others, slot)

/-- Visits a node to keep it: its children are visited one after the other, and the node that is
built again from them is left in the slot. -/
def keeping : Node → Visit := Node.fold fun n visits slot => do
  let (results, _) ← takeAll visits slot
  let built ← reassemble n n.shape (results.map pure)
  return some built

theorem keeping_eq (n : Node) (slot : Slot) :
    keeping n slot = (do
      let (results, _) ← takeAll (n.children.map keeping) slot
      let built ← reassemble n n.shape (results.map pure)
      return some built) :=
  congrFun (Node.fold_eq _ n) slot

theorem takeAll_result {ns : List Node}
    (h : ∀ n ∈ ns, ∀ slot, (keeping n slot).result = .ok (some n)) (slot : Slot) :
    ∃ left, (takeAll (ns.map keeping) slot).result = .ok (ns.map some, left) := by
  induction ns generalizing slot with
  | nil => exact ⟨slot, rfl⟩
  | cons n ns ih =>
    obtain ⟨left, hothers⟩ := ih (fun m hm => h m (List.mem_cons_of_mem n hm)) none
    have hfirst : (take (keeping n) slot).result = .ok (some n, none) :=
      Outcome.result_bind_ok _ (h n List.mem_cons_self none)
    refine ⟨left, ?_⟩
    rw [List.map_cons, takeAll, Outcome.result_bind_ok _ hfirst, Outcome.result_bind_ok _ hothers]
    rfl

theorem keeping_result {n : Node} (h : n.All Node.Checked) (slot : Slot) :
    (keeping n slot).result = .ok (some n) := by
  induction n using Node.induct generalizing slot with
  | step s a cs ih =>
    obtain ⟨hchecked, hbelow⟩ := Node.all_mk.1 h
    obtain ⟨left, hresults⟩ := takeAll_result (fun c hc => ih c hc (hbelow c hc)) slot
    have hbuilt := reassemble_result (n := .mk s a cs) (f := fun c => pure (some c)) (g := id)
      hchecked.metadata hchecked.takes (fun _ _ => rfl) (fun _ _ => rfl)
    rw [keeping_eq]
    show (takeAll (cs.map keeping) slot >>= fun r =>
      reassemble (.mk s a cs) s (r.1.map pure) >>= fun built => pure (some built)).result = _
    rw [Outcome.result_bind_ok _ hresults, List.map_map]
    rw [List.map_id] at hbuilt
    exact Outcome.result_bind_ok _ hbuilt

theorem run_identity {n : Node} (h : n.All Node.Checked) :
    (identity.run n).result = .ok (some n) := by
  have hrun := run_reshape (r := identity) (f := Node.shape) (fun n => ⟨.keep n.shape, rfl, rfl⟩)
    (fun _ => rfl) (fun _ _ htakes => htakes) h
  rw [Node.reshape_shape] at hrun
  exact hrun

theorem rewrite_identity {d : Document} (h : d.toNode.All Node.Checked) :
    (d.rewrite identity).result = .ok d :=
  Document.rewrite_of_run (run_identity h)

/-- The identity returns any tree that can be built, also with one slot for the results of all
visits, whatever the slot holds; and any document is rewritten into itself. -/
theorem identity_returns {n : Node} (h : n.Built) :
    (∃ m, (identity.run n).result = .ok (some m) ∧ Node.beq m n = true) ∧
    (∀ slot, ∃ m, (take (keeping n) slot).result = .ok (some m, none) ∧ Node.beq m n = true) ∧
    ∀ d : Document, d.toNode = n →
      ∃ e, (d.rewrite identity).result = .ok e ∧ Node.beq e.toNode n = true := by
  have hchecked := h.checked
  refine ⟨⟨n, run_identity hchecked, Node.beq_self n⟩, fun slot => ?_, ?_⟩
  · exact ⟨n, Outcome.result_bind_ok _ (keeping_result hchecked none), Node.beq_self n⟩
  · rintro d rfl
    exact ⟨d, rewrite_identity hchecked, Node.beq_self _⟩

def glossary : Document :=
  { children := [
      Node.plain (.heading 9) [],
      Node.plain (.table true [.left] none) [Node.plain (.tableRow true) []],
      Node.plain .definitionList
        [Node.plain .definitionTerm [], Node.plain .definitionDescription [],
          Node.plain .definitionDescription []]] }

theorem glossary_built : glossary.toNode.Built := by decide

theorem glossary_identity_returns :
    (∃ m, (identity.run glossary.toNode).result = .ok (some m) ∧
      Node.beq m glossary.toNode = true) ∧
    (∃ m, (take (keeping glossary.toNode) none).result = .ok (some m, none) ∧
      Node.beq m glossary.toNode = true) ∧
    ∃ e, (glossary.rewrite identity).result = .ok e ∧
      Node.beq e.toNode glossary.toNode = true := by
  obtain ⟨hrun, hslot, hdocument⟩ := identity_returns glossary_built
  exact ⟨hrun, hslot none, hdocument glossary rfl⟩

end Rewriter
end Folio
