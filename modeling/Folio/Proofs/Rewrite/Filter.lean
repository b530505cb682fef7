import Mathlib.Data.List.Flatten
import Folio.Proofs.Rewrite.Refusal

/-!
# Filtered trees

Filtering deletes what a test rejects, each node with all beneath it. A document that stands
beneath another node is not put to the test, so it is left also where the test rejects it; and
that is the only case in which a filtered document is not the document with all rejected nodes
beneath its root deleted.
-/

set_option autoImplicit false

namespace Folio

namespace Node

theorem entriesLeft_entriesLeft (p q : Node → Bool) (es : List (Node × List Node)) :
    entriesLeft p (entriesLeft q es) = entriesLeft (fun n => p n && q n) es := by
  simp [entriesLeft, List.filter_map, List.filter_filter, Function.comp_def]

theorem entriesLeft_sublist (keep : Node → Bool) (es : List (Node × List Node)) :
    ((entriesLeft keep es).flatMap fun e => e.1 :: e.2).Sublist
      (es.flatMap fun e => e.1 :: e.2) := by
  have hentry (e : Node × List Node) : (e.1 :: e.2.filter keep).Sublist (e.1 :: e.2) :=
    List.filter_sublist.cons_cons e.1
  rw [entriesLeft, List.flatMap_map]
  exact (List.Sublist.flatMap_right _ fun e _ => hentry e).trans (List.filter_sublist.flatMap _)

end Node

namespace Shape

variable {p q : Node → Bool} {s : Shape} {cs : List Node}

theorem leaving_kind (keep : Node → Bool) (s : Shape) (cs : List Node) :
    (s.leaving keep cs).kind = s.kind := by
  unfold leaving
  split <;> rfl

theorem staying_sublist (h : s.Takes cs) (keep : Node → Bool) :
    (s.staying keep cs).Sublist cs := by
  cases s with
  | definitionList =>
    have hsub := Node.entriesLeft_sublist keep (Node.definitions cs)
    have hflat : ((Node.definitions cs).flatMap fun e => e.1 :: e.2) = cs :=
      Node.flatten_definitions (Node.takes_definitions.1 h).1
    rwa [hflat] at hsub
  | _ => exact List.filter_sublist

theorem leaving_staying (p q : Node → Bool) (s : Shape) (cs : List Node) :
    (s.leaving q cs).staying p = s.staying p := by
  unfold leaving
  split <;> rfl

theorem staying_staying (h : s.Takes cs) :
    s.staying p (s.staying q cs) = s.staying (fun n => p n && q n) cs := by
  cases s with
  | definitionList =>
    have hentries := Node.isEntry_of_mem_entriesLeft q (Node.takes_definitions.1 h).2
    rw [staying, staying, Node.definitions_entries hentries, Node.entriesLeft_entriesLeft]
    rfl
  | _ => exact List.filter_filter

section Stricter

variable (h : s.Takes cs) (hpq : ∀ n, p n = true → q n = true)
include h hpq

theorem staying_stricter : (s.leaving q cs).staying p (s.staying q cs) = s.staying p cs := by
  have hboth : (fun n => p n && q n) = p := by
    funext n
    cases hp : p n with
    | false => rfl
    | true => exact hpq n hp
  rw [leaving_staying, staying_staying h, hboth]

theorem staying_mono : (s.staying p cs).Sublist (s.staying q cs) := by
  rw [← staying_stricter h hpq]
  exact staying_sublist (h.staying q) p

variable (hqp : ∀ c ∈ s.staying q cs, p c = true)
include hqp

theorem staying_congr : s.staying p cs = s.staying q cs := by
  rw [← staying_stricter h hpq]
  exact staying_eq_self (h.staying q) hqp

omit h in
theorem leaving_congr : s.leaving p cs = s.leaving q cs := by
  unfold leaving
  split
  · next header rows =>
    have hheader : p header = q header := by
      rw [Bool.eq_iff_iff]
      exact ⟨hpq header, fun hq => hqp header (List.mem_filter.2 ⟨List.mem_cons_self, hq⟩)⟩
    rw [hheader]
  · rfl

end Stricter

end Shape

namespace Node

/-- The tree without the nodes beneath its root that a test rejects, and without all that is
beneath these. -/
def pruned (keep : Node → Bool) : Node → Node
  | mk s a cs => mk (s.leaving keep cs) a ((s.staying keep cs).attach.map fun c => pruned keep c.1)
decreasing_by
  have hlt := List.sizeOf_lt_of_mem (Shape.mem_staying c.2).1
  simp only [mk.sizeOf_spec]
  omega

/-- What is left beneath the root, each node as it was in the whole tree. -/
def remaining (keep : Node → Bool) : Node → List Node
  | mk s _ cs => (s.staying keep cs).attach.flatMap fun c => c.1 :: remaining keep c.1
decreasing_by
  have hlt := List.sizeOf_lt_of_mem (Shape.mem_staying c.2).1
  simp only [mk.sizeOf_spec]
  omega

theorem pruned_mk (keep : Node → Bool) (s : Shape) (a : Attrs) (cs : List Node) :
    (mk s a cs).pruned keep =
      mk (s.leaving keep cs) a ((s.staying keep cs).map (pruned keep)) := by
  rw [pruned, List.attach_map_val]

theorem remaining_mk (keep : Node → Bool) (s : Shape) (a : Attrs) (cs : List Node) :
    (mk s a cs).remaining keep =
      (s.staying keep cs).flatMap fun c => c :: c.remaining keep := by
  rw [remaining]
  exact congrArg List.flatten
    (List.attach_map_val (l := s.staying keep cs) (f := fun c => c :: c.remaining keep))

theorem pruned_kind (keep : Node → Bool) (n : Node) : (n.pruned keep).kind = n.kind := by
  cases n with
  | mk s a cs =>
    rw [pruned_mk]
    exact Shape.leaving_kind keep s cs

theorem preorder_pruned (keep : Node → Bool) (n : Node) :
    (n.pruned keep).preorder = (n :: n.remaining keep).map (pruned keep) := by
  induction n using induct with
  | step s a cs ih =>
    have hbelow : (s.staying keep cs).map (preorder ∘ pruned keep) =
        (s.staying keep cs).map fun c => (c :: c.remaining keep).map (pruned keep) :=
      List.map_congr_left fun c hc => ih c (Shape.mem_staying hc).1
    rw [preorder_eq, List.map_cons, remaining_mk, List.map_flatMap, pruned_mk, children,
      List.map_map, hbelow]
    rfl

theorem remaining_sublist {n : Node} (h : n.All Checked) (keep : Node → Bool) :
    (n :: n.remaining keep).Sublist n.preorder := by
  induction n using induct with
  | step s a cs ih =>
    obtain ⟨hchecked, hbelow⟩ := all_mk.1 h
    rw [preorder_eq, remaining_mk]
    have hleft := (Shape.staying_sublist hchecked.takes keep).flatMap fun c => c :: c.remaining keep
    exact (hleft.trans (.flatMap_right _ fun c hc => ih c hc (hbelow c hc))).cons_cons _

/-- Deletion by two tests of which one is stricter leaves the same tree just when all that is left
by the other passes the stricter one. -/
theorem pruned_eq_iff {p q : Node → Bool} (hpq : ∀ n, p n = true → q n = true) {n : Node}
    (h : n.All Checked) : n.pruned p = n.pruned q ↔ ∀ m ∈ n.remaining q, p m = true := by
  induction n using induct with
  | step s a cs ih =>
    obtain ⟨hchecked, hbelow⟩ := all_mk.1 h
    have htakes : s.Takes cs := hchecked.takes
    have hih : ∀ c ∈ s.staying q cs,
        (c.pruned p = c.pruned q ↔ ∀ m ∈ c.remaining q, p m = true) :=
      fun c hc => ih c (Shape.mem_staying hc).1 (hbelow c (Shape.mem_staying hc).1)
    rw [pruned_mk, pruned_mk, remaining_mk]
    constructor
    · intro heq m hm
      obtain ⟨c, hc, hm⟩ := List.mem_flatMap.1 hm
      have hchildren : (s.staying p cs).map (pruned p) = (s.staying q cs).map (pruned q) :=
        congrArg children heq
      have hlength : (s.staying p cs).length = (s.staying q cs).length := by
        simpa using congrArg List.length hchildren
      have hsame := (Shape.staying_mono htakes hpq).eq_of_length hlength
      rw [hsame] at hchildren
      rcases List.mem_cons.1 hm with rfl | hm
      · exact (Shape.mem_staying (hsame ▸ hc)).2
      · exact (hih c hc).1 (List.map_inj_left.1 hchildren c hc) m hm
    · intro hall
      have hqp : ∀ c ∈ s.staying q cs, p c = true :=
        fun c hc => hall c (List.mem_flatMap.2 ⟨c, hc, List.mem_cons_self⟩)
      have hchildren : (s.staying q cs).map (pruned p) = (s.staying q cs).map (pruned q) := by
        refine List.map_congr_left fun c hc => (hih c hc).2 fun m hm => ?_
        exact hall m (List.mem_flatMap.2 ⟨c, hc, List.mem_cons_of_mem c hm⟩)
      rw [Shape.leaving_congr hpq hqp, Shape.staying_congr htakes hpq hqp, hchildren]

theorem remaining_passes {n : Node} (h : n.All Checked) (keep : Node → Bool) :
    ∀ m ∈ n.remaining keep, keep m = true :=
  (pruned_eq_iff (fun _ => id) h).1 rfl

end Node

namespace Rewriter

def passes (keep : Node → Bool) (n : Node) : Bool := n.kind == .document || keep n

theorem filtering_eq (keep : Node → Bool) (n : Node) :
    filtering keep n = if passes keep n then pure (.keep n.shape) else pure (.replace none) := by
  unfold filtering passes
  cases hkind : n.kind == .document <;> cases hkeep : keep n <;> simp [bne, hkind]

theorem run_filtering (keep : Node → Bool) {n : Node} (h : n.All Node.Checked) :
    ((filtering keep).run n).result =
      .ok (if passes keep n then some (n.pruned (passes keep)) else none) := by
  induction n using Node.induct with
  | step s a cs ih =>
    obtain ⟨hchecked, hbelow⟩ := Node.all_mk.1 h
    have hbuilt := reassemble_staying (n := .mk s a cs) hchecked.metadata hchecked.takes
      (fun c hc => ih c hc (hbelow c hc)) fun c _ => Node.pruned_kind (passes keep) c
    rw [run_eq, step, filtering_eq]
    cases passes keep (.mk s a cs) with
    | false => rfl
    | true =>
      rw [Node.pruned_mk]
      exact Outcome.result_map_ok some hbuilt

end Rewriter

namespace Document

def pruned (keep : Node → Bool) (d : Document) : Document :=
  d.withChildren ((d.children.filter keep).map (Node.pruned keep)) <| by
    intro n hn
    obtain ⟨m, hm, rfl⟩ := List.mem_map.1 hn
    rw [Node.pruned_kind]
    exact d.areBlocks m (List.mem_filter.1 hm).1

theorem toNode_pruned (keep : Node → Bool) (d : Document) :
    (d.pruned keep).toNode = d.toNode.pruned keep := by
  rw [toNode, toNode, Node.pruned_mk]
  rfl

theorem filterNodes_result {d : Document} (h : d.toNode.All Node.Checked) (keep : Node → Bool) :
    (d.filterNodes keep).result = .ok (d.pruned (Rewriter.passes keep)) := by
  have hrun : ((Rewriter.filtering keep).run d.toNode).result =
      .ok (some (d.pruned (Rewriter.passes keep)).toNode) := by
    rw [toNode_pruned]
    exact Rewriter.run_filtering keep h
  exact rewrite_of_run hrun

theorem pruned_passes_eq_iff {d : Document} (h : d.toNode.All Node.Checked) (keep : Node → Bool) :
    d.pruned (Rewriter.passes keep) = d.pruned keep ↔
      ∀ n ∈ d.toNode.remaining (Rewriter.passes keep), n.kind = .document → keep n = true := by
  have hpasses : ∀ n, keep n = true → Rewriter.passes keep n = true := by
    intro n hn
    simp [Rewriter.passes, hn]
  have hleft := Node.remaining_passes h (Rewriter.passes keep)
  have hdocument : ∀ n ∈ d.toNode.remaining (Rewriter.passes keep),
      keep n = true ↔ (n.kind = .document → keep n = true) := by
    intro n hn
    refine ⟨fun hkeep _ => hkeep, fun hkeep => ?_⟩
    rcases Bool.or_eq_true_iff.1 (hleft n hn) with hkind | hn
    · exact hkeep (eq_of_beq hkind)
    · exact hn
  rw [← toNode_inj, toNode_pruned, toNode_pruned, eq_comm, Node.pruned_eq_iff hpasses h]
  exact forall₂_congr hdocument

/-- Filtering a document deletes what the test rejects, except for documents beneath its root.
What is left keeps its order. It is the document with all rejected nodes beneath the root deleted
just when no document is left that the test rejects. -/
theorem filterNodes_prunes {d : Document} (h : d.toNode.Built) (keep : Node → Bool) :
    (d.filterNodes keep).result = .ok (d.pruned (Rewriter.passes keep)) ∧
    (d.pruned (Rewriter.passes keep)).toNode.preorder =
      (d.toNode :: d.toNode.remaining (Rewriter.passes keep)).map
        (Node.pruned (Rewriter.passes keep)) ∧
    (d.toNode :: d.toNode.remaining (Rewriter.passes keep)).Sublist d.toNode.preorder ∧
    ((d.filterNodes keep).result = .ok (d.pruned keep) ↔
      ∀ n ∈ d.toNode.remaining (Rewriter.passes keep), n.kind = .document → keep n = true) := by
  have hresult := filterNodes_result h.checked keep
  refine ⟨hresult, ?_, Node.remaining_sublist h.checked _, ?_⟩
  · rw [toNode_pruned]
    exact Node.preorder_pruned _ _
  · rw [hresult, Except.ok.injEq]
    exact pruned_passes_eq_iff h.checked keep

def quoting : Document :=
  { children := [Node.plain .blockQuote [Node.plain .document [], Node.plain .paragraph []]] }

theorem quoting_built : quoting.toNode.Built := by decide

theorem quoting_filterNodes_prunes :
    quoting.toNode.Built ∧
    (quoting.filterNodes fun n => n.kind != .paragraph).result =
      .ok (quoting.pruned fun n => n.kind != .paragraph) ∧
    (quoting.pruned fun n => n.kind != .paragraph) =
      { children := [Node.plain .blockQuote [Node.plain .document []]] } := by
  obtain ⟨-, -, -, hsame⟩ := filterNodes_prunes quoting_built fun n => n.kind != .paragraph
  refine ⟨quoting_built, hsame.2 fun n _ hdocument => by simp [hdocument], ?_⟩
  simp [pruned, withChildren, quoting, Node.plain, Node.pruned_mk, Shape.leaving, Shape.staying,
    Node.kind, Node.shape, Shape.kind]

/-- A test that rejects documents does not reach the one in the quotation, where only the root is
to be spared. -/
theorem quoting_keeps_document :
    quoting.toNode.Built ∧
    (quoting.filterNodes fun n => n.kind != .document).result = .ok quoting ∧
    (quoting.pruned fun n => n.kind != .document) =
      { children := [Node.plain .blockQuote [Node.plain .paragraph []]] } ∧
    (quoting.filterNodes fun n => n.kind != .document).result ≠
      .ok (quoting.pruned fun n => n.kind != .document) := by
  have hleft : (quoting.filterNodes fun n => n.kind != .document).result = .ok quoting := by
    have hpasses : Rewriter.passes (fun n => n.kind != .document) = fun _ => true := by
      funext n
      simp [Rewriter.passes, bne]
    rw [filterNodes_result quoting_built.checked, hpasses]
    simp [pruned, withChildren, quoting, Node.plain, Node.pruned_mk, Shape.leaving, Shape.staying]
  have hpruned : (quoting.pruned fun n => n.kind != .document) =
      { children := [Node.plain .blockQuote [Node.plain .paragraph []]] } := by
    simp [pruned, withChildren, quoting, Node.plain, Node.pruned_mk, Shape.leaving, Shape.staying,
      Node.kind, Node.shape, Shape.kind]
  refine ⟨quoting_built, hleft, hpruned, ?_⟩
  rw [hleft, hpruned, Ne, Except.ok.injEq, ← toNode_inj]
  simp [quoting, toNode, Node.plain]

end Document
end Folio
