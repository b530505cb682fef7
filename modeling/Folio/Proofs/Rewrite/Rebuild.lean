import Folio.Proofs.Node.Built
import Folio.Rewrite

/-!
# Trees built again

A node is built again from what its children became. Children that became nothing are left out,
and a term takes its descriptions along. Where each of the others became a node of its own kind,
nothing else of the node is lost: its attributes stay, and the children stay in order.
-/

set_option autoImplicit false

namespace Folio

namespace Node

def reshape (f : Node → Shape) : Node → Node := fold fun n below => mk (f n) n.attrs below

theorem reshape_eq (f : Node → Shape) (n : Node) :
    n.reshape f = mk (f n) n.attrs (n.children.map (reshape f)) := fold_eq _ n

theorem shape_reshape (f : Node → Shape) (n : Node) : (n.reshape f).shape = f n := by
  rw [reshape_eq]
  rfl

theorem children_reshape (f : Node → Shape) (n : Node) :
    (n.reshape f).children = n.children.map (reshape f) := by
  rw [reshape_eq]
  rfl

theorem preorder_reshape (f : Node → Shape) (n : Node) :
    (n.reshape f).preorder = n.preorder.map (reshape f) := by
  induction n using induct with
  | step s a cs ih =>
    have hbelow : (cs.map (reshape f)).map preorder =
        (cs.map preorder).map (List.map (reshape f)) := by
      rw [List.map_map, List.map_map]
      exact List.map_congr_left ih
    rw [preorder_eq, children_reshape, preorder_eq (mk s a cs), List.map_cons, List.map_flatten]
    exact congrArg (fun below => _ :: below.flatten) hbelow

theorem reshape_shape (n : Node) : n.reshape shape = n := by
  induction n using induct with
  | step s a cs ih =>
    rw [reshape_eq]
    show mk s a (cs.map (reshape shape)) = mk s a cs
    rw [List.map_congr_left ih, List.map_id']

theorem reshape_congr {f g : Node → Shape} {n : Node} (h : n.All fun m => f m = g m) :
    n.reshape f = n.reshape g := by
  induction n using induct with
  | step s a cs ih =>
    obtain ⟨hroot, hbelow⟩ := all_mk.1 h
    have hchildren : cs.map (reshape f) = cs.map (reshape g) :=
      List.map_congr_left fun c hc => ih c hc (hbelow c hc)
    rw [reshape_eq f, reshape_eq g, hroot]
    exact congrArg (mk _ a) hchildren

theorem reshape_reshape (f g : Node → Shape) (n : Node) :
    (n.reshape f).reshape g = n.reshape fun m => g (m.reshape f) := by
  induction n using induct with
  | step s a cs ih =>
    have hchildren : (cs.map (reshape f)).map (reshape g) =
        cs.map (reshape fun m => g (m.reshape f)) := by
      rw [List.map_map]
      exact List.map_congr_left ih
    rw [reshape_eq g, children_reshape, reshape_eq fun m => g (m.reshape f)]
    show mk _ ((mk s a cs).reshape f).attrs ((cs.map (reshape f)).map (reshape g)) = _
    rw [hchildren, reshape_eq f]
    rfl

section SameKinds

variable {f : Node → Shape} (hkind : ∀ n, (f n).kind = n.kind)
include hkind

theorem kind_reshape (n : Node) : (n.reshape f).kind = n.kind := by
  rw [kind, shape_reshape, hkind]

theorem reshape_checked (htakes : ∀ n cs, n.shape.Takes cs → (f n).Takes cs) {n : Node}
    (h : n.All Checked) : (n.reshape f).All Checked := by
  induction n using induct with
  | step s a cs ih =>
    obtain ⟨hchecked, hbelow⟩ := all_mk.1 h
    rw [reshape_eq]
    show All Checked (mk (f (mk s a cs)) a (cs.map (reshape f)))
    rw [all_mk]
    constructor
    · have htaken : (f (mk s a cs)).Takes cs := htakes _ _ hchecked.takes
      have hleaf : (f (mk s a cs)).isLeaf = s.isLeaf := by
        rw [Shape.isLeaf_eq, hkind, s.isLeaf_eq]
        rfl
      refine ⟨htaken.map fun c _ => kind_reshape hkind c, fun h => ?_, hchecked.metadata⟩
      obtain rfl : cs = [] := hchecked.leaf (hleaf ▸ h)
      rfl
    · intro c hc
      obtain ⟨b, hb, rfl⟩ := List.mem_map.1 hc
      exact ih b hb (hbelow b hb)

end SameKinds

end Node

namespace Node

def entriesLeft (keep : Node → Bool) (es : List (Node × List Node)) :
    List (Node × List Node) :=
  (es.filter fun e => keep e.1).map fun e => (e.1, e.2.filter keep)

theorem mem_entriesLeft {keep : Node → Bool} {es : List (Node × List Node)}
    {e : Node × List Node} (h : e ∈ entriesLeft keep es) :
    ∃ e' ∈ es, keep e'.1 = true ∧ e = (e'.1, e'.2.filter keep) := by
  obtain ⟨e', hmem, rfl⟩ := List.mem_map.1 h
  obtain ⟨hmem, hkeep⟩ := List.mem_filter.1 hmem
  exact ⟨e', hmem, hkeep, rfl⟩

theorem entriesLeft_eq_self {keep : Node → Bool} {es : List (Node × List Node)}
    (h : ∀ e ∈ es, ∀ c ∈ e.1 :: e.2, keep c = true) : entriesLeft keep es = es := by
  have hterms : (es.filter fun e => keep e.1) = es :=
    List.filter_eq_self.2 fun e he => h e he e.1 List.mem_cons_self
  have hdescriptions : ∀ e ∈ es, (e.1, e.2.filter keep) = e := fun e he =>
    Prod.ext rfl (List.filter_eq_self.2 fun d hd => h e he d (List.mem_cons_of_mem _ hd))
  rw [entriesLeft, hterms, List.map_congr_left hdescriptions, List.map_id']

theorem isEntry_of_mem_entriesLeft (keep : Node → Bool) {es : List (Node × List Node)}
    (hes : ∀ e ∈ es, IsEntry e) : ∀ e ∈ entriesLeft keep es, IsEntry e := by
  intro e he
  obtain ⟨e', hmem, -, rfl⟩ := mem_entriesLeft he
  obtain ⟨hterm, hdescriptions⟩ := hes e' hmem
  exact ⟨hterm, fun d hd => hdescriptions d (List.mem_filter.1 hd).1⟩

end Node

namespace Shape

/-- The children that stay of an owner when those that a test rejects are taken out. In a
definition list a term takes its descriptions along. -/
def staying (keep : Node → Bool) (s : Shape) (children : List Node) : List Node :=
  match s with
  | .definitionList =>
    (Node.entriesLeft keep (Node.definitions children)).flatMap fun e => e.1 :: e.2
  | _ => children.filter keep

/-- The shape of the owner then: a table without its header row has no header. -/
def leaving (keep : Node → Bool) (s : Shape) (children : List Node) : Shape :=
  match s, children with
  | .table true alignments caption, header :: _ => .table (keep header) alignments caption
  | s, _ => s

variable {keep : Node → Bool} {s : Shape} {cs : List Node}

theorem mem_staying {c : Node} (h : c ∈ s.staying keep cs) : c ∈ cs ∧ keep c = true := by
  unfold staying at h
  split at h
  · obtain ⟨e, he, hc⟩ := List.mem_flatMap.1 h
    obtain ⟨e, hentry, hterm, rfl⟩ := Node.mem_entriesLeft he
    obtain ⟨hmem, hmems⟩ := Node.mem_of_definitions hentry
    rcases List.mem_cons.1 hc with rfl | hc
    · exact ⟨hmem, hterm⟩
    · exact ⟨hmems c (List.mem_filter.1 hc).1, (List.mem_filter.1 hc).2⟩
  · exact List.mem_filter.1 h

theorem Takes.staying (h : s.Takes cs) (keep : Node → Bool) :
    (s.leaving keep cs).Takes (s.staying keep cs) := by
  have hsub : ∀ c ∈ s.staying keep cs, c ∈ cs := fun c hc => (mem_staying hc).1
  cases s with
  | document => exact fun c hc => h c (hsub c hc)
  | list => exact fun c hc => h c (hsub c hc)
  | tableRow => exact fun c hc => h c (hsub c hc)
  | table hasHeader alignments caption =>
    have hrows : ∀ c ∈ cs.filter keep, c.kind = .tableRow := fun c hc => h.2 c (hsub c hc)
    cases hasHeader with
    | false => exact ⟨nofun, hrows⟩
    | true =>
      cases cs with
      | nil => exact absurd rfl (h.1 rfl)
      | cons header rows => exact ⟨fun hkeep => by simp [Shape.staying, hkeep], hrows⟩
  | definitionList =>
    obtain ⟨-, hentries⟩ := Node.takes_definitions.1 h
    exact Node.takes_entries (Node.isEntry_of_mem_entriesLeft keep hentries)
  | _ => trivial

theorem staying_eq_self (h : s.Takes cs) (hkeep : ∀ c ∈ cs, keep c = true) :
    s.staying keep cs = cs := by
  cases s with
  | definitionList =>
    have hentries : Node.entriesLeft keep (Node.definitions cs) = Node.definitions cs :=
      Node.entriesLeft_eq_self fun e he c hc =>
        hkeep c (List.forall_mem_cons.2 (Node.mem_of_definitions he) c hc)
    rw [staying, hentries]
    exact Node.flatten_definitions (Node.takes_definitions.1 h).1
  | _ => exact List.filter_eq_self.2 hkeep

theorem leaving_eq_self (hkeep : ∀ c ∈ cs, keep c = true) : s.leaving keep cs = s := by
  unfold leaving
  split
  · rw [hkeep _ List.mem_cons_self]
  · rfl

end Shape

namespace Rewriter

section Rebuild

variable {keep : Node → Bool} {f : Node → Outcome Slot} {g : Node → Node}

theorem kept_result {cs : List Node}
    (h : ∀ c ∈ cs, (f c).result = .ok (if keep c then some (g c) else none)) :
    (kept (cs.map f)).result = .ok ((cs.filter keep).map g) := by
  rw [kept, Outcome.result_bind_ok _ (Outcome.result_sequence h)]
  have hleft : (cs.map fun c => if keep c then some (g c) else none).filterMap id =
      (cs.filter keep).map g := by
    rw [List.filterMap_map, ← List.filterMap_eq_map, List.filterMap_filter]
    rfl
  exact congrArg Except.ok hleft

theorem keptEntries_result (es : List (Node × List Node))
    (h : ∀ e ∈ es, (f e.1).result = .ok (if keep e.1 then some (g e.1) else none) ∧
      ∀ d ∈ e.2, (f d).result = .ok (if keep d then some (g d) else none)) :
    (keptEntries (es.map fun e => ((e.1, f e.1), e.2.map fun d => (d, f d)))).result =
      .ok ((Node.entriesLeft keep es).map fun e => ⟨some (g e.1), (e.2.map g).map some⟩) := by
  induction es with
  | nil => rfl
  | cons e es ih =>
    obtain ⟨hterm, hdescriptions⟩ := h e (by simp)
    have hkept := kept_result hdescriptions
    have hrest := ih fun e he => h e (by simp [he])
    rw [List.map_cons, keptEntries, Outcome.result_bind_ok _ hterm]
    cases hkeep : keep e.1 with
    | false =>
      rw [Node.entriesLeft, List.filter_cons_of_neg (by simp [hkeep])]
      exact hrest
    | true =>
      rw [Node.entriesLeft, List.filter_cons_of_pos (by simp [hkeep]), List.map_map]
      show (kept (e.2.map f) >>= _).result = _
      rw [Outcome.result_bind_ok _ hkept, Outcome.result_bind_ok _ hrest]
      rfl

theorem buildDefinitionList_result {es : List (Node × List Node)} {attrs : Attrs}
    (hmeta : attrs.metadata ≠ .null) (hes : ∀ e ∈ es, Node.IsEntry e)
    (hg : ∀ e ∈ es, ∀ c ∈ e.1 :: e.2, (g c).kind = c.kind) :
    (Node.buildDefinitionList
      (es.map fun e => ⟨some (g e.1), (e.2.map g).map some⟩) attrs).result =
      .ok (.mk .definitionList attrs ((es.flatMap fun e => e.1 :: e.2).map g)) := by
  apply Outcome.result_ofExcept_ok
  rw [Node.makeDefinitionList_eq_ok]
  refine ⟨(es.flatMap fun e => e.1 :: e.2).map g, ?_, by rw [Node.normalize_eq hmeta]⟩
  rw [Node.entryChildren_eq_ok]
  refine ⟨es.map fun e => (g e.1, e.2.map g), ?_, ?_, ?_⟩
  · simp
  · intro entry hentry
    obtain ⟨e, he, rfl⟩ := List.mem_map.1 hentry
    obtain ⟨hkind, hkinds⟩ := hes e he
    refine ⟨(hg e he _ List.mem_cons_self).trans hkind, ?_⟩
    intro description hdescription
    obtain ⟨d, hd, rfl⟩ := List.mem_map.1 hdescription
    exact (hg e he d (List.mem_cons_of_mem _ hd)).trans (hkinds d hd)
  · rw [List.map_map, List.flatMap, List.map_flatten, List.map_map]
    rfl

theorem buildAnyHeading_result (level : Int32) (attrs : Attrs) (slots : List Slot) :
    (Node.buildAnyHeading level attrs slots).result =
      (Node.build (.heading level) attrs slots).result := by
  unfold Node.buildAnyHeading
  split <;> rfl

theorem buildHeading_result {level : Int32} (h : Node.levelInRange level.toInt = true)
    (attrs : Attrs) (slots : List Slot) :
    (Node.buildHeading level attrs slots).result =
      (Node.build (.heading level) attrs slots).result := by
  unfold Node.buildHeading Node.build Node.makeHeading
  cases Node.make (.heading level) attrs slots with
  | error fault => rfl
  | ok heading =>
    rw [h]
    rfl

theorem reassembleTable_result {n : Node} {hasHeader : Bool} {alignments : List Alignment}
    {caption : Option Bytes} (hmeta : n.attrs.metadata ≠ .null)
    (htakes : (Shape.table hasHeader alignments caption).Takes n.children)
    (hresults : ∀ c ∈ n.children, (f c).result = .ok (if keep c then some (g c) else none))
    (hg : ∀ c ∈ n.children, (g c).kind = c.kind) :
    (reassemble n (.table hasHeader alignments caption) (n.children.map f)).result =
      .ok (.mk (Shape.leaving keep (.table hasHeader alignments caption) n.children) n.attrs
        ((n.children.filter keep).map g)) := by
  have htakes' := (htakes.staying keep).map fun c hc => hg c (Shape.mem_staying hc).1
  cases hasHeader with
  | false =>
    have hmade : Node.makeTable none (((n.children.filter keep).map g).map some) alignments caption
        n.attrs = .ok (.mk (.table false alignments caption) n.attrs
          ((n.children.filter keep).map g)) :=
      Node.makeTable_eq_ok.2 ⟨_, rfl, htakes', by rw [Node.normalize_eq hmeta]; rfl⟩
    show (kept (n.children.map f) >>= fun rows =>
      Node.buildTable none (rows.map some) alignments caption n.attrs).result = _
    rw [Outcome.result_bind_ok _ (kept_result hresults)]
    exact Outcome.result_ofExcept_ok hmade
  | true =>
    cases hcs : n.children with
    | nil => exact absurd hcs (htakes.1 rfl)
    | cons header rows =>
      rw [hcs] at hresults htakes'
      have hheader := hresults header (by simp)
      have hrows := kept_result fun c hc => hresults c (List.mem_cons_of_mem header hc)
      have hsome : (if keep header then some (g header) else none).isSome = keep header := by
        cases keep header <;> rfl
      have hbody : (if keep header then some (g header) else none).toList ++
          (rows.filter keep).map g = ((header :: rows).filter keep).map g := by
        cases hkeep : keep header <;> simp [hkeep]
      have hmade : Node.makeTable (if keep header then some (g header) else none)
          (((rows.filter keep).map g).map some) alignments caption n.attrs =
            .ok (.mk (.table (keep header) alignments caption) n.attrs
              (((header :: rows).filter keep).map g)) := by
        rw [Node.makeTable_eq_ok]
        refine ⟨_, rfl, ?_, ?_⟩
        · rw [hsome, hbody]
          exact htakes'
        · rw [hsome, hbody, Node.normalize_eq hmeta]
      show (f header >>= fun h => kept (rows.map f) >>= fun rows =>
        Node.buildTable h (rows.map some) alignments caption n.attrs).result = _
      rw [Outcome.result_bind_ok _ hheader, Outcome.result_bind_ok _ hrows]
      exact Outcome.result_ofExcept_ok hmade

/-- A node is built again in a shape that takes its children, of which some may be gone. -/
theorem reassemble_staying {n : Node} {shape : Shape} (hmeta : n.attrs.metadata ≠ .null)
    (htakes : shape.Takes n.children)
    (hresults : ∀ c ∈ n.children, (f c).result = .ok (if keep c then some (g c) else none))
    (hg : ∀ c ∈ n.children, (g c).kind = c.kind) :
    (reassemble n shape (n.children.map f)).result =
      .ok (.mk (shape.leaving keep n.children) n.attrs
        ((shape.staying keep n.children).map g)) := by
  have hkept := kept_result hresults
  have hbuilt : (Node.build (shape.leaving keep n.children) n.attrs
      (((shape.staying keep n.children).map g).map some)).result =
      .ok (.mk (shape.leaving keep n.children) n.attrs
        ((shape.staying keep n.children).map g)) := by
    have hleft := (htakes.staying keep).map fun c hc => hg c (Shape.mem_staying hc).1
    rw [Node.build_result hleft, Node.normalize_eq hmeta]
  cases shape with
  | heading level =>
    show (kept (n.children.map f) >>= fun children =>
      Node.buildAnyHeading level n.attrs (children.map some)).result = _
    rw [Outcome.result_bind_ok _ hkept, buildAnyHeading_result]
    exact hbuilt
  | table => exact reassembleTable_result hmeta htakes hresults hg
  | definitionList =>
    have hentries := keptEntries_result (Node.definitions n.children) fun e he =>
      ⟨hresults e.1 (Node.mem_of_definitions he).1,
        fun d hd => hresults d ((Node.mem_of_definitions he).2 d hd)⟩
    show (keptEntries (Node.gather (fun p => Node.isDescription p.1)
      (n.children.zip (n.children.map f))).2 >>= fun entries =>
        Node.buildDefinitionList entries n.attrs).result = _
    rw [Node.gather_zip, Outcome.result_bind_ok _ hentries]
    refine buildDefinitionList_result hmeta
      (Node.isEntry_of_mem_entriesLeft keep (Node.takes_definitions.1 htakes).2) ?_
    intro e he c hc
    exact hg c (Shape.mem_staying (s := .definitionList) (List.mem_flatMap.2 ⟨e, he, hc⟩)).1
  | _ =>
    show (kept (n.children.map f) >>= fun children =>
      Node.build _ n.attrs (children.map some)).result = _
    rw [Outcome.result_bind_ok _ hkept]
    exact hbuilt

theorem reassemble_result {n : Node} {shape : Shape} (hmeta : n.attrs.metadata ≠ .null)
    (htakes : shape.Takes n.children)
    (hresults : ∀ c ∈ n.children, (f c).result = .ok (some (g c)))
    (hg : ∀ c ∈ n.children, (g c).kind = c.kind) :
    (reassemble n shape (n.children.map f)).result =
      .ok (.mk shape n.attrs (n.children.map g)) := by
  have hbuilt : (reassemble n shape (n.children.map f)).result =
      .ok (.mk (shape.leaving (fun _ => true) n.children) n.attrs
        ((shape.staying (fun _ => true) n.children).map g)) :=
    reassemble_staying hmeta htakes hresults hg
  rwa [Shape.leaving_eq_self fun _ _ => rfl, Shape.staying_eq_self htakes fun _ _ => rfl] at hbuilt

end Rebuild

end Rewriter
end Folio
