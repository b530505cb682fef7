import Folio.Node.Build
import Folio.Proofs.Outcome

/-!
# What a shape takes

The checks of a shape on its children, as a condition on their kinds, and the one
form that all ways to build a node come to: every slot is in use, the shape takes
the nodes in them, and the node is put together from them as they stand.
-/

set_option autoImplicit false

namespace Folio

def Shape.isLeaf : Shape → Bool
  | .codeBlock .. | .thematicBreak | .htmlBlock _ | .comment _ | .mathBlock _ | .text _ | .code _
  | .image .. | .lineBreak _ | .htmlInline _ | .commentInline _ | .footnoteReference _
  | .mathInline _ => true
  | _ => false

def Kind.isLeaf : Kind → Bool
  | .codeBlock | .thematicBreak | .htmlBlock | .comment | .mathBlock | .text | .code | .image
  | .lineBreak | .htmlInline | .commentInline | .footnoteReference | .mathInline => true
  | _ => false

theorem Shape.isLeaf_eq (s : Shape) : s.isLeaf = s.kind.isLeaf := by
  cases s <;> rfl

/-- The kinds of children that an owner of this shape may have, in their order. -/
def Shape.Takes (s : Shape) (children : List Node) : Prop :=
  match s with
  | .document => ∀ c ∈ children, c.kind.isDocumentBlock = true
  | .list .. => ∀ c ∈ children, c.kind = .listItem
  | .tableRow _ => ∀ c ∈ children, c.kind = .tableCell
  | .table hasHeader _ _ =>
    (hasHeader = true → children ≠ []) ∧ ∀ c ∈ children, c.kind = .tableRow
  | .definitionList =>
    (∀ c ∈ children.head?, c.kind = .definitionTerm) ∧
      ∀ c ∈ children, c.kind = .definitionTerm ∨ c.kind = .definitionDescription
  | _ => True

theorem Shape.takes_document_append {ns ms : List Node} :
    Shape.document.Takes (ns ++ ms) ↔ Shape.document.Takes ns ∧ Shape.document.Takes ms :=
  List.forall_mem_append

namespace Node

theorem filled_eq_ok {owner : Kind} {i : Nat} {slots : List Slot} {ns : List Node} :
    filled owner i slots = .ok ns ↔ slots = ns.map some := by
  constructor
  · intro h
    induction slots generalizing i ns with
    | nil =>
      cases h
      rfl
    | cons slot slots ih =>
      cases slot with
      | none => simp [filled] at h
      | some n =>
        cases hf : filled owner (i + 1) slots with
        | error e => simp [filled, hf, Except.map] at h
        | ok ms =>
          simp only [filled, hf, Except.map, Except.ok.injEq] at h
          subst h
          simp [ih hf]
  · rintro rfl
    exact filled_some owner i ns

theorem requireRole_eq_ok {role : Role} {i : Nat} {ns : List Node} :
    requireRole role i ns = .ok () ↔ ∀ n ∈ ns, n.kind = role.kind := by
  induction ns generalizing i with
  | nil => simp [requireRole]
  | cons n ns ih => by_cases h : n.kind = role.kind <;> simp [requireRole, h, ih]

def IsEntry (e : Node × List Node) : Prop :=
  e.1.kind = .definitionTerm ∧ ∀ d ∈ e.2, d.kind = .definitionDescription

theorem requireEntries_eq_ok {i : Nat} {entries : List (Node × List Node)} :
    requireEntries i entries = .ok () ↔ ∀ e ∈ entries, IsEntry e := by
  induction entries generalizing i with
  | nil => simp [requireEntries]
  | cons e entries ih =>
    rw [List.forall_mem_cons, IsEntry, ← ih (i := i + 1)]
    by_cases ht : e.1.kind = .definitionTerm
    · simp [requireEntries, ht, except_check_eq_ok, requireRole_eq_ok, Role.kind]
    · simp [requireEntries, ht]

theorem gather_sorted {α : Type} (continues : α → Bool) (as : List α) :
    (∀ a ∈ (gather continues as).1, continues a = true) ∧
      ∀ g ∈ (gather continues as).2, continues g.1 = false ∧ ∀ a ∈ g.2, continues a = true := by
  induction as with
  | nil => simp [gather]
  | cons a as ih =>
    by_cases h : continues a = true
    · simpa [gather, h] using ih
    · simp only [gather, h, Bool.false_eq_true, ↓reduceIte]
      constructor
      · simp
      · intro g hg
        rcases List.mem_cons.1 hg with rfl | hg
        · exact ⟨by simpa using h, ih.1⟩
        · exact ih.2 g hg

theorem gather_loose {α : Type} (continues : α → Bool) (as : List α) :
    (gather continues as).1 = [] ↔ ∀ a ∈ as.head?, continues a = false := by
  cases as with
  | nil => simp [gather]
  | cons a as => by_cases h : continues a = true <;> simp [gather, h]

theorem gather_groups {α : Type} {continues : α → Bool} {gs : List (α × List α)}
    (h : ∀ g ∈ gs, continues g.1 = false ∧ ∀ a ∈ g.2, continues a = true) :
    gather continues (gs.flatMap fun g => g.1 :: g.2) = ([], gs) := by
  have happend {as bs : List α} (has : ∀ a ∈ as, continues a = true) :
      gather continues (as ++ bs) =
        (as ++ (gather continues bs).1, (gather continues bs).2) := by
    induction as with
    | nil => rfl
    | cons a as ih => simp [gather, has a, ih fun b hb => has b (by simp [hb])]
  induction gs with
  | nil => rfl
  | cons g gs ih =>
    obtain ⟨hhead, hitems⟩ := h g (by simp)
    have hrest := ih fun g hg => h g (by simp [hg])
    simp [gather, happend hitems, hrest, hhead]

theorem gather_map {α β : Type} (f : α → β) (continues : β → Bool) (as : List α) :
    gather continues (as.map f) =
      (((gather (continues ∘ f) as).1).map f,
        (gather (continues ∘ f) as).2.map fun g => (f g.1, g.2.map f)) := by
  induction as with
  | nil => rfl
  | cons a as ih => by_cases h : continues (f a) = true <;> simp [gather, ih, h]

/-- Children with what was made of each fall into the entries that the children fall into. -/
theorem gather_zip {α : Type} (f : Node → α) (children : List Node) :
    (gather (fun p => isDescription p.1) (children.zip (children.map f))).2 =
      (definitions children).map fun e => ((e.1, f e.1), e.2.map fun d => (d, f d)) := by
  have hzip : children.zip (children.map f) = children.map fun c => (c, f c) := by
    simpa using List.zip_map' (l := children) (f := id) (g := f)
  rw [hzip, gather_map]
  simp [definitions, Function.comp_def]

theorem takes_entries {es : List (Node × List Node)} (h : ∀ e ∈ es, IsEntry e) :
    Shape.definitionList.Takes (es.map fun e => e.1 :: e.2).flatten := by
  constructor
  · cases es with
    | nil => simp
    | cons e es => simpa using (h e (by simp)).1
  · intro c hc
    simp only [List.mem_flatten, List.mem_map] at hc
    obtain ⟨_, ⟨e, he, rfl⟩, hc⟩ := hc
    rcases List.mem_cons.1 hc with rfl | hc
    · exact .inl (h e he).1
    · exact .inr ((h e he).2 c hc)

theorem definitions_entries {es : List (Node × List Node)} (h : ∀ e ∈ es, IsEntry e) :
    definitions (es.flatMap fun e => e.1 :: e.2) = es := by
  have hsorted : ∀ e ∈ es, isDescription e.1 = false ∧ ∀ d ∈ e.2, isDescription d = true := by
    intro e he
    obtain ⟨hterm, hdescriptions⟩ := h e he
    exact ⟨by simp [isDescription, hterm], fun d hd => by simp [isDescription, hdescriptions d hd]⟩
  rw [definitions, gather_groups hsorted]

theorem flatten_definitions {children : List Node}
    (h : (gather isDescription children).1 = []) :
    ((definitions children).map fun e => e.1 :: e.2).flatten = children := by
  simpa [h, definitions] using gather_flatten isDescription children

theorem mem_of_definitions {children : List Node} {e : Node × List Node}
    (he : e ∈ definitions children) : e.1 ∈ children ∧ ∀ d ∈ e.2, d ∈ children := by
  have hmem : ∀ n ∈ e.1 :: e.2, n ∈ children := by
    intro n hn
    rw [← gather_flatten isDescription children]
    exact List.mem_append_right _ (List.mem_flatten.2 ⟨_, List.mem_map.2 ⟨e, he, rfl⟩, hn⟩)
  exact ⟨hmem e.1 (by simp), fun d hd => hmem d (by simp [hd])⟩

theorem takes_definitions {children : List Node} :
    Shape.definitionList.Takes children ↔
      (gather isDescription children).1 = [] ∧ ∀ e ∈ definitions children, IsEntry e := by
  constructor
  · rintro ⟨hhead, hall⟩
    constructor
    · apply (gather_loose _ _).2
      intro c hc
      simp [isDescription, hhead c hc]
    · intro e he
      have hsorted := (gather_sorted isDescription children).2 e he
      constructor
      · rcases hall e.1 (mem_of_definitions he).1 with hterm | hdescription
        · exact hterm
        · simp [isDescription, hdescription] at hsorted
      · intro d hd
        simpa [isDescription] using hsorted.2 d hd
  · rintro ⟨hloose, hentries⟩
    rw [← flatten_definitions hloose]
    exact takes_entries hentries

end Node

theorem Shape.Takes.map {s : Shape} {cs : List Node} {g : Node → Node} (h : s.Takes cs)
    (hg : ∀ c ∈ cs, (g c).kind = c.kind) : s.Takes (cs.map g) := by
  have hkinds {P : Kind → Prop} (hP : ∀ c ∈ cs, P c.kind) : ∀ c ∈ cs.map g, P c.kind := by
    intro c hc
    obtain ⟨b, hb, rfl⟩ := List.mem_map.1 hc
    rw [hg b hb]
    exact hP b hb
  cases s with
  | document => exact hkinds (P := fun k => k.isDocumentBlock = true) h
  | list => exact hkinds (P := (· = .listItem)) h
  | tableRow => exact hkinds (P := (· = .tableCell)) h
  | table =>
    obtain ⟨hsome, hrows⟩ := h
    exact ⟨fun hheader => by simpa using hsome hheader, hkinds (P := (· = .tableRow)) hrows⟩
  | definitionList =>
    obtain ⟨hfirst, hall⟩ := h
    refine ⟨?_, hkinds (P := fun k => k = .definitionTerm ∨ k = .definitionDescription) hall⟩
    intro c hc
    rw [List.head?_map] at hc
    obtain ⟨b, hb, rfl⟩ := Option.map_eq_some_iff.1 hc
    rw [hg b (List.mem_of_mem_head? hb)]
    exact hfirst b hb
  | _ => trivial

theorem Shape.takes_table {hasHeader : Bool} {alignments : List Alignment}
    {caption : Option Bytes} {children : List Node} :
    (Shape.table hasHeader alignments caption).Takes children ↔
      (hasHeader = true → children ≠ []) ∧ ∀ c ∈ children, c.kind = .tableRow := Iff.rfl

theorem Shape.admit_table {hasHeader : Bool} {alignments : List Alignment}
    {caption : Option Bytes} {children : List Node} :
    Shape.admit (.table hasHeader alignments caption) children = .ok () ↔
      (Shape.table hasHeader alignments caption).Takes children := by
  rw [takes_table]
  cases hasHeader with
  | false =>
    show Node.requireRole .row 0 children = .ok () ↔ _
    simp [Node.requireRole_eq_ok, Role.kind]
  | true =>
    cases children with
    | nil => exact iff_of_false nofun fun h => h.1 rfl rfl
    | cons header rows =>
      show (if header.kind = .tableRow then Node.requireRole .row 0 rows
        else .error (.header header.kind)) = .ok () ↔ _
      by_cases h : header.kind = .tableRow <;> simp [h, Node.requireRole_eq_ok, Role.kind]

theorem Shape.admit_eq_ok {s : Shape} {children : List Node} :
    s.admit children = .ok () ↔ s.Takes children := by
  cases s with
  | document => exact Node.requireBlocks_eq_ok
  | list => exact Node.requireRole_eq_ok
  | tableRow => exact Node.requireRole_eq_ok
  | table hasHeader alignments caption => exact Shape.admit_table
  | definitionList =>
    rw [Node.takes_definitions]
    show (if (Node.gather Node.isDescription children).1.isEmpty then
      Node.requireEntries 0 (Node.definitions children) else .error (.term 0)) = .ok () ↔ _
    by_cases h : (Node.gather Node.isDescription children).1 = [] <;>
      simp [h, Node.requireEntries_eq_ok]
  | _ => exact iff_of_true rfl trivial

instance Shape.decidableTakes (s : Shape) (children : List Node) : Decidable (s.Takes children) :=
  match h : s.admit children with
  | .ok _ => .isTrue (Shape.admit_eq_ok.1 h)
  | .error _ => .isFalse fun htakes => nomatch h.symm.trans (Shape.admit_eq_ok.2 htakes)

namespace Node

theorem make_eq_ok {shape : Shape} {attrs : Attrs} {slots : List Slot} {n : Node} :
    make shape attrs slots = .ok n ↔
      ∃ children, slots = children.map some ∧ shape.Takes children ∧
        mk shape attrs.normalize children = n := by
  rw [make, except_bind_eq_ok]
  simp only [except_check_eq_ok, except_pure_eq_ok, filled_eq_ok, Shape.admit_eq_ok]

theorem makeHeading_eq_ok {level : Int32} {attrs : Attrs} {slots : List Slot} {n : Node} :
    makeHeading level attrs slots = .ok n ↔
      make (.heading level) attrs slots = .ok n ∧ levelInRange level.toInt = true := by
  rw [makeHeading, except_bind_eq_ok]
  by_cases h : levelInRange level.toInt = true <;>
    simp [h, except_pure_eq_ok, throw, throwThe, MonadExceptOf.throw]

theorem makeTable_eq_ok {header : Slot} {rows : List Slot} {alignments : List Alignment}
    {caption : Option Bytes} {attrs : Attrs} {n : Node} :
    makeTable header rows alignments caption attrs = .ok n ↔
      ∃ body, rows = body.map some ∧
        (Shape.table header.isSome alignments caption).Takes (header.toList ++ body) ∧
        mk (.table header.isSome alignments caption) attrs.normalize
          (header.toList ++ body) = n := by
  cases header with
  | none =>
    simp only [makeTable]
    rw [except_bind_eq_ok]
    simp only [except_check_eq_ok, except_pure_eq_ok, filled_eq_ok, requireRole_eq_ok]
    simp [Shape.takes_table, Role.kind]
  | some h =>
    by_cases hk : h.kind = .tableRow
    · simp only [makeTable, hk, ne_eq, not_true_eq_false, ↓reduceIte]
      rw [except_bind_eq_ok]
      simp only [except_check_eq_ok, except_pure_eq_ok, filled_eq_ok, requireRole_eq_ok]
      simp [Shape.takes_table, Role.kind, hk]
    · simp [makeTable, hk, Shape.takes_table, throw, throwThe, MonadExceptOf.throw, bind,
        Except.bind]

theorem entryChildren_eq_ok {i : Nat} {entries : List DefinitionEntry} {ns : List Node} :
    entryChildren i entries = .ok ns ↔
      ∃ es : List (Node × List Node),
        entries = es.map (fun e => ⟨some e.1, e.2.map some⟩) ∧
        (∀ e ∈ es, IsEntry e) ∧
        (es.map fun e => e.1 :: e.2).flatten = ns := by
  induction entries generalizing i ns with
  | nil => simp [entryChildren]
  | cons entry entries ih =>
    obtain ⟨term, descriptions⟩ := entry
    constructor
    · intro h
      cases term with
      | none => cases h
      | some t =>
        by_cases hk : t.kind = .definitionTerm
        · simp only [entryChildren, hk, ↓reduceIte] at h
          obtain ⟨ds, hds, h⟩ := except_bind_eq_ok.1 h
          obtain ⟨hrole, h⟩ := except_check_eq_ok.1 h
          obtain ⟨rest, hrest, h⟩ := except_bind_eq_ok.1 h
          obtain ⟨es, rfl, hes, rfl⟩ := ih.1 hrest
          have hentries : ∀ e ∈ (t, ds) :: es, IsEntry e := by
            intro e he
            rcases List.mem_cons.1 he with rfl | he
            · exact ⟨hk, requireRole_eq_ok.1 hrole⟩
            · exact hes e he
          exact ⟨(t, ds) :: es, by simp [filled_eq_ok.1 hds], hentries, Except.ok.inj h⟩
        · simp only [entryChildren, hk, ↓reduceIte] at h
          cases h
    · rintro ⟨es, hmap, hes, rfl⟩
      cases es with
      | nil => cases hmap
      | cons e es =>
        simp only [List.map_cons, List.cons.injEq, DefinitionEntry.mk.injEq] at hmap
        obtain ⟨⟨rfl, rfl⟩, rfl⟩ := hmap
        have he := hes e (by simp)
        have hrest := ih (i := i + 1).2 ⟨es, rfl, fun e h => hes e (by simp [h]), rfl⟩
        have hrole : requireRole .description 0 e.2 = .ok () := requireRole_eq_ok.2 he.2
        simp [entryChildren, he.1, filled_some, hrole, hrest, bind, Except.bind, pure, Except.pure]

theorem makeDefinitionList_eq_ok {entries : List DefinitionEntry} {attrs : Attrs} {n : Node} :
    makeDefinitionList entries attrs = .ok n ↔
      ∃ children, entryChildren 0 entries = .ok children ∧
        mk .definitionList attrs.normalize children = n := by
  rw [makeDefinitionList, except_bind_eq_ok]
  simp only [except_pure_eq_ok]

theorem build_result {shape : Shape} {children : List Node} (h : shape.Takes children)
    (attrs : Attrs) :
    (build shape attrs (children.map some)).result = .ok (mk shape attrs.normalize children) :=
  Outcome.result_ofExcept_ok (make_eq_ok.2 ⟨children, rfl, h, rfl⟩)

end Node

end Folio
