import Folio.Proofs.Node.Admission

/-!
# Trees that can be built

A tree is built when each of its nodes comes from one of the ways to build a node,
with built trees in the slots. That is a condition on each node by itself: it takes
its children, it has none where its shape has no slots, and its metadata is not null.
-/

set_option autoImplicit false

namespace Folio
namespace Node

def All (P : Node → Prop) (n : Node) : Prop := ∀ m ∈ n.preorder, P m

theorem All.root {P : Node → Prop} {n : Node} (h : n.All P) : P n :=
  h n (by rw [preorder_eq]; exact List.mem_cons_self)

theorem all_mk {P : Node → Prop} {s : Shape} {a : Attrs} {cs : List Node} :
    All P (mk s a cs) ↔ P (mk s a cs) ∧ ∀ c ∈ cs, All P c := by
  simp only [All, preorder_eq (mk s a cs), children, List.mem_cons, List.mem_flatten, List.mem_map]
  constructor
  · intro h
    exact ⟨h _ (.inl rfl), fun c hc m hm => h m (.inr ⟨_, ⟨c, hc, rfl⟩, hm⟩)⟩
  · rintro ⟨h, hs⟩ m (rfl | ⟨_, ⟨c, hc, rfl⟩, hm⟩)
    · exact h
    · exact hs c hc m hm

/-- The trees that come from building nodes, of any shape and with any attributes. A heading
built here may have any level. -/
inductive Built : Node → Prop
  | leaf {shape : Shape} {attrs : Attrs} {n : Node} (noSlots : shape.isLeaf = true)
      (made : make shape attrs [] = .ok n) : Built n
  | owner {shape : Shape} {attrs : Attrs} {slots : List Slot} {n : Node}
      (takesSlots : shape.isLeaf = false) (slotsBuilt : ∀ c, some c ∈ slots → Built c)
      (made : make shape attrs slots = .ok n) : Built n
  | table {header : Slot} {rows : List Slot} {alignments : List Alignment}
      {caption : Option Bytes} {attrs : Attrs} {n : Node}
      (headerBuilt : ∀ c, header = some c → Built c) (rowsBuilt : ∀ c, some c ∈ rows → Built c)
      (made : makeTable header rows alignments caption attrs = .ok n) : Built n
  | definitionList {entries : List DefinitionEntry} {attrs : Attrs} {n : Node}
      (termsBuilt : ∀ e ∈ entries, ∀ c, e.term = some c → Built c)
      (descriptionsBuilt : ∀ e ∈ entries, ∀ c, some c ∈ e.descriptions → Built c)
      (made : makeDefinitionList entries attrs = .ok n) : Built n

/-- What building checks of one node. -/
structure Checked (n : Node) : Prop where
  takes : n.shape.Takes n.children
  leaf : n.shape.isLeaf = true → n.children = []
  metadata : n.attrs.metadata ≠ .null

theorem normalize_metadata (a : Attrs) : a.normalize.metadata ≠ .null := by
  unfold Attrs.normalize
  cases h : a.metadata <;> simp [Value.isNull, Value.empty, h]

theorem normalize_eq {a : Attrs} (h : a.metadata ≠ .null) : a.normalize = a := by
  unfold Attrs.normalize
  cases hm : a.metadata <;> simp_all [Value.isNull]

theorem Built.checked {n : Node} (h : n.Built) : n.All Checked := by
  induction h with
  | leaf noSlots made =>
    obtain ⟨cs, hcs, htakes, rfl⟩ := make_eq_ok.1 made
    obtain rfl : cs = [] := by simpa using hcs.symm
    exact all_mk.2 ⟨⟨htakes, fun _ => rfl, normalize_metadata _⟩, by simp⟩
  | owner takesSlots slotsBuilt made ih =>
    obtain ⟨cs, rfl, htakes, rfl⟩ := make_eq_ok.1 made
    rw [all_mk]
    constructor
    · exact ⟨htakes, fun h => by simp [shape, takesSlots] at h, normalize_metadata _⟩
    · intro c hc
      exact ih c (by simpa)
  | @table header rows alignments caption attrs n headerBuilt rowsBuilt made ihHeader ihRows =>
    obtain ⟨body, rfl, htakes, rfl⟩ := makeTable_eq_ok.1 made
    rw [all_mk]
    constructor
    · exact ⟨htakes, nofun, normalize_metadata _⟩
    · intro c hc
      rcases List.mem_append.1 hc with hc | hc
      · exact ihHeader c (by simpa using hc)
      · exact ihRows c (by simpa using hc)
  | definitionList termsBuilt descriptionsBuilt made ihTerms ihDescriptions =>
    obtain ⟨cs, hcs, rfl⟩ := makeDefinitionList_eq_ok.1 made
    obtain ⟨es, rfl, hes, rfl⟩ := entryChildren_eq_ok.1 hcs
    rw [all_mk]
    constructor
    · exact ⟨takes_entries hes, nofun, normalize_metadata _⟩
    · intro c hc
      simp only [List.mem_flatten, List.mem_map] at hc
      obtain ⟨_, ⟨e, he, rfl⟩, hc⟩ := hc
      have hentry := List.mem_map_of_mem (f := fun e : Node × List Node =>
        (⟨some e.1, e.2.map some⟩ : DefinitionEntry)) he
      rcases List.mem_cons.1 hc with rfl | hc
      · exact ihTerms _ hentry _ rfl
      · exact ihDescriptions _ hentry c (by simpa using hc)

theorem built_iff {n : Node} : n.Built ↔ n.All Checked := by
  constructor
  · exact Built.checked
  intro h
  induction n using induct with
  | step s a cs ih =>
    obtain ⟨⟨htakes, hleaf, hmeta⟩, hcs⟩ := all_mk.1 h
    have made : make s a (cs.map some) = .ok (mk s a cs) :=
      make_eq_ok.2 ⟨cs, rfl, htakes, congrArg (mk s · cs) (normalize_eq hmeta)⟩
    by_cases hs : s.isLeaf = true
    · obtain rfl : cs = [] := hleaf hs
      exact .leaf hs made
    · have hslots : ∀ c, some c ∈ cs.map some → Built c := by
        intro c hc
        have hmem : c ∈ cs := by simpa using hc
        exact ih c hmem (hcs c hmem)
      exact .owner (by simpa using hs) hslots made

instance decidableAll (P : Node → Prop) [DecidablePred P] (n : Node) : Decidable (n.All P) :=
  inferInstanceAs (Decidable (∀ m ∈ n.preorder, P m))

instance decidableChecked (n : Node) : Decidable n.Checked :=
  decidable_of_iff (n.shape.Takes n.children ∧ (n.shape.isLeaf = true → n.children = []) ∧
      n.attrs.metadata ≠ .null)
    ⟨fun ⟨takes, leaf, metadata⟩ => ⟨takes, leaf, metadata⟩,
      fun ⟨takes, leaf, metadata⟩ => ⟨takes, leaf, metadata⟩⟩

instance decidableBuilt (n : Node) : Decidable n.Built := decidable_of_iff _ built_iff.symm

end Node

def Attrs.Objects (a : Attrs) : Prop :=
  a.metadata.isObject = true ∧ ∀ l ∈ a.location, l.metadata.isObject = true

theorem Attrs.Objects.ne_null {a : Attrs} (h : a.Objects) : a.metadata ≠ .null :=
  fun hm => by simp [Objects, hm, Value.isObject] at h

theorem Attrs.Objects.normalize {a : Attrs} (h : a.Objects) : a.normalize = a :=
  Node.normalize_eq h.ne_null

def Node.Recordable (n : Node) : Prop := n.All fun m => m.Checked ∧ m.attrs.Objects

end Folio
