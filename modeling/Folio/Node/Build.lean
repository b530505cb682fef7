import Folio.Node.Basic
import Folio.Outcome

/-!
# Building nodes

Nodes are built from child slots, and a slot may be empty when a caller has nothing
to put there. The checks come in a fixed order: no slot is empty, then every child
is of a kind that its owner takes, then the fields are in range. A heading whose
level is out of range can be built unchecked, so that malformed input survives
until a check of the whole tree reports it.

A definition list keeps its terms and descriptions in one row of children. Each
description belongs to the nearest term before it, so the entries can be told from
the kinds of the children.
-/

set_option autoImplicit false

namespace Folio

namespace Node

/-- Cuts a list into heads with the items that continue them, after the items that come before
the first head. -/
def gather {α : Type} (continues : α → Bool) : List α → List α × List (α × List α)
  | [] => ([], [])
  | a :: as =>
    let (loose, groups) := gather continues as
    if continues a then (a :: loose, groups) else ([], (a, loose) :: groups)

def isDescription (n : Node) : Bool := n.kind == .definitionDescription

def definitions (children : List Node) : List (Node × List Node) :=
  (gather isDescription children).2

theorem gather_flatten {α : Type} (continues : α → Bool) (as : List α) :
    (gather continues as).1 ++
      ((gather continues as).2.map fun g => g.1 :: g.2).flatten = as := by
  induction as with
  | nil => rfl
  | cons a as ih =>
    by_cases h : continues a = true
    · simpa [gather, h] using ih
    · simpa [gather, h] using ih

end Node

abbrev Slot := Option Node

namespace Node

def filled (owner : Kind) : Nat → List Slot → Except NodeFault (List Node)
  | _, [] => .ok []
  | i, none :: _ => .error (.emptySlot owner i)
  | i, some n :: slots => (filled owner (i + 1) slots).map (n :: ·)

def requireRole (role : Role) : Nat → List Node → Except NodeFault Unit
  | _, [] => .ok ()
  | i, n :: ns =>
    if n.kind = role.kind then requireRole role (i + 1) ns else .error (.wrongKind role i n.kind)

def requireBlocks : Nat → List Node → Except NodeFault Unit
  | _, [] => .ok ()
  | i, n :: ns =>
    if n.kind.isDocumentBlock then requireBlocks (i + 1) ns else .error (.notBlock i n.kind)

def requireEntries : Nat → List (Node × List Node) → Except NodeFault Unit
  | _, [] => .ok ()
  | i, (term, descriptions) :: entries =>
    if term.kind = .definitionTerm then do
      requireRole .description 0 descriptions
      requireEntries (i + 1) entries
    else .error (.term i)

end Node

/-- Checks that an owner of this shape takes these children. -/
def Shape.admit (s : Shape) (children : List Node) : Except NodeFault Unit :=
  match s with
  | .document => Node.requireBlocks 0 children
  | .list .. => Node.requireRole .item 0 children
  | .tableRow _ => Node.requireRole .cell 0 children
  | .table true _ _ =>
    match children with
    | [] => .error (.emptySlot .table 0)
    | header :: rows =>
      if header.kind = .tableRow then Node.requireRole .row 0 rows else .error (.header header.kind)
  | .table false _ _ => Node.requireRole .row 0 children
  | .definitionList =>
    if (Node.gather Node.isDescription children).1.isEmpty then
      Node.requireEntries 0 (Node.definitions children)
    else .error (.term 0)
  | _ => .ok ()

namespace Node

def make (shape : Shape) (attrs : Attrs) (slots : List Slot) : Except NodeFault Node := do
  let children ← filled shape.kind 0 slots
  shape.admit children
  return mk shape attrs.normalize children

def levelInRange (level : Int) : Bool := 1 ≤ level && level ≤ 6

def makeHeading (level : Int32) (attrs : Attrs) (slots : List Slot) : Except NodeFault Node := do
  let heading ← make (.heading level) attrs slots
  if levelInRange level.toInt then return heading else throw (.headingLevel level.toInt)

/-- A table; the kind of the header is checked before the rows are looked at. -/
def makeTable (header : Slot) (rows : List Slot) (alignments : List Alignment)
    (caption : Option Bytes) (attrs : Attrs) : Except NodeFault Node := do
  match header with
  | none => pure ()
  | some h => if h.kind ≠ .tableRow then throw (.header h.kind)
  let body ← filled .table 0 rows
  requireRole .row 0 body
  return mk (.table header.isSome alignments caption) attrs.normalize (header.toList ++ body)

structure DefinitionEntry where
  term : Slot
  descriptions : List Slot

def entryChildren : Nat → List DefinitionEntry → Except NodeFault (List Node)
  | _, [] => .ok []
  | i, e :: entries => do
    match e.term with
    | some term =>
      if term.kind = .definitionTerm then do
        let descriptions ← filled .definitionList 0 e.descriptions
        requireRole .description 0 descriptions
        let rest ← entryChildren (i + 1) entries
        return term :: (descriptions ++ rest)
      else throw (.term i)
    | none => throw (.term i)

def makeDefinitionList (entries : List DefinitionEntry) (attrs : Attrs) :
    Except NodeFault Node := do
  let children ← entryChildren 0 entries
  return mk .definitionList attrs.normalize children

def build (shape : Shape) (attrs : Attrs) (slots : List Slot) : Outcome Node :=
  .ofExcept .node (make shape attrs slots)

def buildHeading (level : Int32) (attrs : Attrs) (slots : List Slot) : Outcome Node :=
  .ofExcept .node (makeHeading level attrs slots)

/-- A heading of any level; the log is told of a level that is out of range. -/
def buildAnyHeading (level : Int32) (attrs : Attrs) (slots : List Slot) : Outcome Node := do
  unless levelInRange level.toInt do
    Outcome.debug .node (utf8 "building unchecked heading with level " ++ .ofInt level.toInt)
  build (.heading level) attrs slots

def buildTable (header : Slot) (rows : List Slot) (alignments : List Alignment)
    (caption : Option Bytes) (attrs : Attrs) : Outcome Node :=
  .ofExcept .node (makeTable header rows alignments caption attrs)

def buildDefinitionList (entries : List DefinitionEntry) (attrs : Attrs) : Outcome Node :=
  .ofExcept .node (makeDefinitionList entries attrs)

/-- A node without attributes, for children that its shape is known to take. -/
def plain (shape : Shape) (children : List Node) : Node := mk shape {} children

def plainText (content : Bytes) : Node := plain (.text content) []

theorem filled_some (owner : Kind) (i : Nat) (ns : List Node) :
    filled owner i (ns.map some) = .ok ns := by
  induction ns generalizing i with
  | nil => rfl
  | cons n ns ih => simp [filled, ih, Except.map]

theorem requireBlocks_eq_ok {i : Nat} {ns : List Node} :
    requireBlocks i ns = .ok () ↔ ∀ n ∈ ns, n.kind.isDocumentBlock = true := by
  induction ns generalizing i with
  | nil => simp [requireBlocks]
  | cons n ns ih => by_cases h : n.kind.isDocumentBlock = true <;> simp [requireBlocks, h, ih]

end Node

namespace Document

def make (slots : List Slot) (attrs : Attrs) : Except NodeFault Document := do
  let children ← Node.filled .document 0 slots
  match h : Node.requireBlocks 0 children with
  | .ok () => return ⟨children, attrs.normalize, Node.requireBlocks_eq_ok.1 h,
      attrs.normalize_hasMetadata⟩
  | .error fault => throw fault

def build (slots : List Slot) (attrs : Attrs) : Outcome Document :=
  .ofExcept .node (make slots attrs)

section Blocks

variable {children : List Node} (h : ∀ n ∈ children, n.kind.isDocumentBlock = true)
include h

theorem make_blocks (attrs : Attrs) : make (children.map some) attrs =
    .ok ⟨children, attrs.normalize, h, attrs.normalize_hasMetadata⟩ := by
  rw [make, Node.filled_some]
  show (match hblocks : Node.requireBlocks 0 children with | .ok () => _ | .error fault => _) = _
  split
  · rfl
  next fault hfault => exact nomatch hfault.symm.trans (Node.requireBlocks_eq_ok.2 h)

theorem build_result (attrs : Attrs) : (build (children.map some) attrs).result =
    .ok ⟨children, attrs.normalize, h, attrs.normalize_hasMetadata⟩ := by
  rw [build, make_blocks h]
  rfl

theorem build_attrs (d : Document) :
    (build (children.map some) d.attrs).result = .ok (d.withChildren children h) := by
  have hsame : d.attrs.normalize = d.attrs := Attrs.normalize_eq_self d.hasMetadata
  rw [build_result h]
  simp only [withChildren, hsame]

end Blocks

end Document

end Folio
