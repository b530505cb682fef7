import Folio.Node.Kind
import Folio.Value

/-!
# Nodes

A document tree: each node has a shape, which is its kind with the fields of that
kind, attributes that every kind may carry, and child nodes in document order. A
table keeps its header row, when it has one, as the first child. The children of a
definition list are its terms, each followed by its descriptions. `fold` is the
recursion that reading, checking and rebuilding a tree are made of.

Two nodes are equal when their shapes, attributes and children are, child by child.
The test is exact: it finds two trees equal just when they are the same tree.
-/

set_option autoImplicit false

namespace Folio

structure Location where
  format : Bytes
  page : Option Int32 := none
  line : Option Int32 := none
  column : Option Int32 := none
  elementId : Option Bytes := none
  metadata : Value := .empty
  deriving DecidableEq

structure Attrs where
  metadata : Value := .empty
  location : Option Location := none
  deriving DecidableEq

namespace Attrs

/-- No metadata is an empty object of it. -/
def normalize (a : Attrs) : Attrs :=
  if a.metadata.isNull then { a with metadata := .empty } else a

theorem default_hasMetadata : ({} : Attrs).metadata.isNull = false := rfl

theorem normalize_hasMetadata (a : Attrs) : a.normalize.metadata.isNull = false := by
  unfold normalize
  cases h : a.metadata.isNull with
  | true => rfl
  | false => exact h

theorem normalize_eq_self {a : Attrs} (h : a.metadata.isNull = false) : a.normalize = a :=
  if_neg (ne_true_of_eq_false h)

end Attrs

/-- A formula, with its forms in other notations in the byte order of their names. -/
structure Formula where
  content : Bytes
  dialect : Bytes
  representations : List (Bytes × Bytes)
  deriving DecidableEq

inductive Shape where
  | document
  | heading (level : Int32)
  | paragraph
  | codeBlock (content : Bytes) (language : Option Bytes) (fence : UInt8) (fenceLength : Int32)
  | blockQuote
  | list (ordered : Bool) (start : Int32) (tight : Bool)
  | listItem (status : TaskStatus)
  | table (hasHeader : Bool) (alignments : List Alignment) (caption : Option Bytes)
  | tableRow (isHeader : Bool)
  | tableCell (colspan rowspan : Int32) (alignment : Alignment)
  | thematicBreak
  | htmlBlock (content : Bytes)
  | comment (content : Bytes)
  | footnoteDefinition (identifier : Bytes)
  | definitionList
  | definitionTerm
  | definitionDescription
  | mathBlock (formula : Formula)
  | text (content : Bytes)
  | emphasis
  | strong
  | code (content : Bytes)
  | link (url : Bytes) (title : Option Bytes)
  | image (url alt : Bytes) (title : Option Bytes) (width height : Option Int32)
  | lineBreak (soft : Bool)
  | strikethrough
  | underline
  | superscript
  | subscript
  | htmlInline (content : Bytes)
  | commentInline (content : Bytes)
  | footnoteReference (identifier : Bytes)
  | mathInline (formula : Formula)
  deriving DecidableEq

namespace Shape

def kind : Shape → Kind
  | document => .document
  | heading _ => .heading
  | paragraph => .paragraph
  | codeBlock .. => .codeBlock
  | blockQuote => .blockQuote
  | list .. => .list
  | listItem _ => .listItem
  | table .. => .table
  | tableRow _ => .tableRow
  | tableCell .. => .tableCell
  | thematicBreak => .thematicBreak
  | htmlBlock _ => .htmlBlock
  | comment _ => .comment
  | footnoteDefinition _ => .footnoteDefinition
  | definitionList => .definitionList
  | definitionTerm => .definitionTerm
  | definitionDescription => .definitionDescription
  | mathBlock _ => .mathBlock
  | text _ => .text
  | emphasis => .emphasis
  | strong => .strong
  | code _ => .code
  | link .. => .link
  | image .. => .image
  | lineBreak _ => .lineBreak
  | strikethrough => .strikethrough
  | underline => .underline
  | superscript => .superscript
  | subscript => .subscript
  | htmlInline _ => .htmlInline
  | commentInline _ => .commentInline
  | footnoteReference _ => .footnoteReference
  | mathInline _ => .mathInline

end Shape

inductive Node where
  | mk (shape : Shape) (attrs : Attrs) (children : List Node)

namespace Node

def shape : Node → Shape
  | mk s _ _ => s

def attrs : Node → Attrs
  | mk _ a _ => a

def children : Node → List Node
  | mk _ _ cs => cs

def kind (n : Node) : Kind := n.shape.kind

def isInline (n : Node) : Bool := n.kind.isInline

def level? (n : Node) : Option Int :=
  match n.shape with
  | .heading l => some l.toInt
  | _ => none

mutual
/-- Recursion over a tree: `step` is given each node with the results for its children. -/
def fold {α : Type} (step : Node → List α → α) : Node → α
  | mk s a cs => step (mk s a cs) (foldAll step cs)

def foldAll {α : Type} (step : Node → List α → α) : List Node → List α
  | [] => []
  | n :: ns => fold step n :: foldAll step ns
end

theorem foldAll_eq_map {α : Type} (step : Node → List α → α) (ns : List Node) :
    foldAll step ns = ns.map (fold step) := by
  induction ns with
  | nil => rfl
  | cons n ns ih => simp [foldAll, ih]

theorem fold_eq {α : Type} (step : Node → List α → α) (n : Node) :
    fold step n = step n (n.children.map (fold step)) := by
  cases n with
  | mk s a cs => rw [fold, foldAll_eq_map]; rfl

mutual
theorem induct {P : Node → Prop}
    (step : ∀ s a cs, (∀ c ∈ cs, P c) → P (mk s a cs)) : ∀ n, P n
  | mk s a cs => step s a cs (inductAll step cs)

theorem inductAll {P : Node → Prop}
    (step : ∀ s a cs, (∀ c ∈ cs, P c) → P (mk s a cs)) : ∀ ns : List Node, ∀ c ∈ ns, P c
  | [] => by simp
  | n :: ns => fun c h =>
    (List.mem_cons.1 h).elim (fun e => e ▸ induct step n) (inductAll step ns c)
end

def preorder : Node → List Node := fold fun n below => n :: below.flatten

theorem preorder_eq (n : Node) : n.preorder = n :: (n.children.map preorder).flatten :=
  fold_eq _ n

end Node

/-- The root of a tree: blocks in order, none of which is a document, and the attributes of the
whole. -/
@[ext]
structure Document where
  children : List Node
  attrs : Attrs := {}
  areBlocks : ∀ n ∈ children, n.kind.isDocumentBlock = true := by exact List.all_eq_true.1 rfl
  hasMetadata : attrs.metadata.isNull = false := by
    first | exact Attrs.default_hasMetadata | rfl

namespace Document

def toNode (d : Document) : Node := .mk .document d.attrs d.children

def withChildren (d : Document) (children : List Node)
    (areBlocks : ∀ n ∈ children, n.kind.isDocumentBlock = true) : Document :=
  { d with children, areBlocks }

end Document

namespace Node

def document? (n : Node) : Option Document :=
  match n.shape with
  | .document =>
    if h : (∀ c ∈ n.children, c.kind.isDocumentBlock = true) ∧
        n.attrs.metadata.isNull = false then
      some ⟨n.children, n.attrs, h.1, h.2⟩
    else none
  | _ => none

theorem document?_toNode (d : Document) : d.toNode.document? = some d :=
  dif_pos ⟨d.areBlocks, d.hasMetadata⟩

end Node

theorem Document.toNode_inj {d e : Document} : d.toNode = e.toNode ↔ d = e := by
  refine ⟨fun h => ?_, congrArg toNode⟩
  have hread := congrArg Node.document? h
  simpa [Node.document?_toNode] using hread

namespace Node

mutual
def beq : Node → Node → Bool
  | mk s a cs, mk t b ds => s == t && a == b && beqAll cs ds

def beqAll : List Node → List Node → Bool
  | [], [] => true
  | c :: cs, d :: ds => beq c d && beqAll cs ds
  | _, _ => false
end

instance : BEq Node := ⟨beq⟩

mutual
theorem eq_of_beq : ∀ {a b : Node}, beq a b = true → a = b
  | mk _ _ _, mk _ _ _, h => by
    simp only [beq, Bool.and_eq_true, beq_iff_eq] at h
    rw [h.1.1, h.1.2, eq_of_beqAll h.2]

theorem eq_of_beqAll : ∀ {as bs : List Node}, beqAll as bs = true → as = bs
  | [], [], _ => rfl
  | a :: as, b :: bs, h => by
    simp only [beqAll, Bool.and_eq_true] at h
    rw [eq_of_beq h.1, eq_of_beqAll h.2]
end

mutual
theorem beq_self : ∀ a : Node, beq a a = true
  | mk _ _ cs => by simp [beq, beqAll_self cs]

theorem beqAll_self : ∀ as : List Node, beqAll as as = true
  | [] => rfl
  | a :: as => by simp [beqAll, beq_self a, beqAll_self as]
end

instance : LawfulBEq Node where
  eq_of_beq h := eq_of_beq h
  rfl := beq_self _

instance : DecidableEq Node := fun a b =>
  if h : (a == b) = true then .isTrue (LawfulBEq.eq_of_beq h)
  else .isFalse fun e => h (by rw [e]; exact beq_self b)

end Node

end Folio
