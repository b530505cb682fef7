import Folio.Text

/-!
# Rewriting trees

A rewriter says of each node what is to become of it: it is kept, perhaps in
another shape of its kind, with its children rewritten; or something else takes its
place, or nothing does, and its children are not looked at. A node is rebuilt with
the checks of its kind, after its children and in document order. The level of a
heading is checked only where the rewriter has chosen it. A term that is taken away
takes its descriptions along.

There are rewriters for common edits: other heading levels, other text, other link
targets, replacement by rules, and leaving out what does not meet a condition. A
condition is met when all that it states holds, or, negated, when some of it does not.

Documents are merged block after block, under metadata in which a name that several
of them use keeps its last value, its first, or, for arrays, all elements.
-/

set_option autoImplicit false

namespace Folio

inductive Step where
  | keep (shape : Shape)
  | heading (level : Int32)
  | replace (slot : Slot)

abbrev Rewriter := Node → Outcome Step

namespace Rewriter

def kept (results : List (Outcome Slot)) : Outcome (List Node) := do
  let slots ← Outcome.sequence results
  return slots.filterMap id

def keptEntries :
    List ((Node × Outcome Slot) × List (Node × Outcome Slot)) → Outcome (List Node.DefinitionEntry)
  | [] => pure []
  | (term, descriptions) :: rest => do
    match ← term.2 with
    | none => keptEntries rest
    | some t => do
      let ds ← kept (descriptions.map (·.2))
      let others ← keptEntries rest
      return ⟨some t, ds.map some⟩ :: others

/-- Builds a node again in a shape, from what became of its children. -/
def reassemble (n : Node) (shape : Shape) (results : List (Outcome Slot)) : Outcome Node :=
  match shape with
  | .heading level => do
    let children ← kept results
    Node.buildAnyHeading level n.attrs (children.map some)
  | .table hasHeader alignments caption => do
    let header ← match hasHeader, results with
      | true, result :: _ => result
      | _, _ => pure none
    let rows ← kept (if hasHeader then results.tail else results)
    Node.buildTable header (rows.map some) alignments caption n.attrs
  | .definitionList => do
    let entries ← keptEntries
      (Node.gather (fun p => Node.isDescription p.1) (n.children.zip results)).2
    Node.buildDefinitionList entries n.attrs
  | shape => do
    let children ← kept results
    Node.build shape n.attrs (children.map some)

def carryOut (n : Node) (results : List (Outcome Slot)) : Step → Outcome Slot
  | .keep shape => some <$> reassemble n shape results
  | .heading level => do
    let children ← kept results
    some <$> Node.buildHeading level n.attrs (children.map some)
  | .replace slot => pure slot

def step (r : Rewriter) (n : Node) (results : List (Outcome Slot)) : Outcome Slot := do
  let own ← r n
  carryOut n results own

def run (r : Rewriter) : Node → Outcome Slot := Node.fold (step r)

theorem run_eq (r : Rewriter) (n : Node) : r.run n = step r n (n.children.map r.run) :=
  Node.fold_eq _ n

def identity : Rewriter := fun n => pure (.keep n.shape)

end Rewriter

namespace Document

/-- Rewrites a document, which has to stay one. -/
def rewrite (d : Document) (r : Rewriter) : Outcome Document := do
  let slot ← r.run d.toNode
  match slot.bind Node.document? with
  | none => .raise (.rewrite (.notDocument (slot.map Node.kind)))
  | some result => do
    Outcome.debug .transform <|
      utf8 "transformed document with " ++ .ofNat result.children.length ++ utf8 " top-level nodes"
    return result

def rewrite? (d : Option Document) (r : Rewriter) : Outcome Document :=
  match d with
  | none => .raise (.rewrite .noDocument)
  | some d => d.rewrite r

end Document

structure Condition where
  kinds : Option (List Kind) := none
  text : Option Bytes := none
  isInline : Option Bool := none
  negated : Bool := false

namespace Condition

def stated (c : Condition) (n : Node) : Bool :=
  c.kinds.all (·.contains n.kind) && c.text.all (Bytes.occursIn · n.text) &&
    c.isInline.all (· == n.isInline)

def holds (c : Condition) (n : Node) : Bool := c.stated n != c.negated

end Condition

namespace Node

def collect (n : Node) (p : Node → Bool) : List Node := n.preorder.filter p

def collectKind (n : Node) (k : Kind) : List Node := n.collect fun m => m.kind == k

end Node

namespace Rewriter

def refuse {α : Type} (cause : RewriteFault) : Outcome α := .raise (.rewrite cause)

def shiftedLevel (offset low high level : Int) : Int := max low (min high (level + offset))

def shiftHeadings (offset low high : Int) : Rewriter := fun n =>
  match n.shape with
  | .heading level =>
    pure (.heading (Int32.ofInt (shiftedLevel offset low high level.toInt)))
  | shape => pure (.keep shape)

def headingLevels (offset low high : Int) : Outcome Rewriter :=
  if low < 1 || 6 < high || high < low then refuse (.levelBounds low high)
  else pure (shiftHeadings offset low high)

def replaceText (pattern replacement : Bytes) : Rewriter := fun n =>
  match n.shape with
  | .text content => pure (.keep (.text (Bytes.replaceAll pattern replacement content)))
  | shape => pure (.keep shape)

def mapUrl (mapper : Bytes → Bytes) (validate : Bool) (owner : Kind) (url : Bytes) :
    Outcome Bytes :=
  let mapped := mapper url
  match if validate then Url.check mapped false else none with
  | some fault => refuse (.url (.url owner.name mapped fault))
  | none => pure mapped

def mapLinks (mapper : Bytes → Bytes) (validate : Bool) : Rewriter := fun n =>
  match n.shape with
  | .link url title => do
    let mapped ← mapUrl mapper validate .link url
    return .keep (.link mapped title)
  | .image url alt title width height => do
    let mapped ← mapUrl mapper validate .image url
    return .keep (.image mapped alt title width height)
  | shape => return .keep shape

def links (mapper : Option (Bytes → Bytes)) (validate : Bool) : Outcome Rewriter :=
  match mapper with
  | none => refuse .noMapper
  | some mapper => pure (mapLinks mapper validate)

inductive Action where
  | throw (text : Bytes)
  | replace (slot : Slot)

/-- A rule for the nodes of a kind, all of them or those with a given text. -/
structure Rule where
  kind : Kind
  text : Option Bytes
  action : Action

def Rule.applies (rule : Rule) (n : Node) : Bool :=
  rule.kind == n.kind && rule.text.all (· == n.text)

def byRules (rules : List Rule) : Rewriter := fun n =>
  match rules.find? fun rule => rule.applies n with
  | none => pure (.keep n.shape)
  | some rule =>
    match rule.action with
    | .throw text => .fail (.refused text)
    | .replace slot => pure (.replace slot)

/-- Leaves out the nodes that a test rejects; documents are not tested. -/
def filtering (keep : Node → Bool) : Rewriter := fun n =>
  if n.kind != .document && !keep n then pure (.replace none) else pure (.keep n.shape)

end Rewriter

namespace Document

def filterNodes (d : Document) (keep : Node → Bool) : Outcome Document :=
  d.rewrite (Rewriter.filtering keep)

def filterNodes? (d : Document) (keep : Option (Node → Bool)) : Outcome Document :=
  match keep with
  | none => Rewriter.refuse .noPredicate
  | some keep => d.filterNodes keep

end Document

inductive MergePolicy where
  | lastWins | firstWins | joinLists
  deriving DecidableEq

namespace Members

def mergeOne (policy : MergePolicy) (merged : Members) (member : Bytes × Value) : Members :=
  let (name, value) := member
  match policy with
  | .lastWins => merged.insert name value
  | .firstWins => if (merged.get? name).isSome then merged else merged.insert name value
  | .joinLists =>
    match merged.get? name, value with
    | some (.arr earlier), .arr later => merged.insert name (.arr (earlier ++ later))
    | _, _ => merged.insert name value

/-- Merges a document's metadata in; anything that is no object adds nothing. -/
def merge (policy : MergePolicy) (merged : Members) (metadata : Value) : Members :=
  match metadata with
  | .obj incoming => incoming.foldl (mergeOne policy) merged
  | _ => merged

end Members

namespace Document

def present : List (Option Document) → Outcome (List Document)
  | [] => pure []
  | none :: _ => .raise (.rewrite .mergeNothing)
  | some d :: rest => do
    let others ← present rest
    return d :: others

def mergedMetadata (policy : MergePolicy) (ds : List Document) : Members :=
  ds.foldl (fun merged d => merged.merge policy d.attrs.metadata) []

def merge (policy : MergePolicy) (slots : List (Option Document)) : Outcome Document := do
  let ds ← present slots
  let children := ds.flatMap Document.children
  Outcome.debug .transform <|
    utf8 "merged " ++ .ofNat ds.length ++ utf8 " documents into " ++ .ofNat children.length ++
      utf8 " nodes"
  Document.build (children.map some) { metadata := .obj (mergedMetadata policy ds) }

end Document

end Folio
