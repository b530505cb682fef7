import Folio.Node.Build

/-!
# Checking trees

Every node has findings of its own, from its fields and the kinds of its children.
A check goes through a tree, to each node before its children and to the header of a
table before the table. A strict check also looks at URLs and at what inline and
block containers hold, and stops at its first finding. Any other check lists the
findings, up to a number if one is set.
-/

set_option autoImplicit false

namespace Folio

structure CheckOptions where
  strict : Bool := true
  allowRawHtml : Bool := false
  maxErrors : Int := 0

namespace Node

def blockChildren (owner : Kind) (children : List Node) : List Finding :=
  children.zipIdx.filterMap fun (c, i) =>
    if c.isInline then none else some (.notInline owner i c.kind)

def inlineChildren (owner : Kind) (children : List Node) : List Finding :=
  children.zipIdx.filterMap fun (c, i) =>
    if c.isInline then some (.notBlock owner i c.kind) else none

def findingIf (condition : Bool) (f : Finding) : List Finding := if condition then [f] else []

def urlFindings (owner : Kind) (url : Bytes) (allowInline : Bool) : List Finding :=
  ((Url.check url allowInline).map fun fault => Finding.url owner.name url fault).toList

def knownDialects : List Bytes := [utf8 "latex", utf8 "mathml", utf8 "html"]

def formulaFindings (owner : Kind) (f : Formula) : List Finding :=
  findingIf (!knownDialects.contains f.dialect) (.unknownDialect owner f.dialect) ++
    (f.representations.map (·.1)).filterMap fun dialect =>
      if knownDialects.contains dialect then none
      else some (.unknownRepresentation owner dialect)

def bodyRows (hasHeader : Bool) (children : List Node) : List Node :=
  if hasHeader then children.tail else children

/-- Rows and alignments that do not fit the first row, be it the header or not. -/
def tableFindings (hasHeader : Bool) (alignments : List Alignment) (children : List Node) :
    List Finding :=
  match children with
  | [] => []
  | first :: _ =>
    let columns := first.children.length
    ((bodyRows hasHeader children).zipIdx.filterMap fun (row, i) =>
      if row.children.length = columns then none
      else some (.rowCells i row.children.length columns)) ++
      findingIf (!alignments.isEmpty && alignments.length != columns)
        (.alignmentCount alignments.length columns)

def ownFindings (o : CheckOptions) (n : Node) : List Finding :=
  let inlineOnly := if o.strict then blockChildren n.kind n.children else []
  let blocksOnly := if o.strict then inlineChildren n.kind n.children else []
  match n.shape with
  | .heading level =>
    findingIf (!levelInRange level.toInt) (.headingLevel level.toInt) ++ inlineOnly
  | .paragraph | .definitionTerm | .emphasis | .strong | .strikethrough | .underline
  | .superscript | .subscript => inlineOnly
  | .codeBlock _ _ fence fenceLength =>
    findingIf (fenceLength.toInt < 1) (.fenceLength fenceLength.toInt) ++
      findingIf (fence != 96 && fence != 126) (.fenceCharacter fence)
  | .list ordered start _ =>
    findingIf (ordered && start.toInt < 1) (.listStart start.toInt) ++
      findingIf n.children.isEmpty .emptyList
  | .listItem _ | .definitionDescription => blocksOnly
  | .table hasHeader alignments _ => tableFindings hasHeader alignments n.children
  | .tableCell colspan rowspan _ =>
    findingIf (colspan.toInt < 1) (.colspan colspan.toInt) ++
      findingIf (rowspan.toInt < 1) (.rowspan rowspan.toInt) ++ inlineOnly
  | .htmlBlock _ | .htmlInline _ => findingIf (!o.allowRawHtml) (.rawHtml n.kind)
  | .comment content | .commentInline content => findingIf content.isEmpty (.emptyComment n.kind)
  | .footnoteDefinition identifier | .footnoteReference identifier =>
    findingIf identifier.isEmpty (.noIdentifier n.kind)
  | .mathBlock formula | .mathInline formula => formulaFindings n.kind formula
  | .link url _ =>
    findingIf url.isEmpty (.emptyUrl n.kind) ++
      (if o.strict then urlFindings n.kind url false else []) ++ inlineOnly
  | .image url .. =>
    findingIf url.isEmpty (.emptyUrl n.kind) ++
      (if o.strict then urlFindings n.kind url true else [])
  | .document | .blockQuote | .tableRow _ | .thematicBreak | .definitionList | .text _ | .code _
  | .lineBreak _ => []

def hasHeader (n : Node) : Bool :=
  match n.shape with
  | .table hasHeader .. => hasHeader
  | _ => false

end Node

/-- A check over several trees, with the findings since it was last reset. -/
structure Validator where
  options : CheckOptions
  errors : List Finding := []

namespace Validator

def valid (v : Validator) : Bool := v.errors.isEmpty

def reset (v : Validator) : Validator := { v with errors := [] }

def warning (f : Finding) : Entry := ⟨.warn, .validate, f.message.untilNul⟩

/-- A stretch of a check: the validator after it, and whether the check goes on. -/
abbrev Stretch := Validator → Validator × Outcome Unit

/-- Takes down a finding. A strict check ends with it, and any other leaves it out once there are
as many as it may list. -/
def report (f : Finding) : Stretch := fun v =>
  let noted := { v with errors := v.errors ++ [f] }
  if v.options.strict then (noted, .raise (.finding f))
  else if 0 < v.options.maxErrors && v.options.maxErrors ≤ v.errors.length then (v, pure ())
  else (noted, ⟨[warning f], .ok ()⟩)

def andThen (c d : Stretch) : Stretch := fun v =>
  let (w, x) := c v
  match x.result with
  | .ok _ =>
    let (u, y) := d w
    (u, x >>= fun _ => y)
  | .error _ => (w, x)

def inOrder : List Stretch → Stretch
  | [] => fun v => (v, pure ())
  | c :: cs => andThen c (inOrder cs)

def own (n : Node) : Stretch := fun v => inOrder ((n.ownFindings v.options).map report) v

/-- Looks at a node and then at its children, at the header of a table before the table. -/
def visitWith (n : Node) (below : List Stretch) : Stretch :=
  if n.hasHeader then
    andThen (inOrder (below.take 1)) (andThen (own n) (inOrder (below.drop 1)))
  else andThen (own n) (inOrder below)

def visit (v : Validator) (n : Node) : Validator × Outcome Unit := n.fold visitWith v

theorem fold_visitWith (n : Node) :
    n.fold visitWith = visitWith n (n.children.map (Node.fold visitWith)) :=
  Node.fold_eq _ n

end Validator

namespace Node

/-- Checks one tree and lists its findings, which a strict check never has when it succeeds. -/
def validate (o : CheckOptions) (n : Node) : Outcome (List Finding) := do
  let (v, outcome) := ({ options := o } : Validator).visit n
  outcome
  unless v.valid do
    Outcome.write .info .validate <|
      utf8 "validation found " ++ .ofNat v.errors.length ++ utf8 " issue(s)"
  return v.errors

end Node
end Folio
