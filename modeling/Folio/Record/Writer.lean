import Folio.Node.Build

/-!
# Writing node records

A record is an object that names the kind of a node and holds its fields, its
metadata, and where it came from. A field that has nothing to say is left out:
an absent option, no alignment, no task status, no representations.
-/

set_option autoImplicit false

namespace Folio

namespace Location

def toRecord (l : Location) : Value :=
  .object <|
    [(utf8 "node_type", .str (utf8 "SourceLocation")), (utf8 "format", .str l.format)] ++
    (l.page.map fun n => (utf8 "page", Value.int n.toInt)).toList ++
    (l.line.map fun n => (utf8 "line", Value.int n.toInt)).toList ++
    (l.column.map fun n => (utf8 "column", Value.int n.toInt)).toList ++
    (l.elementId.map fun s => (utf8 "element_id", Value.str s)).toList ++
    (match l.metadata with
      | .obj (m :: ms) => [(utf8 "metadata", .obj (m :: ms))]
      | _ => [])

end Location

namespace Attrs

def fields (a : Attrs) : List (Bytes × Value) :=
  (utf8 "metadata", a.metadata) ::
    (a.location.map fun l => (utf8 "source_location", l.toRecord)).toList

end Attrs

namespace Node

def optionalString (name : Bytes) (s : Option Bytes) : List (Bytes × Value) :=
  (s.map fun s => (name, Value.str s)).toList

def optionalInt (name : Bytes) (n : Option Int32) : List (Bytes × Value) :=
  (n.map fun n => (name, Value.int n.toInt)).toList

def formulaFields (f : Formula) : List (Bytes × Value) :=
  [(utf8 "content", .str f.content), (utf8 "notation", .str f.dialect)] ++
    if f.representations.isEmpty then []
    else [(utf8 "representations", .obj (f.representations.map fun (k, v) => (k, .str v)))]

def headerField : List Value → List (Bytes × Value)
  | [] => []
  | record :: _ => [(utf8 "header", record)]

def entryRecords (children : List Node) (records : List Value) : Value :=
  let entries := (gather (fun p => isDescription p.1) (children.zip records)).2
  .arr <| entries.map fun (term, descriptions) =>
    .object [(utf8 "term", term.2), (utf8 "descriptions", .arr (descriptions.map (·.2)))]

/-- The fields of a node's own shape; `records` are those of its children. -/
def shapeFields (n : Node) (records : List Value) : List (Bytes × Value) :=
  match n.shape with
  | .document | .blockQuote => [(utf8 "children", .arr records)]
  | .heading level => [(utf8 "level", .int level.toInt), (utf8 "content", .arr records)]
  | .codeBlock content language fence fenceLength =>
    [(utf8 "content", .str content)] ++ optionalString (utf8 "language") language ++
      [(utf8 "fence_char", .str [fence]), (utf8 "fence_length", .int fenceLength.toInt)]
  | .list ordered start tight =>
    [(utf8 "ordered", .bool ordered), (utf8 "items", .arr records),
      (utf8 "start", .int start.toInt), (utf8 "tight", .bool tight)]
  | .listItem status =>
    (utf8 "children", .arr records) ::
      if status = .none then [] else [(utf8 "task_status", .str status.name)]
  | .table hasHeader alignments caption =>
    (if hasHeader then (utf8 "rows", .arr records.tail) :: headerField records
      else [(utf8 "rows", .arr records)]) ++
      (if alignments.isEmpty then []
        else [(utf8 "alignments", .arr (alignments.map fun a => .str a.name))]) ++
      optionalString (utf8 "caption") caption
  | .tableRow isHeader => [(utf8 "cells", .arr records), (utf8 "is_header", .bool isHeader)]
  | .tableCell colspan rowspan alignment =>
    [(utf8 "content", .arr records), (utf8 "colspan", .int colspan.toInt),
      (utf8 "rowspan", .int rowspan.toInt)] ++
      if alignment = .none then [] else [(utf8 "alignment", .str alignment.name)]
  | .thematicBreak => []
  | .htmlBlock content | .comment content | .text content | .code content | .htmlInline content
  | .commentInline content => [(utf8 "content", .str content)]
  | .footnoteDefinition identifier =>
    [(utf8 "identifier", .str identifier), (utf8 "content", .arr records)]
  | .definitionList => [(utf8 "items", entryRecords n.children records)]
  | .paragraph | .definitionTerm | .definitionDescription | .emphasis | .strong | .strikethrough
  | .underline | .superscript | .subscript => [(utf8 "content", .arr records)]
  | .mathBlock formula | .mathInline formula => formulaFields formula
  | .link url title =>
    [(utf8 "url", .str url), (utf8 "content", .arr records)] ++ optionalString (utf8 "title") title
  | .image url alt title width height =>
    [(utf8 "url", .str url), (utf8 "alt_text", .str alt)] ++ optionalString (utf8 "title") title ++
      optionalInt (utf8 "width") width ++ optionalInt (utf8 "height") height
  | .lineBreak soft => [(utf8 "soft", .bool soft)]
  | .footnoteReference identifier => [(utf8 "identifier", .str identifier)]

def recordWith (n : Node) (records : List Value) : Value :=
  .object ((utf8 "node_type", .str n.kind.name) :: (n.shapeFields records ++ n.attrs.fields))

def toRecord : Node → Value := fold recordWith

theorem toRecord_eq (n : Node) : n.toRecord = n.recordWith (n.children.map toRecord) :=
  fold_eq _ n

end Node
end Folio
