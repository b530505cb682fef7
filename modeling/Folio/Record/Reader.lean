import Folio.Record.Field

/-!
# Reading node records

A record is read into a node by the kind that it names, and the node is built with
the checks of its kind, so a record that was tampered with is refused. Within a
record the attributes are read first and the other fields from the last to the
first, except for those that decide how the record is to be read. A check that
fails on a built node becomes a fault of the record, once, and faults of records
further down pass as they are.
-/

set_option autoImplicit false

namespace Folio.Record

/-- How to read the fields of one record that hold further records. -/
structure Below where
  node? : Bytes → Outcome (Option Node)
  nodes : Bytes → Outcome (List Node)
  entries : Bytes → Outcome (List Node.DefinitionEntry)

def container (shape : Shape) (field : Bytes) (members : Members) (below : Below) :
    Outcome Node := do
  let attrs ← attrs shape.kind.name members
  let children ← below.nodes field
  Node.build shape attrs (children.map some)

def literal (kind : Kind) (field : Bytes) (shape : Bytes → Shape) (members : Members) :
    Outcome Node := do
  let attrs ← attrs kind.name members
  let text ← string kind.name field members
  Node.build (shape text) attrs []

def heading (members : Members) (below : Below) : Outcome Node := do
  let owner := Kind.heading.name
  let level ← integer owner (utf8 "level") members
  if Node.levelInRange level.toInt then do
    let attrs ← attrs owner members
    let content ← below.nodes (utf8 "content")
    Node.buildHeading level attrs (content.map some)
  else do
    Outcome.write .warn .json
      (utf8 "Heading record has out-of-range level " ++ .ofInt level.toInt)
    let attrs ← attrs owner members
    let content ← below.nodes (utf8 "content")
    Node.buildAnyHeading level attrs (content.map some)

def codeBlock (members : Members) : Outcome Node := do
  let owner := Kind.codeBlock.name
  let fence ← fence members
  let attrs ← attrs owner members
  let fenceLength ← integerOr 3 owner (utf8 "fence_length") members
  let language ← string? owner (utf8 "language") members
  let content ← string owner (utf8 "content") members
  Node.build (.codeBlock content language fence fenceLength) attrs []

def list (members : Members) (below : Below) : Outcome Node := do
  let owner := Kind.list.name
  let attrs ← attrs owner members
  let tight ← boolOr true owner (utf8 "tight") members
  let start ← integerOr 1 owner (utf8 "start") members
  let items ← below.nodes (utf8 "items")
  let ordered ← boolOr false owner (utf8 "ordered") members
  Node.build (.list ordered start tight) attrs (items.map some)

def listItem (members : Members) (below : Below) : Outcome Node := do
  let status ← status members
  container (.listItem status) (utf8 "children") members below

def table (members : Members) (below : Below) : Outcome Node := do
  let owner := Kind.table.name
  let header ← below.node? (utf8 "header")
  let alignments ← alignments members
  let attrs ← attrs owner members
  let caption ← string? owner (utf8 "caption") members
  let rows ← below.nodes (utf8 "rows")
  Node.buildTable header (rows.map some) alignments caption attrs

def tableRow (members : Members) (below : Below) : Outcome Node := do
  let owner := Kind.tableRow.name
  let attrs ← attrs owner members
  let isHeader ← boolOr false owner (utf8 "is_header") members
  let cells ← below.nodes (utf8 "cells")
  Node.build (.tableRow isHeader) attrs (cells.map some)

def tableCell (members : Members) (below : Below) : Outcome Node := do
  let owner := Kind.tableCell.name
  let alignment ← cellAlignment members
  let attrs ← attrs owner members
  let rowspan ← integerOr 1 owner (utf8 "rowspan") members
  let colspan ← integerOr 1 owner (utf8 "colspan") members
  let content ← below.nodes (utf8 "content")
  Node.build (.tableCell colspan rowspan alignment) attrs (content.map some)

def footnoteDefinition (members : Members) (below : Below) : Outcome Node := do
  let owner := Kind.footnoteDefinition.name
  let attrs ← attrs owner members
  let content ← below.nodes (utf8 "content")
  let identifier ← string owner (utf8 "identifier") members
  Node.build (.footnoteDefinition identifier) attrs (content.map some)

def definitionList (members : Members) (below : Below) : Outcome Node := do
  let entries ← below.entries (utf8 "items")
  let attrs ← attrs Kind.definitionList.name members
  Node.buildDefinitionList entries attrs

def math (kind : Kind) (shape : Formula → Shape) (members : Members) : Outcome Node := do
  let attrs ← attrs kind.name members
  let formula ← formula kind.name members
  Node.build (shape formula) attrs []

def link (members : Members) (below : Below) : Outcome Node := do
  let owner := Kind.link.name
  let attrs ← attrs owner members
  let title ← string? owner (utf8 "title") members
  let content ← below.nodes (utf8 "content")
  let url ← string owner (utf8 "url") members
  Node.build (.link url title) attrs (content.map some)

def image (members : Members) : Outcome Node := do
  let owner := Kind.image.name
  let attrs ← attrs owner members
  let height ← integer? owner (utf8 "height") members
  let width ← integer? owner (utf8 "width") members
  let title ← string? owner (utf8 "title") members
  let alt ← string? owner (utf8 "alt_text") members
  let url ← string owner (utf8 "url") members
  Node.build (.image url (alt.getD []) title width height) attrs []

def thematicBreak (members : Members) : Outcome Node := do
  let attrs ← attrs Kind.thematicBreak.name members
  Node.build .thematicBreak attrs []

def lineBreak (members : Members) : Outcome Node := do
  let attrs ← attrs Kind.lineBreak.name members
  let soft ← boolOr false Kind.lineBreak.name (utf8 "soft") members
  Node.build (.lineBreak soft) attrs []

def assemble (kind : Kind) (members : Members) (below : Below) : Outcome Node :=
  match kind with
  | .document => container .document (utf8 "children") members below
  | .heading => heading members below
  | .paragraph => container .paragraph (utf8 "content") members below
  | .codeBlock => codeBlock members
  | .blockQuote => container .blockQuote (utf8 "children") members below
  | .list => list members below
  | .listItem => listItem members below
  | .table => table members below
  | .tableRow => tableRow members below
  | .tableCell => tableCell members below
  | .thematicBreak => thematicBreak members
  | .htmlBlock => literal .htmlBlock (utf8 "content") .htmlBlock members
  | .comment => literal .comment (utf8 "content") .comment members
  | .footnoteDefinition => footnoteDefinition members below
  | .definitionList => definitionList members below
  | .definitionTerm => container .definitionTerm (utf8 "content") members below
  | .definitionDescription => container .definitionDescription (utf8 "content") members below
  | .mathBlock => math .mathBlock .mathBlock members
  | .text => literal .text (utf8 "content") .text members
  | .emphasis => container .emphasis (utf8 "content") members below
  | .strong => container .strong (utf8 "content") members below
  | .code => literal .code (utf8 "content") .code members
  | .link => link members below
  | .image => image members
  | .lineBreak => lineBreak members
  | .strikethrough => container .strikethrough (utf8 "content") members below
  | .underline => container .underline (utf8 "content") members below
  | .superscript => container .superscript (utf8 "content") members below
  | .subscript => container .subscript (utf8 "content") members below
  | .htmlInline => literal .htmlInline (utf8 "content") .htmlInline members
  | .commentInline => literal .commentInline (utf8 "content") .commentInline members
  | .footnoteReference => literal .footnoteReference (utf8 "identifier") .footnoteReference members
  | .mathInline => math .mathInline .mathInline members

/-- Makes a check that failed on a node a fault of the record that the node was read from. -/
def rejectAs (kind : Kind) (x : Outcome Node) : Outcome Node :=
  x.recover fun
    | .node cause => refuse (.rejected kind cause)
    | failure => .fail failure

mutual
def node : Value → Outcome Node
  | .obj members =>
    match Members.get? (utf8 "node_type") members with
    | some (.str name) =>
      match Kind.ofName? name with
      | some kind =>
        rejectAs kind <| assemble kind members
          ⟨fun field => nodeAt? field members, fun field => nodesAt kind field members,
            fun field => entriesAt kind field members⟩
      | none => refuse (.unknownKind name)
    | _ => refuse .noKind
  | _ => refuse .notObject

def nodes : List Value → Outcome (List Node)
  | [] => pure []
  | v :: vs => do
    let n ← node v
    let ns ← nodes vs
    return n :: ns

def nodeAt? (field : Bytes) : List (Bytes × Value) → Outcome (Option Node)
  | [] => pure none
  | (k, v) :: rest =>
    if k = field then
      match v with
      | .null => pure none
      | v => some <$> node v
    else nodeAt? field rest

def nodeAt (kind : Kind) (field : Bytes) : List (Bytes × Value) → Outcome Node
  | [] => refuse (.missing kind.name field)
  | (k, v) :: rest => if k = field then node v else nodeAt kind field rest

def nodesAt (kind : Kind) (field : Bytes) : List (Bytes × Value) → Outcome (List Node)
  | [] => refuse (.missing kind.name field)
  | (k, v) :: rest =>
    if k = field then
      match v with
      | .arr vs => nodes vs
      | _ => refuse (.fieldType kind.name field .array)
    else nodesAt kind field rest

def entries (kind : Kind) : List Value → Outcome (List Node.DefinitionEntry)
  | [] => pure []
  | .obj members :: vs => do
    let term ← nodeAt kind (utf8 "term") members
    let descriptions ← nodesAt kind (utf8 "descriptions") members
    let rest ← entries kind vs
    return ⟨some term, descriptions.map some⟩ :: rest
  | _ :: _ => refuse .entryNotObject

def entriesAt (kind : Kind) (field : Bytes) :
    List (Bytes × Value) → Outcome (List Node.DefinitionEntry)
  | [] => refuse (.missing kind.name field)
  | (k, v) :: rest =>
    if k = field then
      match v with
      | .arr vs => entries kind vs
      | _ => refuse (.fieldType kind.name field .array)
    else entriesAt kind field rest
end

end Folio.Record

namespace Folio

def Node.ofRecord (v : Value) : Outcome Node := Record.node v

def Location.ofRecord (v : Value) : Outcome Location := Record.location v

def Document.ofRecord (v : Value) : Outcome Document := do
  let n ← Node.ofRecord v
  match n.document? with
  | some d => return d
  | none => Record.refuse (.notDocument n.kind)

end Folio
