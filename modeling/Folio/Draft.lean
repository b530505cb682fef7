import Folio.Node.Build

/-!
# Drafts

Documents, lists and tables that are assembled piece by piece. A block that cannot be
built is not added; a misplaced block is found when the document is finished.

Nested lists are made from a row of items with levels. An item joins the innermost
open list of its level, or opens a list there if that one is numbered otherwise; where
a level is skipped, an item without content carries the list beneath it. Lists and
items are held newest first, since only the newest can grow.

Where a table is to have a header, its first row becomes the header unless one was
added as such. Columns that are aligned beyond the known ones extend the alignments.
-/

set_option autoImplicit false

namespace Folio

structure DocumentDraft where
  slots : List Slot := []
  attrs : Attrs := {}

namespace DocumentDraft

def add (d : DocumentDraft) (slots : List Slot) : DocumentDraft :=
  { d with slots := d.slots ++ slots }

def addHeading (d : DocumentDraft) (level : Int32) (content : List Slot) :
    Outcome DocumentDraft := do
  let n ← Node.buildHeading level {} content
  return d.add [some n]

def addParagraph (d : DocumentDraft) (content : List Slot) : Outcome DocumentDraft := do
  let n ← Node.build .paragraph {} content
  return d.add [some n]

/-- Adds a block of code between three backquotes. -/
def addCodeBlock (d : DocumentDraft) (content : Bytes) (language : Option Bytes) : DocumentDraft :=
  d.add [some (Node.plain (.codeBlock content language 96 3) [])]

def addThematicBreak (d : DocumentDraft) : DocumentDraft :=
  d.add [some (Node.plain .thematicBreak [])]

def build (d : DocumentDraft) : Outcome Document := Document.build d.slots d.attrs

end DocumentDraft

structure ItemDraft where
  content : List Slot := []
  status : TaskStatus := .none

inductive ListDraft where
  | mk (ordered : Bool) (items : List (ItemDraft × List ListDraft))

namespace ListDraft

/-- Adds an item so many levels beneath a row of lists. -/
def add (ordered : Bool) (item : ItemDraft) : Nat → List ListDraft → List ListDraft
  | 0, [] => [mk ordered [(item, [])]]
  | 0, mk o items :: older =>
    if o = ordered then mk o ((item, []) :: items) :: older
    else mk ordered [(item, [])] :: mk o items :: older
  | depth + 1, [] => [mk ordered [({}, add ordered item depth [])]]
  | depth + 1, mk o [] :: older => mk o [({}, add ordered item depth [])] :: older
  | depth + 1, mk o ((carrier, nested) :: items) :: older =>
    mk o ((carrier, add ordered item depth nested) :: items) :: older

mutual
def build : ListDraft → Outcome Node
  | mk ordered items => do
    let built ← buildItems items
    Node.build (.list ordered 1 true) {} (built.map some)

def buildItems : List (ItemDraft × List ListDraft) → Outcome (List Node)
  | [] => pure []
  | (item, nested) :: older => do
    let before ← buildItems older
    let lists ← buildAll nested
    let built ← Node.build (.listItem item.status) {} (item.content ++ lists.map some)
    return before ++ [built]

def buildAll : List ListDraft → Outcome (List Node)
  | [] => pure []
  | l :: older => do
    let before ← buildAll older
    let built ← build l
    return before ++ [built]
end

/-- Adds an item at a level, which counts from one. -/
def addItem (lists : List ListDraft) (level : Int) (ordered : Bool) (item : ItemDraft) :
    Outcome (List ListDraft) :=
  if level < 1 then .raise (.listLevel level)
  else pure (add ordered item (level.toNat - 1) lists)

def document (lists : List ListDraft) : Outcome Document := do
  let built ← buildAll lists
  Document.build (built.map some) {}

end ListDraft

structure TableDraft where
  hasHeader : Bool := false
  header : Slot := none
  rows : List Node := []
  alignments : List Alignment := []
  caption : Option Bytes := none

namespace TableDraft

def buildCells : List (List Slot) → Outcome (List Node)
  | [] => pure []
  | content :: rest => do
    let cell ← Node.build (.tableCell 1 1 .none) {} content
    let cells ← buildCells rest
    return cell :: cells

/-- The alignments after a header with so many cells, which may bring its own. -/
def headerAlignments (known given : List Alignment) (cells : Nat) : List Alignment :=
  if !given.isEmpty then given else if known.isEmpty then List.replicate cells .none else known

def isHeaderRow (t : TableDraft) (isHeader : Bool) : Bool :=
  isHeader || (t.hasHeader && t.header.isNone)

def addRow (t : TableDraft) (cells : List (List Slot)) (isHeader : Bool)
    (alignments : List Alignment) : Outcome TableDraft := do
  let isHeader := t.isHeaderRow isHeader
  let built ← buildCells cells
  let row ← Node.build (.tableRow isHeader) {} (built.map some)
  if isHeader then
    return { t with
      header := some row, alignments := headerAlignments t.alignments alignments cells.length }
  else return { t with rows := t.rows ++ [row] }

def addTextRow (t : TableDraft) (texts : List Bytes) (isHeader : Bool) : Outcome TableDraft :=
  t.addRow (texts.map fun text => [some (Node.plainText text)]) isHeader []

def setCaption (t : TableDraft) (caption : Bytes) : TableDraft := { t with caption := some caption }

def alignColumn (t : TableDraft) (column : Nat) (a : Alignment) : TableDraft :=
  let padding := List.replicate (column + 1 - t.alignments.length) Alignment.none
  { t with alignments := (t.alignments ++ padding).set column a }

def build (t : TableDraft) : Outcome Node :=
  Node.buildTable t.header (t.rows.map some) t.alignments t.caption {}

end TableDraft

end Folio
