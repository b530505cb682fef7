import Folio.Node.Build

/-!
# Reading the fields of a record

Each reader names the record and the field when it refuses a value. An optional
field may be absent or null, which mean the same. Integers are those of 32 bits.
-/

set_option autoImplicit false

namespace Folio.Record

def refuse {α : Type} (cause : RecordFault) : Outcome α := .raise (.record cause)

def string (owner field : Bytes) (members : Members) : Outcome Bytes :=
  match members.get? field with
  | none => refuse (.missing owner field)
  | some (.str s) => pure s
  | some _ => refuse (.fieldType owner field .string)

def string? (owner field : Bytes) (members : Members) : Outcome (Option Bytes) :=
  match members.get? field with
  | none | some .null => pure none
  | some (.str s) => pure (some s)
  | some _ => refuse (.fieldType owner field .string)

def isNumber (n : Int) : Bool := Bytes.minNumber ≤ n && n ≤ Bytes.maxNumber

def integerValue (owner field : Bytes) (v : Value) : Outcome Int32 :=
  match v.integer?.filter isNumber with
  | some n => pure (Int32.ofInt n)
  | none => refuse (.fieldType owner field .integer)

def integer (owner field : Bytes) (members : Members) : Outcome Int32 :=
  match members.get? field with
  | none => refuse (.missing owner field)
  | some v => integerValue owner field v

def integer? (owner field : Bytes) (members : Members) : Outcome (Option Int32) :=
  match members.get? field with
  | none | some .null => pure none
  | some v => some <$> integerValue owner field v

def integerOr (fallback : Int32) (owner field : Bytes) (members : Members) : Outcome Int32 :=
  (·.getD fallback) <$> integer? owner field members

def boolOr (fallback : Bool) (owner field : Bytes) (members : Members) : Outcome Bool :=
  match members.get? field with
  | none | some .null => pure fallback
  | some (.bool b) => pure b
  | some _ => refuse (.fieldType owner field .boolean)

def metadata (owner : Bytes) (members : Members) : Outcome Value :=
  match members.get? (utf8 "metadata") with
  | none | some .null => pure .empty
  | some (.obj ms) => pure (.obj ms)
  | some _ => refuse (.fieldType owner (utf8 "metadata") .object)

def location (v : Value) : Outcome Location :=
  match v with
  | .obj members => do
    let owner := utf8 "SourceLocation"
    let format ← string owner (utf8 "format") members
    let page ← integer? owner (utf8 "page") members
    let line ← integer? owner (utf8 "line") members
    let column ← integer? owner (utf8 "column") members
    let elementId ← string? owner (utf8 "element_id") members
    let metadata ← metadata owner members
    return { format, page, line, column, elementId, metadata }
  | _ => refuse .locationNotObject

def attrs (owner : Bytes) (members : Members) : Outcome Attrs := do
  let metadata ← metadata owner members
  match members.get? (utf8 "source_location") with
  | none | some .null => return { metadata }
  | some v => return { metadata, location := some (← location v) }

def status (members : Members) : Outcome TaskStatus := do
  match ← string? Kind.listItem.name (utf8 "task_status") members with
  | none => return .none
  | some name =>
    match TaskStatus.ofName? name with
    | some s => return s
    | none => refuse (.unknownStatus name)

def alignmentNamed (owner : Kind) (name : Bytes) : Outcome Alignment :=
  match Alignment.ofName? name with
  | some a => pure a
  | none => refuse (.unknownAlignment owner name)

def cellAlignment (members : Members) : Outcome Alignment := do
  match ← string? Kind.tableCell.name (utf8 "alignment") members with
  | none => return .none
  | some name => alignmentNamed .tableCell name

/-- The alignment of a column; anything that is no string counts as none. -/
def columnAlignment (v : Value) : Outcome Alignment :=
  match v with
  | .str name => alignmentNamed .table name
  | _ => pure .none

def alignments (members : Members) : Outcome (List Alignment) :=
  match members.get? (utf8 "alignments") with
  | none | some .null => pure []
  | some (.arr vs) => .sequence (vs.map columnAlignment)
  | some _ => refuse (.fieldType Kind.table.name (utf8 "alignments") .array)

/-- The fence of a code block: one byte, a backquote when the field is absent. -/
def fence (members : Members) : Outcome UInt8 :=
  match members.get? (utf8 "fence_char") with
  | none => pure 96
  | some (.str [b]) => pure b
  | some (.str _) => refuse .fence
  | some _ => refuse (.fieldType Kind.codeBlock.name (utf8 "fence_char") .string)

def representationsFrom (owner : Bytes) : Members → Outcome (List (Bytes × Bytes))
  | [] => pure []
  | (dialect, .str s) :: rest => do
    let others ← representationsFrom owner rest
    return (dialect, s) :: others
  | (dialect, _) :: _ => refuse (.representation owner dialect)

def representations (owner : Bytes) (members : Members) : Outcome (List (Bytes × Bytes)) :=
  match members.get? (utf8 "representations") with
  | none | some .null => pure []
  | some (.obj ms) => representationsFrom owner ms
  | some _ => refuse (.fieldType owner (utf8 "representations") .object)

def formula (owner : Bytes) (members : Members) : Outcome Formula := do
  let representations ← representations owner members
  let dialect ← string? owner (utf8 "notation") members
  let content ← string owner (utf8 "content") members
  return ⟨content, dialect.getD (utf8 "latex"), representations⟩

end Folio.Record
