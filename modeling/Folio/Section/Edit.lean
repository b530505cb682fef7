import Folio.Section.Query

/-!
# Editing by section

New documents made from the sections of one: a section taken out alone, left out,
replaced, or given new blocks. Blocks are handed over in slots, and the document is
built with the checks of its kind, so that an empty slot or a misplaced node is
refused.

A specification such as `1-3,5,8-` selects sections by numbers that count from one.
A range that lacks a bound runs to the end of the list, and a range whose bounds are
the wrong way round is turned. What is selected is a set, listed in order.
-/

set_option autoImplicit false

namespace Folio

namespace Range

def bound (ranges text : Bytes) : Outcome Int :=
  let shown := text.trim
  match shown.integer? with
  | none => .raise (.outline (.rangeNotNumber ranges shown))
  | some n =>
    if shown.isEmpty then .raise (.outline (.rangeNotNumber ranges shown))
    else if n < Bytes.minNumber || Bytes.maxNumber < n then
      .raise (.outline (.rangeNumberSize ranges shown))
    else pure n

/-- The first and the last place that a part selects, counted from zero. -/
def ends (ranges : Bytes) (total : Int) (part : Bytes) : Outcome (Int × Int) :=
  match part.cutFirst? 45 with
  | none => do
    let n ← bound ranges part
    return (n - 1, n - 1)
  | some (before, after) => do
    let low := before.trim
    let high := after.trim
    let first ← if low.isEmpty then pure 0 else (· - 1) <$> bound ranges low
    let last ← if high.isEmpty then pure (total - 1) else (· - 1) <$> bound ranges high
    return (min first last, max first last)

def places (total : Int) (range : Int × Int) : List Nat :=
  let first := (max range.1 0).toNat
  let stop := (min (range.2 + 1) total).toNat
  List.range' first (stop - first)

def dropRepeats : List Nat → List Nat
  | a :: b :: rest => if a = b then dropRepeats (b :: rest) else a :: dropRepeats (b :: rest)
  | short => short

def listed (ns : List Nat) : List Nat := dropRepeats (ns.mergeSort (· ≤ ·))

def parts (ranges : Bytes) : List Bytes :=
  ((ranges.splitOn 44).map Bytes.trim).filter fun part => !part.isEmpty

def select (ranges : Bytes) (total : Int) : Outcome (List Nat) := do
  let found ← Outcome.sequence ((parts ranges).map (ends ranges total))
  return listed (found.map (places total)).flatten

end Range

inductive Position where
  | atStart | atEnd | afterHeading
  deriving DecidableEq

namespace Document

def rebuild (d : Document) (slots : List Slot) : Outcome Document := Document.build slots d.attrs

def insertAt (d : Document) (place : Nat) (slots : List Slot) : Outcome Document :=
  d.rebuild ((d.children.take place).map some ++ slots ++ (d.children.drop place).map some)

/-- A document of some of the blocks that keeps the metadata only. -/
def excerpt (d : Document) (children : List Node) : Outcome Document :=
  Document.build (children.map some) { metadata := d.attrs.metadata }

theorem excerpt_result {d : Document} {children : List Node}
    (h : ∀ n ∈ children, n.kind.isDocumentBlock = true) : (d.excerpt children).result =
      .ok ⟨children, { metadata := d.attrs.metadata }, h, d.hasMetadata⟩ := by
  have hsame : ({ metadata := d.attrs.metadata } : Attrs).normalize =
      { metadata := d.attrs.metadata } := Attrs.normalize_eq_self d.hasMetadata
  rw [excerpt, build_result h]
  simp only [hsame]

def extractSection (d : Document) (target : Target) : Outcome Document := do
  let s ← d.resolve target
  d.excerpt s.nodes

def replaceSection (d : Document) (target : Target) (slots : List Slot) : Outcome Document := do
  let s ← d.resolve target
  Outcome.debug .outline <|
    utf8 "replaced " ++ target.describe.untilNul ++ utf8 " (" ++ .ofNat (s.stop - s.start) ++
      utf8 " nodes) with " ++ .ofNat slots.length ++ utf8 " nodes"
  d.rebuild ((d.children.take s.start).map some ++ slots ++ (d.children.drop s.stop).map some)

def removeSection (d : Document) (target : Target) : Outcome Document := d.replaceSection target []

def insertIntoSection (d : Document) (target : Target) (slots : List Slot) (position : Position) :
    Outcome Document := do
  let s ← d.resolve target
  d.insertAt (if position = .atEnd then s.stop else s.start + 1) slots

def addSectionBefore (d : Document) (target : Target) (slots : List Slot) : Outcome Document := do
  let s ← d.resolve target
  d.insertAt s.start slots

def addSectionAfter (d : Document) (target : Target) (slots : List Slot) : Outcome Document := do
  let s ← d.resolve target
  d.insertAt s.stop slots

/-- The sections that a specification selects: by numbers after `#:`, else by a heading pattern. -/
def selectSections (d : Document) (engine : Engine) (spec : Bytes) (caseSensitive : Bool) :
    Outcome (List Section) := do
  let shown := spec.trim
  if Bytes.startsWith (utf8 "#:") shown then do
    let places ← Range.select (shown.drop 2) d.sections.length
    match places.filterMap fun i => d.sections[i]? with
    | [] => .raise (.outline (.noRange shown d.sections.length))
    | found => return found
  else do
    match ← d.query engine { pattern := some shown, caseSensitive } with
    | [] => .raise (.outline (.noMatch shown (d.closeHeadings shown)))
    | found => return found

def joinSections : List Section → List Node
  | [] => []
  | [s] => s.nodes
  | s :: rest => s.nodes ++ Node.plain .thematicBreak [] :: joinSections rest

/-- All selected sections in one document, or the first of them alone. -/
def extractSections (d : Document) (engine : Engine) (spec : Bytes)
    (caseSensitive combine : Bool) : Outcome Document := do
  let found ← d.selectSections engine spec caseSensitive
  d.excerpt (joinSections (if combine then found else found.take 1))

/-- One document for each part that a heading opens, after one for what comes before. -/
def splitBySections (d : Document) (includePreamble : Bool) : Outcome (List Document) :=
  let parts := d.partition 6
  let before := d.beforeParts parts
  .sequence <| ((if includePreamble && !before.isEmpty then [before] else []) ++
    parts.map Section.nodes).map d.excerpt

end Document

end Folio
