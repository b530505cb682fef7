import Folio.Node.Build

/-!
# Text

What a reader would read of a tree is the content of text, code and formulas. Inline
content runs together, and so do the inline children of headings, paragraphs, table
cells and terms; the non-empty pieces of every other node are joined by a joiner. A
word is a longest run of bytes that are no white space.

A slug names a heading in a link or a file: lower-case letters and digits in groups
that single hyphens separate. White space and hyphens separate the groups of a text,
all other bytes are dropped. A slug that was given before gets a number.

The candidates that a mistyped name was most likely meant to be are the nearest by
the least number of single-byte insertions, deletions and substitutions, computed row
by row: the row of a prefix of the first string holds its distances to all prefixes
of the second. Letter case does not count, and among equals the order stays.
-/

set_option autoImplicit false

namespace Folio

def joinPieces (joiner : Bytes) (pieces : List Bytes) : Bytes :=
  Bytes.join joiner (pieces.filter fun piece => !piece.isEmpty)

/-- Whether the children of a node of this kind run together. -/
def Kind.runsTogether (k : Kind) : Bool :=
  k.isInline || k == .heading || k == .paragraph || k == .tableCell || k == .definitionTerm

namespace Node

def ownText? (n : Node) : Option Bytes :=
  match n.shape with
  | .text content | .code content => some content
  | .codeBlock content .. => some content
  | .mathInline formula | .mathBlock formula => some formula.content
  | .lineBreak _ => some [32]
  | _ => none

def textWith (joiner : Bytes) (n : Node) (pieces : List Bytes) : Bytes :=
  match n.ownText? with
  | some text => text
  | none => if n.kind.runsTogether then pieces.flatten else joinPieces joiner pieces

def extractText (joiner : Bytes) : Node → Bytes := fold (textWith joiner)

theorem extractText_eq (joiner : Bytes) (n : Node) :
    n.extractText joiner = n.textWith joiner (n.children.map (extractText joiner)) :=
  fold_eq _ n

def text (n : Node) : Bytes := n.extractText [32]

end Node

def extractTexts (joiner : Bytes) (ns : List Node) : Bytes :=
  joinPieces joiner (ns.map (Node.extractText joiner))

/-- The text of a list of slots, in which an empty slot has no text. -/
def extractSlots (joiner : Bytes) (slots : List Slot) : Bytes :=
  joinPieces joiner (slots.map fun slot => slot.elim [] (Node.extractText joiner))

theorem extractSlots_some (joiner : Bytes) (ns : List Node) :
    extractSlots joiner (ns.map some) = extractTexts joiner ns := by
  rw [extractSlots, List.map_map]
  rfl

theorem extractText_toNode (joiner : Bytes) (d : Document) :
    d.toNode.extractText joiner = extractTexts joiner d.children := by
  rw [Node.extractText_eq]
  rfl

/-- The words that begin in a text; `inside` when a word reaches into it from before. -/
def wordsFrom (inside : Bool) : Bytes → Nat
  | [] => 0
  | b :: s =>
    if Bytes.isSpace b then wordsFrom false s
    else (if inside then 0 else 1) + wordsFrom true s

def countWords (s : Bytes) : Nat := wordsFrom false s

def countSlotWords (slots : List Slot) : Nat :=
  (slots.map fun slot => slot.elim 0 fun n => countWords n.text).foldr (· + ·) 0

def textWords (ns : List Node) : Nat := countWords (extractTexts [32] ns)

namespace Slug

def hyphen : UInt8 := 45

def isHyphen (b : UInt8) : Bool := b == hyphen

/-- A byte that separates groups: a hyphen or white space other than a vertical tab. -/
def separates (b : UInt8) : Bool := isHyphen b || (Bytes.isSpace b && b != 11)

def isSlugByte (b : UInt8) : Bool := Bytes.isLowerLetter b || Bytes.isDigit b

/-- Writes each run of separators as one hyphen; `inside` within such a run. -/
def collapse (inside : Bool) : Bytes → Bytes
  | [] => []
  | b :: s =>
    if separates b then (if inside then collapse true s else hyphen :: collapse true s)
    else b :: collapse false s

def trimHyphens (s : Bytes) : Bytes := Bytes.trimBy isHyphen s

def ofText (text : Bytes) (maxLength : Nat) : Bytes :=
  let kept := (Bytes.lower text).filter fun b => isSlugByte b || separates b
  let slug := trimHyphens (collapse false kept)
  if maxLength < slug.length then trimHyphens (slug.take maxLength) else slug

def maxLength : Nat := 100

def numbered (base : Bytes) (n : Nat) : Bytes := base ++ hyphen :: Bytes.ofNat n

def base (text : Bytes) : Bytes :=
  let slug := ofText text maxLength
  if slug.isEmpty then utf8 "section" else slug

/-- The slug of a text that none of `seen` is: its base, or the base with the least number that
makes a new slug. Among one more number than there are seen slugs, one is always new. -/
def unique (text : Bytes) (seen : List Bytes) : Bytes :=
  let b := base text
  if seen.contains b then
    match ((List.range (seen.length + 1)).map fun n => numbered b (n + 1)).find?
        fun slug => !seen.contains slug with
    | some slug => slug
    | none => b
  else b

def uniqueAll (seen : List Bytes) : List Bytes → List Bytes
  | [] => []
  | text :: texts =>
    let slug := unique text seen
    slug :: uniqueAll (slug :: seen) texts

end Slug

/-- The rest of the next row: `left` is the entry before it, `diagonal` the one above that. -/
def nextEntries (a : UInt8) : Nat → Nat → List Nat → Bytes → List Nat
  | left, diagonal, above :: row, b :: bs =>
    let entry := min (min (above + 1) (left + 1)) (diagonal + if a = b then 0 else 1)
    entry :: nextEntries a entry above row bs
  | _, _, _, _ => []

def nextRow (bs : Bytes) (row : List Nat) (a : UInt8) : List Nat :=
  match row with
  | [] => []
  | first :: rest => (first + 1) :: nextEntries a (first + 1) first rest bs

def editDistance (as bs : Bytes) : Nat :=
  (as.foldl (nextRow bs) (List.range (bs.length + 1))).getLastD 0

/-- The most edits that still make a close name: three, or a third of a longer name. -/
def editAllowance (name : Bytes) : Nat := max 3 (name.length / 3)

def closeNames (name : Bytes) : List Bytes → List (Bytes × Nat)
  | [] => []
  | candidate :: rest =>
    let distance := editDistance (Bytes.lower name) (Bytes.lower candidate)
    let others := closeNames name rest
    if distance ≤ editAllowance name then
      (candidate, distance) :: others.filter fun other => other.1 != candidate
    else others

def suggest (name : Bytes) (candidates : List Bytes) (maxCount : Nat) : List Bytes :=
  (((closeNames name candidates).mergeSort fun a b => a.2 ≤ b.2).take maxCount).map (·.1)

def offered : Nat := 3

end Folio
