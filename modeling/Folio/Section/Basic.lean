import Folio.Text

/-!
# Sections

A heading among the blocks of a document opens a section, which runs up to a later
heading that closes it. In the outline a section is closed by a heading of its own
level or a higher one, so sections nest. In a partition every heading down to a
level opens a part and closes the part before it.

A target names one section by its number in the outline or by the text of its
heading, where surrounding blanks never count and letter case may not. It has to
name exactly one.
-/

set_option autoImplicit false

namespace Folio

/-- A heading with the blocks under it, and the places in the document where it starts and stops.
A section that was not read from a document has no heading. -/
structure Section where
  heading : Slot := none
  level : Int := 1
  content : List Node := []
  start : Nat := 0
  stop : Nat := 0

namespace Section

def slots (s : Section) : List Slot := s.heading :: s.content.map some

def nodes (s : Section) : List Node := s.heading.toList ++ s.content

def toDocument (s : Section) : Outcome Document := Document.build s.slots {}

def text (s : Section) : Bytes :=
  match s.heading with
  | some h => h.text.trim
  | none => []

/-- Sections of the headings that `opens` chooses, from position `i` on. A section of level `l`
ends before the first later heading of a level `m` with `closes l m`. -/
def scan (opens : Int → Bool) (closes : Int → Int → Bool) : Nat → List Node → List Section
  | _, [] => []
  | i, n :: rest =>
    let later := scan opens closes (i + 1) rest
    match n.level? with
    | none => later
    | some l =>
      if opens l then
        let content := rest.takeWhile fun m => !m.level?.any (closes l)
        { heading := some n, level := l, content, start := i, stop := i + 1 + content.length } ::
          later
      else later

end Section

namespace Document

def outline (d : Document) (low high : Int) : List Section :=
  Section.scan (fun l => low ≤ l && l ≤ high) (fun l m => m ≤ l) 0 d.children

def sections (d : Document) : List Section := d.outline 1 6

def sectionsBetween (d : Document) (low high : Int) : Outcome (List Section) :=
  if low < 1 || 6 < high || high < low then Outcome.raise (.outline (.levelRange low high))
  else pure (d.outline low high)

def preamble (d : Document) : List Node := d.children.takeWhile fun n => n.kind != .heading

def partition (d : Document) (deepest : Int) : List Section :=
  Section.scan (fun l => l ≤ deepest) (fun _ m => m ≤ deepest) 0 d.children

def beforeParts (d : Document) (parts : List Section) : List Node :=
  match parts with
  | [] => d.children
  | part :: _ => d.children.take part.start

def countSections (d : Document) (level : Option Int) : Nat :=
  d.children.countP fun n => n.level?.any fun l => level.all (· == l)

end Document

inductive Target where
  | index (index : Int)
  | text (text : Bytes) (caseSensitive : Bool)

def textMatches (text wanted : Bytes) (caseSensitive : Bool) : Bool :=
  if caseSensitive then text == wanted.trim else Bytes.lower text == Bytes.lower wanted.trim

namespace Target

def describe : Target → Bytes
  | index i => utf8 "section index " ++ .ofInt i
  | text t _ => utf8 "section '" ++ t ++ utf8 "'"

end Target

namespace Document

def closeHeadings (d : Document) (wanted : Bytes) : List Bytes :=
  suggest wanted (d.sections.map Section.text) offered

def resolve (d : Document) (target : Target) : Outcome Section :=
  match target with
  | .index i =>
    match if i < 0 then none else d.sections[i.toNat]? with
    | some s => pure s
    | none => .raise (.outline (.index i d.sections.length))
  | .text wanted caseSensitive =>
    match d.sections.filter fun s => textMatches s.text wanted caseSensitive with
    | [] => .raise (.outline (.notFound wanted (d.closeHeadings wanted)))
    | [s] => pure s
    | found => .raise (.outline (.ambiguous wanted found.length))

structure HeadingMatch where
  index : Nat
  heading : Node

def findHeadingFrom (wanted : Bytes) (level : Option Int) (caseSensitive : Bool) :
    Nat → List Node → Option HeadingMatch
  | _, [] => none
  | i, n :: rest =>
    if n.level?.any (fun l => level.all (· == l)) && textMatches n.text.trim wanted caseSensitive
    then some ⟨i, n⟩
    else findHeadingFrom wanted level caseSensitive (i + 1) rest

def findHeading (d : Document) (wanted : Bytes) (level : Option Int) (caseSensitive : Bool) :
    Option HeadingMatch :=
  findHeadingFrom wanted level caseSensitive 0 d.children

end Document

end Folio
