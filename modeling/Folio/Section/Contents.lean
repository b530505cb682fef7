import Folio.Section.Edit

/-!
# Tables of contents

The headings of a document down to a level, as lines of text with links, as a flat
list, or as lists that nest. In a nested table a heading lies beneath the nearest
earlier heading of a higher level; one that has none stands at the top.
-/

set_option autoImplicit false

namespace Folio

namespace Contents

structure Line where
  level : Int
  text : Bytes
  slug : Bytes
  deriving DecidableEq

inductive Style where
  | markdown | list | nested
  deriving DecidableEq

inductive Place where
  | start | afterFirstHeading
  deriving DecidableEq

def lines (d : Document) (deepest : Int) : List Line :=
  let sections := d.outline 1 deepest
  let slugs := Slug.uniqueAll [] (sections.map Section.text)
  (sections.zip slugs).map fun (s, slug) => ⟨s.level, s.text, slug⟩

def paragraph (text : Bytes) : Node := Node.plain .paragraph [Node.plainText text]

def bulletList (items : List Node) : Node := Node.plain (.list false 1 true) items

def item (text : Bytes) (beneath : List Node) : Node :=
  Node.plain (.listItem .none) <|
    paragraph text :: if beneath.isEmpty then [] else [bulletList beneath]

/-- Puts a line in front of items with their levels: the items of deeper levels that follow at
once go beneath it. -/
def place (l : Line) (items : List (Int × Node)) : List (Int × Node) :=
  (l.level, item l.text ((items.takeWhile fun i => l.level < i.1).map (·.2))) ::
    items.dropWhile fun i => l.level < i.1

def nested (lines : List Line) : List Node := (lines.foldr place []).map (·.2)

def flat (lines : List Line) : List Node := lines.map fun l => item l.text []

def markdownLine (l : Line) : Bytes :=
  utf8 "\n" ++ List.replicate (2 * (l.level - 1).toNat) 32 ++ utf8 "- [" ++ l.text ++ utf8 "](#" ++
    l.slug ++ utf8 ")"

def markdown (lines : List Line) : Bytes :=
  if lines.isEmpty then [] else utf8 "# Table of Contents\n" ++ (lines.map markdownLine).flatten

def listNode? (style : Style) (lines : List Line) : Option Node :=
  if lines.isEmpty then none
  else
    match style with
    | .markdown => none
    | .list => some (bulletList (flat lines))
    | .nested => some (bulletList (nested lines))

def linkItem (l : Line) : Node :=
  Node.plain (.listItem .none)
    [Node.plain .paragraph
      [Node.plain (.link (utf8 "#" ++ l.slug) none) [Node.plainText l.text]]]

/-- The blocks that stand for a table in a document: a titled list of links, or the list alone. -/
def blocks (style : Style) (lines : List Line) : List Node :=
  match style with
  | .markdown =>
    if lines.isEmpty then []
    else
      [Node.plain (.heading 1) [Node.plainText (utf8 "Table of Contents")],
        bulletList (lines.map linkItem)]
  | style => (listNode? style lines).toList

def linesDownTo (d : Document) (deepest : Int) : Outcome (List Line) :=
  if deepest < 1 || 6 < deepest then .raise (.outline (.contentsLevel deepest))
  else pure (lines d deepest)

/-- A table as text, in the style that is text, and as a list, in the others. -/
structure Table where
  text : Bytes
  list : Option Node

end Contents

namespace Document

def contents (d : Document) (deepest : Int) (style : Contents.Style) : Outcome Contents.Table := do
  let lines ← Contents.linesDownTo d deepest
  return ⟨if style = .markdown then Contents.markdown lines else [],
    Contents.listNode? style lines⟩

def afterFirstHeading (d : Document) : Nat :=
  match d.children.findIdx? fun n => n.kind == .heading with
  | some i => i + 1
  | none => 0

def insertContents (d : Document) (place : Contents.Place) (deepest : Int)
    (style : Contents.Style) : Outcome Document := do
  let lines ← Contents.linesDownTo d deepest
  let blocks := Contents.blocks style lines
  let spot := match place with
    | .start => 0
    | .afterFirstHeading => d.afterFirstHeading
  Outcome.debug .outline <|
    utf8 "inserting " ++ .ofNat blocks.length ++ utf8 " toc node(s) at " ++ .ofNat spot
  d.insertAt spot (blocks.map some)

end Document
end Folio
