import Folio.Bytes

/-!
# Kinds of nodes

The kinds of block and inline nodes, with their names, and the two small choices
that nodes carry: the alignment of a table cell and the task status of a list item.
Every kind has a name of its own.
-/

set_option autoImplicit false

namespace Folio

inductive Kind where
  | document | heading | paragraph | codeBlock | blockQuote | list | listItem | table | tableRow
  | tableCell | thematicBreak | htmlBlock | comment | footnoteDefinition | definitionList
  | definitionTerm | definitionDescription | mathBlock
  | text | emphasis | strong | code | link | image | lineBreak | strikethrough | underline
  | superscript | subscript | htmlInline | commentInline | footnoteReference | mathInline
  deriving DecidableEq

namespace Kind

def all : List Kind :=
  [document, heading, paragraph, codeBlock, blockQuote, list, listItem, table, tableRow, tableCell,
    thematicBreak, htmlBlock, comment, footnoteDefinition, definitionList, definitionTerm,
    definitionDescription, mathBlock, text, emphasis, strong, code, link, image, lineBreak,
    strikethrough, underline, superscript, subscript, htmlInline, commentInline,
    footnoteReference, mathInline]

def label : Kind → String
  | document => "Document"
  | heading => "Heading"
  | paragraph => "Paragraph"
  | codeBlock => "CodeBlock"
  | blockQuote => "BlockQuote"
  | list => "List"
  | listItem => "ListItem"
  | table => "Table"
  | tableRow => "TableRow"
  | tableCell => "TableCell"
  | thematicBreak => "ThematicBreak"
  | htmlBlock => "HTMLBlock"
  | comment => "Comment"
  | footnoteDefinition => "FootnoteDefinition"
  | definitionList => "DefinitionList"
  | definitionTerm => "DefinitionTerm"
  | definitionDescription => "DefinitionDescription"
  | mathBlock => "MathBlock"
  | text => "Text"
  | emphasis => "Emphasis"
  | strong => "Strong"
  | code => "Code"
  | link => "Link"
  | image => "Image"
  | lineBreak => "LineBreak"
  | strikethrough => "Strikethrough"
  | underline => "Underline"
  | superscript => "Superscript"
  | subscript => "Subscript"
  | htmlInline => "HTMLInline"
  | commentInline => "CommentInline"
  | footnoteReference => "FootnoteReference"
  | mathInline => "MathInline"

def name (k : Kind) : Bytes := utf8 k.label

def ofName? (s : Bytes) : Option Kind := all.find? fun k => k.name == s

def isInline : Kind → Bool
  | text | emphasis | strong | code | link | image | lineBreak | strikethrough | underline
  | superscript | subscript | htmlInline | commentInline | footnoteReference | mathInline => true
  | _ => false

def isBlock (k : Kind) : Bool := !k.isInline

def isDocumentBlock (k : Kind) : Bool := k.isBlock && k != .document

theorem ofName?_name (k : Kind) : ofName? k.name = some k := by
  cases k <;> decide

end Kind

inductive Alignment where
  | none | left | center | right
  deriving DecidableEq

namespace Alignment

def all : List Alignment := [none, left, center, right]

def name : Alignment → Bytes
  | none => utf8 "none"
  | left => utf8 "left"
  | center => utf8 "center"
  | right => utf8 "right"

/-- The empty text names no alignment, as `none` does. -/
def ofName? (s : Bytes) : Option Alignment :=
  if s.isEmpty then some none else all.find? fun a => a.name == s

theorem ofName?_name (a : Alignment) : ofName? a.name = some a := by
  cases a <;> decide

end Alignment

inductive TaskStatus where
  | none | checked | unchecked
  deriving DecidableEq

namespace TaskStatus

def all : List TaskStatus := [none, checked, unchecked]

def name : TaskStatus → Bytes
  | none => utf8 "none"
  | checked => utf8 "checked"
  | unchecked => utf8 "unchecked"

def ofName? (s : Bytes) : Option TaskStatus :=
  if s.isEmpty then some none else all.find? fun t => t.name == s

theorem ofName?_name (t : TaskStatus) : ofName? t.name = some t := by
  cases t <;> decide

end TaskStatus
end Folio
