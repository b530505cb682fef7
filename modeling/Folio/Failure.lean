import Folio.Check.Finding
import Folio.Log.Rule

/-!
# Failures

Why an operation gives no result: one constructor for each cause, grouped by the
part of the library that raises it. A failure belongs to a code, is reported by a
subject of the log, and has one wording. A message ends before the first NUL of
the text that it quotes.
-/

set_option autoImplicit false

namespace Folio

inductive Code where
  | invalidNode | invalidArgument | targetNotFound | ambiguousTarget | indexOutOfRange
  | invalidSplitSpec | validationFailed | serializationError
  deriving DecidableEq

namespace Code

def all : List Code :=
  [invalidNode, invalidArgument, targetNotFound, ambiguousTarget, indexOutOfRange,
    invalidSplitSpec, validationFailed, serializationError]

def name : Code → Bytes
  | invalidNode => utf8 "invalid_node"
  | invalidArgument => utf8 "invalid_argument"
  | targetNotFound => utf8 "target_not_found"
  | ambiguousTarget => utf8 "ambiguous_target"
  | indexOutOfRange => utf8 "index_out_of_range"
  | invalidSplitSpec => utf8 "invalid_split_spec"
  | validationFailed => utf8 "validation_failed"
  | serializationError => utf8 "serialization_error"

end Code

inductive Subject where
  | node | outline | split | validate | transform | json
  deriving DecidableEq

def Subject.name : Subject → Bytes
  | .node => utf8 "doctree.node"
  | .outline => utf8 "doctree.section"
  | .split => utf8 "doctree.split"
  | .validate => utf8 "doctree.validate"
  | .transform => utf8 "doctree.transform"
  | .json => utf8 "doctree.json"

/-- The children that only one kind of owner takes, and that must be of one kind. -/
inductive Role where
  | item | cell | row | description
  deriving DecidableEq

namespace Role

def owner : Role → Kind
  | item => .list
  | cell => .tableRow
  | row => .table
  | description => .definitionList

def kind : Role → Kind
  | item => .listItem
  | cell => .tableCell
  | row => .tableRow
  | description => .definitionDescription

def name : Role → Bytes
  | item => utf8 "item"
  | cell => utf8 "cell"
  | row => utf8 "row"
  | description => utf8 "description"

end Role

inductive NodeFault where
  | emptySlot (owner : Kind) (index : Nat)
  | wrongKind (role : Role) (index : Nat) (found : Kind)
  | notBlock (index : Nat) (found : Kind)
  | headingLevel (level : Int)
  | header (found : Kind)
  | term (item : Nat)
  deriving DecidableEq

def NodeFault.message : NodeFault → Bytes
  | emptySlot owner index => owner.name ++ utf8 " child " ++ .ofNat index ++ utf8 " is null"
  | wrongKind role index found =>
    role.owner.name ++ utf8 " " ++ role.name ++ utf8 " " ++ .ofNat index ++ utf8 " must be " ++
      role.kind.name ++ utf8 ", got " ++ found.name
  | notBlock index found =>
    utf8 "Document child " ++ .ofNat index ++ utf8 " must be a block node, got " ++ found.name
  | headingLevel level => utf8 "Heading level must be between 1 and 6, got " ++ .ofInt level
  | header found => utf8 "Table header must be TableRow, got " ++ found.name
  | term item =>
    utf8 "DefinitionList item " ++ .ofNat item ++ utf8 " must start with a DefinitionTerm"

inductive FieldType where
  | string | integer | boolean | array | object
  deriving DecidableEq

def FieldType.phrase : FieldType → Bytes
  | .string => utf8 "a string"
  | .integer => utf8 "an integer"
  | .boolean => utf8 "a boolean"
  | .array => utf8 "an array"
  | .object => utf8 "an object"

/-- Why a record cannot be read; `owner` names the record. -/
inductive RecordFault where
  | notObject
  | noKind
  | unknownKind (name : Bytes)
  | missing (owner field : Bytes)
  | fieldType (owner field : Bytes) (wanted : FieldType)
  | fence
  | unknownStatus (name : Bytes)
  | unknownAlignment (owner : Kind) (name : Bytes)
  | entryNotObject
  | representation (owner : Bytes) (dialect : Bytes)
  | locationNotObject
  | rejected (owner : Kind) (cause : NodeFault)
  | notDocument (found : Kind)
  deriving DecidableEq

def RecordFault.message : RecordFault → Bytes
  | notObject => utf8 "node record must be an object"
  | noKind => utf8 "node record must contain a 'node_type' string"
  | unknownKind name => utf8 "Unknown node type: " ++ name
  | missing owner field => owner ++ utf8 ": missing field '" ++ field ++ utf8 "'"
  | fieldType owner field wanted =>
    owner ++ utf8 ": field '" ++ field ++ utf8 "' must be " ++ wanted.phrase
  | fence => utf8 "CodeBlock: field 'fence_char' must be a single character"
  | unknownStatus name => utf8 "ListItem: unknown task_status '" ++ name ++ utf8 "'"
  | unknownAlignment owner name =>
    owner.name ++ utf8 ": unknown alignment '" ++ name ++ utf8 "'"
  | entryNotObject => utf8 "DefinitionList: definition items must be objects"
  | representation owner dialect =>
    owner ++ utf8 ": representation '" ++ dialect ++ utf8 "' must be a string"
  | locationNotObject => utf8 "source_location must be an object"
  | rejected owner cause => owner.name ++ utf8 ": " ++ cause.message
  | notDocument found => utf8 "expected a Document record, got " ++ found.name

def didYouMean (similar : List Bytes) : Bytes :=
  if similar.isEmpty then []
  else utf8 ". Did you mean: " ++ Bytes.join (utf8 ", ") similar ++ utf8 "?"

inductive SectionFault where
  | levelRange (low high : Int)
  | index (index : Int) (count : Nat)
  | notFound (text : Bytes) (similar : List Bytes)
  | ambiguous (text : Bytes) (count : Nat)
  | rangeNotNumber (ranges bound : Bytes)
  | rangeNumberSize (ranges bound : Bytes)
  | noRange (ranges : Bytes) (count : Nat)
  | noMatch (pattern : Bytes) (similar : List Bytes)
  | badPattern (pattern reason : Bytes)
  | contentsLevel (level : Int)
  deriving DecidableEq

namespace SectionFault

def code : SectionFault → Code
  | index .. => .indexOutOfRange
  | notFound .. | noRange .. | noMatch .. => .targetNotFound
  | ambiguous .. => .ambiguousTarget
  | levelRange .. | rangeNotNumber .. | rangeNumberSize .. | badPattern .. | contentsLevel _ =>
    .invalidArgument

def message : SectionFault → Bytes
  | levelRange low high =>
    utf8 "Invalid heading level range: " ++ .ofInt low ++ utf8 "-" ++ .ofInt high
  | index i count =>
    utf8 "Section index " ++ .ofInt i ++ utf8 " out of range (" ++
      (if count = 0 then utf8 "document has no sections" else utf8 "0-" ++ .ofNat (count - 1)) ++
      utf8 ")"
  | notFound text similar => utf8 "Section not found: '" ++ text ++ utf8 "'" ++ didYouMean similar
  | ambiguous text count =>
    utf8 "Section '" ++ text ++ utf8 "' matches " ++ .ofNat count ++
      utf8 " headings; use an index to disambiguate"
  | rangeNotNumber ranges bound =>
    utf8 "Invalid section range '" ++ ranges ++ utf8 "': '" ++ bound ++ utf8 "' is not a number"
  | rangeNumberSize ranges bound =>
    utf8 "Invalid section range '" ++ ranges ++ utf8 "': '" ++ bound ++ utf8 "' is out of range"
  | noRange ranges count =>
    utf8 "No sections match range '" ++ ranges ++ utf8 "' (document has " ++ .ofNat count ++
      utf8 " sections)"
  | noMatch pattern similar =>
    utf8 "No sections match pattern '" ++ pattern ++ utf8 "'" ++ didYouMean similar
  | badPattern pattern reason =>
    utf8 "Invalid section pattern '" ++ pattern ++ utf8 "': " ++ reason
  | contentsLevel level => utf8 "max_level must be between 1 and 6, got " ++ .ofInt level

end SectionFault

inductive SplitFault where
  | headingDigit (level : Nat) (spec : Bytes)
  | notNumber (key value : Bytes)
  | tooLarge (key value : Bytes)
  | tooSmall (key value : Bytes)
  | emptyDelimiter
  | unknownKey (key : Bytes)
  | unknownSpec (spec : Bytes)
  | needsReader (strategy : Bytes)
  | headingLevel (level : Int)
  | targetWords (target : Int)
  | partCount (count : Int)
  | noDelimiter
  | blankDelimiter
  deriving DecidableEq

namespace SplitFault

def code : SplitFault → Code
  | headingDigit .. | notNumber .. | tooLarge .. | tooSmall .. | emptyDelimiter | unknownKey _
  | unknownSpec _ | needsReader _ => .invalidSplitSpec
  | headingLevel _ | targetWords _ | partCount _ | noDelimiter | blankDelimiter => .invalidArgument

def invalidValue (key value : Bytes) : Bytes :=
  utf8 "Invalid " ++ key ++ utf8 " value: '" ++ value ++ utf8 "'"

def message : SplitFault → Bytes
  | headingDigit level spec =>
    utf8 "Heading level must be between 1 and 6, got " ++ .ofNat level ++ utf8 " in '" ++ spec ++
      utf8 "'"
  | notNumber key value => invalidValue key value
  | tooLarge key value =>
    invalidValue key value ++ utf8 " (" ++ key ++ utf8 " must be at most 2147483647)"
  | tooSmall key value => invalidValue key value ++ utf8 " (" ++ key ++ utf8 " must be at least 1)"
  | emptyDelimiter => utf8 "Delimiter value cannot be empty"
  | unknownKey key => utf8 "Unknown split strategy: '" ++ key ++ utf8 "'"
  | unknownSpec spec =>
    utf8 "Invalid split specification: '" ++ spec ++
      utf8 "'. Expected: h1-h6, length=N, parts=N, delimiter=TEXT, break, page, chapter, or auto"
  | needsReader strategy =>
    utf8 "'" ++ strategy ++
      utf8 "' splitting is performed by the format reader, not on a document tree"
  | headingLevel level => utf8 "Heading level must be between 1 and 6, got " ++ .ofInt level
  | targetWords target => utf8 "target_words must be at least 1, got " ++ .ofInt target
  | partCount count => utf8 "num_parts must be at least 1, got " ++ .ofInt count
  | noDelimiter => utf8 "Delimiter cannot be empty"
  | blankDelimiter => utf8 "Delimiter cannot be only whitespace"

end SplitFault

inductive RewriteFault where
  | noDocument
  | notDocument (found : Option Kind)
  | levelBounds (low high : Int)
  | noMapper
  | url (finding : Finding)
  | noPredicate
  | mergeNothing
  deriving DecidableEq

namespace RewriteFault

def code : RewriteFault → Code
  | notDocument _ => .invalidNode
  | _ => .invalidArgument

def message : RewriteFault → Bytes
  | noDocument => utf8 "cannot transform a null document"
  | notDocument found =>
    utf8 "transform must return a Document, got " ++
      (match found with
        | some kind => kind.name
        | none => utf8 "nothing")
  | levelBounds low high =>
    utf8 "heading level bounds must satisfy 1 <= min_level <= max_level <= 6, got " ++
      .ofInt low ++ utf8 ".." ++ .ofInt high
  | noMapper => utf8 "LinkRewriter needs a URL mapper"
  | url finding => finding.message
  | noPredicate => utf8 "filter_nodes needs a predicate"
  | mergeNothing => utf8 "cannot merge a null document"

end RewriteFault

inductive Failure where
  | node (cause : NodeFault)
  | record (cause : RecordFault)
  | outline (cause : SectionFault)
  | split (cause : SplitFault)
  | rewrite (cause : RewriteFault)
  | listLevel (level : Int)
  | finding (finding : Finding)
  | refused (text : Bytes)
  deriving DecidableEq

namespace Failure

def code : Failure → Code
  | node _ => .invalidNode
  | record _ => .serializationError
  | outline cause => cause.code
  | split cause => cause.code
  | rewrite cause => cause.code
  | listLevel _ => .invalidArgument
  | finding _ => .validationFailed
  | refused _ => .invalidArgument

/-- Who reports the failure; a refusal by a caller's own rule is reported by nobody. -/
def subject? : Failure → Option Subject
  | node _ | listLevel _ => some .node
  | record _ => some .json
  | outline _ => some .outline
  | split _ => some .split
  | rewrite _ => some .transform
  | finding _ => some .validate
  | refused _ => none

def text : Failure → Bytes
  | node cause => cause.message
  | record cause => cause.message
  | outline cause => cause.message
  | split cause => cause.message
  | rewrite cause => cause.message
  | listLevel level => utf8 "List level must be >= 1, got " ++ .ofInt level
  | finding f => f.message
  | refused t => t

def message (f : Failure) : Bytes := f.text.untilNul

end Failure
end Folio
