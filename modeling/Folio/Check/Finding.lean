import Folio.Node.Kind

/-!
# Findings

What a check of a tree can find wrong with a node, and how each finding is worded.

A scheme of a URL is read as a browser reads it: control characters and spaces in
front are skipped, tabs and line ends are ignored anywhere, and letter case does not
count. A scheme that runs or reads something local is refused, and so is one before
`://` that is not known to be harmless. Inline images up to a size can be allowed.
-/

set_option autoImplicit false

namespace Folio

namespace Url

def isIgnored (b : UInt8) : Bool := b == 9 || b == 10 || b == 13

def strip (url : Bytes) : Bytes := url.dropWhile (· ≤ 32)

def normalize (url : Bytes) : Bytes := Bytes.lower ((strip url).filter fun b => !isIgnored b)

/-- Whether the normal form of a stripped URL starts with `start`, found without writing the normal
form out. -/
def begins : Bytes → Bytes → Bool
  | [], _ => true
  | _ :: _, [] => false
  | c :: start, b :: url =>
    if isIgnored b then begins (c :: start) url
    else c == Bytes.lowerByte b && begins start url

def dangerousSchemes : List Bytes :=
  [utf8 "javascript:", utf8 "vbscript:", utf8 "data:", utf8 "file:", utf8 "about:"]

def harmlessSchemes : List Bytes :=
  [utf8 "http", utf8 "https", utf8 "mailto", utf8 "ftp", utf8 "ftps", utf8 "tel", utf8 "sms"]

def maxInlineSize : Nat := 20 * 1024 * 1024

inductive Fault where
  | notImage
  | tooLong
  | dangerous (scheme : Bytes)
  | unknownScheme (scheme : Bytes)
  deriving DecidableEq

def excerpt (url : Bytes) : Bytes := url.take 50

def Fault.message (context url : Bytes) : Fault → Bytes
  | notImage => context ++ utf8 " data URI must have image/* MIME type, got: " ++ excerpt url
  | tooLong =>
    context ++ utf8 " data URI exceeds maximum length (" ++ .ofNat url.length ++ utf8 " > " ++
      .ofNat maxInlineSize ++ utf8 " bytes)"
  | dangerous scheme =>
    context ++ utf8 " URL uses dangerous scheme '" ++ scheme ++ utf8 "': " ++ excerpt url
  | unknownScheme scheme =>
    context ++ utf8 " URL has unrecognized scheme '" ++ scheme ++ utf8 "': " ++ excerpt url

def schemeBeforeSlashes? (url : Bytes) : Option Bytes :=
  Bytes.before? (utf8 "://") (normalize url)

def checkScheme (url : Bytes) : Option Fault :=
  match dangerousSchemes.find? fun scheme => begins scheme (strip url) with
  | some scheme => some (.dangerous scheme)
  | none =>
    match schemeBeforeSlashes? url with
    | some scheme => if harmlessSchemes.contains scheme then none else some (.unknownScheme scheme)
    | none => none

def check (url : Bytes) (allowInline : Bool) : Option Fault :=
  if allowInline && begins (utf8 "data:") (strip url) then
    if !begins (utf8 "data:image/") (strip url) then some .notImage
    else if maxInlineSize < url.length then some .tooLong
    else none
  else checkScheme url

theorem begins_eq_startsWith (start url : Bytes) :
    begins start url = Bytes.startsWith start (Bytes.lower (url.filter fun b => !isIgnored b)) := by
  induction url generalizing start with
  | nil => cases start <;> rfl
  | cons b url ih =>
    cases start with
    | nil => simp [begins, Bytes.startsWith]
    | cons c start =>
      by_cases hb : isIgnored b
      · simp [begins, hb, ih]
      · simp [begins, hb, ih, Bytes.startsWith, Bytes.lower, List.isPrefixOf]

end Url

inductive Finding where
  | headingLevel (level : Int)
  | notInline (owner : Kind) (index : Nat) (found : Kind)
  | notBlock (owner : Kind) (index : Nat) (found : Kind)
  | fenceLength (length : Int)
  | fenceCharacter (fence : UInt8)
  | listStart (start : Int)
  | emptyList
  | rowCells (row cells expected : Nat)
  | alignmentCount (alignments columns : Nat)
  | colspan (span : Int)
  | rowspan (span : Int)
  | rawHtml (owner : Kind)
  | emptyComment (owner : Kind)
  | noIdentifier (owner : Kind)
  | unknownDialect (owner : Kind) (dialect : Bytes)
  | unknownRepresentation (owner : Kind) (dialect : Bytes)
  | emptyUrl (owner : Kind)
  | url (context address : Bytes) (fault : Url.Fault)
  deriving DecidableEq

namespace Finding

def message : Finding → Bytes
  | headingLevel level => utf8 "Invalid heading level: " ++ .ofInt level
  | notInline owner index found =>
    owner.name ++ utf8 " can only contain inline nodes, but child " ++ .ofNat index ++
      utf8 " is " ++ found.name
  | notBlock owner index found =>
    owner.name ++ utf8 " can only contain block nodes, but child " ++ .ofNat index ++ utf8 " is " ++
      found.name
  | fenceLength length => utf8 "CodeBlock fence_length must be >= 1, got " ++ .ofInt length
  | fenceCharacter fence =>
    utf8 "CodeBlock fence_char must be '`' or '~', got '" ++ [fence] ++ utf8 "'"
  | listStart start => utf8 "Ordered list start must be >= 1, got " ++ .ofInt start
  | emptyList => utf8 "List must have at least one item"
  | rowCells row cells expected =>
    utf8 "Table row " ++ .ofNat row ++ utf8 " has " ++ .ofNat cells ++ utf8 " cells, expected " ++
      .ofNat expected
  | alignmentCount alignments columns =>
    utf8 "Table has " ++ .ofNat alignments ++ utf8 " alignments but " ++ .ofNat columns ++
      utf8 " columns"
  | colspan span => utf8 "TableCell colspan must be >= 1, got " ++ .ofInt span
  | rowspan span => utf8 "TableCell rowspan must be >= 1, got " ++ .ofInt span
  | rawHtml owner => utf8 "Raw HTML content (" ++ owner.name ++ utf8 ") is not allowed"
  | emptyComment owner => owner.name ++ utf8 " node should have content"
  | noIdentifier owner => owner.name ++ utf8 " must have an identifier"
  | unknownDialect owner dialect =>
    owner.name ++ utf8 " uses unsupported notation '" ++ dialect ++ utf8 "'"
  | unknownRepresentation owner dialect =>
    owner.name ++ utf8 " has invalid representation key '" ++ dialect ++ utf8 "'"
  | emptyUrl owner => owner.name ++ utf8 " url must be non-empty"
  | url context address fault => fault.message context address

end Finding

end Folio
