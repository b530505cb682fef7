import Folio.Bytes

/-!
# Severities and rules of a log

A log compares severities by number. The named ones are twenty apart; a number
between them is allowed as a threshold and shows as unknown.

A rule gives the categories that its pattern matches a threshold and an output. The
pattern is a star for all categories, a name followed by a dot and a star for that
category and those below it, or the name of one category. A configuration is made
of lines, of which those under a `[rules]` heading are rules; blank lines and those
that start with `#` are skipped.
-/

set_option autoImplicit false

namespace Folio.Log

inductive Severity where
  | debug | info | notice | warn | error | fatal
  deriving DecidableEq

namespace Severity

def all : List Severity := [debug, info, notice, warn, error, fatal]

def rank : Severity → Int
  | debug => 20
  | info => 40
  | notice => 60
  | warn => 80
  | error => 100
  | fatal => 120

def name : Severity → Bytes
  | debug => utf8 "DEBUG"
  | info => utf8 "INFO"
  | notice => utf8 "NOTICE"
  | warn => utf8 "WARN"
  | error => utf8 "ERROR"
  | fatal => utf8 "FATAL"

def ofRank? (rank : Int) : Option Severity := all.find? fun s => s.rank == rank

def ofName? (s : Bytes) : Option Severity := all.find? fun t => t.name.lower == s.lower

end Severity

def rankName (rank : Int) : Bytes :=
  match Severity.ofRank? rank with
  | some s => s.name
  | none => utf8 "UNKNOWN"

def line (rank : Int) (category text : Bytes) : Bytes :=
  utf8 "[" ++ rankName rank ++ utf8 "] " ++ category ++ utf8 ": " ++ text ++ utf8 "\n"

/-- Where a category's lines go. A category whose output was taken away writes to the standard
error stream. -/
inductive Output where
  | stdout
  | stderr
  | file (name : Bytes)
  | unset
  deriving DecidableEq

structure Rule where
  pattern : Bytes
  level : Int
  output : Output
  deriving DecidableEq

def star : UInt8 := 42

def dot : UInt8 := 46

def branch? (pattern : Bytes) : Option Bytes :=
  match pattern.reverse with
  | 42 :: 46 :: name => some name.reverse
  | _ => none

def patternMatches (pattern name : Bytes) : Bool :=
  if pattern = [star] then true
  else
    match branch? pattern with
    | some root => root.isPrefixOf name && (name.drop root.length).head?.all (· == dot)
    | none => pattern == name

def Rule.appliesTo (rule : Rule) (name : Bytes) : Bool := patternMatches rule.pattern name

inductive Status where
  | ok | tooLow | wrongFormat | writeFail | initFail
  deriving DecidableEq

def Status.code : Status → Int
  | ok => 0
  | tooLow => -2
  | wrongFormat => -3
  | writeFail => -4
  | initFail => -5

/-- The longest line that is read whole; the rest of a longer one is lost. -/
def maxLine : Nat := 511

def nameSize : Nat := 64

def maxRules : Nat := 64

def maxCategories : Nat := 64

/-- What a rule line says: a selector, which is a pattern with a severity after its last dot, and
a target, the standard error stream if none is given. -/
structure RuleText where
  selector : Bytes
  target : Bytes

def RuleText.ofLine (line : Bytes) : RuleText :=
  let rest := line.dropWhile fun b => !Bytes.isSpace b
  let target := Bytes.trimBy Bytes.isSpace (rest.takeWhile (· != 59))
  ⟨line.takeWhile fun b => !Bytes.isSpace b, if target.isEmpty then utf8 ">stderr" else target⟩

def quotedName? (target : Bytes) : Option Bytes :=
  match target with
  | 34 :: rest =>
    match rest.reverse with
    | 34 :: b :: name => some (b :: name).reverse
    | _ => none
  | _ => none

/-- What can name a file of the log directory: no path, no name of a directory, at most 255
bytes. -/
def isFileName (name : Bytes) : Bool :=
  !name.contains 47 && name != [dot] && name != [dot, dot] && name.length ≤ 255

/-- The lines of a configuration that are rules; `inRules` under a `[rules]` heading. -/
def ruleLines (inRules : Bool) : List Bytes → List Bytes
  | [] => []
  | text :: rest =>
    match text with
    | [] => ruleLines inRules rest
    | 35 :: _ => ruleLines inRules rest
    | 91 :: _ => ruleLines (Bytes.startsWith (utf8 "[rules]") text) rest
    | _ => if inRules then text :: ruleLines inRules rest else ruleLines inRules rest

def configLines (text : Bytes) : List Bytes :=
  (text.untilNul.splitOn 10).map fun line => Bytes.trimBy Bytes.isSpace (line.take maxLine)

end Folio.Log
