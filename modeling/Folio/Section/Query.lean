import Folio.Section.Basic

/-!
# Section queries

The sections of the outline that a query asks for: by level, by the text of the
heading, with wildcards if the text has any, and by a condition of the caller's.

A pattern with wildcards is written as a regular expression, byte after byte, and a
pattern library compiles and matches it. The library is a parameter. For the few
expressions that patterns are written as there is one of our own, which folds the
case of letters as it is told and keeps, for each suffix of a text, whether the rest
of the expression matches it, so that several stars cost no search.
-/

set_option autoImplicit false

namespace Folio

namespace Pattern

def isWildcard (b : UInt8) : Bool := b == 42 || b == 63

def hasWildcard (pattern : Bytes) : Bool := pattern.any isWildcard

end Pattern

/-- What is used of a pattern library: it quotes a text, and compiles an expression to a test
whether the expression matches a whole text, or says why it does not. -/
structure Engine where
  quote : Bytes → Bytes
  compile (caseSensitive : Bool) (expression : Bytes) : Except Bytes (Bytes → Bool)

/-- The expression for a pattern: a star stands for any run of characters and a question mark for
one of them, and every other byte for itself. -/
def Engine.expression (engine : Engine) (pattern : Bytes) : Bytes :=
  pattern.flatMap fun b =>
    if b = 42 then utf8 ".*" else if b = 63 then utf8 "." else engine.quote [b]

/-- Which characters are the same when case is ignored: those that fold to the same character.
Letters of ASCII fold to small letters. -/
structure CaseFolding where
  fold : Char → Char
  ascii : ∀ c, c.toNat < 128 → fold c = c.toLower

namespace CaseFolding

def asciiOnly : CaseFolding := ⟨Char.toLower, fun _ _ => rfl⟩

def same (folding : CaseFolding) (caseSensitive : Bool) (c d : Char) : Bool :=
  if caseSensitive then c == d else folding.fold c == folding.fold d

end CaseFolding

namespace Expression

/-- What takes one character: a dot, any but a line end, or a character itself. -/
inductive Atom where
  | any
  | char (c : Char)
  deriving DecidableEq

structure Item where
  atom : Atom
  repeated : Bool
  deriving DecidableEq

def Atom.takes (folding : CaseFolding) (caseSensitive : Bool) : Atom → Char → Bool
  | any, c => c != '\n'
  | char d, c => folding.same caseSensitive d c

inductive Sign where
  | atom (a : Atom)
  | star
  deriving DecidableEq

/-- Letters, digits, the underscore and what is not of ASCII stand for themselves. -/
def isWord (c : Char) : Bool := c.isAlphanum || c == '_' || 127 < c.toNat

def Sign.spelled : Sign → List Char
  | .atom .any => ['.']
  | .atom (.char c) =>
    if isWord c then [c] else if c = '\x00' then ['\\', 'x', '0', '0'] else ['\\', c]
  | .star => ['*']

def Item.signs (item : Item) : List Sign := .atom item.atom :: if item.repeated then [.star] else []

def spelled (items : List Item) : List Char := (items.flatMap Item.signs).flatMap Sign.spelled

def readSigns : List Char → Option (List Sign)
  | [] => some []
  | '.' :: rest => (Sign.atom .any :: ·) <$> readSigns rest
  | '*' :: rest => (Sign.star :: ·) <$> readSigns rest
  | '\\' :: 'x' :: '0' :: '0' :: rest => (Sign.atom (.char '\x00') :: ·) <$> readSigns rest
  | '\\' :: c :: rest => if isWord c then none else (Sign.atom (.char c) :: ·) <$> readSigns rest
  | c :: rest => if isWord c then (Sign.atom (.char c) :: ·) <$> readSigns rest else none

def readItems : List Sign → Option (List Item)
  | [] => some []
  | .atom a :: .star :: rest => (⟨a, true⟩ :: ·) <$> readItems rest
  | .atom a :: rest => (⟨a, false⟩ :: ·) <$> readItems rest
  | .star :: _ => none

def read (expression : Bytes) : Option (List Item) :=
  expression.characters? >>= readSigns >>= readItems

def emptySuffixes : List Char → List Bool
  | [] => [true]
  | _ :: cs => false :: emptySuffixes cs

def afterOne (takes : Char → Bool) : List Char → List Bool → List Bool
  | c :: cs, _ :: answers => (takes c && answers.headD false) :: afterOne takes cs answers
  | _, _ => [false]

def afterRun (takes : Char → Bool) : List Char → List Bool → List Bool
  | c :: cs, answer :: answers =>
    let later := afterRun takes cs answers
    (answer || (takes c && later.headD false)) :: later
  | _, answers => answers

/-- For every suffix of a text, the longest first, whether an expression matches it. -/
def answers (folding : CaseFolding) (caseSensitive : Bool) (cs : List Char) :
    List Item → List Bool
  | [] => emptySuffixes cs
  | item :: items =>
    let takes := item.atom.takes folding caseSensitive
    let rest := answers folding caseSensitive cs items
    if item.repeated then afterRun takes cs rest else afterOne takes cs rest

def quotedByte (b : UInt8) : Bytes :=
  if isWord (Char.ofUInt8 b) then [b] else if b = 0 then utf8 "\\x00" else [92, b]

end Expression

open Expression in
/-- A library for the expressions of patterns, with the folding that it is given. -/
def Engine.plain (folding : CaseFolding) : Engine where
  quote text := text.flatMap quotedByte
  compile caseSensitive expression :=
    match read expression with
    | none => .error (utf8 "not an expression of wildcards")
    | some items => .ok fun text =>
      text.characters?.any fun cs => (answers folding caseSensitive cs items).headD false

structure Query where
  pattern : Option Bytes := none
  caseSensitive : Bool := false
  level : Option Int := none
  lowest : Int := 1
  deepest : Int := 6
  condition : Section → Bool := fun _ => true

def Query.matcher (engine : Engine) (q : Query) : Outcome (Bytes → Bool) :=
  match q.pattern with
  | none => pure fun _ => true
  | some pattern =>
    if Pattern.hasWildcard pattern then
      .ofExcept (fun reason => .outline (.badPattern pattern reason))
        (engine.compile q.caseSensitive (engine.expression pattern.trim))
    else pure fun text => textMatches text pattern q.caseSensitive

def Document.query (d : Document) (engine : Engine) (q : Query) : Outcome (List Section) := do
  let candidates ← d.sectionsBetween (q.level.getD q.lowest) (q.level.getD q.deepest)
  let accepts ← q.matcher engine
  let found := candidates.filter fun s => accepts s.text && q.condition s
  Outcome.debug .outline <|
    utf8 "query matched " ++ .ofNat found.length ++ utf8 " of " ++ .ofNat candidates.length ++
      utf8 " sections"
  return found

end Folio
