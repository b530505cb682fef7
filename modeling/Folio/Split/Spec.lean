import Folio.Outcome

/-!
# Split specifications

How a document is to be cut: at headings of a level, into parts of about so many
words, into so many parts, at a delimiter, at breaks, by page or chapter, or by what
suits it. A specification is a keyword in any letter case, with a value after an
equals sign where it takes one; a delimiter may be written with escapes.
-/

set_option autoImplicit false

namespace Folio

inductive SplitSpec where
  | heading (level : Int)
  | length (words : Int)
  | parts (count : Int)
  | delimiter (text : Bytes)
  | breaks
  | pages
  | chapters
  | auto
  deriving DecidableEq

namespace SplitSpec

def strategies : List Bytes :=
  [utf8 "heading", utf8 "length", utf8 "parts", utf8 "delimiter", utf8 "break", utf8 "page",
    utf8 "chapter", utf8 "auto"]

def strategy : SplitSpec → Bytes
  | heading _ => utf8 "heading"
  | length _ => utf8 "length"
  | parts _ => utf8 "parts"
  | delimiter _ => utf8 "delimiter"
  | breaks => utf8 "break"
  | pages => utf8 "page"
  | chapters => utf8 "chapter"
  | auto => utf8 "auto"

/-- The number that a specification holds, zero when it holds none. -/
def value : SplitSpec → Int
  | heading n | length n | parts n => n
  | _ => 0

def delimiterText : SplitSpec → Bytes
  | delimiter text => text
  | _ => []

def refuse {α : Type} (cause : SplitFault) : Outcome α := .raise (.split cause)

def hexValue? (b : UInt8) : Option UInt8 :=
  if Bytes.isDigit b then some (b - 48)
  else if 97 ≤ b ∧ b ≤ 102 then some (b - 87)
  else if 65 ≤ b ∧ b ≤ 70 then some (b - 55)
  else none

def escape? (b : UInt8) : Option UInt8 :=
  [(110, 10), (116, 9), (114, 13), (97, 7), (98, 8), (102, 12), (118, 11), (48, 0), (92, 92),
    (39, 39), (34, 34)].lookup b

def hexByte? (high low : UInt8) : Option UInt8 :=
  match hexValue? high, hexValue? low with
  | some h, some l => some (h * 16 + l)
  | _, _ => none

/-- Decodes escapes; `skip` counts the bytes of an escape that are already read. An escape that
means nothing stands for itself. -/
def decodeFrom : Nat → Bytes → Bytes
  | _, [] => []
  | skip + 1, _ :: s => decodeFrom skip s
  | 0, b :: s =>
    if b = 92 then
      match s with
      | [] => [b]
      | c :: rest =>
        match escape? c with
        | some d => d :: decodeFrom 1 s
        | none =>
          match c, rest with
          | 120, high :: low :: _ =>
            match hexByte? high low with
            | some d => d :: decodeFrom 3 s
            | none => b :: c :: decodeFrom 1 s
          | _, _ => b :: c :: decodeFrom 1 s
    else b :: decodeFrom 0 s

def decodeEscapes (s : Bytes) : Bytes := decodeFrom 0 s

def positive (key value : Bytes) : Outcome Int :=
  match if value.isEmpty then none else value.integer? with
  | none => refuse (.notNumber key value)
  | some n =>
    if Bytes.maxNumber < n then refuse (.tooLarge key value)
    else if n < 1 then refuse (.tooSmall key value)
    else pure n

def ofPair (key value : Bytes) : Outcome SplitSpec :=
  if key = utf8 "length" then length <$> positive key value
  else if key = utf8 "parts" then parts <$> positive key value
  else if key = utf8 "delimiter" then
    if value.isEmpty then refuse .emptyDelimiter else pure (delimiter (decodeEscapes value))
  else refuse (.unknownKey key)

def ofKeyword? (lower : Bytes) : Option SplitSpec :=
  if lower = utf8 "auto" then some auto
  else if lower = utf8 "break" then some breaks
  else if lower = utf8 "page" then some pages
  else if lower = utf8 "chapter" then some chapters
  else none

def headingDigit? (lower : Bytes) : Option Nat :=
  match lower with
  | [104, b] => if Bytes.isDigit b then some (Bytes.digitValue b) else none
  | _ => none

def parse (text : Bytes) : Outcome SplitSpec :=
  let spec := text.trim
  let lower := Bytes.lower spec
  match headingDigit? lower with
  | some level =>
    if 1 ≤ level ∧ level ≤ 6 then pure (heading level) else refuse (.headingDigit level spec)
  | none =>
    match spec.cutFirst? 61 with
    | some (key, value) => ofPair (Bytes.lower key.trim) value.trim
    | none =>
      match ofKeyword? lower with
      | some found => pure found
      | none => refuse (.unknownSpec spec)

end SplitSpec
end Folio
