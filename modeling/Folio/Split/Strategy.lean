import Folio.Section.Basic
import Folio.Split.Spec

/-!
# Splitting documents

A part is a document of its own, with the attributes of the whole, its place among
the parts, a title if it has one, its number of words, and notes on how it came
about.

Every strategy cuts between the blocks of a document. Headings and word counts keep
all blocks; delimiters and breaks are left out. A document that gives a strategy
nothing to cut at stays whole, with a note on the reason. An average of words is
written with one decimal: the quotient is first rounded to 53 binary digits and then
to tenths, a half going to the even neighbour both times, so that a quotient that no
binary fraction equals is never taken for a half.
-/

set_option autoImplicit false

namespace Folio

/-- A run of blocks with the title that it would have as a part. -/
structure Passage where
  title : Option Bytes
  nodes : List Node

structure Part where
  document : Document
  index : Nat
  title : Option Bytes
  words : Nat
  metadata : Members := []

namespace Part

def ofPassage (d : Document) (index : Nat) (p : Passage) : Outcome Part := do
  let document ← Document.build (p.nodes.map some) d.attrs
  return { document, index, title := p.title, words := textWords p.nodes }

def ofPassages (d : Document) (ps : List Passage) : Outcome (List Part) :=
  .sequence (ps.zipIdx.map fun (p, i) => ofPassage d (i + 1) p)

def note (key text : Bytes) (part : Part) : Part :=
  { part with metadata := part.metadata.insert key (.str text) }

/-- A name for the part that suits a file; nothing without a title. -/
def fileSlug (title : Option Bytes) : Bytes :=
  match title with
  | none => []
  | some t => Slug.ofText t Slug.maxLength

end Part

namespace Average

def roundDiv (n d : Nat) : Nat :=
  let q := n / d
  let twice := 2 * (n % d)
  if twice < d then q else if d < twice then q + 1 else if q % 2 = 0 then q else q + 1

/-- How far a quotient is shifted left so that its whole part has 53 binary digits. -/
def shift (n d : Nat) : Nat :=
  let s := 52 + d.log2 - n.log2
  if n * Nat.pow 2 s / d < Nat.pow 2 52 then s + 1 else s

def tenths (n d : Nat) : Nat :=
  if n = 0 then 0
  else
    let s := shift n d
    roundDiv (10 * roundDiv (n * Nat.pow 2 s) d) (Nat.pow 2 s)

def oneDecimal (n d : Nat) : Bytes :=
  let t := tenths n d
  .ofNat (t / 10) ++ utf8 "." ++ .ofNat (t % 10)

end Average

namespace Passage

def words (p : Passage) : Nat := textWords p.nodes

def preambleTitle : Bytes := utf8 "Preamble"

def before (d : Document) (parts : List Section) : List Passage :=
  let nodes := d.beforeParts parts
  if nodes.isEmpty then [] else [⟨some preambleTitle, nodes⟩]

def ofSection (s : Section) : Passage := ⟨some s.text, s.nodes⟩

/-- A passage with a second one after it, under the title of the first. -/
def append (p q : Passage) : Passage := ⟨p.title, p.nodes ++ q.nodes⟩

/-- Fills passages up with those that follow as long as the words stay within a target; `current`
is being filled and has `count` words. -/
def fill (target : Nat) (current : Passage) (count : Nat) : List Passage → List Passage
  | [] => [current]
  | p :: ps =>
    if target < count + p.words then current :: fill target p p.words ps
    else fill target (current.append p) (count + p.words) ps

def fillAll (target : Nat) : List Passage → List Passage
  | [] => []
  | p :: ps => fill target p p.words ps

end Passage

namespace Document

def refuseSplit {α : Type} (cause : SplitFault) : Outcome α := .raise (.split cause)

def whole (d : Document) (title : Option Bytes) : Outcome (List Part) :=
  Part.ofPassages d [⟨title, d.children⟩]

def keptWhole (d : Document) (title : Option Bytes) (reason : Bytes) : Outcome (List Part) := do
  let parts ← d.whole title
  Outcome.debug .split (utf8 "document kept whole: " ++ reason)
  return parts.map (Part.note (utf8 "reason") reason)

def hasHeadingAt (d : Document) (level : Int) : Bool :=
  d.children.any fun n => n.level? == some level

def splitByHeading (d : Document) (level : Int) (includePreamble : Bool) : Outcome (List Part) :=
  if level < 1 || 6 < level then refuseSplit (.headingLevel level)
  else if !d.hasHeadingAt level then d.keptWhole none (utf8 "no_headings_found")
  else do
    let sections := d.partition level
    let before := if includePreamble then Passage.before d sections else []
    let parts ← Part.ofPassages d (before ++ sections.map Passage.ofSection)
    Outcome.debug .split <|
      utf8 "split at h" ++ .ofInt level ++ utf8 " into " ++ .ofNat parts.length ++ utf8 " parts"
    return parts

/-- What word counting never cuts: the blocks before the first part, and each part. -/
def passages (d : Document) : List Passage :=
  let sections := d.partition 6
  Passage.before d sections ++ sections.map Passage.ofSection

def splitByWords (d : Document) (target : Int) : Outcome (List Part) :=
  if target < 1 then refuseSplit (.targetWords target)
  else if (d.partition 6).isEmpty then d.keptWhole none (utf8 "no_sections")
  else do
    let parts ← Part.ofPassages d (Passage.fillAll target.toNat d.passages)
    Outcome.debug .split <|
      utf8 "split at " ++ .ofInt target ++ utf8 " words into " ++ .ofNat parts.length ++
        utf8 " parts"
    return parts

/-- Cuts by the word count that so many even parts would have. -/
def splitByParts (d : Document) (count : Int) : Outcome (List Part) :=
  if count < 1 then refuseSplit (.partCount count)
  else
    let words := textWords d.children
    if words = 0 then d.whole none
    else d.splitByWords (max 1 (words / count.toNat))

/-- Cuts a list at its separators, which are left out; a run may be empty. -/
def runs (separates : Node → Bool) : List Node → List (List Node)
  | [] => [[]]
  | n :: ns =>
    if separates n then [] :: runs separates ns
    else
      match runs separates ns with
      | [] => [[n]]
      | run :: more => (n :: run) :: more

def partTitle (number : Nat) : Bytes := utf8 "Part " ++ .ofNat number

def splitAtSeparators (d : Document) (separates : Node → Bool) (reason : Bytes) :
    Outcome (List Part) := do
  let found := (runs separates d.children).filter fun run => !run.isEmpty
  if !d.children.any separates || found.isEmpty then d.keptWhole (some (partTitle 1)) reason
  else do
    Outcome.debug .split <|
      utf8 "separators produced " ++ .ofNat found.length ++ utf8 " parts"
    Part.ofPassages d (found.zipIdx.map fun (run, i) => ⟨some (partTitle (i + 1)), run⟩)

def isRuleLike (s : Bytes) : Bool :=
  3 ≤ s.length && [45, 42, 95].any fun mark => s.all (· == mark)

def isBreak (n : Node) : Bool := n.kind == .thematicBreak

def isDelimiter (wanted : Bytes) (n : Node) : Bool :=
  match n.kind with
  | .thematicBreak => isRuleLike wanted
  | .paragraph => (n.extractText []).trim == wanted
  | _ => false

def splitByDelimiter (d : Document) (delimiter : Bytes) : Outcome (List Part) :=
  let wanted := delimiter.trim
  if wanted.isEmpty then
    refuseSplit (if delimiter.isEmpty then .noDelimiter else .blankDelimiter)
  else d.splitAtSeparators (isDelimiter wanted) (utf8 "no_delimiters_found")

def splitByBreak (d : Document) : Outcome (List Part) :=
  d.splitAtSeparators isBreak (utf8 "no_breaks_found")

def chose (strategy : Bytes) (split : Outcome (List Part)) : Outcome (List Part) := do
  let parts ← split
  Outcome.write .info .split <|
    utf8 "auto split chose " ++ strategy ++ utf8 " (" ++ .ofNat parts.length ++ utf8 " parts)"
  return parts.map (Part.note (utf8 "strategy") strategy)

def sectionWords (s : Section) : Nat := textWords s.nodes

def suitsTop (d : Document) (target : Int) : Outcome Bool :=
  match d.outline 1 1 with
  | [] => pure false
  | sections => do
    let largest := (sections.map sectionWords).foldl max 0
    Outcome.debug .split <|
      utf8 "auto: " ++ .ofNat sections.length ++ utf8 " h1 sections, largest " ++ .ofNat largest ++
        utf8 " words"
    return largest ≤ target * 2

def suitsSecond (d : Document) (target : Int) : Outcome Bool :=
  match d.outline 2 2 with
  | [] => pure false
  | sections => do
    let total := (sections.map sectionWords).foldr (· + ·) 0
    Outcome.debug .split <|
      utf8 "auto: " ++ .ofNat sections.length ++ utf8 " h2 sections, average " ++
        Average.oneDecimal total sections.length ++ utf8 " words"
    return 2 * (total : Int) ≤ 3 * target * sections.length

def splitAuto (d : Document) (target : Int) : Outcome (List Part) :=
  if target < 1 then refuseSplit (.targetWords target)
  else do
    if ← d.suitsTop target then chose (utf8 "auto:h1") (d.splitByHeading 1 true)
    else if ← d.suitsSecond target then chose (utf8 "auto:h2") (d.splitByHeading 2 true)
    else chose (utf8 "auto:word_count") (d.splitByWords target)

def split (d : Document) (spec : SplitSpec) (includePreamble : Bool) (target : Int) :
    Outcome (List Part) :=
  match spec with
  | .heading level => d.splitByHeading level includePreamble
  | .length words => d.splitByWords words
  | .parts count => d.splitByParts count
  | .delimiter text => d.splitByDelimiter text
  | .breaks => d.splitByBreak
  | .auto => d.splitAuto target
  | .pages | .chapters => refuseSplit (.needsReader spec.strategy)

def splitBy (d : Document) (text : Bytes) (includePreamble : Bool) (target : Int) :
    Outcome (List Part) := do
  let spec ← SplitSpec.parse text
  d.split spec includePreamble target

end Document

end Folio
