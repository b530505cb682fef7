/-!
# Byte strings

Every text of a document is a string of bytes, so that text which is no valid
UTF-8 is carried as it is. Classes of bytes and letter case are those of ASCII.
Lengths, cuts and comparisons count bytes. A pattern is looked for from left to
right, a replacement never looks at the text that it has put in, and found places
do not overlap. A numeral is a run of decimal digits, optionally after white space
and one sign; a text counts up to its first NUL, has to be one numeral from its first
byte to its last, and reads as zero if it shows nothing at all.
-/

set_option autoImplicit false

namespace Folio

abbrev Bytes := List UInt8

def utf8 (s : String) : Bytes := s.toUTF8.data.toList

namespace Bytes

/-- Space, tab, carriage return and line feed: what surrounds a text without belonging to it. -/
def isBlank (b : UInt8) : Bool := b == 32 || b == 9 || b == 13 || b == 10

/-- The six white space bytes that separate words: the blanks, vertical tab and form feed. -/
def isSpace (b : UInt8) : Bool := b == 32 || (9 ≤ b && b ≤ 13)

def isDigit (b : UInt8) : Bool := 48 ≤ b && b ≤ 57

def isLowerLetter (b : UInt8) : Bool := 97 ≤ b && b ≤ 122

def lowerByte (b : UInt8) : UInt8 := if 65 ≤ b ∧ b ≤ 90 then b + 32 else b

def lower (s : Bytes) : Bytes := s.map lowerByte

def trimBy (p : UInt8 → Bool) (s : Bytes) : Bytes :=
  ((s.dropWhile p).reverse.dropWhile p).reverse

def trim (s : Bytes) : Bytes := trimBy isBlank s

/-- The part before the first NUL, which is all that a message or a log line shows of a text. -/
def untilNul (s : Bytes) : Bytes := s.takeWhile (· != 0)

def ofNat (n : Nat) : Bytes := (Nat.toDigits 10 n).map Char.toUInt8

def ofInt : Int → Bytes
  | .ofNat n => ofNat n
  | .negSucc n => 45 :: ofNat (n + 1)

def characters? (s : Bytes) : Option (List Char) :=
  (ByteArray.mk s.toArray).utf8Decode?.map Array.toList

def join (separator : Bytes) (texts : List Bytes) : Bytes := separator.intercalate texts

@[simp] theorem trimBy_nil (p : UInt8 → Bool) : trimBy p [] = [] := rfl

@[simp] theorem lower_append (s t : Bytes) : lower (s ++ t) = lower s ++ lower t := by
  simp [lower]

@[simp] theorem length_lower (s : Bytes) : (lower s).length = s.length := by
  simp [lower]

def startsWith (start s : Bytes) : Bool := start.isPrefixOf s

def occursIn (pattern : Bytes) : Bytes → Bool
  | [] => pattern.isEmpty
  | b :: s => startsWith pattern (b :: s) || occursIn pattern s

/-- Puts `replacement` for each place of a non-empty pattern; `skip` counts the bytes of the
place found last that are still to be passed over. -/
def replaceFrom (pattern replacement : Bytes) : Nat → Bytes → Bytes
  | _, [] => []
  | skip + 1, _ :: s => replaceFrom pattern replacement skip s
  | 0, b :: s =>
    if startsWith pattern (b :: s) then
      replacement ++ replaceFrom pattern replacement (pattern.length - 1) s
    else b :: replaceFrom pattern replacement 0 s

def replaceAll (pattern replacement s : Bytes) : Bytes :=
  if pattern.isEmpty then s else replaceFrom pattern replacement 0 s

/-- Splits at every separator; there is one piece more than separators. -/
def splitOn (separator : UInt8) : Bytes → List Bytes
  | [] => [[]]
  | b :: s =>
    if b = separator then [] :: splitOn separator s
    else
      match splitOn separator s with
      | [] => [[b]]
      | piece :: pieces => (b :: piece) :: pieces

def cutFirst? (separator : UInt8) : Bytes → Option (Bytes × Bytes)
  | [] => none
  | b :: s =>
    if b = separator then some ([], s)
    else (cutFirst? separator s).map fun (before, after) => (b :: before, after)

def cutLast? (separator : UInt8) : Bytes → Option (Bytes × Bytes)
  | [] => none
  | b :: s =>
    match cutLast? separator s with
    | some (before, after) => some (b :: before, after)
    | none => if b = separator then some ([], s) else none

/-- The part before the first place of a pattern; `seen` is what was passed, last byte first. -/
def beforeFrom? (pattern : Bytes) (seen : Bytes) : Bytes → Option Bytes
  | [] => if pattern.isEmpty then some seen.reverse else none
  | b :: s =>
    if startsWith pattern (b :: s) then some seen.reverse else beforeFrom? pattern (b :: seen) s

def before? (pattern s : Bytes) : Option Bytes := beforeFrom? pattern [] s

theorem replaceFrom_length_skip (pattern replacement s t : Bytes) :
    replaceFrom pattern replacement s.length (s ++ t) = replaceFrom pattern replacement 0 t := by
  induction s with
  | nil => rfl
  | cons b s ih => simpa [replaceFrom] using ih

theorem splitOn_ne_nil (separator : UInt8) (s : Bytes) : splitOn separator s ≠ [] := by
  cases s with
  | nil => simp [splitOn]
  | cons b s =>
    by_cases h : b = separator
    · simp [splitOn, h]
    · cases hs : splitOn separator s <;> simp [splitOn, h, hs]

theorem join_splitOn (separator : UInt8) (s : Bytes) :
    join [separator] (splitOn separator s) = s := by
  induction s with
  | nil => rfl
  | cons b s ih =>
    cases hs : splitOn separator s with
    | nil => exact absurd hs (splitOn_ne_nil separator s)
    | cons piece pieces =>
      rw [hs] at ih
      by_cases h : b = separator
      · have hj : join [separator] ([] :: piece :: pieces) =
            separator :: join [separator] (piece :: pieces) := rfl
        rw [splitOn, if_pos h, hs, hj, ih, h]
      · have hj : join [separator] ((b :: piece) :: pieces) =
            b :: join [separator] (piece :: pieces) := by
          cases pieces <;> simp [join, List.intercalate]
        simp only [splitOn, h, ↓reduceIte, hs]
        rw [hj, ih]

theorem eq_of_cutFirst? {separator : UInt8} {s before after : Bytes}
    (h : cutFirst? separator s = some (before, after)) :
    s = before ++ separator :: after ∧ separator ∉ before := by
  induction s generalizing before with
  | nil => simp [cutFirst?] at h
  | cons b s ih =>
    by_cases hb : b = separator
    · simp only [cutFirst?, hb, ↓reduceIte, Option.some.injEq, Prod.mk.injEq] at h
      obtain ⟨rfl, rfl⟩ := h
      simp [hb]
    · simp only [cutFirst?, hb, ↓reduceIte, Option.map_eq_some_iff, Prod.exists, Prod.mk.injEq] at h
      obtain ⟨u, v, hu, rfl, rfl⟩ := h
      obtain ⟨rfl, hn⟩ := ih hu
      refine ⟨rfl, ?_⟩
      simp [hn, Ne.symm hb]

def digitValue (b : UInt8) : Nat := b.toNat - 48

def natural? (s : Bytes) : Option Nat :=
  if !s.isEmpty && s.all isDigit then some (s.foldl (fun n b => 10 * n + digitValue b) 0) else none

def signed? : Bytes → Option Int
  | 45 :: s => (natural? s).map fun n => -(n : Int)
  | 43 :: s => (natural? s).map Int.ofNat
  | s => (natural? s).map Int.ofNat

def integer? (s : Bytes) : Option Int :=
  let shown := s.untilNul
  if shown.isEmpty then some 0 else signed? (shown.dropWhile isSpace)

/-- The bounds of a 32-bit signed number. -/
def minNumber : Int := -2147483648

def maxNumber : Int := 2147483647

end Bytes
end Folio
