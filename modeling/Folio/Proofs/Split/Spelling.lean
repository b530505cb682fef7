import Mathlib.Tactic.IntervalCases
import Folio.Proofs.Bytes.Numeral
import Folio.Proofs.Bytes.Search
import Folio.Proofs.Bytes.Trim
import Folio.Proofs.Outcome
import Folio.Split.Spec

/-!
# Spelling split specifications

A specification is well formed when its level is one of the six, its number is a positive one of
32 bits, and its delimiter is not empty. Reading returns well-formed specifications only, and it
returns each of them, since each has a spelling: numbers in decimal, and a delimiter byte by byte
in hexadecimal escapes.
-/

set_option autoImplicit false

namespace Folio

namespace SplitSpec

/-- The specifications that a text can spell. -/
def WellFormed : SplitSpec → Prop
  | heading level => 1 ≤ level ∧ level ≤ 6
  | length n | parts n => 1 ≤ n ∧ n ≤ Bytes.maxNumber
  | delimiter text => text ≠ []
  | breaks | pages | chapters | auto => True

theorem decodeEscapes_ne_nil {s : Bytes} (h : s ≠ []) : decodeEscapes s ≠ [] := by
  obtain ⟨b, s, rfl⟩ := List.exists_cons_of_ne_nil h
  unfold decodeEscapes decodeFrom
  repeat' split
  all_goals simp

theorem positive_answers (key value : Bytes) :
    (positive key value).Answers (fun n => 1 ≤ n ∧ n ≤ Bytes.maxNumber) .invalidSplitSpec := by
  unfold positive refuse
  split
  · exact Outcome.answers_raise _ _
  · split
    · exact Outcome.answers_raise _ _
    · split
      · exact Outcome.answers_raise _ _
      · exact Outcome.answers_pure (by omega) _

theorem ofPair_answers (key value : Bytes) :
    (ofPair key value).Answers WellFormed .invalidSplitSpec := by
  unfold ofPair refuse
  split
  · exact Outcome.answers_map (positive_answers key value)
  split
  · exact Outcome.answers_map (positive_answers key value)
  split
  · split
    · exact Outcome.answers_raise _ _
    next hsome =>
      have hdelimiter : WellFormed (delimiter (decodeEscapes value)) :=
        decodeEscapes_ne_nil (by simpa using hsome)
      exact Outcome.answers_pure hdelimiter _
  · exact Outcome.answers_raise _ _

theorem ofKeyword?_wellFormed {word : Bytes} {spec : SplitSpec} (h : ofKeyword? word = some spec) :
    spec.WellFormed := by
  unfold ofKeyword? at h
  repeat' split at h
  all_goals simp at h
  all_goals subst h; trivial

theorem parse_answers (text : Bytes) : (parse text).Answers WellFormed .invalidSplitSpec := by
  unfold parse refuse
  simp only
  split
  next level _ =>
    split
    next hlevel => exact Outcome.answers_pure (by simp only [WellFormed]; omega) _
    · exact Outcome.answers_raise _ _
  · split
    · exact ofPair_answers _ _
    · split
      next hword => exact Outcome.answers_pure (ofKeyword?_wellFormed hword) _
      · exact Outcome.answers_raise _ _

def Writes (word text : Bytes) : Prop := ∃ s, Bytes.lower s = word ∧ Bytes.Padded s text

def WritesPair (key value text : Bytes) : Prop :=
  ∃ before after, Writes key before ∧ Bytes.Padded value after ∧ text = before ++ 61 :: after

theorem writes_self {word : Bytes} (h : Bytes.lower word = word) : Writes word word :=
  ⟨word, h, Bytes.padded_self word⟩

theorem writesPair_self {key : Bytes} (h : Bytes.lower key = key) (value : Bytes) :
    WritesPair key value (key ++ 61 :: value) :=
  ⟨key, value, writes_self h, Bytes.padded_self value, rfl⟩

inductive HexDigit : Nat → UInt8 → Prop
  | decimal {value : Nat} (small : value < 10) : HexDigit value (.ofNat (48 + value))
  | lower {value : Nat} (large : 10 ≤ value) (inRange : value < 16) :
      HexDigit value (.ofNat (87 + value))
  | upper {value : Nat} (large : 10 ≤ value) (inRange : value < 16) :
      HexDigit value (.ofNat (55 + value))

/-- Each byte of a text is written as a backslash, the letter x and two hexadecimal digits. -/
inductive HexEscapes : Bytes → Bytes → Prop
  | nil : HexEscapes [] []
  | cons {b high low : UInt8} {text written : Bytes} (highDigit : HexDigit (b.toNat / 16) high)
      (lowDigit : HexDigit (b.toNat % 16) low) (rest : HexEscapes text written) :
      HexEscapes (b :: text) (92 :: 120 :: high :: low :: written)

/-- The plain spellings of a specification. -/
inductive Spells : SplitSpec → Bytes → Prop
  | heading {level : Nat} {text : Bytes} (inRange : 1 ≤ level ∧ level ≤ 6)
      (word : Writes (utf8 "h" ++ .ofNat level) text) : Spells (heading level) text
  | length {n : Nat} {text : Bytes} (inRange : 1 ≤ n ∧ n ≤ Bytes.maxNumber)
      (pair : WritesPair (utf8 "length") (.ofNat n) text) : Spells (length n) text
  | parts {n : Nat} {text : Bytes} (inRange : 1 ≤ n ∧ n ≤ Bytes.maxNumber)
      (pair : WritesPair (utf8 "parts") (.ofNat n) text) : Spells (parts n) text
  | delimiter {d value text : Bytes} (nonempty : d ≠ []) (escapes : HexEscapes d value)
      (pair : WritesPair (utf8 "delimiter") value text) : Spells (delimiter d) text
  | breaks {text : Bytes} (word : Writes (utf8 "break") text) : Spells breaks text
  | pages {text : Bytes} (word : Writes (utf8 "page") text) : Spells pages text
  | chapters {text : Bytes} (word : Writes (utf8 "chapter") text) : Spells chapters text
  | auto {text : Bytes} (word : Writes (utf8 "auto") text) : Spells auto text

theorem HexDigit.read {value : Nat} {digit : UInt8} (h : HexDigit value digit) :
    hexValue? digit = some (.ofNat value) ∧ Bytes.isBlank digit = false := by
  cases h with
  | decimal small => interval_cases value <;> exact ⟨rfl, rfl⟩
  | lower large inRange => interval_cases value <;> exact ⟨rfl, rfl⟩
  | upper large inRange => interval_cases value <;> exact ⟨rfl, rfl⟩

theorem hexDigit_exists {value : Nat} (h : value < 16) : ∃ digit, HexDigit value digit := by
  by_cases hsmall : value < 10
  · exact ⟨_, .decimal hsmall⟩
  · exact ⟨_, .lower (Nat.not_lt.1 hsmall) h⟩

theorem hexByte?_digits {b high low : UInt8} (hhigh : HexDigit (b.toNat / 16) high)
    (hlow : HexDigit (b.toNat % 16) low) : hexByte? high low = some b := by
  have hb := b.toNat_lt
  simp only [hexByte?, hhigh.read.1, hlow.read.1, Option.some.injEq]
  rw [← UInt8.toNat_inj]
  simp
  omega

theorem decodeFrom_hexEscapes {d value : Bytes} (h : HexEscapes d value) :
    decodeFrom 0 value = d := by
  induction h with
  | nil => rfl
  | cons highDigit lowDigit rest ih =>
    have hescape : escape? 120 = none := rfl
    simp [decodeFrom, hescape, hexByte?_digits highDigit lowDigit, ih]

theorem HexEscapes.not_blank {d value : Bytes} (h : HexEscapes d value) :
    ∀ b ∈ value, Bytes.isBlank b = false := by
  induction h with
  | nil => simp
  | cons highDigit lowDigit rest ih =>
    simp only [List.forall_mem_cons]
    exact ⟨rfl, rfl, highDigit.read.2, lowDigit.read.2, ih⟩

theorem hexEscapes_exists (d : Bytes) : ∃ value, HexEscapes d value := by
  induction d with
  | nil => exact ⟨[], .nil⟩
  | cons b d ih =>
    have hb := b.toNat_lt
    obtain ⟨value, hvalue⟩ := ih
    obtain ⟨high, hhigh⟩ := hexDigit_exists (show b.toNat / 16 < 16 by omega)
    obtain ⟨low, hlow⟩ := hexDigit_exists (show b.toNat % 16 < 16 by omega)
    exact ⟨_, .cons hhigh hlow hvalue⟩

def Plain (s : Bytes) : Prop := (s.all fun b => !Bytes.isBlank b && b != 61) = true

theorem plain_iff {s : Bytes} : Plain s ↔ ∀ b ∈ s, Bytes.isBlank b = false ∧ b ≠ 61 := by
  simp [Plain]

theorem Plain.not_blank {s : Bytes} (h : Plain s) : ∀ b ∈ s, Bytes.isBlank b = false :=
  fun b hb => (plain_iff.1 h b hb).1

theorem Plain.equals_notMem {s : Bytes} (h : Plain s) : 61 ∉ s :=
  fun hmem => (plain_iff.1 h 61 hmem).2 rfl

theorem isBlank_lowerByte (b : UInt8) : Bytes.isBlank (Bytes.lowerByte b) = Bytes.isBlank b := by
  grind [Bytes.isBlank, Bytes.lowerByte]

theorem Plain.of_lower {s : Bytes} (h : Plain (Bytes.lower s)) : Plain s := by
  rw [plain_iff] at h ⊢
  intro b hb
  obtain ⟨hblank, hequals⟩ := h _ (List.mem_map_of_mem hb)
  refine ⟨(isBlank_lowerByte b).symm.trans hblank, ?_⟩
  rintro rfl
  exact hequals rfl

theorem Writes.lower_trim {word text : Bytes} (h : Writes word text) (hword : Plain word) :
    Bytes.lower text.trim = word := by
  obtain ⟨s, rfl, hpadded⟩ := h
  rw [hpadded.trim, Bytes.trim_eq_self hword.of_lower.not_blank]

theorem Writes.equals_notMem {word text : Bytes} (h : Writes word text) (hword : Plain word) :
    61 ∉ text := by
  obtain ⟨s, rfl, before, after, hbefore, hafter, rfl⟩ := h
  have hblank : Bytes.isBlank 61 ≠ true := by decide
  simp only [List.mem_append, not_or]
  exact ⟨⟨fun h => hblank (hbefore _ h), hword.of_lower.equals_notMem⟩,
    fun h => hblank (hafter _ h)⟩

theorem headingDigit?_eq_none {word : Bytes} (h : 61 ∈ word) : headingDigit? word = none := by
  unfold headingDigit?
  split
  next b =>
    obtain rfl : 61 = b := by simpa using h
    rfl
  · rfl

/-- A text with an equals sign is read as the keyword before the first one and the value after. -/
theorem parse_pair {before : Bytes} (h : 61 ∉ before) (after : Bytes) :
    parse (before ++ 61 :: after) = ofPair (Bytes.lower before.trim) after.trim := by
  have htrim : (before ++ 61 :: after).trim =
      before.dropWhile Bytes.isBlank ++ 61 :: after.rdropWhile Bytes.isBlank :=
    Bytes.trim_around rfl before after
  have hfront : 61 ∉ before.dropWhile Bytes.isBlank := fun hmem =>
    h ((List.dropWhile_suffix _).subset hmem)
  have hdigit : headingDigit? (Bytes.lower (before ++ 61 :: after).trim) = none := by
    apply headingDigit?_eq_none
    rw [htrim, Bytes.lower_append]
    exact List.mem_append_right _ List.mem_cons_self
  unfold parse
  simp only [hdigit]
  rw [htrim, Bytes.cutFirst?_append hfront]
  simp only [Bytes.trim_dropWhile, Bytes.trim_rdropWhile]

theorem WritesPair.parse {key value text : Bytes} (h : WritesPair key value text)
    (hkey : Plain key) (hvalue : ∀ b ∈ value, Bytes.isBlank b = false) :
    SplitSpec.parse text = ofPair key value := by
  obtain ⟨before, after, hbefore, hafter, rfl⟩ := h
  rw [parse_pair (hbefore.equals_notMem hkey), hbefore.lower_trim hkey, hafter.trim,
    Bytes.trim_eq_self hvalue]

theorem Writes.parse_heading {level : Nat} {word text : Bytes} (h : Writes word text)
    (hword : Plain word) (hdigit : headingDigit? word = some level)
    (hlevel : 1 ≤ level ∧ level ≤ 6) : (parse text).result = .ok (heading level) := by
  unfold parse
  simp only [h.lower_trim hword, hdigit]
  rw [if_pos hlevel]
  rfl

theorem Writes.parse_keyword {spec : SplitSpec} {word text : Bytes} (h : Writes word text)
    (hword : Plain word) (hdigit : headingDigit? word = none)
    (hspec : ofKeyword? word = some spec) : (parse text).result = .ok spec := by
  have hlower := h.lower_trim hword
  have hplain : Plain text.trim := Plain.of_lower (hlower.symm ▸ hword)
  unfold parse
  simp only [hlower, hdigit, Bytes.cutFirst?_eq_none hplain.equals_notMem, hspec]
  rfl

def IsCount (n : Int) : Prop := 1 ≤ n ∧ n ≤ Bytes.maxNumber

instance : DecidablePred IsCount := fun n =>
  inferInstanceAs (Decidable (1 ≤ n ∧ n ≤ Bytes.maxNumber))

theorem positive_eq_ok {key value : Bytes} {n : Int} :
    (positive key value).result = .ok n ↔ IsCount n ∧ Bytes.Numeral n value.untilNul := by
  unfold positive refuse IsCount
  constructor
  · intro h
    split at h
    · cases h
    next m hm =>
      have hread : value.integer? = some m := by
        split at hm
        · cases hm
        · exact hm
      split at h
      · cases h
      split at h
      · cases h
      obtain rfl := Except.ok.inj h
      refine ⟨by omega, ?_⟩
      rcases Bytes.integer?_eq_some.1 hread with ⟨-, rfl⟩ | hnumeral
      · omega
      · exact hnumeral
  · rintro ⟨⟨hlow, hhigh⟩, hnumeral⟩
    have hsome : value.isEmpty = false := by
      cases value with
      | nil => exact absurd rfl hnumeral.ne_nil
      | cons b rest => rfl
    simp only [hsome, Bytes.integer?_eq_some.2 (.inr hnumeral), Bool.false_eq_true, if_false]
    rw [if_neg (by omega), if_neg (by omega)]
    rfl

theorem positive_ofNat (key : Bytes) {n : Nat} (h : 1 ≤ n ∧ n ≤ Bytes.maxNumber) :
    (positive key (.ofNat n)).result = .ok (n : Int) := by
  have hcount : IsCount n := ⟨by omega, h.2⟩
  exact positive_eq_ok.2 ⟨hcount, (Bytes.numeral_untilNul.1 (Bytes.numeral_ofNat n)).2⟩

theorem lower_ofNat (n : Nat) : Bytes.lower (.ofNat n) = .ofNat n := by
  have hdigits : ∀ b ∈ Bytes.ofNat n, Bytes.lowerByte b = b := by
    intro b hb
    have hdigit := Bytes.isDigit_of_mem_ofNat hb
    grind [Bytes.isDigit, Bytes.lowerByte]
  exact (List.map_congr_left hdigits).trans (List.map_id _)

theorem Spells.parse {spec : SplitSpec} {text : Bytes} (h : Spells spec text) :
    (parse text).result = .ok spec := by
  have hnumber (n : Nat) : ∀ b ∈ Bytes.ofNat n, Bytes.isBlank b = false := fun _ hb =>
    Bytes.isBlank_of_isDigit (Bytes.isDigit_of_mem_ofNat hb)
  cases h with
  | @heading level _ inRange word =>
    obtain ⟨hplain, hdigit⟩ : Plain (utf8 "h" ++ .ofNat level) ∧
        headingDigit? (utf8 "h" ++ .ofNat level) = some level := by
      obtain ⟨hlow, hhigh⟩ := inRange
      interval_cases level <;> exact ⟨rfl, rfl⟩
    exact word.parse_heading hplain hdigit inRange
  | @length n _ inRange pair =>
    rw [pair.parse rfl (hnumber n)]
    exact Outcome.result_map_ok SplitSpec.length (positive_ofNat _ inRange)
  | @parts n _ inRange pair =>
    rw [pair.parse rfl (hnumber n)]
    exact Outcome.result_map_ok SplitSpec.parts (positive_ofNat _ inRange)
  | @delimiter d value _ nonempty escapes pair =>
    have hvalue : value.isEmpty = false := by
      cases escapes with
      | nil => exact absurd rfl nonempty
      | cons => rfl
    have hdecoded : decodeEscapes value = d := decodeFrom_hexEscapes escapes
    rw [pair.parse rfl escapes.not_blank, ← hdecoded]
    show (if value.isEmpty then refuse .emptyDelimiter
      else pure (SplitSpec.delimiter (decodeEscapes value))).result = _
    rw [hvalue]
    rfl
  | breaks word => exact word.parse_keyword rfl rfl rfl
  | pages word => exact word.parse_keyword rfl rfl rfl
  | chapters word => exact word.parse_keyword rfl rfl rfl
  | auto word => exact word.parse_keyword rfl rfl rfl

theorem spells_exists {spec : SplitSpec} (h : spec.WellFormed) : ∃ text, Spells spec text := by
  cases spec with
  | heading level =>
    obtain ⟨n, rfl⟩ := Int.eq_ofNat_of_zero_le (show 0 ≤ level by have := h.1; omega)
    have hlower : Bytes.lower (utf8 "h" ++ .ofNat n) = utf8 "h" ++ .ofNat n := by
      rw [Bytes.lower_append, lower_ofNat]
      rfl
    exact ⟨_, .heading (by have := h.1; have := h.2; omega) (writes_self hlower)⟩
  | length n =>
    obtain ⟨n, rfl⟩ := Int.eq_ofNat_of_zero_le (show 0 ≤ n by have := h.1; omega)
    exact ⟨_, .length (by have := h.1; have := h.2; omega) (writesPair_self rfl _)⟩
  | parts n =>
    obtain ⟨n, rfl⟩ := Int.eq_ofNat_of_zero_le (show 0 ≤ n by have := h.1; omega)
    exact ⟨_, .parts (by have := h.1; have := h.2; omega) (writesPair_self rfl _)⟩
  | delimiter d =>
    obtain ⟨value, hvalue⟩ := hexEscapes_exists d
    exact ⟨_, .delimiter h hvalue (writesPair_self rfl _)⟩
  | breaks => exact ⟨_, .breaks (writes_self rfl)⟩
  | pages => exact ⟨_, .pages (writes_self rfl)⟩
  | chapters => exact ⟨_, .chapters (writes_self rfl)⟩
  | auto => exact ⟨_, .auto (writes_self rfl)⟩

/-- Reading returns just the well-formed specifications, and refuses a text that it reads as none
of them as no specification. Every spelling of a specification is read as this specification, and
each well-formed one has a spelling. -/
theorem parse_reads_spellings :
    (∀ spec, (∃ text, (parse text).result = .ok spec) ↔ spec.WellFormed) ∧
    (∀ text, (∃ spec, (parse text).result = .ok spec) ∨
      ∃ e, (parse text).result = .error e ∧ e.code = .invalidSplitSpec) ∧
    (∀ spec text, Spells spec text → (parse text).result = .ok spec) ∧
    ∀ spec, WellFormed spec → ∃ text, Spells spec text := by
  refine ⟨fun spec => ⟨?_, ?_⟩, fun text => ?_, fun _ _ => Spells.parse, fun _ => spells_exists⟩
  · rintro ⟨text, htext⟩
    exact (parse_answers text).1 spec htext
  · intro h
    obtain ⟨text, hspells⟩ := spells_exists h
    exact ⟨text, hspells.parse⟩
  · cases hresult : (parse text).result with
    | ok spec => exact .inl ⟨spec, rfl⟩
    | error e => exact .inr ⟨e, rfl, (parse_answers text).2 e hresult⟩

def commaLine : Bytes := utf8 " Delimiter\t=  \\x2C\\x0a\r\n"

theorem commaLine_spells : Spells (delimiter (utf8 ",\n")) commaLine := by
  have hkey : Writes (utf8 "delimiter") (utf8 " Delimiter\t") :=
    ⟨utf8 "Delimiter", rfl, utf8 " ", utf8 "\t", List.all_eq_true.1 rfl,
      List.all_eq_true.1 rfl, rfl⟩
  have hvalue : Bytes.Padded (utf8 "\\x2C\\x0a") (utf8 "  \\x2C\\x0a\r\n") :=
    ⟨utf8 "  ", utf8 "\r\n", List.all_eq_true.1 rfl, List.all_eq_true.1 rfl, rfl⟩
  have hcomma : HexDigit 2 50 ∧ HexDigit 12 67 :=
    ⟨.decimal (by decide), .upper (by decide) (by decide)⟩
  have hfeed : HexDigit 0 48 ∧ HexDigit 10 97 :=
    ⟨.decimal (by decide), .lower (by decide) (by decide)⟩
  have hescapes : HexEscapes (utf8 ",\n") (utf8 "\\x2C\\x0a") :=
    .cons hcomma.1 hcomma.2 (.cons hfeed.1 hfeed.2 .nil)
  exact .delimiter (by decide) hescapes ⟨_, _, hkey, hvalue, rfl⟩

/-- The text is read as its delimiter, and no text is read as a heading of level seven. -/
theorem commaLine_parse_reads :
    Spells (delimiter (utf8 ",\n")) commaLine ∧
    (parse commaLine).result = .ok (delimiter (utf8 ",\n")) ∧
    WellFormed (parts 2147483647) ∧
    (∃ text, Spells (parts 2147483647) text) ∧
    ¬ ∃ text, (parse text).result = .ok (heading 7) := by
  obtain ⟨hreturns, -, hspelled, hexists⟩ := parse_reads_spellings
  have hparts : WellFormed (parts 2147483647) := by simp [WellFormed, Bytes.maxNumber]
  exact ⟨commaLine_spells, hspelled _ _ commaLine_spells, hparts, hexists _ hparts,
    fun h => absurd ((hreturns _).1 h) (by simp [WellFormed])⟩

end SplitSpec
end Folio
