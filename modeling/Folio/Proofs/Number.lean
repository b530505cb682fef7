import Folio.Proofs.Section.Range
import Folio.Proofs.Split.Spelling

/-!
# Numbers in specifications

The counts of a split specification and the bounds of a range of sections are numerals, of which
the part before the first NUL is read. So a number is told from other texts just when no NUL hides
what comes behind it.
-/

set_option autoImplicit false

namespace Folio

/-- From its first to its last byte the text is a numeral of such a number. -/
def Whole (P : Int → Prop) (s : Bytes) : Prop := ∃ n, P n ∧ Bytes.Numeral n s

theorem whole_iff {P : Int → Prop} {s : Bytes} : Whole P s ↔ 0 ∉ s ∧ Whole P s.untilNul := by
  unfold Whole
  constructor
  · rintro ⟨n, hn, hnumeral⟩
    obtain ⟨hnul, hshown⟩ := Bytes.numeral_untilNul.1 hnumeral
    exact ⟨hnul, n, hn, hshown⟩
  · rintro ⟨hnul, n, hn, hshown⟩
    exact ⟨n, hn, Bytes.numeral_untilNul.2 ⟨hnul, hshown⟩⟩

namespace SplitSpec

def counting : List (Bytes × (Int → SplitSpec)) :=
  [(utf8 "length", .length), (utf8 "parts", .parts)]

theorem parse_counting {p : Bytes × (Int → SplitSpec)} (hp : p ∈ counting) {v : Bytes}
    {spec : SplitSpec} :
    (parse (p.1 ++ 61 :: v)).result = .ok spec ↔
      ∃ n, spec = p.2 n ∧ IsCount n ∧ Bytes.Numeral n v.trim.untilNul := by
  have hread : (parse (p.1 ++ 61 :: v)).result = (p.2 <$> positive p.1 v.trim).result := by
    simp only [counting, List.mem_cons, List.not_mem_nil, or_false] at hp
    rcases hp with rfl | rfl
    · rw [parse_pair (by decide)]
      rfl
    · rw [parse_pair (by decide)]
      rfl
  rw [hread]
  constructor
  · intro h
    obtain ⟨n, hn, hspec⟩ := Outcome.result_bind_eq_ok.1 h
    exact ⟨n, (Except.ok.inj hspec).symm, positive_eq_ok.1 hn⟩
  · rintro ⟨n, rfl, hn⟩
    exact Outcome.result_map_ok p.2 (positive_eq_ok.2 hn)

theorem parse_succeeds {p : Bytes × (Int → SplitSpec)} (hp : p ∈ counting) {v : Bytes} :
    (parse (p.1 ++ 61 :: v)).Succeeds ↔ Whole IsCount v.trim.untilNul := by
  simp only [Outcome.Succeeds, parse_counting hp, Whole]
  constructor
  · rintro ⟨spec, n, -, hn⟩
    exact ⟨n, hn⟩
  · rintro ⟨n, hn⟩
    exact ⟨p.2 n, n, rfl, hn⟩

end SplitSpec

namespace Range

/-- The texts of a part that have to be numbers: all of it, or what is not blank on either side of
its first dash. -/
def partBounds (part : Bytes) : List Bytes :=
  match part.cutFirst? 45 with
  | none => [part]
  | some (before, after) => [before.trim, after.trim].filter fun side => !side.isEmpty

def bounds (ranges : Bytes) : List Bytes := (parts ranges).flatMap partBounds

/-- What is accepted as a bound: a numeral as far as the first NUL, or nothing before it. -/
def Accepts (text : Bytes) : Prop :=
  text ≠ [] ∧ (text.untilNul = [] ∨ Whole IsBound text.untilNul)

theorem bound_failure? {ranges text : Bytes} :
    (bound ranges text).failure? = none ↔ Accepts text.trim := by
  simp only [Outcome.failure?_eq_none, bound_eq_ok, Bytes.integer?_eq_some, Accepts, Whole]
  constructor
  · rintro ⟨n, hsome, hempty | hnumeral, hn⟩
    · exact ⟨hsome, .inl hempty.1⟩
    · exact ⟨hsome, .inr ⟨n, hn, hnumeral⟩⟩
  · rintro ⟨hsome, hempty | ⟨n, hn, hnumeral⟩⟩
    · exact ⟨0, hsome, .inl ⟨hempty, rfl⟩, by decide, by decide⟩
    · exact ⟨n, hsome, .inr hnumeral, hn⟩

def fault? (ranges : Bytes) (texts : List Bytes) : Option Failure :=
  texts.findSome? fun b => (bound ranges b).failure?

theorem fault?_append (ranges : Bytes) (texts rest : List Bytes) :
    fault? ranges (texts ++ rest) = (fault? ranges texts).or (fault? ranges rest) :=
  List.findSome?_append

theorem fault?_singleton (ranges text : Bytes) :
    fault? ranges [text] = (bound ranges text).failure? := by
  simp [fault?]

theorem fault?_flatMap (ranges : Bytes) (texts : Bytes → List Bytes) (parts : List Bytes) :
    fault? ranges (parts.flatMap texts) =
      parts.findSome? fun part => fault? ranges (texts part) := by
  induction parts with
  | nil => rfl
  | cons part parts ih =>
    rw [List.flatMap_cons, fault?_append, ih, List.findSome?_cons]
    cases fault? ranges (texts part) <;> rfl

theorem side_failure? {α : Type} (absent : Int) (ranges side : Bytes) {f : Int → Outcome α}
    {o : Option Failure} (hf : ∀ n, (f n).failure? = o) :
    (if side.isEmpty then pure absent >>= f else (· - 1) <$> bound ranges side >>= f).failure? =
      (fault? ranges ([side].filter fun s => !s.isEmpty)).or o := by
  by_cases h : side.isEmpty = true
  · rw [if_pos h]
    simpa [h, fault?] using hf absent
  · rw [if_neg h, Outcome.failure?_bind fun n _ => hf n, Outcome.failure?_map, ← fault?_singleton]
    simp [h]

theorem ends_failure? (ranges part : Bytes) (total : Int) :
    (ends ranges total part).failure? = fault? ranges (partBounds part) := by
  unfold ends partBounds
  cases part.cutFirst? 45 with
  | none => exact (Outcome.failure?_map _ _).trans (fault?_singleton ranges part).symm
  | some sides =>
    obtain ⟨before, after⟩ := sides
    have hhigh (first : Int) := side_failure? (total - 1) ranges after.trim
      fun last => (rfl : (pure (min first last, max first last) : Outcome _).failure? = none)
    have hlow := side_failure? 0 ranges before.trim hhigh
    rw [Option.or_none, ← fault?_append, ← List.filter_append] at hlow
    exact hlow

theorem select_failure? (ranges : Bytes) (total : Int) :
    (select ranges total).failure? = fault? ranges (bounds ranges) := by
  have hends : (ends ranges total · |>.failure?) = fun part => fault? ranges (partBounds part) := by
    ext1 part
    exact ends_failure? ranges part total
  calc (select ranges total).failure?
      = (Outcome.sequence ((parts ranges).map (ends ranges total))).failure? :=
        Outcome.failure?_map _ _
    _ = (parts ranges).findSome? (ends ranges total · |>.failure?) := by
        rw [Outcome.failure?_sequence, List.findSome?_map]
        rfl
    _ = fault? ranges (bounds ranges) := by
        rw [hends, bounds, fault?_flatMap]

theorem trim_bound {ranges b : Bytes} (h : b ∈ bounds ranges) : b ≠ [] ∧ b.trim = b := by
  obtain ⟨part, hpart, hb⟩ := List.mem_flatMap.1 h
  obtain ⟨htrimmed, hsome⟩ := List.mem_filter.1 hpart
  unfold partBounds at hb
  split at hb
  · obtain rfl := List.mem_singleton.1 hb
    obtain ⟨piece, -, rfl⟩ := List.mem_map.1 htrimmed
    exact ⟨by simpa using hsome, Bytes.trim_trim piece⟩
  · obtain ⟨hside, hsome⟩ := List.mem_filter.1 hb
    refine ⟨by simpa using hsome, ?_⟩
    simp only [List.mem_cons, List.not_mem_nil, or_false] at hside
    rcases hside with rfl | rfl
    · exact Bytes.trim_trim _
    · exact Bytes.trim_trim _

theorem select_succeeds {ranges : Bytes} {total : Int} :
    (select ranges total).Succeeds ↔
      ∀ b ∈ bounds ranges, b.untilNul = [] ∨ Whole IsBound b.untilNul := by
  rw [Outcome.Succeeds, ← Outcome.failure?_eq_none, select_failure?, fault?,
    List.findSome?_eq_none_iff]
  apply forall₂_congr
  intro b hb
  obtain ⟨hsome, htrim⟩ := trim_bound hb
  rw [bound_failure?, htrim, Accepts, and_iff_right hsome]

/-- A bound that is accepted is a numeral to its last byte if it has no NUL. -/
theorem whole_of_accepted {ranges b : Bytes} (hb : b ∈ bounds ranges) (hnul : 0 ∉ b)
    (h : b.untilNul = [] ∨ Whole IsBound b.untilNul) : Whole IsBound b := by
  rw [whole_iff]
  refine ⟨hnul, h.resolve_left ?_⟩
  rw [Bytes.untilNul_eq_self hnul]
  exact (trim_bound hb).1

end Range

/-- A count is read when it is a numeral in range as far as the first NUL, and sections are selected
when each bound is, or shows nothing before a NUL. So nothing but whole numerals are accepted just
when no text with a NUL is. -/
theorem numbers_end_at_nul (v ranges : Bytes) (total : Int) :
    (∀ p ∈ SplitSpec.counting,
      (∀ spec, (SplitSpec.parse (p.1 ++ 61 :: v)).result = .ok spec ↔
        ∃ n, spec = p.2 n ∧ SplitSpec.IsCount n ∧ Bytes.Numeral n v.trim.untilNul) ∧
      (((SplitSpec.parse (p.1 ++ 61 :: v)).Succeeds ↔ Whole SplitSpec.IsCount v.trim) ↔
        ((SplitSpec.parse (p.1 ++ 61 :: v)).Succeeds → 0 ∉ v.trim))) ∧
    ((Range.select ranges total).Succeeds ↔
      ∀ b ∈ Range.bounds ranges, b.untilNul = [] ∨ Whole Range.IsBound b.untilNul) ∧
    (((Range.select ranges total).Succeeds → ∀ b ∈ Range.bounds ranges, Whole Range.IsBound b) ↔
      ((Range.select ranges total).Succeeds → ∀ b ∈ Range.bounds ranges, 0 ∉ b)) := by
  refine ⟨?counts, Range.select_succeeds, ?bounds⟩
  case counts =>
    intro p hp
    constructor
    · intro spec
      exact SplitSpec.parse_counting hp
    · rw [SplitSpec.parse_succeeds hp, whole_iff (s := v.trim), iff_and_self]
  case bounds =>
    constructor
    · intro h hsucceeds b hb
      exact (whole_iff.1 (h hsucceeds b hb)).1
    · intro h hsucceeds b hb
      exact Range.whole_of_accepted hb (h hsucceeds b hb) (Range.select_succeeds.1 hsucceeds b hb)

def signedSeven : Bytes := 11 :: utf8 "+007"

theorem signedSeven_numeral : Bytes.Numeral 7 signedSeven.untilNul :=
  ⟨[11], utf8 "+007", List.all_eq_true.1 rfl, .plus ⟨2, rfl⟩, rfl⟩

theorem signedSeven_numbers_end_at_nul :
    (utf8 "parts", SplitSpec.parts) ∈ SplitSpec.counting ∧
    (SplitSpec.parse (utf8 "parts" ++ 61 :: signedSeven)).result = .ok (.parts 7) ∧
    (Range.select (signedSeven ++ utf8 "-") 3).Succeeds := by
  have hparts : (utf8 "parts", SplitSpec.parts) ∈ SplitSpec.counting := by simp [SplitSpec.counting]
  obtain ⟨hcounts, hbounds, -⟩ := numbers_end_at_nul signedSeven (signedSeven ++ utf8 "-") 3
  refine ⟨hparts, ?_, ?_⟩
  · obtain ⟨hread, -⟩ := hcounts _ hparts
    exact (hread (.parts 7)).2 ⟨7, rfl, by decide, signedSeven_numeral⟩
  · rw [hbounds]
    intro b hb
    obtain rfl : b = signedSeven := List.mem_singleton.1 hb
    exact .inr ⟨7, by decide, signedSeven_numeral⟩

def hiddenLetter : Bytes := utf8 "5" ++ 0 :: utf8 "x"

/-- The letter is ignored both in a count and in a bound. -/
theorem hiddenLetter_read :
    (SplitSpec.parse (utf8 "length" ++ 61 :: hiddenLetter)).result = .ok (.length 5) ∧
    ¬ Whole SplitSpec.IsCount hiddenLetter.trim ∧
    (Range.select hiddenLetter 5).result = .ok [4] ∧
    hiddenLetter ∈ Range.bounds hiddenLetter ∧ ¬ Whole Range.IsBound hiddenLetter := by
  have hlisted : Range.listed [4] = [4] := by simp [Range.listed, Range.dropRepeats]
  refine ⟨rfl, ?_, congrArg Except.ok hlisted, by decide, ?_⟩
  · exact fun h => absurd (whole_iff.1 h).1 (by decide)
  · exact fun h => absurd (whole_iff.1 h).1 (by decide)

end Folio
