import Folio.Proofs.Section.Lookup
import Folio.Proofs.Section.Pattern

/-!
# Queries with wildcards

The pattern of a query is written as an expression one byte after the other, and the pattern
library reads characters. The expression has one item for each character of the pattern, so that
what the library matches is what falls into pieces as the pattern says.
-/

set_option autoImplicit false

namespace Folio

open Bytes Expression

namespace Pattern

variable {c d : Char}

theorem isUpper_iff : c.isUpper = true ↔ 65 ≤ c.toNat ∧ c.toNat ≤ 90 :=
  decide_eq_true_iff.trans (and_congr UInt32.le_iff_toNat_le UInt32.le_iff_toNat_le)

theorem isLower_iff : c.isLower = true ↔ 97 ≤ c.toNat ∧ c.toNat ≤ 122 := by
  refine (Bool.and_eq_true_iff).trans ?_
  rw [decide_eq_true_iff, decide_eq_true_iff]
  exact and_congr UInt32.le_iff_toNat_le UInt32.le_iff_toNat_le

theorem isAlpha_eq (c : Char) : c.isAlpha = (c.isUpper || c.isLower) := rfl

theorem toLower_of_upper (h : c.isUpper = true) : c.toLower.toNat = c.toNat + 32 := by
  have hlast : c.toNat ≤ 90 := (isUpper_iff.1 h).2
  have hval : c.toLower.val = c.val + 32 := congrArg Char.val (dif_pos (of_decide_eq_true h))
  rw [← Char.toNat_val, hval, UInt32.toNat_add, Char.toNat_val]
  exact Nat.mod_eq_of_lt (by have : (32 : UInt32).toNat = 32 := rfl; omega)

theorem toLower_of_not_upper (h : ¬c.isUpper = true) : c.toLower = c :=
  dif_neg fun hrange => h (decide_eq_true hrange)

theorem isLower_toLower (c : Char) : c.toLower.isLower = c.isAlpha := by
  by_cases hupper : c.isUpper = true
  · have hrange := isUpper_iff.1 hupper
    have hlower : c.toLower.isLower = true := by
      rw [isLower_iff, toLower_of_upper hupper]
      omega
    rw [hlower, isAlpha_eq, hupper, Bool.true_or]
  · rw [toLower_of_not_upper hupper, isAlpha_eq, Bool.eq_false_iff.2 hupper, Bool.false_or]

theorem toLower_eq_iff : c.toLower = d.toLower ↔
    c = d ∨ c.isAlpha = true ∧ d.isAlpha = true ∧ c.toLower = d.toLower := by
  constructor
  · intro h
    have halpha : c.isAlpha = d.isAlpha := by rw [← isLower_toLower, h, isLower_toLower]
    by_cases hc : c.isAlpha = true
    · exact .inr ⟨hc, halpha ▸ hc, h⟩
    · have hupper {e : Char} (he : ¬e.isAlpha = true) : ¬e.isUpper = true := fun hu =>
        he (by rw [isAlpha_eq, hu, Bool.true_or])
      rw [toLower_of_not_upper (hupper hc), toLower_of_not_upper (hupper (halpha ▸ hc))] at h
      exact .inl h
  · rintro (rfl | ⟨-, -, h⟩)
    · rfl
    · exact h

/-- Whether a character of a pattern stands for a piece of a text: a star for any run of characters
but line ends, a question mark for one of these, and any other character for itself or, with case
ignored, for one that folds to the same. -/
def Stands (folding : CaseFolding) (caseSensitive : Bool) (p : Char) (piece : List Char) : Prop :=
  if p = '*' then '\n' ∉ piece
  else if p = '?' then ∃ c, piece = [c] ∧ c ≠ '\n'
  else ∃ c, piece = [c] ∧ if caseSensitive then c = p else folding.fold c = folding.fold p

/-- Whether a text is valid and falls into pieces that the characters of a pattern stand for. -/
def Describes (folding : CaseFolding) (caseSensitive : Bool) (ps : List Char) (text : Bytes) :
    Prop :=
  ∃ cs, text = spell cs ∧
    ∃ pieces, List.Forall₂ (Stands folding caseSensitive) ps pieces ∧ pieces.flatten = cs

def itemOf (p : Char) : Item :=
  if p = '*' then ⟨.any, true⟩ else if p = '?' then ⟨.any, false⟩ else ⟨.char p, false⟩

theorem fold_ascii_iff (folding : CaseFolding) (hc : c.toNat < 128) (hd : d.toNat < 128) :
    folding.fold c = folding.fold d ↔
      c = d ∨ c.isAlpha = true ∧ d.isAlpha = true ∧ c.toLower = d.toLower := by
  rw [folding.ascii c hc, folding.ascii d hd]
  exact toLower_eq_iff

variable {folding : CaseFolding} {caseSensitive : Bool}

theorem itemOf_takes_iff {p : Char} {piece : List Char} :
    (itemOf p).Takes folding caseSensitive piece ↔ Stands folding caseSensitive p piece := by
  unfold itemOf Stands
  split
  case isTrue =>
    show (∀ c ∈ piece, (c != '\n') = true) ↔ _
    simp only [bne_iff_ne, ne_eq]
    exact ⟨fun h hmem => h _ hmem rfl, fun h c hc hline => h (hline ▸ hc)⟩
  split
  case isTrue =>
    show (∃ c, piece = [c] ∧ (c != '\n') = true) ↔ _
    simp only [bne_iff_ne, ne_eq]
  case isFalse =>
    show (∃ c, piece = [c] ∧ folding.same caseSensitive p c = true) ↔ _
    refine exists_congr fun c => and_congr_right fun _ => ?_
    unfold CaseFolding.same
    cases caseSensitive with
    | true => exact beq_iff_eq.trans eq_comm
    | false => exact beq_iff_eq.trans eq_comm

theorem matches_items_iff {ps cs : List Char} :
    Matches folding caseSensitive (ps.map itemOf) cs ↔
      Describes folding caseSensitive ps (spell cs) := by
  have htakes : (fun p piece => (itemOf p).Takes folding caseSensitive piece) =
      Stands folding caseSensitive :=
    funext fun p => funext fun piece => propext itemOf_takes_iff
  have hmatches : Matches folding caseSensitive (ps.map itemOf) cs ↔
      ∃ pieces, List.Forall₂ (Stands folding caseSensitive) ps pieces ∧ pieces.flatten = cs := by
    simp only [Matches, List.forall₂_map_left_iff, htakes]
  rw [hmatches]
  constructor
  · exact fun h => ⟨cs, rfl, h⟩
  · rintro ⟨ds, hspell, h⟩
    rwa [spell_injective hspell]

instance (ps : List Char) : DecidablePred (Describes folding caseSensitive ps) := fun text =>
  if hutf8 : IsUtf8 text then
    decidable_of_iff
        (Matches folding caseSensitive (ps.map itemOf) (text.characters?.getD [])) <| by
      obtain ⟨cs, rfl⟩ := hutf8
      rw [characters?_spell, Option.getD_some, matches_items_iff]
  else .isFalse fun ⟨cs, hcs, _⟩ => hutf8 ⟨cs, hcs⟩

theorem stands_self (folding : CaseFolding) (caseSensitive : Bool) (c : Char) :
    Stands folding caseSensitive c [c] := by
  unfold Stands
  split
  case isTrue hstar => simp [hstar]
  split
  case isTrue hquestion => exact ⟨c, rfl, by simp [hquestion]⟩
  case isFalse => exact ⟨c, rfl, by split <;> rfl⟩

theorem describes_self (folding : CaseFolding) (caseSensitive : Bool) (cs : List Char) :
    Describes folding caseSensitive cs (spell cs) := by
  refine ⟨cs, rfl, cs.map fun c => [c], ?_, List.flatMap_singleton' cs⟩
  rw [List.forall₂_map_right_iff, List.forall₂_same]
  exact fun c _ => stands_self folding caseSensitive c

end Pattern

namespace Engine.Documented

open Pattern

variable {engine : Engine} {folding : CaseFolding} {capacity : Nat} {caseSensitive : Bool}
  (h : engine.Documented folding capacity)
include h

theorem expression_ascii {n : Nat} (hn : n < 128) :
    engine.expression [UInt8.ofNat n] = spell (spelled [itemOf (Char.ofNat n)]) := by
  have hwritten : ∀ n < 128, (if UInt8.ofNat n = 42 then utf8 ".*" else
      if UInt8.ofNat n = 63 then utf8 "." else quotedByte (UInt8.ofNat n)) =
        spell (spelled [itemOf (Char.ofNat n)]) := by
    decide
  rw [← hwritten n hn, expression, List.flatMap_singleton, h.quote_byte]

theorem expression_high {b : UInt8} (hb : 127 < b) : engine.expression [b] = [b] := by
  have hstar : b ≠ 42 := high_ne hb (by decide)
  have hquestion : b ≠ 63 := high_ne hb (by decide)
  have hbig : 127 < (Char.ofUInt8 b).toNat := UInt8.lt_iff_toNat_lt.1 hb
  have hword : isWord (Char.ofUInt8 b) = true := by simp [isWord, hbig]
  rw [expression, List.flatMap_singleton, if_neg hstar, if_neg hquestion, h.quote_byte, quotedByte,
    if_pos hword]

theorem expression_char (c : Char) :
    engine.expression (String.utf8EncodeChar c) = spell (spelled [itemOf c]) := by
  rcases Nat.lt_or_ge 127 c.toNat with hhigh | hascii
  · have hne (d : Char) (hd : d.toNat ≤ 127) : c ≠ d := by
      rintro rfl
      omega
    have hword : isWord c = true := by simp [isWord, hhigh]
    have hitem : spelled [itemOf c] = [c] := by
      rw [itemOf, if_neg (hne '*' (by decide)), if_neg (hne '?' (by decide))]
      simp [spelled, Item.signs, Sign.spelled, hword]
    rw [hitem, spell_singleton]
    calc engine.expression (String.utf8EncodeChar c)
      _ = (String.utf8EncodeChar c).flatMap fun b => engine.expression [b] := by
        simp [expression]
      _ = (String.utf8EncodeChar c).flatMap fun b => [b] :=
        List.flatMap_congr fun b hb => h.expression_high (utf8EncodeChar_high hhigh b hb)
      _ = String.utf8EncodeChar c := List.flatMap_singleton' _
  · rw [utf8EncodeChar_ascii hascii, h.expression_ascii (by omega), Char.ofNat_toNat]

/-- The expression for a pattern has one item for each character of the pattern. -/
theorem expression_spell (ps : List Char) :
    engine.expression (spell ps) = spell (spelled (ps.map itemOf)) := by
  induction ps with
  | nil => rfl
  | cons p ps ih =>
    have hitems : spelled ((p :: ps).map itemOf) =
        spelled [itemOf p] ++ spelled (ps.map itemOf) := by
      simp [spelled]
    rw [hitems, spell_append, spell_cons, ← ih, ← h.expression_char]
    exact List.flatMap_append

theorem accepts_pattern {ps : List Char} {accepts : Bytes → Bool}
    (haccepts : engine.compile caseSensitive (engine.expression (spell ps)) = .ok accepts)
    {text : Bytes} (htext : IsUtf8 text) :
    accepts text = true ↔ Describes folding caseSensitive ps text := by
  obtain ⟨cs, rfl⟩ := htext
  rw [h.expression_spell] at haccepts
  rw [h.accepts_iff _ _ _ haccepts, matches_items_iff]

theorem compiles_pattern (pattern : Bytes) (hpattern : IsUtf8 pattern)
    (hlength : (engine.expression pattern).length ≤ capacity) (caseSensitive : Bool) :
    ∃ accepts, engine.compile caseSensitive (engine.expression pattern) = .ok accepts := by
  obtain ⟨ps, rfl⟩ := hpattern
  rw [h.expression_spell] at hlength ⊢
  exact h.compiles caseSensitive _ hlength

end Engine.Documented

namespace Query

variable {q : Query} {pattern : Bytes}

theorem matcher_wildcards (engine : Engine) (hq : q.pattern = some pattern)
    (hwild : Pattern.hasWildcard pattern = true) :
    q.matcher engine = .ofExcept (fun reason => .outline (.badPattern pattern reason))
      (engine.compile q.caseSensitive (engine.expression pattern.trim)) := by
  rw [matcher, hq]
  simp only [hwild, if_true]

end Query

namespace Document

open Pattern

variable {d : Document} {engine : Engine} {folding : CaseFolding} {capacity : Nat} {q : Query}
  {sections : List Section}

theorem Outlines.isUtf8_text {low high : Int} (h : d.Outlines low high sections)
    (hheadings : ∀ n ∈ d.children, n.kind = .heading → IsUtf8 n.text) :
    ∀ s ∈ sections, IsUtf8 s.text := by
  intro s hs
  have hplace := List.mem_map_of_mem (f := fun s : Section => (s.heading, s.start)) hs
  rw [h.places] at hplace
  obtain ⟨p, hp, hsp⟩ := List.mem_map.1 hplace
  obtain ⟨hmem, hlevel⟩ := List.mem_filter.1 hp
  obtain ⟨l, hl, -⟩ := (Option.any_eq_true _ _).1 hlevel
  have hvalid := hheadings p.1 (List.fst_mem_of_mem_zipIdx hmem)
    (Node.kind_eq_heading_iff.2 ⟨l, hl⟩)
  rw [Section.text, ← (Prod.mk.inj hsp).1]
  exact hvalid.trim

/-- What a query with wildcards returns: the sections that the pattern describes and the condition
accepts, if the library compiles the expression for the pattern, and else why it does not. -/
def Finds (d : Document) (engine : Engine) (folding : CaseFolding) (q : Query) (pattern : Bytes)
    (ps : List Char) (sections : List Section) : Prop :=
  match engine.compile q.caseSensitive (engine.expression pattern.trim) with
  | .ok _ => (d.query engine q).result = .ok (sections.filter fun s =>
      Describes folding q.caseSensitive ps s.text ∧ q.condition s)
  | .error reason => (d.query engine q).result = .error (.outline (.badPattern pattern reason))

section Library

variable (h : engine.Documented folding capacity)
  (hsections : (d.sectionsBetween q.low q.high).result = .ok sections)
  (hutf8 : ∀ s ∈ sections, IsUtf8 s.text)
include h hsections hutf8

theorem query_finds {pattern : Bytes} {ps : List Char} (hq : q.pattern = some pattern)
    (hwild : hasWildcard pattern = true) (hps : pattern.trim = spell ps) :
    d.Finds engine folding q pattern ps sections := by
  have hmatcher := congrArg Outcome.result (q.matcher_wildcards engine hq hwild)
  unfold Finds
  split
  case h_1 accepts haccepts =>
    rw [haccepts] at hmatcher
    rw [query_result_ok hsections hmatcher]
    rw [hps] at haccepts
    refine congrArg Except.ok (List.filter_congr fun s hs => ?_)
    rw [Bool.eq_iff_iff, Bool.and_eq_true, decide_eq_true_iff,
      h.accepts_pattern haccepts (hutf8 s hs)]
  case h_2 reason hreason =>
    rw [hreason] at hmatcher
    exact query_matcher_error hsections hmatcher

theorem query_self {s : Section} (hs : s ∈ sections) (hcondition : q.condition s = true) :
    (∀ found, (d.query engine { q with pattern := some s.text }).result = .ok found → s ∈ found) ∧
      ((engine.expression s.text).length ≤ capacity →
        ∃ found, (d.query engine { q with pattern := some s.text }).result = .ok found) := by
  have hvalid := hutf8 s hs
  cases hwild : hasWildcard s.text with
  | false =>
    have hmatcher := congrArg Outcome.result (matcher_plain engine
      (q := { q with pattern := some s.text }) rfl (hasWildcard_eq_false_iff.1 hwild))
    have hresult := query_result_ok (q := { q with pattern := some s.text }) hsections hmatcher
    refine ⟨fun found hfound => ?_, fun _ => ⟨_, hresult⟩⟩
    obtain rfl := Except.ok.inj (hresult.symm.trans hfound)
    have hsame : textMatches s.text s.text q.caseSensitive = true := by
      rw [textMatches_iff, s.trim_text]
      split <;> rfl
    simp [hs, hcondition, hsame]
  | true =>
    obtain ⟨cs, hcs⟩ := hvalid
    have hfinds := query_finds (q := { q with pattern := some s.text }) h hsections hutf8 rfl hwild
      (s.trim_text.trans hcs)
    unfold Finds at hfinds
    rw [s.trim_text] at hfinds
    constructor
    · intro found hfound
      split at hfinds
      case h_1 =>
        obtain rfl := Except.ok.inj (hfinds.symm.trans hfound)
        have hself : Describes folding q.caseSensitive cs s.text :=
          hcs ▸ describes_self folding q.caseSensitive cs
        simp [hs, hcondition, hself]
      case h_2 => exact nomatch hfinds.symm.trans hfound
    · intro hlength
      obtain ⟨accepts, haccepts⟩ := h.compiles_pattern _ (hutf8 s hs) hlength q.caseSensitive
      rw [haccepts] at hfinds
      exact ⟨_, hfinds⟩

end Library

/-- A query with wildcards returns, in order, the sections between its levels whose headings' texts
split as its pattern demands, where letters of ASCII are the same up to case when case is ignored,
and other characters if they fold to the same. It fails with what the library says of a pattern
that this does not compile, and the library compiles patterns up to a size. The text of a section
finds the section, whatever characters it has. -/
theorem wildcards_find (h : engine.Documented folding capacity)
    (hheadings : ∀ n ∈ d.children, n.kind = .heading → IsUtf8 n.text) (q : Query) :
    (if 1 ≤ q.low ∧ q.low ≤ q.high ∧ q.high ≤ 6 then
      ∃ sections, d.Outlines q.low q.high sections ∧
        (∀ pattern, q.pattern = some pattern → IsUtf8 pattern → hasWildcard pattern = true →
          ∃ ps, pattern.trim = spell ps ∧ d.Finds engine folding q pattern ps sections ∧
            ((engine.expression pattern.trim).length ≤ capacity →
              ∃ found, (d.query engine q).result = .ok found)) ∧
        ∀ s ∈ sections, IsUtf8 s.text ∧ (q.condition s = true →
          (∀ found, (d.query engine { q with pattern := some s.text }).result = .ok found →
            s ∈ found) ∧
          ((engine.expression s.text).length ≤ capacity →
            ∃ found, (d.query engine { q with pattern := some s.text }).result = .ok found))
    else ∃ f, (d.query engine q).result = .error f ∧ f.code = .invalidArgument) ∧
    ∀ c d : Char, c.toNat < 128 → d.toNat < 128 → (folding.fold c = folding.fold d ↔
      c = d ∨ c.isAlpha = true ∧ d.isAlpha = true ∧ c.toLower = d.toLower) := by
  refine ⟨?_, fun _ _ => fold_ascii_iff folding⟩
  have hbetween := d.sectionsBetween_outlines q.low q.high
  split
  case isFalse hrange =>
    rw [if_neg hrange] at hbetween
    obtain ⟨f, hf, hcode⟩ := hbetween
    exact ⟨f, query_result_error hf, hcode⟩
  case isTrue hrange =>
  rw [if_pos hrange] at hbetween
  obtain ⟨sections, hsections, houtlines⟩ := hbetween
  have hutf8 := houtlines.isUtf8_text hheadings
  refine ⟨sections, houtlines, ?found, ?self⟩
  case found =>
    intro pattern hq hpattern hwild
    obtain ⟨ps, hps⟩ := hpattern.trim
    have hfinds := query_finds h hsections hutf8 hq hwild hps
    refine ⟨ps, hps, hfinds, fun hlength => ?_⟩
    obtain ⟨accepts, haccepts⟩ := h.compiles_pattern _ ⟨ps, hps⟩ hlength q.caseSensitive
    rw [Finds, haccepts] at hfinds
    exact ⟨_, hfinds⟩
  case self => exact fun s hs => ⟨hutf8 s hs, query_self h hsections hutf8 hs⟩

/-- Letters with a mark fold to small letters too, as far as the first 256 characters go. -/
def latin : CaseFolding where
  fold c := if 192 ≤ c.toNat ∧ c.toNat ≤ 222 ∧ c.toNat ≠ 215 then Char.ofNat (c.toNat + 32)
    else c.toLower
  ascii c hc := if_neg (by omega)

def motley : Document :=
  { children := [
      Node.plain (.heading 1) [Node.plainText (utf8 " Über uns? ")],
      Node.plain (.heading 2) [Node.plainText (utf8 "Über a+b^2 [*.h] (v1.0)?")],
      Node.plain (.heading 1) [Node.plainText (utf8 "日本語 $^")]] }

def chaptersAbout : Query :=
  { pattern := some (utf8 " übER*? "), condition := fun s => s.level == 1 }

theorem motley_wildcards_find :
    (Engine.plain latin).Documented latin 100 ∧
    (∀ n ∈ motley.children, n.kind = .heading → IsUtf8 n.text) ∧
    ∃ sections, motley.Outlines 1 6 sections ∧
      (∃ ps, (utf8 " übER*? ").trim = spell ps ∧
        (motley.query (.plain latin) chaptersAbout).result = .ok (sections.filter fun s =>
          Describes latin false ps s.text ∧ chaptersAbout.condition s)) ∧
      ∀ s ∈ sections, s.level = 1 → ∀ found,
        (motley.query (.plain latin) { chaptersAbout with pattern := some s.text }).result =
          .ok found → s ∈ found := by
  have hlibrary := Engine.plain_documented latin 100
  have hheadings : ∀ n ∈ motley.children, n.kind = .heading → IsUtf8 n.text := by decide
  obtain ⟨hfind, -⟩ := wildcards_find hlibrary hheadings chaptersAbout
  rw [if_pos (by decide)] at hfind
  obtain ⟨sections, houtlines, hfound, hself⟩ := hfind
  obtain ⟨ps, hps, hfinds, -⟩ := hfound _ rfl (by decide) (by decide)
  obtain ⟨accepts, haccepts⟩ := hlibrary.compiles_pattern (utf8 " übER*? ").trim (by decide)
    (by decide) chaptersAbout.caseSensitive
  rw [Finds, haccepts] at hfinds
  exact ⟨hlibrary, hheadings, sections, houtlines, ⟨ps, hps, hfinds⟩,
    fun s hs hlevel => ((hself s hs).2 (beq_iff_eq.2 hlevel)).1⟩

/-- A small letter with a mark finds a capital one, the caller's condition leaves out a heading that
the pattern describes, and levels that no heading has are refused. -/
theorem motley_wildcards_fold :
    (Engine.plain latin).Documented latin 100 ∧
    (∀ n ∈ motley.children, n.kind = .heading → IsUtf8 n.text) ∧
    (motley.query (.plain latin) chaptersAbout).result.map (List.map Section.text) =
      .ok [utf8 "Über uns?"] ∧
    ¬Describes .asciiOnly false "übER*?".toList (utf8 "Über uns?") ∧
    (∃ s ∈ motley.sections, s.text = utf8 "Über a+b^2 [*.h] (v1.0)?" ∧
      Describes latin false "übER*?".toList s.text) ∧
    ∃ f, (motley.query (.plain latin) { chaptersAbout with level := some 7 }).result = .error f ∧
      f.code = .invalidArgument := by
  refine ⟨Engine.plain_documented latin 100, by decide, ?found, ?ascii, ?left, _, rfl, rfl⟩
  case found => decide +kernel
  case ascii => decide +kernel
  case left => decide +kernel

end Document

end Folio
