import Mathlib.Data.List.Forall2
import Folio.Proofs.Bytes.Trim
import Folio.Proofs.Outcome
import Folio.Proofs.Section.Extent
import Folio.Section.Query

/-!
# Looking sections up by text

A query, a target and a search for a heading read the blocks of a document each on their own. For
one text they agree on the headings that it names: the query returns the sections of all of them,
the target is the section of the only one, and the search stops at the first.
-/

set_option autoImplicit false

namespace Folio

/-- Whether a text names a block: the block is a heading that reads like the text. Blanks around
them never count, and letter case may not. -/
def Node.Named (wanted : Bytes) (caseSensitive : Bool) (n : Node) : Prop :=
  n.kind = .heading ∧
    if caseSensitive then n.text.trim = wanted.trim
    else Bytes.lower n.text.trim = Bytes.lower wanted.trim

instance (wanted : Bytes) (caseSensitive : Bool) :
    DecidablePred (Node.Named wanted caseSensitive) :=
  fun n => inferInstanceAs (Decidable (n.kind = .heading ∧ if caseSensitive then
    n.text.trim = wanted.trim else Bytes.lower n.text.trim = Bytes.lower wanted.trim))

theorem textMatches_iff {text wanted : Bytes} {caseSensitive : Bool} :
    textMatches text wanted caseSensitive = true ↔
      if caseSensitive then text = wanted.trim else Bytes.lower text = Bytes.lower wanted.trim := by
  cases caseSensitive <;> exact beq_iff_eq

theorem Node.named_iff {wanted : Bytes} {caseSensitive : Bool} {n : Node} :
    n.Named wanted caseSensitive ↔
      n.kind = .heading ∧ textMatches n.text.trim wanted caseSensitive = true :=
  and_congr_right fun _ => textMatches_iff.symm

structure Section.Of (ns : List Node) (s : Section) (p : Node × Nat) : Prop where
  heading : s.heading = some p.1
  start : s.start = p.2
  extent : s.Extends ns

theorem Section.Of.text {ns : List Node} {s : Section} {p : Node × Nat} (h : s.Of ns p) :
    s.text = p.1.text.trim := by
  rw [Section.text, h.heading]

theorem Section.trim_text (s : Section) : s.text.trim = s.text := by
  unfold Section.text
  split
  · exact Bytes.trim_trim _
  · rfl

def Pattern.Plain (pattern : Bytes) : Prop := ∀ b ∈ pattern, b ≠ 42 ∧ b ≠ 63

theorem Pattern.hasWildcard_eq_false_iff {pattern : Bytes} :
    hasWildcard pattern = false ↔ Plain pattern := by
  simp [hasWildcard, isWildcard, Plain]

instance : DecidablePred Pattern.Plain :=
  fun _ => decidable_of_iff _ Pattern.hasWildcard_eq_false_iff

namespace Query

def low (q : Query) : Int := q.level.getD q.lowest

def high (q : Query) : Int := q.level.getD q.deepest

end Query

namespace Document

variable {d : Document} {wanted : Bytes} {caseSensitive : Bool}

def named (d : Document) (wanted : Bytes) (caseSensitive : Bool) : List (Node × Nat) :=
  d.children.zipIdx.filter fun p => p.1.Named wanted caseSensitive

def Graded (d : Document) : Prop := ∀ n ∈ d.children, ∀ l, n.level? = some l → 1 ≤ l ∧ l ≤ 6

theorem sections_of (h : d.Graded) :
    List.Forall₂ (Section.Of d.children) d.sections
      (d.children.zipIdx.filter fun p => p.1.kind = .heading) := by
  have hheadings : (d.children.zipIdx.filter fun p => p.1.level?.any fun l => 1 ≤ l && l ≤ 6) =
      d.children.zipIdx.filter fun p => p.1.kind = .heading := by
    apply List.filter_congr
    intro p hp
    have hlevels := h p.1 (List.fst_mem_of_mem_zipIdx hp)
    rw [Bool.eq_iff_iff, decide_eq_true_iff, Node.kind_eq_heading_iff, Option.any_eq_true]
    constructor
    · rintro ⟨l, hl, -⟩
      exact ⟨l, hl⟩
    · rintro ⟨l, hl⟩
      exact ⟨l, hl, by simp [hlevels l hl]⟩
  have hplaces := (d.outline_outlines 1 6).places
  rw [hheadings, ← List.forall₂_eq_eq_eq, List.forall₂_map_left_iff, List.forall₂_map_right_iff]
    at hplaces
  have hextents := (List.forall₂_and_left _ _).2 ⟨(d.outline_outlines 1 6).extents, hplaces⟩
  apply hextents.imp
  rintro s p ⟨hextent, hplace⟩
  obtain ⟨hheading, hstart⟩ := Prod.mk.inj hplace
  exact ⟨hheading, hstart, hextent⟩

theorem matching_of (h : d.Graded) (wanted : Bytes) (caseSensitive : Bool) :
    List.Forall₂ (Section.Of d.children)
      (d.sections.filter fun s => textMatches s.text wanted caseSensitive)
      (d.named wanted caseSensitive) := by
  have hnamed : d.named wanted caseSensitive =
      (d.children.zipIdx.filter fun p => p.1.kind = .heading).filter
        fun p => textMatches p.1.text.trim wanted caseSensitive := by
    rw [named, List.filter_filter]
    apply List.filter_congr
    intro p _
    rw [Bool.eq_iff_iff, decide_eq_true_iff, Node.named_iff, Bool.and_eq_true, decide_eq_true_iff,
      and_comm]
  rw [hnamed]
  apply List.rel_filter _ (sections_of h)
  intro s p hof
  show textMatches s.text wanted caseSensitive = true ↔ _
  rw [hof.text]

theorem matcher_plain (engine : Engine) {q : Query} (hq : q.pattern = some wanted)
    (hplain : Pattern.Plain wanted) :
    q.matcher engine = pure fun text => textMatches text wanted q.caseSensitive := by
  rw [Query.matcher, hq]
  simp only [Pattern.hasWildcard_eq_false_iff.2 hplain, Bool.false_eq_true, if_false]

section Query

variable {engine : Engine} {q : Query} {sections : List Section}

theorem query_result_ok {accepts : Bytes → Bool}
    (hsections : (d.sectionsBetween q.low q.high).result = .ok sections)
    (haccepts : (q.matcher engine).result = .ok accepts) :
    (d.query engine q).result = .ok (sections.filter fun s => accepts s.text && q.condition s) := by
  unfold query
  rw [← Query.low, ← Query.high, Outcome.result_bind_ok _ hsections,
    Outcome.result_bind_ok _ haccepts]
  rfl

theorem query_result_error {f : Failure}
    (h : (d.sectionsBetween q.low q.high).result = .error f) :
    (d.query engine q).result = .error f :=
  Outcome.result_bind_error _ h

theorem query_matcher_error {f : Failure}
    (hsections : (d.sectionsBetween q.low q.high).result = .ok sections)
    (h : (q.matcher engine).result = .error f) : (d.query engine q).result = .error f := by
  unfold query
  rw [← Query.low, ← Query.high, Outcome.result_bind_ok _ hsections]
  exact Outcome.result_bind_error _ h

end Query

theorem query_text (d : Document) (engine : Engine) (hplain : Pattern.Plain wanted)
    (caseSensitive : Bool) :
    (d.query engine { pattern := some wanted, caseSensitive }).result =
      .ok (d.sections.filter fun s => textMatches s.text wanted caseSensitive) := by
  have hbetween : (d.sectionsBetween 1 6).result = .ok d.sections :=
    sectionsBetween_result (by omega) d
  have hmatcher := congrArg Outcome.result
    (matcher_plain engine (q := { pattern := some wanted, caseSensitive }) rfl hplain)
  simpa only [Bool.and_true] using query_result_ok hbetween hmatcher

/-- What a target answers for the headings that its text names. -/
def Resolves (d : Document) (headings : List (Node × Nat)) (answer : Except Failure Section) :
    Prop :=
  (headings = [] → ∃ e, answer = .error e ∧ e.code = .targetNotFound) ∧
  (∀ p, headings = [p] → ∃ s, answer = .ok s ∧ s.Of d.children p) ∧
  (2 ≤ headings.length → ∃ e, answer = .error e ∧ e.code = .ambiguousTarget)

theorem resolve_text (h : d.Graded) (wanted : Bytes) (caseSensitive : Bool) :
    d.Resolves (d.named wanted caseSensitive) (d.resolve (.text wanted caseSensitive)).result := by
  have hmatching := matching_of h wanted caseSensitive
  simp only [resolve]
  generalize d.named wanted caseSensitive = headings at hmatching ⊢
  generalize (d.sections.filter fun s => textMatches s.text wanted caseSensitive) = found
    at hmatching ⊢
  cases hmatching with
  | nil => exact ⟨fun _ => ⟨_, rfl, rfl⟩, by simp, by simp⟩
  | @cons s p found headings hof hmore =>
    cases hmore with
    | nil =>
      refine ⟨by simp, ?_, by simp⟩
      intro q hq
      cases hq
      exact ⟨s, rfl, hof⟩
    | cons _ _ => exact ⟨by simp, by simp, fun _ => ⟨_, rfl, rfl⟩⟩

theorem findHeadingFrom_head (wanted : Bytes) (caseSensitive : Bool) (i : Nat) (ns : List Node) :
    (findHeadingFrom wanted none caseSensitive i ns).map (fun m => (m.heading, m.index)) =
      ((ns.zipIdx i).filter fun p => p.1.Named wanted caseSensitive).head? := by
  induction ns generalizing i with
  | nil => rfl
  | cons n ns ih =>
    have hnamed : (n.level?.any (fun l => Option.all (· == l) none) &&
        textMatches n.text.trim wanted caseSensitive) = true ↔ n.Named wanted caseSensitive := by
      rw [Node.named_iff, Node.kind_eq_heading_iff, Bool.and_eq_true, Option.any_eq_true]
      simp
    by_cases hn : n.Named wanted caseSensitive
    · rw [findHeadingFrom, if_pos (hnamed.2 hn), List.zipIdx_cons,
        List.filter_cons_of_pos (by simpa using hn)]
      rfl
    · rw [findHeadingFrom, if_neg (mt hnamed.1 hn), List.zipIdx_cons,
        List.filter_cons_of_neg (by simpa using hn), ih]

theorem named_ne_nil {n : Node} (hn : n ∈ d.children) (hkind : n.kind = .heading)
    (htext : wanted.trim = n.text.trim) (caseSensitive : Bool) :
    d.named wanted caseSensitive ≠ [] := by
  have hnamed : n.Named wanted caseSensitive := by
    rw [Node.Named, htext]
    cases caseSensitive <;> exact ⟨hkind, rfl⟩
  obtain ⟨i, hi⟩ := List.mem_iff_getElem?.1 hn
  have hplace : (n, i) ∈ d.children.zipIdx := List.mk_mem_zipIdx_iff_getElem?.2 hi
  apply List.ne_nil_of_mem
  exact List.mem_filter.2 ⟨hplace, by simpa using hnamed⟩

theorem resolve_ne_targetNotFound (h : d.Graded) (hnamed : d.named wanted caseSensitive ≠ [])
    {e : Failure} (he : (d.resolve (.text wanted caseSensitive)).result = .error e) :
    e.code ≠ .targetNotFound := by
  obtain ⟨-, hone, hmore⟩ := resolve_text h wanted caseSensitive
  rw [he] at hone hmore
  cases hheadings : d.named wanted caseSensitive with
  | nil => exact absurd hheadings hnamed
  | cons p headings =>
    cases headings with
    | nil =>
      obtain ⟨s, hs, -⟩ := hone p hheadings
      cases hs
    | cons q headings =>
      obtain ⟨f, hf, hcode⟩ := hmore (by simp [hheadings])
      cases hf
      simp [hcode]

/-- A query for a text without wildcards returns the sections of the headings that the text
names, a target is the section of the only such heading, and a search finds the first one. What
reads like a heading never fails to name one. -/
theorem lookups_agree (d : Document) (engine : Engine) (h : d.Graded) :
    (∀ wanted caseSensitive,
      (Pattern.Plain wanted →
        ∃ found, (d.query engine { pattern := some wanted, caseSensitive }).result = .ok found ∧
          List.Forall₂ (Section.Of d.children) found (d.named wanted caseSensitive)) ∧
      d.Resolves (d.named wanted caseSensitive) (d.resolve (.text wanted caseSensitive)).result ∧
      (d.findHeading wanted none caseSensitive).map (fun m => (m.heading, m.index)) =
        (d.named wanted caseSensitive).head?) ∧
    ∀ n ∈ d.children, n.kind = .heading → ∀ wanted, wanted.trim = n.text.trim →
      ∀ caseSensitive e, (d.resolve (.text wanted caseSensitive)).result = .error e →
        e.code ≠ .targetNotFound := by
  constructor
  · intro wanted caseSensitive
    constructor
    · intro hplain
      exact ⟨_, d.query_text engine hplain caseSensitive, matching_of h wanted caseSensitive⟩
    constructor
    · exact resolve_text h wanted caseSensitive
    · exact findHeadingFrom_head wanted caseSensitive 0 d.children
  · intro n hn hkind wanted htext caseSensitive e he
    exact resolve_ne_targetNotFound h (named_ne_nil hn hkind htext caseSensitive) he

def starred : Node := Node.plain (.heading 1) [Node.plainText (utf8 "Plan*")]

def repeated : Document :=
  { children := [Node.plain (.heading 1) [Node.plainText (utf8 "Notes ")],
      Node.plain (.heading 2) [Node.plainText (utf8 "notes")], starred] }

example : (repeated.named (utf8 " NOTES") false).map Prod.snd = [0, 1] := by decide

theorem repeated_graded : repeated.Graded := by
  simp [Graded, repeated, starred, Node.level?, Node.plain, Node.shape]

theorem repeated_lookups_agree :
    repeated.Graded ∧ Pattern.Plain (utf8 " NOTES") ∧
    (∃ found,
      (repeated.query (.plain .asciiOnly) { pattern := some (utf8 " NOTES") }).result = .ok found ∧
      List.Forall₂ (Section.Of repeated.children) found (repeated.named (utf8 " NOTES") false)) ∧
    repeated.Resolves (repeated.named (utf8 " NOTES") false)
      (repeated.resolve (.text (utf8 " NOTES") false)).result ∧
    (repeated.findHeading (utf8 " NOTES") none false).map (fun m => (m.heading, m.index)) =
      (repeated.named (utf8 " NOTES") false).head? ∧
    ∀ e, (repeated.resolve (.text (utf8 "Plan*") true)).result = .error e →
      e.code ≠ .targetNotFound := by
  obtain ⟨hagree, hnever⟩ := lookups_agree repeated (.plain .asciiOnly) repeated_graded
  obtain ⟨hquery, hresolve, hfind⟩ := hagree (utf8 " NOTES") false
  have hplain : Pattern.Plain (utf8 " NOTES") := by decide
  exact ⟨repeated_graded, hplain, hquery hplain, hresolve, hfind,
    hnever starred (by simp [repeated]) (by decide) (utf8 "Plan*") (by decide) true⟩

end Document
end Folio
