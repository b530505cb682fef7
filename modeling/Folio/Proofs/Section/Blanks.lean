import Mathlib.Data.List.MinMax
import Folio.Proofs.Section.Counting
import Folio.Proofs.Text.Suggestion

/-!
# Blanks around a target

A text names the same sections with blanks around it as without them. The headings that are
offered when it names none are another matter: they are close to the text as it stands, and each
blank is a byte to edit away. With enough blanks nothing is close any more. So blanks make no
difference around a text that names a section, nor around one to which no heading is close
whatever the blanks, and around all other texts they do. Only in a document without sections there
are no such texts.
-/

set_option autoImplicit false

namespace Folio

def Failure.similar : Failure → List Bytes
  | .outline (.notFound _ similar) | .outline (.noMatch _ similar) => similar
  | _ => []

theorem textMatches_congr {wanted other : Bytes} (h : other.trim = wanted.trim) (text : Bytes)
    (caseSensitive : Bool) :
    textMatches text other caseSensitive = textMatches text wanted caseSensitive := by
  simp only [textMatches, h]

theorem length_of_textMatches {text wanted : Bytes} {caseSensitive : Bool}
    (h : textMatches text wanted caseSensitive = true) : text.length = wanted.trim.length := by
  rw [textMatches_iff] at h
  cases caseSensitive with
  | true => exact congrArg List.length h
  | false =>
    have hlength := congrArg List.length h
    rwa [Bytes.length_lower, Bytes.length_lower] at hlength

namespace Document

variable {d : Document} {wanted other : Bytes} {caseSensitive : Bool}

/-- What a text is answered with, but for the words that repeat it: the section, or the code of
the failure and the headings offered. -/
def reply (d : Document) (wanted : Bytes) (caseSensitive : Bool) :
    Except (Code × List Bytes) Section :=
  (d.resolve (.text wanted caseSensitive)).result.mapError fun e => (e.code, e.similar)

def Names (d : Document) (wanted : Bytes) (caseSensitive : Bool) : Prop :=
  ∃ n ∈ d.children, Reachable wanted caseSensitive n

/-- The headings that are to be offered for a text, every byte of which counts. -/
def Offers (d : Document) (wanted : Bytes) (found : List Bytes) : Prop :=
  Suggests wanted (d.sections.map Section.text) offered found

theorem names_iff :
    d.Names wanted caseSensitive ↔
      ∃ s ∈ d.sections, textMatches s.text wanted caseSensitive = true :=
  matching_iff_reachable.symm

instance : Decidable (d.Names wanted caseSensitive) := decidable_of_iff _ names_iff.symm

theorem names_congr (h : other.trim = wanted.trim) :
    d.Names other caseSensitive ↔ d.Names wanted caseSensitive := by
  simp only [names_iff, textMatches_congr h]

/-- What a text is answered with, and all that differ from it in the blanks around: one section,
the same number of sections, or the headings that are close to each as it stands. -/
theorem resolve_text_cases (d : Document) (wanted : Bytes) (caseSensitive : Bool) :
    (d.Names wanted caseSensitive ∧ ∃ s, ∀ other : Bytes, other.trim = wanted.trim →
      (d.resolve (.text other caseSensitive)).result = .ok s) ∨
    (d.Names wanted caseSensitive ∧ ∃ count, ∀ other : Bytes, other.trim = wanted.trim →
      (d.resolve (.text other caseSensitive)).result =
        .error (.outline (.ambiguous other count))) ∨
    (¬ d.Names wanted caseSensitive ∧ ∀ other : Bytes, other.trim = wanted.trim →
      (d.resolve (.text other caseSensitive)).result =
        .error (.outline (.notFound other (d.closeHeadings other)))) := by
  have hnames : d.Names wanted caseSensitive ↔
      (d.sections.filter fun s => textMatches s.text wanted caseSensitive) ≠ [] := by
    simp [names_iff, List.filter_eq_nil_iff]
  cases hfound : d.sections.filter fun s => textMatches s.text wanted caseSensitive with
  | nil =>
    refine .inr (.inr ⟨by simp [hnames, hfound], fun other hother => ?_⟩)
    simp only [resolve, textMatches_congr hother, hfound]
    rfl
  | cons s found =>
    have hsome : d.Names wanted caseSensitive := by simp [hnames, hfound]
    cases found with
    | nil =>
      refine .inl ⟨hsome, s, fun other hother => ?_⟩
      simp only [resolve, textMatches_congr hother, hfound]
      rfl
    | cons t found =>
      refine .inr (.inl ⟨hsome, (s :: t :: found).length, fun other hother => ?_⟩)
      simp only [resolve, textMatches_congr hother, hfound]
      rfl

theorem resolve_code_congr (d : Document) (h : other.trim = wanted.trim) (caseSensitive : Bool) :
    (d.resolve (.text other caseSensitive)).result.mapError Failure.code =
      (d.resolve (.text wanted caseSensitive)).result.mapError Failure.code := by
  obtain ⟨-, s, hs⟩ | ⟨-, count, hcount⟩ | ⟨-, hnone⟩ :=
    d.resolve_text_cases wanted caseSensitive
  · rw [hs other h, hs wanted rfl]
  · rw [hcount other h, hcount wanted rfl]
    rfl
  · rw [hnone other h, hnone wanted rfl]
    rfl

theorem resolve_not_found (hnames : ¬ d.Names wanted caseSensitive) :
    (d.resolve (.text wanted caseSensitive)).result =
      .error (.outline (.notFound wanted (d.closeHeadings wanted))) := by
  obtain ⟨hsome, -⟩ | ⟨hsome, -⟩ | ⟨-, hnone⟩ := d.resolve_text_cases wanted caseSensitive
  · exact absurd hsome hnames
  · exact absurd hsome hnames
  · exact hnone wanted rfl

theorem reply_of_names (hnames : d.Names wanted caseSensitive) (h : other.trim = wanted.trim) :
    d.reply other caseSensitive = d.reply wanted caseSensitive := by
  unfold reply
  obtain ⟨-, s, hs⟩ | ⟨-, count, hcount⟩ | ⟨hnone, -⟩ :=
    d.resolve_text_cases wanted caseSensitive
  · rw [hs other h, hs wanted rfl]
  · rw [hcount other h, hcount wanted rfl]
    rfl
  · exact absurd hnames hnone

theorem reply_of_not_names (hnames : ¬ d.Names wanted caseSensitive) :
    d.reply wanted caseSensitive = .error (.targetNotFound, d.closeHeadings wanted) := by
  rw [reply, resolve_not_found hnames]
  rfl

/-- The same is answered with other blanks around a text if it names a section, or if the same
headings are close. -/
theorem reply_eq_iff (h : other.trim = wanted.trim) :
    d.reply other caseSensitive = d.reply wanted caseSensitive ↔
      d.Names wanted caseSensitive ∨ d.closeHeadings other = d.closeHeadings wanted := by
  by_cases hnames : d.Names wanted caseSensitive
  · exact iff_of_true (reply_of_names hnames h) (.inl hnames)
  · rw [reply_of_not_names hnames, reply_of_not_names (mt (names_congr h).1 hnames),
      or_iff_right hnames]
    simp

theorem offers_closeHeadings (d : Document) (wanted : Bytes) :
    d.Offers wanted (d.closeHeadings wanted) :=
  suggest_suggests _ _ _

theorem closeHeadings_eq_nil_iff :
    d.closeHeadings wanted = [] ↔ ∀ s ∈ d.sections, ¬ CloseTo wanted s.text :=
  (suggest_eq_nil_iff (by decide)).trans List.forall_mem_map

theorem reply_trim_iff :
    d.reply wanted caseSensitive = d.reply wanted.trim caseSensitive ↔
      d.Names wanted caseSensitive ∨ d.Offers wanted.trim (d.closeHeadings wanted) := by
  have htrim : wanted.trim = wanted.trim.trim := (Bytes.trim_trim wanted).symm
  rw [reply_eq_iff htrim, ← names_congr htrim]
  refine or_congr_right ⟨fun heq => ?_, fun hoffers => ?_⟩
  · rw [heq]
    exact d.offers_closeHeadings wanted.trim
  · exact hoffers.unique (d.offers_closeHeadings wanted.trim)

theorem closeHeadings_of_long (hlong : ∀ s ∈ d.sections, 2 * s.text.length + 6 ≤ wanted.length) :
    d.closeHeadings wanted = [] := by
  rw [closeHeadings_eq_nil_iff]
  intro s hs hclose
  have hlength := hclose.length_le
  have hs := hlong s hs
  omega

theorem exists_padded_far (d : Document) (wanted : Bytes) :
    ∃ other : Bytes, other.trim = wanted.trim ∧ d.closeHeadings other = [] := by
  obtain ⟨bound, hbound⟩ : ∃ bound, ∀ s ∈ d.sections, s.text.length ≤ bound :=
    ⟨(d.sections.map Section.text).flatten.length, fun s hs =>
      (List.sublist_flatten_of_mem (List.mem_map_of_mem hs)).length_le⟩
  refine ⟨wanted ++ List.replicate (2 * bound + 6) 32, ?_, closeHeadings_of_long ?_⟩
  · refine Bytes.Padded.trim ⟨[], List.replicate (2 * bound + 6) 32, by simp, ?_, by simp⟩
    intro b hb
    rw [List.eq_of_mem_replicate hb]
    rfl
  · intro s hs
    have hle := hbound s hs
    rw [List.length_append, List.length_replicate]
    omega

theorem reply_padded_iff :
    (∀ other : Bytes, other.trim = wanted.trim →
        d.reply other caseSensitive = d.reply wanted caseSensitive) ↔
      d.Names wanted caseSensitive ∨
        ∀ other : Bytes, other.trim = wanted.trim → ∀ s ∈ d.sections, ¬ CloseTo other s.text := by
  constructor
  · intro hsame
    by_cases hnames : d.Names wanted caseSensitive
    · exact .inl hnames
    have hclose {text : Bytes} (htext : text.trim = wanted.trim) :
        d.closeHeadings text = d.closeHeadings wanted :=
      ((reply_eq_iff htext).1 (hsame text htext)).resolve_left hnames
    obtain ⟨far, hfar, hnil⟩ := d.exists_padded_far wanted
    refine .inr fun other hother => closeHeadings_eq_nil_iff.1 ?_
    rw [hclose hother, ← hclose hfar, hnil]
  · rintro (hnames | hfar) other hother
    · exact reply_of_names hnames hother
    · refine (reply_eq_iff hother).2 (.inr ?_)
      rw [closeHeadings_eq_nil_iff.2 (hfar other hother),
        closeHeadings_eq_nil_iff.2 (hfar wanted rfl)]

/-- A letter behind the longest heading makes a text that is close to it and that no heading reads
like. -/
theorem exists_close_unnamed (hsections : d.sections ≠ []) (caseSensitive : Bool) :
    ∃ wanted : Bytes, ¬ d.Names wanted caseSensitive ∧ ∃ s ∈ d.sections, CloseTo wanted s.text := by
  obtain ⟨longest, hlongest⟩ := Option.ne_none_iff_exists'.1
    (mt (List.argmax_eq_none (f := fun s : Section => s.text.length)).1 hsections)
  refine ⟨longest.text ++ [120], ?_, longest, List.argmax_mem hlongest, ?_⟩
  · intro hnames
    obtain ⟨s, hs, hmatches⟩ := names_iff.1 hnames
    have hle := List.le_of_mem_argmax (f := fun s : Section => s.text.length) hs hlongest
    have htrim : Bytes.trim (longest.text ++ [120]) = longest.text ++ [120] := by
      have haround := Bytes.trim_around (b := 120) (by decide) longest.text []
      rwa [Bytes.dropWhile_of_trim longest.trim_text] at haround
    have hlength := length_of_textMatches hmatches
    rw [htrim, List.length_append, List.length_singleton] at hlength
    omega
  · have hdelete : Edit (Bytes.lower longest.text ++ [120]) (Bytes.lower longest.text ++ []) :=
      .delete _ 120 []
    rw [List.append_nil] at hdelete
    refine ⟨1, by omega, ?_⟩
    rw [Bytes.lower_append]
    exact .step hdelete (.refl _)

theorem reply_trim_all_iff (d : Document) (caseSensitive : Bool) :
    (∀ wanted, d.reply wanted caseSensitive = d.reply wanted.trim caseSensitive) ↔
      d.sections = [] := by
  constructor
  · intro hsame
    by_contra hsections
    obtain ⟨wanted, hnames, s, hs, hclose⟩ := exists_close_unnamed hsections caseSensitive
    have hpadded : ∀ other : Bytes, other.trim = wanted.trim →
        d.reply other caseSensitive = d.reply wanted caseSensitive := by
      intro other hother
      rw [hsame other, hother, ← hsame wanted]
    exact (reply_padded_iff.1 hpadded).resolve_left hnames wanted rfl s hs hclose
  · intro hsections wanted
    have hpadded : ∀ other : Bytes, other.trim = wanted.trim →
        d.reply other caseSensitive = d.reply wanted caseSensitive :=
      reply_padded_iff.2 (.inr (by simp [hsections]))
    exact (hpadded wanted.trim (Bytes.trim_trim wanted)).symm

/-- Blanks around a text change neither the section that it names nor the code of the failure.
What is offered for a text that names nothing is what is close to it with its blanks. The same is
offered without them exactly when that is what is to be offered then, and with all other blanks
exactly when nothing is close with any. For all texts that is so only in a document without
sections. -/
theorem resolve_trimmed (d : Document) (caseSensitive : Bool) :
    (∀ wanted,
      (d.resolve (.text wanted caseSensitive)).result.mapError Failure.code =
        (d.resolve (.text wanted.trim caseSensitive)).result.mapError Failure.code ∧
      (¬ d.Names wanted caseSensitive →
        ∃ found, d.Offers wanted found ∧ (d.resolve (.text wanted caseSensitive)).result =
          .error (.outline (.notFound wanted found))) ∧
      (d.reply wanted caseSensitive = d.reply wanted.trim caseSensitive ↔
        d.Names wanted caseSensitive ∨ d.Offers wanted.trim (d.closeHeadings wanted)) ∧
      ((∀ other : Bytes, other.trim = wanted.trim →
          d.reply other caseSensitive = d.reply wanted caseSensitive) ↔
        d.Names wanted caseSensitive ∨
          ∀ other : Bytes, other.trim = wanted.trim →
            ∀ s ∈ d.sections, ¬ CloseTo other s.text)) ∧
    ((∀ wanted, d.reply wanted caseSensitive = d.reply wanted.trim caseSensitive) ↔
      d.sections = []) := by
  refine ⟨fun wanted => ⟨?found, ?offered, ?alone, ?padded⟩, ?everywhere⟩
  case found => exact (d.resolve_code_congr (Bytes.trim_trim wanted) caseSensitive).symm
  case offered =>
    exact fun hnames => ⟨_, d.offers_closeHeadings wanted, resolve_not_found hnames⟩
  case alone => exact reply_trim_iff
  case padded => exact reply_padded_iff
  case everywhere => exact d.reply_trim_all_iff caseSensitive

def methods : Document :=
  { children := [Node.plain (.heading 1) [Node.plainText (utf8 "Methods")]] }

theorem methods_resolve_trimmed :
    methods.Names (utf8 "methods") false ∧
    (utf8 "\t methods\n").trim = (utf8 "methods").trim ∧
    methods.reply (utf8 "\t methods\n") false = methods.reply (utf8 "methods") false ∧
    ¬ methods.Names (utf8 "Methds ") false ∧
    (∃ found, methods.Offers (utf8 "Methds ") found ∧
      (methods.resolve (.text (utf8 "Methds ") false)).result =
        .error (.outline (.notFound (utf8 "Methds ") found))) ∧
    ¬ ∀ wanted, methods.reply wanted false = methods.reply wanted.trim false := by
  obtain ⟨htexts, hall⟩ := resolve_trimmed methods false
  have hnames : methods.Names (utf8 "methods") false := by decide
  have hunnamed : ¬ methods.Names (utf8 "Methds ") false := by decide
  have hblanks : (utf8 "\t methods\n").trim = (utf8 "methods").trim := by decide
  obtain ⟨-, -, -, hpadded⟩ := htexts (utf8 "methods")
  obtain ⟨-, hoffered, -, -⟩ := htexts (utf8 "Methds ")
  exact ⟨hnames, hblanks, hpadded.2 (.inl hnames) _ hblanks, hunnamed, hoffered hunnamed,
    mt hall.1 (List.cons_ne_nil _ _)⟩

/-- The chapter is offered for a text that lacks a letter, but not when blanks surround it. -/
theorem methods_blanks_matter :
    (utf8 "  Methds ").trim = utf8 "Methds" ∧
    methods.reply (utf8 "  Methds ") false = .error (.targetNotFound, []) ∧
    methods.reply (utf8 "Methds") false = .error (.targetNotFound, [utf8 "Methods"]) ∧
    methods.reply (utf8 "  Methds ") false ≠ methods.reply (utf8 "  Methds ").trim false := by
  have hblanks : (utf8 "  Methds ").trim = utf8 "Methds" := by decide
  have hpadded : methods.reply (utf8 "  Methds ") false = .error (.targetNotFound, []) := by
    have hclose : methods.closeHeadings (utf8 "  Methds ") = [] := by decide +kernel
    rw [reply_of_not_names (by decide), hclose]
  have htrimmed : methods.reply (utf8 "Methds") false =
      .error (.targetNotFound, [utf8 "Methods"]) := by
    have hclose : methods.closeHeadings (utf8 "Methds") = [utf8 "Methods"] := by decide +kernel
    rw [reply_of_not_names (by decide), hclose]
  refine ⟨hblanks, hpadded, htrimmed, ?_⟩
  rw [hblanks, hpadded, htrimmed]
  simp

end Document
end Folio
