import Folio.Proofs.Split.Runs

/-!
# What a delimiter leaves over

The blocks of the parts are those that do not separate, each in its order, or all blocks when
nothing is cut. A block may read like the delimiter and yet not separate, since of the blocks with
text only paragraphs do; it is left in a part. And a document of nothing but separators counts as
one without any.
-/

set_option autoImplicit false

namespace Folio

theorem CutAt.flatten {separates : Node → Bool} {ns : List Node} {runs : List (List Node)}
    (h : CutAt separates ns runs) : runs.flatten = ns.filter fun n => !separates n := by
  induction h with
  | @last run hrun =>
    have hkeep : run.filter (fun n => !separates n) = run :=
      List.filter_eq_self.2 fun n hn => by simpa using hrun n hn
    rw [hkeep, List.flatten_singleton]
  | @more run rest m runs hrun hm _ ih =>
    have hkeep : run.filter (fun n => !separates n) = run :=
      List.filter_eq_self.2 fun n hn => by simpa using hrun n hn
    rw [List.flatten_cons, ih, List.filter_append, hkeep, List.filter_cons_of_neg (by simp [hm])]

def Node.Reads (joiner wanted : Bytes) (n : Node) : Prop := (n.extractText joiner).trim = wanted

instance (joiner wanted : Bytes) : DecidablePred (Node.Reads joiner wanted) :=
  fun n => inferInstanceAs (Decidable ((n.extractText joiner).trim = wanted))

/-- The block reads like the delimiter, or it is a break and the delimiter a rule. -/
def Node.Marks (joiner wanted : Bytes) (n : Node) : Prop :=
  n.Reads joiner wanted ∨ Document.IsRule wanted ∧ n.kind = .thematicBreak

def Part.NotesNone (p : Part) : Prop :=
  p.metadata.get? (utf8 "reason") = some (.str (utf8 "no_delimiters_found"))

/-- No block that reads like the delimiter is left in a part, and a part notes that there are no
delimiters only if there are none. -/
structure Clean (d : Document) (joiner wanted : Bytes) (parts : List Part) : Prop where
  leftover : ∀ p ∈ parts, ∀ n ∈ p.document.children, ¬ n.Reads joiner wanted
  noted : (∃ p ∈ parts, p.NotesNone) → ∀ n ∈ d.children, ¬ n.Marks joiner wanted

namespace Document

variable {d : Document}

/-- The blocks of the parts, and whether the parts note that there are no delimiters. -/
structure Cut (d : Document) (wanted : Bytes) (parts : List Part) : Prop where
  blocks : ∀ n, (∃ p ∈ parts, n ∈ p.document.children) ↔
    n ∈ d.children ∧ (¬ Separator wanted n ∨ ∀ m ∈ d.children, Separator wanted m)
  noted : (∃ p ∈ parts, p.NotesNone) ↔
    (∀ n ∈ d.children, ¬ Separator wanted n) ∨ ∀ n ∈ d.children, Separator wanted n

instance (wanted : Bytes) : DecidablePred (Separator wanted) :=
  fun _ => decidable_of_iff _ isDelimiter_iff

theorem exists_mem_blocks {parts : List Part} {n : Node} :
    (∃ p ∈ parts, n ∈ p.document.children) ↔
      n ∈ (parts.map fun p => p.document.children).flatten := by
  simp

def numberedPassages (runs : List (List Node)) : List Passage :=
  (runs.filter fun run => !run.isEmpty).zipIdx.map fun (run, i) => ⟨some (partTitle (i + 1)), run⟩

theorem numberedPassages_nodes (runs : List (List Node)) :
    ((numberedPassages runs).map Passage.nodes).flatten = runs.flatten := by
  have hnodes : (numberedPassages runs).map Passage.nodes =
      runs.filter fun run => !run.isEmpty := by
    rw [numberedPassages, List.map_map]
    exact List.zipIdx_map_fst 0 _
  rw [hnodes, List.flatten_filter_not_isEmpty]

theorem numberedPassages_subset (separates : Node → Bool) (ns : List Node) :
    ∀ p ∈ numberedPassages (runs separates ns), p.nodes ⊆ ns := by
  intro p hp n hn
  have hmem : n ∈ (runs separates ns).flatten := by
    rw [← numberedPassages_nodes]
    exact List.mem_flatten_of_mem (List.mem_map_of_mem hp) hn
  rw [(cutAt_runs separates ns).flatten] at hmem
  exact (List.mem_filter.1 hmem).1

theorem cut_of_both {wanted : Bytes} {parts : List Part}
    (hparts : PartsOf d (numberedPassages (runs (isDelimiter wanted) d.children)) parts)
    (hsome : ∃ n ∈ d.children, Separator wanted n)
    (hother : ∃ n ∈ d.children, ¬ Separator wanted n) : d.Cut wanted parts where
  blocks n := by
    have hnotall : ¬ ∀ m ∈ d.children, Separator wanted m := by simpa using hother
    rw [exists_mem_blocks, hparts.map_eq fun _ _ hshows => hshows.children,
      numberedPassages_nodes, (cutAt_runs _ _).flatten, List.mem_filter, or_iff_left hnotall,
      ← isDelimiter_iff]
    simp
  noted := by
    refine iff_of_false ?_ ?_
    · rintro ⟨p, hp, hnoted⟩
      obtain ⟨q, -, hshows⟩ := hparts.exists_passage hp
      rw [Part.NotesNone, hshows.metadata] at hnoted
      exact nomatch hnoted
    · rintro (hnone | hall)
      · obtain ⟨n, hn, hseparator⟩ := hsome
        exact hnone n hn hseparator
      · obtain ⟨n, hn, hseparator⟩ := hother
        exact hseparator (hall n hn)

theorem cut_of_whole {wanted : Bytes} (title : Option Bytes)
    (h : (∀ n ∈ d.children, ¬ Separator wanted n) ∨ ∀ n ∈ d.children, Separator wanted n) :
    d.Cut wanted
      [(d.onlyPart title).note (utf8 "reason") (utf8 "no_delimiters_found")] where
  blocks n := by
    have hblocks : (∃ p ∈ [(d.onlyPart title).note (utf8 "reason")
        (utf8 "no_delimiters_found")], n ∈ p.document.children) ↔ n ∈ d.children := by
      simp [onlyPart, Part.note]
    rw [hblocks]
    refine ⟨fun hn => ⟨hn, ?_⟩, fun hn => hn.1⟩
    exact h.imp (fun hnone => hnone n hn) id
  noted := by
    refine iff_of_true ?_ h
    exact ⟨_, List.mem_cons_self, Members.get?_insert .. |>.trans (if_pos rfl)⟩

theorem splitByDelimiter_cut (d : Document) {delimiter : Bytes} (h : delimiter.trim ≠ []) :
    ∃ parts, (d.splitByDelimiter delimiter).result = .ok parts ∧ d.Cut delimiter.trim parts := by
  rw [splitByDelimiter_eq d h]
  generalize delimiter.trim = wanted
  by_cases hboth : (∃ n ∈ d.children, Separator wanted n) ∧ ∃ n ∈ d.children, ¬ Separator wanted n
  · obtain ⟨parts, hresult, hparts⟩ :=
      ofPassages_result (numberedPassages_subset (isDelimiter wanted) d.children)
    refine ⟨parts, ?_, cut_of_both hparts hboth.1 hboth.2⟩
    simp only [← isDelimiter_iff] at hboth
    exact (splitAtSeparators_result _ hboth.1 hboth.2).trans hresult
  · have hwhole : (∀ n ∈ d.children, ¬ Separator wanted n) ∨
        ∀ n ∈ d.children, Separator wanted n := by
      rw [not_and_or] at hboth
      simpa using hboth
    have hcut := cut_of_whole (some (partTitle 1)) hwhole
    simp only [← isDelimiter_iff] at hwhole
    rw [splitAtSeparators_whole _ hwhole]
    exact ⟨_, d.keptWhole_result _ _, hcut⟩

theorem Cut.clean_iff {wanted : Bytes} {parts : List Part} (h : d.Cut wanted parts)
    (joiner : Bytes) :
    Clean d joiner wanted parts ↔
      (∀ n ∈ d.children, n.Reads joiner wanted → Separator wanted n) ∧
        ((∃ n ∈ d.children, ¬ Separator wanted n) ∨
          ∀ n ∈ d.children, ¬ n.Marks joiner wanted) := by
  constructor
  · intro hclean
    constructor
    · intro n hn hreads
      by_contra hother
      obtain ⟨p, hp, hmem⟩ := (h.blocks n).2 ⟨hn, .inl hother⟩
      exact hclean.leftover p hp n hmem hreads
    · by_cases hall : ∀ n ∈ d.children, Separator wanted n
      · exact .inr (hclean.noted (h.noted.2 (.inr hall)))
      · exact .inl (by simpa using hall)
  · rintro ⟨hreads, hrest⟩
    -- Only where all blocks separate can one that reads like the delimiter be in a part.
    have hall : (∀ n ∈ d.children, Separator wanted n) →
        ∀ n ∈ d.children, ¬ n.Marks joiner wanted := by
      intro hall
      refine hrest.resolve_left ?_
      rintro ⟨n, hn, hother⟩
      exact hother (hall n hn)
    constructor
    · intro p hp n hmem hread
      obtain ⟨hn, hother⟩ := (h.blocks n).1 ⟨p, hp, hmem⟩
      exact hall (hother.resolve_left (not_not_intro (hreads n hn hread))) n hn (.inl hread)
    · intro hnoted
      rcases h.noted.1 hnoted with hnone | hevery
      · rintro n hn (hread | ⟨hrule, hkind⟩)
        · exact hnone n hn (hreads n hn hread)
        · exact hnone n hn (.rule hkind hrule)
      · exact hall hevery

/-- A split at a delimiter with text in it has for its parts all blocks that do not separate, or
all blocks when none does or all do, which it notes. So no block that reads like the delimiter is
left, and the note is true, exactly when all blocks that read like it separate, and either some
block does not separate or no block is one to separate at. -/
theorem splitByDelimiter_clean_iff (d : Document) {delimiter : Bytes}
    (h : delimiter.trim ≠ []) :
    ∃ parts, (d.splitByDelimiter delimiter).result = .ok parts ∧ d.Cut delimiter.trim parts ∧
      ∀ joiner, Clean d joiner delimiter.trim parts ↔
        (∀ n ∈ d.children, n.Reads joiner delimiter.trim → Separator delimiter.trim n) ∧
          ((∃ n ∈ d.children, ¬ Separator delimiter.trim n) ∨
            ∀ n ∈ d.children, ¬ n.Marks joiner delimiter.trim) := by
  obtain ⟨parts, hresult, hcut⟩ := d.splitByDelimiter_cut h
  exact ⟨parts, hresult, hcut, hcut.clean_iff⟩

theorem divided_splitByDelimiter_clean_iff :
    (utf8 " --- ").trim ≠ [] ∧
      ∃ parts, (divided.splitByDelimiter (utf8 " --- ")).result = .ok parts ∧
        Clean divided [] (utf8 " --- ").trim parts := by
  have hblank : (utf8 " --- ").trim ≠ [] := by decide
  obtain ⟨parts, hresult, -, hclean⟩ := splitByDelimiter_clean_iff divided hblank
  have hreads : ∀ n ∈ divided.children, n.Reads [] (utf8 " --- ").trim →
      Separator (utf8 " --- ").trim n := by decide
  have hother : ∃ n ∈ divided.children, ¬ Separator (utf8 " --- ").trim n := by decide
  exact ⟨hblank, parts, hresult, (hclean []).2 ⟨hreads, .inl hother⟩⟩

def headed : Document :=
  { children := [Node.plain .paragraph [Node.plainText (utf8 "a")],
      Node.plain (.heading 1) [Node.plainText (utf8 "@@")],
      Node.plain .paragraph [Node.plainText (utf8 "b")]] }

/-- The heading does not separate, is left in the only part, and the note says that there was
nothing like it. -/
theorem headed_unclean :
    ∃ parts, (headed.splitByDelimiter (utf8 "@@")).result = .ok parts ∧
      (∃ p ∈ parts, ∃ n ∈ p.document.children, n.Reads [] (utf8 "@@").trim) ∧
      (∃ p ∈ parts, p.NotesNone) ∧ (∃ n ∈ headed.children, n.Reads [] (utf8 "@@").trim) ∧
      ¬ Clean headed [] (utf8 "@@").trim parts := by
  obtain ⟨parts, hresult, hcut⟩ :=
    headed.splitByDelimiter_cut (show (utf8 "@@").trim ≠ [] by decide)
  have hnone : ∀ n ∈ headed.children, ¬ Separator (utf8 "@@").trim n := by decide
  obtain ⟨n, hn, hread⟩ : ∃ n ∈ headed.children, n.Reads [] (utf8 "@@").trim := by decide
  obtain ⟨p, hp, hmem⟩ := (hcut.blocks n).2 ⟨hn, .inl (hnone n hn)⟩
  exact ⟨parts, hresult, ⟨p, hp, n, hmem, hread⟩, hcut.noted.2 (.inl hnone), ⟨n, hn, hread⟩,
    fun hclean => hclean.leftover p hp n hmem hread⟩

end Document
end Folio
