import Folio.Proofs.Split.Cover
import Folio.Proofs.Split.Spelling

/-!
# What keeps a document from being split

Splitting by a specification that was read fails for three reasons only: the specification is one
for the reader of a format, its delimiter is blank, or it leaves the choice to a word target that
is no positive number. In all other cases there is at least one part, whatever the document holds,
and the parts are documents in their own right.
-/

set_option autoImplicit false

namespace Folio

/-- Why a document is not split by a specification, under a word target for the automatic choice. -/
inductive Obstacle (target : Int) : SplitSpec → Code → Prop
  | pages : Obstacle target .pages .invalidSplitSpec
  | chapters : Obstacle target .chapters .invalidSplitSpec
  | blank {text : Bytes} (blank : ∀ b ∈ text, Bytes.isBlank b = true) :
      Obstacle target (.delimiter text) .invalidArgument
  | target (notPositive : target < 1) : Obstacle target .auto .invalidArgument

namespace Document

def Parted (d : Document) (split : Outcome (List Part)) : Prop :=
  ∃ parts, split.result = .ok parts ∧ parts ≠ [] ∧
    ∀ p ∈ parts, p.document.attrs = d.attrs ∧ p.document.children ⊆ d.children

theorem Covers.parted {d : Document} {nodes : List Node} {split : Outcome (List Part)}
    (h : d.Covers nodes split) (hnodes : nodes ⊆ d.children) : d.Parted split := by
  obtain ⟨parts, hresult, hdivides⟩ := h
  refine ⟨parts, hresult, hdivides.nonempty, fun p hp => ⟨hdivides.attrs p hp, ?_⟩⟩
  intro n hn
  apply hnodes
  rw [← hdivides.children]
  exact List.mem_flatten_of_mem (List.mem_map_of_mem hp) hn

theorem splitByHeading_parted (d : Document) {level : Int} (h : 1 ≤ level ∧ level ≤ 6)
    (includePreamble : Bool) : d.Parted (d.splitByHeading level includePreamble) := by
  cases includePreamble with
  | true => exact (d.splitByHeading_covers h).parted (List.Subset.refl _)
  | false =>
    cases hat : d.hasHeadingAt level with
    | true =>
      exact (splitByHeading_covers_sections h hat).parted (List.dropWhile_suffix _).subset
    | false =>
      rw [splitByHeading_whole h hat]
      exact (d.keptWhole_covers none _).parted (List.Subset.refl _)

theorem runs_subset (separates : Node → Bool) (ns : List Node) :
    ∀ run ∈ runs separates ns, run ⊆ ns := by
  induction ns with
  | nil => simp [runs]
  | cons n ns ih =>
    have hmore : ∀ run ∈ runs separates ns, run ⊆ n :: ns := fun run hrun =>
      List.subset_cons_of_subset n (ih run hrun)
    unfold runs
    split
    · exact List.forall_mem_cons.2 ⟨List.nil_subset _, hmore⟩
    · split
      · simp
      next run more hruns =>
        rw [hruns] at ih hmore
        obtain ⟨hfirst, -⟩ := List.forall_mem_cons.1 ih
        obtain ⟨-, hrest⟩ := List.forall_mem_cons.1 hmore
        exact List.forall_mem_cons.2 ⟨List.cons_subset_cons n hfirst, hrest⟩

theorem splitAtSeparators_parted (d : Document) (separates : Node → Bool) (reason : Bytes) :
    d.Parted (d.splitAtSeparators separates reason) := by
  unfold splitAtSeparators
  simp only
  split
  · exact (d.keptWhole_covers _ _).parted (List.Subset.refl _)
  next hfound =>
    simp only [Bool.or_eq_true, List.isEmpty_iff, not_or] at hfound
    have hsub : ∀ p ∈ ((runs separates d.children).filter fun run => !run.isEmpty).zipIdx.map
        (fun q => (⟨some (partTitle (q.2 + 1)), q.1⟩ : Passage)), p.nodes ⊆ d.children := by
      refine List.forall_mem_map.2 fun q hq => ?_
      exact runs_subset separates d.children q.1
        (List.mem_of_mem_filter (List.fst_mem_of_mem_zipIdx hq))
    obtain ⟨parts, hresult, hparts⟩ := ofPassages_result hsub
    refine ⟨parts, hresult, hparts.ne_nil (by simpa using hfound.2), fun part hpart => ?_⟩
    obtain ⟨p, hp, hshows⟩ := hparts.exists_passage hpart
    rw [hshows.attrs, hshows.children]
    exact ⟨rfl, hsub p hp⟩

theorem splitByDelimiter_parted (d : Document) {text : Bytes}
    (h : ¬ ∀ b ∈ text, Bytes.isBlank b = true) : d.Parted (d.splitByDelimiter text) := by
  rw [d.splitByDelimiter_eq (mt Bytes.trim_eq_nil_iff.1 h)]
  exact d.splitAtSeparators_parted _ _

theorem splitByDelimiter_blank (d : Document) {text : Bytes}
    (h : ∀ b ∈ text, Bytes.isBlank b = true) :
    ∃ e, (d.splitByDelimiter text).result = .error e ∧ e.code = .invalidArgument := by
  have hwanted : text.trim.isEmpty = true := by
    simpa [Bytes.trim_eq_nil_iff] using h
  unfold splitByDelimiter
  simp only [hwanted]
  refine ⟨_, rfl, ?_⟩
  split <;> rfl

theorem split_obstructed (d : Document) {spec : SplitSpec} {target : Int} {code : Code}
    (h : Obstacle target spec code) (includePreamble : Bool) :
    ∃ e, (d.split spec includePreamble target).result = .error e ∧ e.code = code := by
  cases h with
  | pages => exact ⟨_, rfl, rfl⟩
  | chapters => exact ⟨_, rfl, rfl⟩
  | blank hblank => exact d.splitByDelimiter_blank hblank
  | target notPositive =>
    unfold split splitAuto
    rw [if_pos notPositive]
    exact ⟨_, rfl, rfl⟩

theorem split_parted (d : Document) {spec : SplitSpec} {target : Int} (hspec : spec.WellFormed)
    (h : ∀ code, ¬ Obstacle target spec code) (includePreamble : Bool) :
    d.Parted (d.split spec includePreamble target) := by
  cases spec with
  | heading level => exact d.splitByHeading_parted hspec includePreamble
  | length words => exact (d.splitByWords_covers hspec.1).parted (List.Subset.refl _)
  | parts count => exact (d.splitByParts_covers hspec.1).parted (List.Subset.refl _)
  | delimiter text => exact d.splitByDelimiter_parted fun hblank => h _ (.blank hblank)
  | breaks => exact d.splitAtSeparators_parted isBreak _
  | pages => exact absurd .pages (h _)
  | chapters => exact absurd .chapters (h _)
  | auto =>
    have htarget : 1 ≤ target := Int.not_lt.1 fun hlt => h _ (.target hlt)
    exact (d.splitAuto_covers htarget).parted (List.Subset.refl _)

theorem build_of_attrs {d e : Document} (hattrs : e.attrs = d.attrs) :
    (Document.build (e.children.map some) d.attrs).result = .ok e := by
  rw [build_attrs e.areBlocks]
  exact congrArg Except.ok (Document.ext rfl hattrs.symm)

/-- Splitting by a specification that was read fails just where there is an obstacle, with the
code of this obstacle. Otherwise there is at least one part, and each part passes the checks of a
document on its blocks. -/
theorem splitBy_error_iff (d : Document) {text : Bytes} {spec : SplitSpec}
    (hspec : (SplitSpec.parse text).result = .ok spec) (includePreamble : Bool) (target : Int) :
    (∀ code, (∃ e, (d.splitBy text includePreamble target).result = .error e ∧ e.code = code) ↔
      Obstacle target spec code) ∧
    ((∀ code, ¬ Obstacle target spec code) →
      ∃ parts, (d.splitBy text includePreamble target).result = .ok parts ∧ parts ≠ [] ∧
        ∀ p ∈ parts, (Document.build (p.document.children.map some) d.attrs).result =
          .ok p.document) := by
  have hresult : (d.splitBy text includePreamble target).result =
      (d.split spec includePreamble target).result := Outcome.result_bind_ok _ hspec
  have hwell : spec.WellFormed := (SplitSpec.parse_answers text).1 spec hspec
  rw [hresult]
  refine ⟨fun code => ⟨?_, fun hcode => d.split_obstructed hcode includePreamble⟩, fun hfree => ?_⟩
  · rintro ⟨e, he, rfl⟩
    by_contra hcode
    have hfree : ∀ code, ¬ Obstacle target spec code := by
      intro code hother
      obtain ⟨e', he', rfl⟩ := d.split_obstructed hother includePreamble
      rw [he, Except.error.injEq] at he'
      exact hcode (he' ▸ hother)
    obtain ⟨parts, hparts, -⟩ := d.split_parted hwell hfree includePreamble
    exact nomatch he.symm.trans hparts
  · obtain ⟨parts, hparts, hsome, hblocks⟩ := d.split_parted hwell hfree includePreamble
    exact ⟨parts, hparts, hsome, fun p hp => build_of_attrs (hblocks p hp).1⟩

/-- A delimiter that decodes to a space is refused, though it is not empty. The heading is a part
by itself when what stands before it is dropped. -/
theorem prefaced_splitBy_ends :
    (SplitSpec.parse (utf8 "delimiter=\\x20")).result = .ok (.delimiter [32]) ∧
    (∃ e, (prefaced.splitBy (utf8 "delimiter=\\x20") true 1).result = .error e ∧
      e.code = .invalidArgument) ∧
    (SplitSpec.parse (utf8 "H2")).result = .ok (.heading 2) ∧
    ∃ parts, (prefaced.splitBy (utf8 "H2") false 0).result = .ok parts ∧ parts ≠ [] := by
  have hescape : SplitSpec.HexEscapes [32] (utf8 "\\x20") :=
    .cons (.decimal (by decide)) (.decimal (by decide)) .nil
  have hspace : (SplitSpec.parse (utf8 "delimiter=\\x20")).result = .ok (.delimiter [32]) :=
    (SplitSpec.Spells.delimiter (by decide) hescape (SplitSpec.writesPair_self rfl _)).parse
  have hheading : (SplitSpec.parse (utf8 "H2")).result = .ok (.heading 2) :=
    (SplitSpec.Spells.heading (by decide) ⟨utf8 "H2", rfl, Bytes.padded_self _⟩).parse
  obtain ⟨hfails, -⟩ := splitBy_error_iff prefaced hspace true 1
  obtain ⟨-, hparts⟩ := splitBy_error_iff prefaced hheading false 0
  obtain ⟨parts, hresult, hsome, -⟩ := hparts nofun
  have hblank : Obstacle 1 (.delimiter [32]) .invalidArgument := .blank (by simp [Bytes.isBlank])
  exact ⟨hspace, (hfails _).2 hblank, hheading, parts, hresult, hsome⟩

end Document
end Folio
