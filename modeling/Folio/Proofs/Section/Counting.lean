import Folio.Proofs.Node.Built
import Folio.Proofs.Section.Lookup

/-!
# Counting the headings that can be reached

A target reaches the headings of the levels one to six, by number or by text. A count and a
search that name no level take all headings, whatever their levels; for one level each, they know
the same headings that targets reach.
-/

set_option autoImplicit false

namespace Folio.Document

variable {d : Document}

def levelCount (d : Document) (low high : Int) : Nat :=
  d.children.countP fun n => n.level?.any fun l => low ≤ l && l ≤ high

/-- The number of headings of the levels one to six, counted level by level. -/
def countGraded (d : Document) : Nat :=
  d.countSections (some 1) + d.countSections (some 2) + d.countSections (some 3) +
    d.countSections (some 4) + d.countSections (some 5) + d.countSections (some 6)

theorem levelCount_step (d : Document) {low high : Int} (h : low ≤ high) :
    d.levelCount low high = d.countSections (some low) + d.levelCount (low + 1) high := by
  unfold levelCount countSections
  induction d.children with
  | nil => rfl
  | cons n ns ih =>
    have hn : (if (n.level?.any fun l => low ≤ l && l ≤ high) = true then 1 else 0) =
        (if (n.level?.any fun l => (some low).all (· == l)) = true then 1 else 0) +
          if (n.level?.any fun l => low + 1 ≤ l && l ≤ high) = true then 1 else 0 := by
      cases n.level? with
      | none => rfl
      | some l =>
        simp only [Option.any_some, Option.all_some, Bool.and_eq_true, decide_eq_true_eq,
          beq_iff_eq]
        split <;> split <;> split <;> omega
    rw [List.countP_cons, List.countP_cons, List.countP_cons, ih, hn]
    omega

theorem levelCount_empty (d : Document) {low high : Int} (h : high < low) :
    d.levelCount low high = 0 := by
  refine List.countP_eq_zero.2 fun n _ => ?_
  rw [Option.any_eq_true]
  rintro ⟨l, -, hl⟩
  simp only [Bool.and_eq_true, decide_eq_true_eq] at hl
  omega

theorem countGraded_eq (d : Document) : d.countGraded = d.levelCount 1 6 := by
  have h1 : d.levelCount 1 6 = d.countSections (some 1) + d.levelCount 2 6 :=
    levelCount_step d (by omega)
  have h2 : d.levelCount 2 6 = d.countSections (some 2) + d.levelCount 3 6 :=
    levelCount_step d (by omega)
  have h3 : d.levelCount 3 6 = d.countSections (some 3) + d.levelCount 4 6 :=
    levelCount_step d (by omega)
  have h4 : d.levelCount 4 6 = d.countSections (some 4) + d.levelCount 5 6 :=
    levelCount_step d (by omega)
  have h5 : d.levelCount 5 6 = d.countSections (some 5) + d.levelCount 6 6 :=
    levelCount_step d (by omega)
  have h6 : d.levelCount 6 6 = d.countSections (some 6) + d.levelCount 7 6 :=
    levelCount_step d (by omega)
  have hend : d.levelCount 7 6 = 0 := levelCount_empty d (by omega)
  unfold countGraded
  omega

theorem sections_headings (d : Document) :
    d.sections.map Section.heading =
      (d.children.filter fun n => n.level?.any fun l => 1 ≤ l && l ≤ 6).map some :=
  Section.scan_headings _ _ 0 d.children

theorem length_sections (d : Document) : d.sections.length = d.countGraded := by
  have hlength := congrArg List.length d.sections_headings
  rw [List.length_map, List.length_map, ← List.countP_eq_length_filter] at hlength
  rw [countGraded_eq]
  exact hlength

theorem countSections_graded (h : d.Graded) : d.countSections none = d.countGraded := by
  rw [countGraded_eq]
  refine List.countP_congr fun n hn => ?_
  rw [Option.any_eq_true, Option.any_eq_true]
  exact exists_congr fun l => and_congr_right fun hl => by simp [h n hn l hl]

theorem resolve_index_some {i : Int} (h : 0 ≤ i ∧ i < d.countGraded) :
    ∃ s, (d.resolve (.index i)).result = .ok s := by
  have hnumber : i.toNat < d.sections.length := by
    rw [length_sections]
    omega
  rw [resolve, if_neg (by omega), List.getElem?_eq_getElem hnumber]
  exact ⟨_, rfl⟩

theorem resolve_index_none {i : Int} (h : ¬(0 ≤ i ∧ i < d.countGraded)) :
    ∃ e, (d.resolve (.index i)).result = .error e ∧ e.code = .indexOutOfRange := by
  have hnone : (if i < 0 then none else d.sections[i.toNat]?) = none := by
    split
    · rfl
    · rw [List.getElem?_eq_none_iff, length_sections]
      omega
  rw [resolve, hnone]
  exact ⟨_, rfl, rfl⟩

theorem findHeadingFrom_isSome {wanted : Bytes} {level : Option Int} {caseSensitive : Bool}
    (i : Nat) (ns : List Node) :
    (findHeadingFrom wanted level caseSensitive i ns).isSome ↔
      ∃ n ∈ ns, (n.level?.any fun l => level.all (· == l)) = true ∧
        textMatches n.text.trim wanted caseSensitive = true := by
  induction ns generalizing i with
  | nil => simp [findHeadingFrom]
  | cons n ns ih =>
    rw [findHeadingFrom, List.exists_mem_cons_iff, ← Bool.and_eq_true]
    split
    · next h => exact iff_of_true rfl (.inl h)
    · next h => rw [ih, or_iff_right h]

section
variable {wanted : Bytes} {caseSensitive : Bool}

def Reachable (wanted : Bytes) (caseSensitive : Bool) (n : Node) : Prop :=
  (n.level?.any fun l => 1 ≤ l && l ≤ 6) = true ∧
    textMatches n.text.trim wanted caseSensitive = true

theorem matching_iff_reachable :
    (∃ s ∈ d.sections, textMatches s.text wanted caseSensitive = true) ↔
      ∃ n ∈ d.children, Reachable wanted caseSensitive n := by
  constructor
  · rintro ⟨s, hs, hmatches⟩
    have hheading := List.mem_map_of_mem (f := Section.heading) hs
    rw [sections_headings] at hheading
    obtain ⟨n, hn, hsome⟩ := List.mem_map.1 hheading
    obtain ⟨hchild, hlevel⟩ := List.mem_filter.1 hn
    rw [Section.text, ← hsome] at hmatches
    exact ⟨n, hchild, hlevel, hmatches⟩
  · rintro ⟨n, hchild, hlevel, hmatches⟩
    have hn : n ∈ d.children.filter fun n => n.level?.any fun l => 1 ≤ l && l ≤ 6 :=
      List.mem_filter.2 ⟨hchild, hlevel⟩
    have hheading := List.mem_map_of_mem (f := some) hn
    rw [← sections_headings] at hheading
    obtain ⟨s, hs, hsome⟩ := List.mem_map.1 hheading
    refine ⟨s, hs, ?_⟩
    rw [Section.text, hsome]
    exact hmatches

theorem resolve_text_found :
    (∀ e, (d.resolve (.text wanted caseSensitive)).result = .error e → e.code ≠ .targetNotFound) ↔
      ∃ n ∈ d.children, Reachable wanted caseSensitive n := by
  rw [← matching_iff_reachable, resolve]
  cases hfound : d.sections.filter fun s => textMatches s.text wanted caseSensitive with
  | nil =>
    refine iff_of_false (fun h => h _ rfl rfl) ?_
    rintro ⟨s, hs, hmatches⟩
    exact List.filter_eq_nil_iff.1 hfound s hs hmatches
  | cons s found =>
    have hs : s ∈ d.sections.filter fun s => textMatches s.text wanted caseSensitive :=
      hfound ▸ List.mem_cons_self
    refine iff_of_true ?_ ⟨s, List.mem_filter.1 hs⟩
    cases found with
    | nil =>
      intro e he
      cases he
    | cons t found =>
      intro e he
      cases he
      intro hcode
      cases hcode

theorem findHeading_levels :
    (∃ l : Int, 1 ≤ l ∧ l ≤ 6 ∧ (d.findHeading wanted (some l) caseSensitive).isSome = true) ↔
      ∃ n ∈ d.children, Reachable wanted caseSensitive n := by
  constructor
  · rintro ⟨l, hlow, hhigh, hfound⟩
    obtain ⟨n, hn, hlevel, hmatches⟩ := (findHeadingFrom_isSome 0 d.children).1 hfound
    obtain ⟨m, hm, hml⟩ := (Option.any_eq_true _ _).1 hlevel
    obtain rfl : l = m := by simpa using hml
    exact ⟨n, hn, by simp [hm, hlow, hhigh], hmatches⟩
  · rintro ⟨n, hn, hlevel, hmatches⟩
    obtain ⟨l, hl, hrange⟩ := (Option.any_eq_true _ _).1 hlevel
    simp only [Bool.and_eq_true, decide_eq_true_eq] at hrange
    refine ⟨l, hrange.1, hrange.2, (findHeadingFrom_isSome 0 d.children).2 ⟨n, hn, ?_, hmatches⟩⟩
    simp [hl]

theorem findHeading_graded (h : d.Graded) :
    (d.findHeading wanted none caseSensitive).isSome = true ↔
      ∃ n ∈ d.children, Reachable wanted caseSensitive n := by
  rw [findHeading, findHeadingFrom_isSome]
  refine exists_congr fun n => and_congr_right fun hn => and_congr_left fun _ => ?_
  rw [Option.any_eq_true, Option.any_eq_true]
  exact exists_congr fun l => and_congr_right fun hl => by simp [h n hn l hl]

end

/-- A number names a section exactly when it is below the number of headings of the levels one to
six, counted level by level, and is out of range otherwise. A text fails to name a section exactly
when a search of none of these levels finds a heading. When all headings are of these levels, the
count of all headings is that number, and the search in all of them finds what these searches
find. -/
theorem resolve_counts (d : Document) :
    (∀ i : Int, (∃ s, (d.resolve (.index i)).result = .ok s) ↔ 0 ≤ i ∧ i < d.countGraded) ∧
      (∀ i : Int, ¬(0 ≤ i ∧ i < d.countGraded) →
        ∃ e, (d.resolve (.index i)).result = .error e ∧ e.code = .indexOutOfRange) ∧
      (∀ wanted caseSensitive,
        (∃ l : Int, 1 ≤ l ∧ l ≤ 6 ∧ (d.findHeading wanted (some l) caseSensitive).isSome = true) ↔
          ∀ e, (d.resolve (.text wanted caseSensitive)).result = .error e →
            e.code ≠ .targetNotFound) ∧
      (d.Graded → d.countSections none = d.countGraded ∧
        ∀ wanted caseSensitive, (d.findHeading wanted none caseSensitive).isSome = true ↔
          ∃ l : Int, 1 ≤ l ∧ l ≤ 6 ∧
            (d.findHeading wanted (some l) caseSensitive).isSome = true) := by
  refine ⟨?_, fun i => resolve_index_none, ?_, ?_⟩
  · intro i
    refine ⟨fun hs => ?_, resolve_index_some⟩
    by_contra hout
    obtain ⟨s, hs⟩ := hs
    obtain ⟨e, he, -⟩ := resolve_index_none hout
    exact nomatch hs.symm.trans he
  · exact fun _ _ => findHeading_levels.trans resolve_text_found.symm
  · exact fun h => ⟨countSections_graded h,
      fun _ _ => (findHeading_graded h).trans findHeading_levels.symm⟩

def sunken : Document :=
  { children := [Node.plain (.heading 7) [Node.plainText (utf8 "Odd")]] }

/-- It is counted and found, but neither its number nor its text names a section. -/
theorem sunken_unreachable :
    sunken.toNode.Built ∧ sunken.countSections none = 1 ∧
      (∃ e, (sunken.resolve (.index 0)).result = .error e ∧ e.code = .indexOutOfRange) ∧
      (sunken.findHeading (utf8 "Odd") none false).isSome = true ∧
      ∃ e, (sunken.resolve (.text (utf8 "Odd") false)).result = .error e ∧
        e.code = .targetNotFound :=
  ⟨by decide, by decide, ⟨_, rfl, rfl⟩, by decide, ⟨_, rfl, rfl⟩⟩

end Folio.Document
