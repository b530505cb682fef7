import Mathlib.Data.List.Induction
import Folio.Check.Validator
import Folio.Proofs.Draft.Table

/-!
# The columns of a drafted table

Where all rows have the same number of cells, and no alignment is asked for beyond them, a check
finds no fault with the rows of what is drafted. The alignments are another matter: aligning a
column extends them no further than to this column, and a header fills them up only where there
were none. So they can stay too short for the table.
-/

set_option autoImplicit false

namespace Folio.TableDraft

def Call.column? : Call → Option Nat
  | .align column _ => some column
  | _ => none

/-- The call suits a table of so many columns: a row that it adds has as many cells, a header brings
an alignment for each or none at all, and it aligns none but these columns. -/
structure Call.Suits (columns : Nat) (t : TableDraft) (c : Call) : Prop where
  cells : ∀ row ∈ c.row?, row.2.length = columns
  alignments : ∀ row ∈ c.row?, t.isHeaderRow row.1 = true →
    c.alignments = [] ∨ c.alignments.length = columns
  column : ∀ column ∈ c.column?, column < columns

def Regular (hasHeader : Bool) (columns : Nat) (calls : List Call) : Prop :=
  ∀ earlier c, earlier ++ [c] <+: calls → c.Suits columns (run hasHeader earlier)

/-- From this call on every column has an alignment: it aligns the last column, or adds a header
that brings alignments or comes before any column is aligned. -/
def Call.Covers (columns : Nat) (earlier : List Call) (t : TableDraft) (c : Call) : Prop :=
  c.column? = some (columns - 1) ∨
    ∃ row ∈ c.row?, t.isHeaderRow row.1 = true ∧
      (c.alignments ≠ [] ∨ ∀ d ∈ earlier, d.column? = none)

def Covered (hasHeader : Bool) (columns : Nat) (calls : List Call) : Prop :=
  ∃ earlier c, earlier ++ [c] <+: calls ∧ c.Covers columns earlier (run hasHeader earlier)

variable {hasHeader : Bool} {columns : Nat} {calls : List Call} {c : Call} {t : TableDraft}

theorem run_concat (hasHeader : Bool) (calls : List Call) (c : Call) :
    run hasHeader (calls ++ [c]) = (run hasHeader calls).step c := by
  simp [run, List.foldl_append]

theorem added_concat (hasHeader : Bool) (calls : List Call) (c : Call) :
    added hasHeader (calls ++ [c]) = addedBy hasHeader (added hasHeader calls) c := by
  simp [added, List.foldl_append]

theorem turn_concat {earlier : List Call} {d : Call} :
    earlier ++ [d] <+: calls ++ [c] ↔ earlier = calls ∧ d = c ∨ earlier ++ [d] <+: calls := by
  rw [List.prefix_concat_iff, List.append_singleton_inj]

theorem regular_concat :
    Regular hasHeader columns (calls ++ [c]) ↔
      Regular hasHeader columns calls ∧ c.Suits columns (run hasHeader calls) := by
  simp only [Regular, turn_concat]
  constructor
  · intro h
    exact ⟨fun earlier d hd => h earlier d (.inr hd), h calls c (.inl ⟨rfl, rfl⟩)⟩
  · rintro ⟨hcalls, hc⟩ earlier d (⟨rfl, rfl⟩ | hd)
    · exact hc
    · exact hcalls earlier d hd

theorem covered_concat :
    Covered hasHeader columns (calls ++ [c]) ↔
      Covered hasHeader columns calls ∨ c.Covers columns calls (run hasHeader calls) := by
  simp only [Covered, turn_concat]
  constructor
  · rintro ⟨earlier, d, ⟨rfl, rfl⟩ | hd, hcovers⟩
    · exact .inr hcovers
    · exact .inl ⟨earlier, d, hd, hcovers⟩
  · rintro (⟨earlier, d, hd, hcovers⟩ | hc)
    · exact ⟨earlier, d, .inr hd, hcovers⟩
    · exact ⟨calls, c, .inl ⟨rfl, rfl⟩, hc⟩

theorem step_header {row : Bool × List (List Node)} (h : c.row? = some row)
    (hheader : t.isHeaderRow row.1 = true) :
    (t.step c).alignments = headerAlignments t.alignments c.alignments row.2.length := by
  rw [step_place t h, place, if_pos hheader]

theorem step_align {column : Nat} (h : c.column? = some column) :
    (t.step c).alignments.length = max t.alignments.length (column + 1) := by
  cases c with
  | align asked a =>
    obtain rfl := Option.some.inj h
    show (alignColumn t asked a).alignments.length = _
    simp [alignColumn]
    omega
  | _ => cases h

theorem step_alignments (hrow : ∀ row ∈ c.row?, t.isHeaderRow row.1 ≠ true)
    (hcolumn : c.column? = none) : (t.step c).alignments = t.alignments := by
  cases h : c.row? with
  | some row =>
    rw [step_place t h, place, if_neg (hrow row h)]
  | none =>
    cases c with
    | row cells isHeader alignments => rw [step_refused t h]
    | textRow => cases h
    | caption => rfl
    | align => cases hcolumn

theorem length_headerAlignments (known given : List Alignment) (cells : Nat) :
    (headerAlignments known given cells).length =
      if given = [] then if known = [] then cells else known.length else given.length := by
  cases given <;> cases known <;> simp [headerAlignments]

/-- The alignments are as many as the columns from a call on that covers these. Before that they are
fewer, and there are none just when no column was aligned. -/
structure Reaches (hasHeader : Bool) (columns : Nat) (calls : List Call) (t : TableDraft) :
    Prop where
  covered : Covered hasHeader columns calls → t.alignments.length = columns
  short : ¬ Covered hasHeader columns calls → t.alignments.length < columns
  bare : ¬ Covered hasHeader columns calls →
    (t.alignments = [] ↔ ∀ d ∈ calls, d.column? = none)

section Reaches

theorem Reaches.le (h : Reaches hasHeader columns calls t) : t.alignments.length ≤ columns := by
  by_cases hcov : Covered hasHeader columns calls
  · exact Nat.le_of_eq (h.covered hcov)
  · exact Nat.le_of_lt (h.short hcov)

theorem Reaches.of_covered (hcov : Covered hasHeader columns calls)
    (hlength : t.alignments.length = columns) : Reaches hasHeader columns calls t :=
  ⟨fun _ => hlength, fun hno => absurd hcov hno, fun hno => absurd hcov hno⟩

theorem Reaches.kept (h : Reaches hasHeader columns calls t)
    (hcovers : ¬ c.Covers columns calls (run hasHeader calls)) (hcolumn : c.column? = none)
    {next : TableDraft} (hsame : next.alignments = t.alignments) :
    Reaches hasHeader columns (calls ++ [c]) next := by
  have hcovered : Covered hasHeader columns (calls ++ [c]) ↔ Covered hasHeader columns calls := by
    rw [covered_concat, or_iff_left hcovers]
  have hcalls : (∀ d ∈ calls ++ [c], d.column? = none) ↔ ∀ d ∈ calls, d.column? = none := by
    simp [or_imp, forall_and, hcolumn]
  constructor <;> rw [hcovered, hsame]
  · exact h.covered
  · exact h.short
  · rw [hcalls]
    exact h.bare

theorem Reaches.align {column : Nat} (h : Reaches hasHeader columns calls (run hasHeader calls))
    (hcolumn : c.column? = some column) (hinside : column < columns) :
    Reaches hasHeader columns (calls ++ [c]) ((run hasHeader calls).step c) := by
  have hlength := step_align (t := run hasHeader calls) hcolumn
  have hle := h.le
  have hcovers : c.Covers columns calls (run hasHeader calls) ↔ column + 1 = columns := by
    have hrow : c.row? = none := by cases c <;> simp_all [Call.column?, Call.row?]
    simp only [Call.Covers, hrow, hcolumn, Option.some.injEq]
    simp
    omega
  constructor
  · rw [covered_concat, hcovers]
    rintro (hbefore | hlast)
    · have hold := h.covered hbefore
      omega
    · omega
  · rw [covered_concat, hcovers, not_or]
    rintro ⟨hbefore, hlast⟩
    have hold := h.short hbefore
    omega
  · intro _
    have hsome : ((run hasHeader calls).step c).alignments ≠ [] := by
      rw [← List.length_pos_iff]
      omega
    simp [hsome, hcolumn]

theorem Reaches.header {row : Bool × List (List Node)}
    (h : Reaches hasHeader columns calls (run hasHeader calls))
    (hsuits : c.Suits columns (run hasHeader calls)) (hrow : c.row? = some row)
    (hheader : (run hasHeader calls).isHeaderRow row.1 = true) :
    Reaches hasHeader columns (calls ++ [c]) ((run hasHeader calls).step c) := by
  have hcolumn : c.column? = none := by cases c <;> simp_all [Call.column?, Call.row?]
  have hcovers : c.Covers columns calls (run hasHeader calls) ↔
      c.alignments ≠ [] ∨ ∀ d ∈ calls, d.column? = none := by
    simp [Call.Covers, hcolumn, hrow, hheader]
  have halignments := step_header hrow hheader
  have hlength := length_headerAlignments (run hasHeader calls).alignments c.alignments row.2.length
  rw [← halignments, hsuits.cells row hrow] at hlength
  by_cases hgiven : c.alignments = []
  · by_cases hknown : (run hasHeader calls).alignments = []
    · -- The header fills them up. If no call covered the columns before, none was aligned.
      apply Reaches.of_covered _ (by rw [hlength, if_pos hgiven, if_pos hknown])
      rw [covered_concat, hcovers]
      by_cases hbefore : Covered hasHeader columns calls
      · exact .inl hbefore
      · exact .inr (.inr ((h.bare hbefore).1 hknown))
    · have hsame : ((run hasHeader calls).step c).alignments =
          (run hasHeader calls).alignments := by
        simp [halignments, hgiven, headerAlignments, hknown]
      by_cases hbefore : Covered hasHeader columns calls
      · apply Reaches.of_covered (covered_concat.2 (.inl hbefore))
        rw [hsame, h.covered hbefore]
      · apply h.kept _ hcolumn hsame
        rw [hcovers, ← h.bare hbefore]
        simp [hgiven, hknown]
  · apply Reaches.of_covered (covered_concat.2 (.inr (hcovers.2 (.inl hgiven))))
    rw [hlength, if_neg hgiven]
    exact (hsuits.alignments row hrow hheader).resolve_left hgiven

theorem Reaches.other (h : Reaches hasHeader columns calls (run hasHeader calls))
    (hrow : ∀ row ∈ c.row?, (run hasHeader calls).isHeaderRow row.1 ≠ true)
    (hcolumn : c.column? = none) :
    Reaches hasHeader columns (calls ++ [c]) ((run hasHeader calls).step c) := by
  apply h.kept _ hcolumn (step_alignments hrow hcolumn)
  rintro (hlast | ⟨row, hsome, hheader, -⟩)
  · exact nomatch hcolumn.symm.trans hlast
  · exact hrow row hsome hheader

theorem run_reaches (hcolumns : 1 ≤ columns) (h : Regular hasHeader columns calls) :
    Reaches hasHeader columns calls (run hasHeader calls) := by
  induction calls using List.reverseRecOn with
  | nil =>
    have hnever : ¬ Covered hasHeader columns [] := by
      rintro ⟨earlier, c, hturn, -⟩
      exact absurd hturn (by simp)
    constructor
    · exact fun hcovered => absurd hcovered hnever
    · exact fun _ => hcolumns
    · simp [run]
  | append_singleton calls c ih =>
    obtain ⟨hcalls, hsuits⟩ := regular_concat.1 h
    have hreaches := ih hcalls
    rw [run_concat]
    cases hcolumn : c.column? with
    | some column => exact hreaches.align hcolumn (hsuits.column column hcolumn)
    | none =>
      by_cases hheader : ∃ row ∈ c.row?, (run hasHeader calls).isHeaderRow row.1 = true
      · obtain ⟨row, hrow, hheader⟩ := hheader
        exact hreaches.header hsuits hrow hheader
      · exact hreaches.other (fun row hrow hrowHeader => hheader ⟨row, hrow, hrowHeader⟩) hcolumn

end Reaches

theorem added_cells (h : Regular hasHeader columns calls) :
    ∀ r ∈ added hasHeader calls, r.row.children.length = columns := by
  induction calls using List.reverseRecOn with
  | nil => simp [added]
  | append_singleton calls c ih =>
    obtain ⟨hcalls, hsuits⟩ := regular_concat.1 h
    intro r hr
    rw [added_concat, addedBy] at hr
    split at hr
    · exact ih hcalls r hr
    next isHeader contents hrow =>
      rcases List.mem_append.1 hr with hr | hr
      · exact ih hcalls r hr
      · obtain rfl := List.mem_singleton.1 hr
        have hcells := hsuits.cells _ hrow
        simpa [Added.row, Node.plain, Node.children] using hcells

theorem tableFindings_even {known : List Alignment} {cs : List Node} (hne : cs ≠ [])
    (hcells : ∀ n ∈ cs, n.children.length = columns) :
    Node.tableFindings hasHeader known cs =
      Node.findingIf (!known.isEmpty && known.length != columns)
        (.alignmentCount known.length columns) := by
  obtain ⟨first, rest, rfl⟩ := List.exists_cons_of_ne_nil hne
  rw [← hcells first List.mem_cons_self, Node.tableFindings]
  dsimp only
  rw [List.append_left_eq_self, List.filterMap_eq_nil_iff]
  rintro ⟨row, i⟩ hmem
  have hrow : row ∈ first :: rest := by
    have hbody := List.fst_mem_of_mem_zipIdx hmem
    unfold Node.bodyRows at hbody
    split at hbody
    · exact List.mem_of_mem_tail hbody
    · exact hbody
  simp [hcells row hrow, hcells first List.mem_cons_self]

theorem kept_eq_nil {rows : List Added} : kept rows = [] ↔ rows = [] := by
  have hperm := perm_kept rows
  constructor
  · intro h
    have hheaders : headers rows = [] := by simpa [kept] using (List.append_eq_nil_iff.1 h).1
    have hreplaced : replaced rows = [] := by simp [replaced, hheaders]
    rw [h, hreplaced] at hperm
    exact hperm.eq_nil
  · rintro rfl
    rfl

/-- The own findings of a table that is drafted regularly: no more than the number of alignments. -/
theorem ownFindings_drafted (h : Regular hasHeader columns calls) {table : Node}
    (hbuilt : (run hasHeader calls).build.result = .ok table) (o : CheckOptions) :
    table.ownFindings o =
      Node.findingIf (!(added hasHeader calls).isEmpty &&
          !(run hasHeader calls).alignments.isEmpty &&
          (run hasHeader calls).alignments.length != columns)
        (.alignmentCount (run hasHeader calls).alignments.length columns) := by
  have hbuild := (run_holds hasHeader calls).build
  rw [hbuild] at hbuilt
  obtain rfl := Except.ok.inj hbuilt
  show Node.tableFindings _ _ ((kept (added hasHeader calls)).map Added.row) = _
  by_cases hrows : added hasHeader calls = []
  · have hkept : kept (added hasHeader calls) = [] := kept_eq_nil.2 hrows
    rw [hkept, hrows]
    rfl
  · have hkept : (kept (added hasHeader calls)).map Added.row ≠ [] := by
      simpa [kept_eq_nil] using hrows
    have hcells : ∀ n ∈ (kept (added hasHeader calls)).map Added.row,
        n.children.length = columns := by
      intro n hn
      obtain ⟨r, hr, rfl⟩ := List.mem_map.1 hn
      apply added_cells h
      exact (perm_kept _).mem_iff.2 (List.mem_append_left _ hr)
    rw [tableFindings_even hkept hcells]
    have hsome : (added hasHeader calls).isEmpty = false := by simpa using hrows
    rw [hsome]
    rfl

/-- In a table that is drafted with the same number of cells in each row and with no alignment
beyond them, a check finds no fault with the rows. It finds fault with the number of alignments
unless there are no rows, no column was aligned, or some call covered the columns. -/
theorem run_even (hcolumns : 1 ≤ columns) (h : Regular hasHeader columns calls) :
    ∃ table, (run hasHeader calls).build.result = .ok table ∧
      ∀ o, (∀ row cells expected, Finding.rowCells row cells expected ∉ table.ownFindings o) ∧
        (table.ownFindings o = [] ↔
          added hasHeader calls = [] ∨ (∀ c ∈ calls, c.column? = none) ∨
            Covered hasHeader columns calls) := by
  refine ⟨_, (run_holds hasHeader calls).build, fun o => ?_⟩
  rw [ownFindings_drafted h (run_holds hasHeader calls).build]
  obtain ⟨hcovered, hshort, hbare⟩ := run_reaches hcolumns h
  constructor
  · intro row cells expected hmem
    unfold Node.findingIf at hmem
    split at hmem <;> simp at hmem
  · have hnone : (run hasHeader calls).alignments = [] ∨
        (run hasHeader calls).alignments.length = columns ↔
          (∀ c ∈ calls, c.column? = none) ∨ Covered hasHeader columns calls := by
      by_cases hcov : Covered hasHeader columns calls
      · simp [hcov, hcovered hcov]
      · simp [hcov, Nat.ne_of_lt (hshort hcov), hbare hcov]
    rw [← hnone, or_iff_not_imp_left, or_iff_not_imp_left]
    simp [Node.findingIf]

theorem regular_nil : Regular hasHeader columns [] := by
  intro earlier c hturn
  exact absurd hturn (by simp)

def alignedLast : List Call :=
  [.align 1 .right, .textRow [utf8 "a", utf8 "b"] true, .row [[], []] false [.left]]

theorem alignedLast_regular : Regular false 2 alignedLast := by
  have hcalls : alignedLast = (([] ++ [.align 1 .right]) ++ [.textRow [utf8 "a", utf8 "b"] true]) ++
    [.row [[], []] false [.left]] := rfl
  rw [hcalls, regular_concat, regular_concat, regular_concat]
  refine ⟨⟨⟨regular_nil, ?_⟩, ?_⟩, ?_⟩
  · constructor <;> simp [Call.row?, Call.column?]
  · constructor <;> simp [Call.row?, Call.column?, Call.alignments]
  · constructor
    · simp [Call.row?, contents?]
    · intro row hrow
      obtain rfl := Option.some.inj hrow
      exact nofun
    · simp [Call.column?]

theorem alignedLast_run_even :
    Regular false 2 alignedLast ∧
      ∃ table, (run false alignedLast).build.result = .ok table ∧ table.ownFindings {} = [] := by
  refine ⟨alignedLast_regular, ?_⟩
  obtain ⟨table, hbuilt, hfindings⟩ := run_even (by decide) alignedLast_regular
  have hcovered : Covered false 2 alignedLast :=
    ⟨[], .align 1 .right, by simp [alignedLast], .inl rfl⟩
  exact ⟨table, hbuilt, (hfindings {}).2.2 (.inr (.inr hcovered))⟩

def alignedEarly : List Call := [.align 0 .left, .textRow [utf8 "a", utf8 "b"] true]

/-- The header adds no alignment for the second column, and a check finds fault with that. -/
theorem alignedEarly_uneven :
    Regular false 2 alignedEarly ∧
      ∃ table, (run false alignedEarly).build.result = .ok table ∧
        Finding.alignmentCount 1 2 ∈ table.ownFindings {} := by
  constructor
  · have hcalls : alignedEarly =
      ([] ++ [.align 0 .left]) ++ [.textRow [utf8 "a", utf8 "b"] true] := rfl
    rw [hcalls, regular_concat, regular_concat]
    refine ⟨⟨regular_nil, ?_⟩, ?_⟩
    · constructor <;> simp [Call.row?, Call.column?]
    · constructor <;> simp [Call.row?, Call.column?, Call.alignments]
  · refine ⟨_, (run_holds false alignedEarly).build, ?_⟩
    decide

end Folio.TableDraft
