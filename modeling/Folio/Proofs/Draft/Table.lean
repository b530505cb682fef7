import Mathlib.Data.List.Perm.Basic
import Folio.Draft
import Folio.Proofs.Node.Admission

/-!
# The rows of a drafted table

A row is added as the header when that is asked for, and also without being asked for when it is
the first row of a table that is to have a header. The draft has room for one header, so a row
that is added as the header takes the place of an earlier one; all other rows are kept in order.
-/

set_option autoImplicit false

namespace Folio.TableDraft

inductive Call where
  | row (cells : List (List Slot)) (isHeader : Bool) (alignments : List Alignment)
  | textRow (texts : List Bytes) (isHeader : Bool)
  | caption (text : Bytes)
  | align (column : Nat) (a : Alignment)

def Call.apply (t : TableDraft) : Call → Outcome TableDraft
  | .row cells isHeader alignments => t.addRow cells isHeader alignments
  | .textRow texts isHeader => t.addTextRow texts isHeader
  | .caption text => pure (t.setCaption text)
  | .align column a => pure (t.alignColumn column a)

/-- The draft after a call. One that fails leaves the draft as it was. -/
def step (t : TableDraft) (c : Call) : TableDraft :=
  match (c.apply t).result with
  | .ok next => next
  | .error _ => t

def run (hasHeader : Bool) (calls : List Call) : TableDraft := calls.foldl step { hasHeader }

structure Added where
  asHeader : Bool
  contents : List (List Node)

def cell (content : List Node) : Node := Node.plain (.tableCell 1 1 .none) content

def Added.row (r : Added) : Node := Node.plain (.tableRow r.asHeader) (r.contents.map cell)

def contents? (cells : List (List Slot)) : Option (List (List Node)) :=
  if cells.all fun content => content.all Option.isSome then
    some (cells.map fun content => content.filterMap id)
  else none

def Call.row? : Call → Option (Bool × List (List Node))
  | .row cells isHeader _ => (contents? cells).map fun contents => (isHeader, contents)
  | .textRow texts isHeader => some (isHeader, texts.map fun text => [Node.plainText text])
  | .caption _ | .align .. => none

def addedBy (hasHeader : Bool) (rows : List Added) (c : Call) : List Added :=
  match c.row? with
  | none => rows
  | some (isHeader, contents) =>
    rows ++ [⟨isHeader || (hasHeader && rows.all fun r => !r.asHeader), contents⟩]

def added (hasHeader : Bool) (calls : List Call) : List Added :=
  calls.foldl (addedBy hasHeader) []

def headers (rows : List Added) : List Added := rows.filter fun r => r.asHeader

def body (rows : List Added) : List Added := rows.filter fun r => !r.asHeader

theorem map_some_filterMap {slots : List Slot} (h : slots.all Option.isSome = true) :
    (slots.filterMap id).map some = slots := by
  induction slots with
  | nil => rfl
  | cons slot slots ih =>
    cases slot with
    | none => simp at h
    | some n => simpa using ih (by simpa using h)

theorem contents?_eq_some {cells : List (List Slot)} {contents : List (List Node)} :
    contents? cells = some contents ↔ cells = contents.map fun content => content.map some := by
  unfold contents?
  constructor
  · intro h
    split at h
    · next hall =>
      obtain rfl := Option.some.inj h
      have hcontent : ∀ content ∈ cells, id content = (content.filterMap id).map some := fun c hc =>
        (map_some_filterMap (List.all_eq_true.1 hall c hc)).symm
      rw [List.map_map]
      exact (List.map_id cells).symm.trans (List.map_congr_left hcontent)
    · cases h
  · rintro rfl
    simp [Function.comp_def]

theorem buildCells_result (contents : List (List Node)) :
    (buildCells (contents.map fun content => content.map some)).result =
      .ok (contents.map cell) := by
  induction contents with
  | nil => rfl
  | cons content contents ih =>
    have htakes : (Shape.tableCell 1 1 .none).Takes content := trivial
    rw [List.map_cons, buildCells, Outcome.result_bind_ok _ (Node.build_result htakes {}),
      Outcome.result_bind_ok _ ih]
    rfl

theorem buildCells_yields (cells : List (List Slot)) :
    (buildCells cells).Yields fun _ =>
      ∃ contents : List (List Node), cells = contents.map fun content => content.map some := by
  induction cells with
  | nil => exact Outcome.yields_pure ⟨[], rfl⟩
  | cons slots cells ih =>
    have hslots : (Node.build (.tableCell 1 1 .none) {} slots).Yields fun _ =>
        ∃ content : List Node, slots = content.map some := by
      refine Outcome.yields_ofExcept fun n hn => ?_
      obtain ⟨content, hcontent, -⟩ := Node.make_eq_ok.1 hn
      exact ⟨content, hcontent⟩
    refine Outcome.yields_bind hslots fun _ ⟨content, hcontent⟩ => ?_
    refine Outcome.yields_bind ih fun _ ⟨contents, hcontents⟩ => ?_
    exact Outcome.yields_pure ⟨content :: contents, by rw [hcontent, hcontents, List.map_cons]⟩

theorem tableRow_takes (isHeader : Bool) (contents : List (List Node)) :
    (Shape.tableRow isHeader).Takes (contents.map cell) := by
  intro c hc
  obtain ⟨content, -, rfl⟩ := List.mem_map.1 hc
  rfl

def place (t : TableDraft) (isHeader : Bool) (contents : List (List Node))
    (alignments : List Alignment) : TableDraft :=
  let row := Added.row ⟨t.isHeaderRow isHeader, contents⟩
  if t.isHeaderRow isHeader then
    { t with
      header := some row, alignments := headerAlignments t.alignments alignments contents.length }
  else { t with rows := t.rows ++ [row] }

theorem addRow_result (t : TableDraft) (contents : List (List Node)) (isHeader : Bool)
    (alignments : List Alignment) :
    (t.addRow (contents.map fun content => content.map some) isHeader alignments).result =
      .ok (t.place isHeader contents alignments) := by
  have hrow := Node.build_result (tableRow_takes (t.isHeaderRow isHeader) contents) {}
  unfold addRow
  dsimp only
  rw [Outcome.result_bind_ok _ (buildCells_result contents), Outcome.result_bind_ok _ hrow, place,
    List.length_map]
  split <;> rfl

theorem addRow_error (t : TableDraft) {cells : List (List Slot)} (h : contents? cells = none)
    (isHeader : Bool) (alignments : List Alignment) :
    ∃ e, (t.addRow cells isHeader alignments).result = .error e := by
  cases hresult : (t.addRow cells isHeader alignments).result with
  | error e => exact ⟨e, rfl⟩
  | ok next =>
    obtain ⟨built, hbuilt, -⟩ := Outcome.result_bind_eq_ok.1 hresult
    obtain ⟨contents, hcontents⟩ := buildCells_yields cells built hbuilt
    rw [contents?_eq_some.2 hcontents] at h
    cases h

def Call.alignments : Call → List Alignment
  | .row _ _ alignments => alignments
  | _ => []

theorem step_place (t : TableDraft) {c : Call} {isHeader : Bool} {contents : List (List Node)}
    (h : c.row? = some (isHeader, contents)) :
    t.step c = t.place isHeader contents c.alignments := by
  have happly : (c.apply t).result = .ok (t.place isHeader contents c.alignments) := by
    cases c with
    | row cells asked alignments =>
      obtain ⟨found, hfound, hpair⟩ := Option.map_eq_some_iff.1 h
      obtain ⟨rfl, rfl⟩ := Prod.mk.inj hpair
      obtain rfl := contents?_eq_some.1 hfound
      exact t.addRow_result found asked alignments
    | textRow texts asked =>
      obtain ⟨rfl, rfl⟩ := Prod.mk.inj (Option.some.inj h)
      show (t.addTextRow texts asked).result = _
      rw [← addRow_result, List.map_map]
      rfl
    | caption => cases h
    | align => cases h
  rw [TableDraft.step, happly]

/-- A row that has an empty slot leaves the draft as it was. -/
theorem step_refused (t : TableDraft) {cells : List (List Slot)} {isHeader : Bool}
    {alignments : List Alignment} (h : (Call.row cells isHeader alignments).row? = none) :
    t.step (.row cells isHeader alignments) = t := by
  obtain ⟨e, he⟩ := t.addRow_error (Option.map_eq_none_iff.1 h) isHeader alignments
  rw [TableDraft.step, Call.apply, he]

/-- The draft holds the row that was added last as the header, and the rows that were not. -/
structure Holds (hasHeader : Bool) (rows : List Added) (t : TableDraft) : Prop where
  hasHeader : t.hasHeader = hasHeader
  header : t.header = (headers rows).getLast?.map Added.row
  body : t.rows = (body rows).map Added.row

variable {hasHeader : Bool} {rows : List Added} {t : TableDraft}

theorem Holds.isHeaderRow (h : Holds hasHeader rows t) (isHeader : Bool) :
    t.isHeaderRow isHeader = (isHeader || (hasHeader && rows.all fun r => !r.asHeader)) := by
  have hnone : t.header.isNone = rows.all fun r => !r.asHeader := by
    rw [h.header, Bool.eq_iff_iff]
    simp [headers]
  rw [TableDraft.isHeaderRow, h.hasHeader, hnone]

theorem Holds.place (h : Holds hasHeader rows t) (isHeader : Bool) (contents : List (List Node))
    (alignments : List Alignment) :
    Holds hasHeader (rows ++ [⟨t.isHeaderRow isHeader, contents⟩])
      (t.place isHeader contents alignments) := by
  unfold TableDraft.place
  cases hheader : t.isHeaderRow isHeader with
  | true =>
    refine ⟨h.hasHeader, ?_, ?_⟩
    · simp [headers]
    · simpa [TableDraft.body] using h.body
  | false =>
    refine ⟨h.hasHeader, ?_, ?_⟩
    · simpa [headers] using h.header
    · simp [TableDraft.body, h.body]

theorem Holds.step (h : Holds hasHeader rows t) (c : Call) :
    Holds hasHeader (addedBy hasHeader rows c) (t.step c) := by
  rw [addedBy]
  cases hrow : c.row? with
  | some p =>
    obtain ⟨isHeader, contents⟩ := p
    rw [step_place t hrow]
    dsimp only
    rw [← h.isHeaderRow]
    exact h.place isHeader contents c.alignments
  | none =>
    cases c with
    | row cells isHeader alignments =>
      rw [step_refused t hrow]
      exact h
    | textRow => cases hrow
    | caption text => exact ⟨h.hasHeader, h.header, h.body⟩
    | align column a => exact ⟨h.hasHeader, h.header, h.body⟩

theorem run_holds (hasHeader : Bool) (calls : List Call) :
    Holds hasHeader (added hasHeader calls) (run hasHeader calls) := by
  have hrun (calls : List Call) (rows : List Added) (t : TableDraft)
      (h : Holds hasHeader rows t) :
      Holds hasHeader (calls.foldl (addedBy hasHeader) rows) (calls.foldl TableDraft.step t) := by
    induction calls generalizing rows t with
    | nil => exact h
    | cons c calls ih => exact ih _ _ (h.step c)
  exact hrun calls [] { hasHeader } ⟨rfl, rfl, rfl⟩

/-- What a table keeps of the rows: the last header, and the rows that are none. -/
def kept (rows : List Added) : List Added := (headers rows).getLast?.toList ++ body rows

def replaced (rows : List Added) : List Added := (headers rows).dropLast

/-- A table of these rows, each of them in it once, as the header or among the rows, which are in
the order in which they were added. -/
def Complete (rows : List Added) (table : Node) : Prop :=
  ∃ (header : Option Node) (body : List Node) (alignments : List Alignment)
    (caption : Option Bytes),
    table = .mk (.table header.isSome alignments caption) {} (header.toList ++ body) ∧
    (header.toList ++ body).Perm (rows.map Added.row) ∧ body.Sublist (rows.map Added.row)

theorem Holds.build (h : Holds hasHeader rows t) :
    t.build.result =
      .ok (.mk (.table (headers rows).getLast?.isSome t.alignments t.caption) {}
        ((kept rows).map Added.row)) := by
  have hchildren : t.header.toList ++ t.rows = (kept rows).map Added.row := by
    rw [h.header, h.body, kept, List.map_append, Option.toList_map]
  have hsome : t.header.isSome = (headers rows).getLast?.isSome := by
    rw [h.header, Option.isSome_map]
  have htakes : (Shape.table t.header.isSome t.alignments t.caption).Takes
      (t.header.toList ++ t.rows) := by
    refine ⟨fun hheader => ?_, fun c hc => ?_⟩
    · obtain ⟨row, hrow⟩ := Option.isSome_iff_exists.1 hheader
      simp [hrow]
    · rw [hchildren] at hc
      obtain ⟨r, -, rfl⟩ := List.mem_map.1 hc
      rfl
  refine Outcome.result_ofExcept_ok (Node.makeTable_eq_ok.2 ⟨t.rows, rfl, htakes, ?_⟩)
  rw [hchildren, hsome]
  rfl

theorem perm_kept (rows : List Added) : rows.Perm (kept rows ++ replaced rows) := by
  have hheaders : replaced rows ++ (headers rows).getLast?.toList = headers rows := by
    unfold replaced
    cases hlast : (headers rows).getLast? with
    | none => simp [List.getLast?_eq_none_iff.1 hlast]
    | some r => exact List.dropLast_append_getLast? r hlast
  calc rows.Perm (headers rows ++ body rows) := (List.filter_append_perm _ rows).symm
    _ = replaced rows ++ kept rows := by rw [kept, ← List.append_assoc, hheaders]
    List.Perm _ (kept rows ++ replaced rows) := List.perm_append_comm

theorem complete_iff (rows : List Added) (alignments : List Alignment) (caption : Option Bytes) :
    Complete rows (.mk (.table (headers rows).getLast?.isSome alignments caption) {}
      ((kept rows).map Added.row)) ↔ (headers rows).length ≤ 1 := by
  have hlength := (perm_kept rows).length_eq
  rw [List.length_append, replaced, List.length_dropLast] at hlength
  constructor
  · rintro ⟨header, body, alignments', caption', htable, hperm, -⟩
    have hchildren : (kept rows).map Added.row = header.toList ++ body :=
      congrArg Node.children htable
    rw [← hchildren] at hperm
    have hkept := hperm.length_eq
    rw [List.length_map, List.length_map] at hkept
    omega
  · intro hone
    have hnone : replaced rows = [] := by
      rw [replaced, ← List.length_eq_zero_iff, List.length_dropLast]
      omega
    have hperm := (perm_kept rows).symm.map Added.row
    rw [hnone, List.append_nil] at hperm
    refine ⟨(headers rows).getLast?.map Added.row, (body rows).map Added.row, alignments, caption,
      ?_, ?_, ?_⟩
    · rw [kept, List.map_append, Option.toList_map, Option.isSome_map]
    · rwa [kept, List.map_append, ← Option.toList_map] at hperm
    · exact List.filter_sublist.map Added.row

/-- However a table is drafted, it can be built, of all rows but the headers that were replaced.
So it is complete just when no second header was added, asked for or not. -/
theorem run_builds (hasHeader : Bool) (calls : List Call) :
    ∃ table, (run hasHeader calls).build.result = .ok table ∧
      table.children = (kept (added hasHeader calls)).map Added.row ∧
      (added hasHeader calls).Perm
        (kept (added hasHeader calls) ++ replaced (added hasHeader calls)) ∧
      (Complete (added hasHeader calls) table ↔ (headers (added hasHeader calls)).length ≤ 1) :=
  ⟨_, (run_holds hasHeader calls).build, rfl, perm_kept _, complete_iff _ _ _⟩

def headedTwice : List Call := [.textRow [utf8 "a"] false, .textRow [utf8 "b"] true]

/-- The first row is lost to the header that comes after it. -/
theorem headedTwice_loses_row :
    ∃ table, (run true headedTwice).build.result = .ok table ∧
      table.children = [Added.row ⟨true, [[Node.plainText (utf8 "b")]]⟩] ∧
      added true headedTwice =
        [⟨true, [[Node.plainText (utf8 "a")]]⟩, ⟨true, [[Node.plainText (utf8 "b")]]⟩] ∧
      ¬ Complete (added true headedTwice) table := by
  refine ⟨_, (run_holds true headedTwice).build, rfl, rfl, ?_⟩
  rw [complete_iff]
  decide

end Folio.TableDraft
