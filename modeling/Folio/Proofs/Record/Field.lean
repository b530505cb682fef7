import Folio.Proofs.Node.Built
import Folio.Record.Reader
import Folio.Record.Writer

/-!
# Fields of a record

A field of an object made from a list of fields is the last one of its name in the
list. Every reader of a record, also one that goes down into the members, depends
on the members through the values of its fields alone. It returns what was there when
the field holds what the writer of records puts there, also for the fields that are left
out. A place reads back from its own record when its metadata is an object.
-/

set_option autoImplicit false

namespace Folio

@[simp] theorem utf8_inj {s t : String} : utf8 s = utf8 t ↔ s = t := by
  constructor
  · intro h
    have hdata : s.toUTF8.data = t.toUTF8.data := Array.toList_inj.1 h
    exact String.toByteArray_inj.1 (ByteArray.ext hdata)
  · exact congrArg utf8

namespace Members

theorem get?_foldl (name : Bytes) (fields : List (Bytes × Value)) (members : Members) :
    get? name (fields.foldl (fun ms f => insert f.1 f.2 ms) members) =
      (get? name (ofList fields)).or (get? name members) := by
  induction fields generalizing members with
  | nil => simp [ofList, get?]
  | cons f fields ih =>
    rw [ofList, List.foldl_cons, List.foldl_cons, ih, ih (insert f.1 f.2 []), get?_insert,
      get?_insert]
    by_cases hf : f.1 = name <;> simp [hf, get?]

theorem ofList_eq (fields : List (Bytes × Value)) :
    ofList fields = fields.foldl (fun ms f => insert f.1 f.2 ms) [] := rfl

@[simp] theorem get?_ofList_nil (name : Bytes) : get? name (ofList []) = none := rfl

@[simp] theorem get?_ofList_cons (name : Bytes) (f : Bytes × Value)
    (fields : List (Bytes × Value)) :
    get? name (ofList (f :: fields)) =
      (get? name (ofList fields)).or (if f.1 = name then some f.2 else none) := by
  rw [ofList_eq, List.foldl_cons, get?_foldl, get?_insert]
  rfl

@[simp] theorem get?_ofList_append (name : Bytes) (fields others : List (Bytes × Value)) :
    get? name (ofList (fields ++ others)) =
      (get? name (ofList others)).or (get? name (ofList fields)) := by
  rw [ofList_eq (fields ++ others), List.foldl_append, get?_foldl, ofList_eq fields]

end Members

namespace Record

theorem nodeAt?_eq (field : Bytes) (members : Members) :
    nodeAt? field members =
      match members.get? field with
      | none | some .null => pure none
      | some v => some <$> node v := by
  induction members with
  | nil => rfl
  | cons m members ih =>
    obtain ⟨k, v⟩ := m
    by_cases h : k = field
    · cases v <;> simp [nodeAt?, Members.get?, h]
    · cases v <;> simp [nodeAt?, Members.get?, h, ih]

theorem nodeAt_eq (kind : Kind) (field : Bytes) (members : Members) :
    nodeAt kind field members =
      match members.get? field with
      | none => refuse (.missing kind.name field)
      | some v => node v := by
  induction members with
  | nil => simp [nodeAt, Members.get?]
  | cons m members ih =>
    obtain ⟨k, v⟩ := m
    by_cases h : k = field
    · simp [nodeAt, Members.get?, h]
    · simpa [nodeAt, Members.get?, h] using ih

theorem nodesAt_eq (kind : Kind) (field : Bytes) (members : Members) :
    nodesAt kind field members =
      match members.get? field with
      | none => refuse (.missing kind.name field)
      | some (.arr vs) => nodes vs
      | some _ => refuse (.fieldType kind.name field .array) := by
  induction members with
  | nil => simp [nodesAt, Members.get?]
  | cons m members ih =>
    obtain ⟨k, v⟩ := m
    by_cases h : k = field
    · cases v <;> simp [nodesAt, Members.get?, h]
    · cases v <;> simp [nodesAt, Members.get?, h, ih]

theorem entriesAt_eq (kind : Kind) (field : Bytes) (members : Members) :
    entriesAt kind field members =
      match members.get? field with
      | none => refuse (.missing kind.name field)
      | some (.arr vs) => entries kind vs
      | some _ => refuse (.fieldType kind.name field .array) := by
  induction members with
  | nil => simp [entriesAt, Members.get?]
  | cons m members ih =>
    obtain ⟨k, v⟩ := m
    by_cases h : k = field
    · cases v <;> simp [entriesAt, Members.get?, h]
    · cases v <;> simp [entriesAt, Members.get?, h, ih]

end Record

@[simp] theorem Members.get?_ofList_optional {α : Type} (name key : Bytes) (f : α → Value)
    (o : Option α) :
    get? name (ofList (o.map fun a => (key, f a)).toList) =
      if key = name then o.map f else none := by
  cases o <;> simp

namespace Record

section
variable {owner field : Bytes} {members : Members}

theorem integerValue_toInt (n : Int32) : integerValue owner field (.int n.toInt) = pure n := by
  have hmin : Bytes.minNumber ≤ n.toInt := n.minValue_le_toInt
  have hmax : n.toInt ≤ Bytes.maxNumber := n.toInt_le
  simp [integerValue, Value.integer?, Option.filter, isNumber, hmin, hmax]

theorem string_result {s : Bytes} (h : members.get? field = some (.str s)) :
    (string owner field members).result = .ok s := by
  simp [string, h]

theorem string?_result {s : Option Bytes} (h : members.get? field = s.map .str) :
    (string? owner field members).result = .ok s := by
  cases s <;> simp [string?, h]

theorem integer_result {n : Int32} (h : members.get? field = some (.int n.toInt)) :
    (integer owner field members).result = .ok n := by
  simp [integer, h, integerValue_toInt]

theorem integer?_result {n : Option Int32} (h : members.get? field = n.map fun n => .int n.toInt) :
    (integer? owner field members).result = .ok n := by
  cases n with
  | none => simp [integer?, h]
  | some n =>
    simp only [integer?, h, Option.map_some, integerValue_toInt]
    rfl

theorem integerOr_result {n fallback : Int32} (h : members.get? field = some (.int n.toInt)) :
    (integerOr fallback owner field members).result = .ok n :=
  Outcome.result_map_ok _ (integer?_result (n := some n) h)

theorem boolOr_result {b fallback : Bool} (h : members.get? field = some (.bool b)) :
    (boolOr fallback owner field members).result = .ok b := by
  simp [boolOr, h]

theorem metadata_result {v : Value} (hv : v.isObject = true)
    (h : members.get? (utf8 "metadata") = some v ∨
      members.get? (utf8 "metadata") = none ∧ v = .empty) :
    (metadata owner members).result = .ok v := by
  rcases h with h | ⟨h, rfl⟩
  · cases v with
    | obj ms => simp [metadata, h]
    | _ => cases hv
  · simp [metadata, h]

theorem status_result {status : TaskStatus}
    (h : members.get? (utf8 "task_status") =
      if status = .none then none else some (.str status.name)) :
    (Record.status members).result = .ok status := by
  by_cases hs : status = .none
  · rw [if_pos hs] at h
    rw [Record.status, Outcome.result_bind_ok _ (string?_result (s := none) h), hs]
    rfl
  · rw [if_neg hs] at h
    rw [Record.status, Outcome.result_bind_ok _ (string?_result (s := some status.name) h)]
    simp [TaskStatus.ofName?_name]

theorem alignmentNamed_name (kind : Kind) (alignment : Alignment) :
    alignmentNamed kind alignment.name = pure alignment := by
  simp [alignmentNamed, Alignment.ofName?_name]

theorem cellAlignment_result {alignment : Alignment}
    (h : members.get? (utf8 "alignment") =
      if alignment = .none then none else some (.str alignment.name)) :
    (cellAlignment members).result = .ok alignment := by
  by_cases ha : alignment = .none
  · rw [if_pos ha] at h
    rw [cellAlignment, Outcome.result_bind_ok _ (string?_result (s := none) h), ha]
    rfl
  · rw [if_neg ha] at h
    rw [cellAlignment, Outcome.result_bind_ok _ (string?_result (s := some alignment.name) h)]
    simp [alignmentNamed_name]

theorem alignments_result {as : List Alignment}
    (h : members.get? (utf8 "alignments") =
      if as.isEmpty then none else some (.arr (as.map fun a => .str a.name))) :
    (alignments members).result = .ok as := by
  cases as with
  | nil => simp_all [alignments]
  | cons a as =>
    simp only [List.isEmpty_cons, Bool.false_eq_true, ↓reduceIte] at h
    have hread : ∀ b ∈ a :: as,
        ((columnAlignment ∘ fun c => Value.str c.name) b).result = .ok (id b) :=
      fun b _ => by simp [columnAlignment, alignmentNamed_name]
    simpa [alignments, h] using Outcome.result_sequence hread

theorem fence_result {b : UInt8} (h : members.get? (utf8 "fence_char") = some (.str [b])) :
    (fence members).result = .ok b := by
  simp [fence, h]

theorem representationsFrom_result (reps : List (Bytes × Bytes)) :
    (representationsFrom owner (reps.map fun r => (r.1, .str r.2))).result = .ok reps := by
  induction reps with
  | nil => rfl
  | cons r reps ih =>
    rw [List.map_cons, representationsFrom, Outcome.result_bind_ok _ ih]
    rfl

theorem representations_result {reps : List (Bytes × Bytes)}
    (h : members.get? (utf8 "representations") =
      if reps.isEmpty then none else some (.obj (reps.map fun r => (r.1, .str r.2)))) :
    (representations owner members).result = .ok reps := by
  cases reps with
  | nil => simp_all [representations]
  | cons r reps =>
    simp only [List.isEmpty_cons, Bool.false_eq_true, ↓reduceIte] at h
    rw [representations, h]
    exact representationsFrom_result (r :: reps)

end

theorem location_toRecord {l : Location} (h : l.metadata.isObject = true) :
    (location l.toRecord).result = .ok l := by
  rw [Location.toRecord, Value.object]
  generalize hms : Members.ofList _ = ms
  obtain ⟨hformat, hpage, hline, hcolumn, helement, hmeta⟩ :
      ms.get? (utf8 "format") = some (.str l.format) ∧
      ms.get? (utf8 "page") = l.page.map (fun n => .int n.toInt) ∧
      ms.get? (utf8 "line") = l.line.map (fun n => .int n.toInt) ∧
      ms.get? (utf8 "column") = l.column.map (fun n => .int n.toInt) ∧
      ms.get? (utf8 "element_id") = l.elementId.map .str ∧
      (ms.get? (utf8 "metadata") = some l.metadata ∨
        ms.get? (utf8 "metadata") = none ∧ l.metadata = .empty) := by
    rw [← hms]
    cases hm : l.metadata with
    | obj members => cases members <;> simp [Value.empty]
    | _ => simp [hm, Value.isObject] at h
  rw [location, Outcome.result_bind_ok _ (string_result hformat),
    Outcome.result_bind_ok _ (integer?_result hpage),
    Outcome.result_bind_ok _ (integer?_result hline),
    Outcome.result_bind_ok _ (integer?_result hcolumn),
    Outcome.result_bind_ok _ (string?_result helement),
    Outcome.result_bind_ok _ (metadata_result h hmeta)]
  rfl

theorem attrs_result {owner : Bytes} {members : Members} {a : Attrs} (ha : a.Objects)
    (hmeta : members.get? (utf8 "metadata") = some a.metadata)
    (hloc : members.get? (utf8 "source_location") = a.location.map Location.toRecord) :
    (attrs owner members).result = .ok a := by
  rw [attrs, Outcome.result_bind_ok _ (metadata_result ha.1 (.inl hmeta)), hloc]
  obtain ⟨metadata, location⟩ := a
  cases location with
  | none => rfl
  | some l =>
    have hl := location_toRecord (ha.2 l rfl)
    cases hr : l.toRecord with
    | obj ms =>
      simp only [Option.map_some, hr] at hl ⊢
      rw [Outcome.result_bind_ok _ hl]
      rfl
    | _ => cases hr

end Record

end Folio
