import Folio.Proofs.Outcome
import Folio.Record.Field

/-!
# Faults of a record's own fields

What the reading of plain fields and the building of a node leave in the log at the level
of errors: nothing when they return, and one line, that of the failure itself, when they
fail. None of them makes a failed check a fault of the record; that is left to the reader
of the whole record.
-/

set_option autoImplicit false

namespace Folio

/-- The failures that a record's own fields, or its building, can end in. -/
def Failure.Own : Failure → Prop
  | .record (.rejected ..) => False
  | .record _ | .node _ => True
  | _ => False

namespace Outcome

variable {α β : Type}

/-- A run that reports its own failure and nothing else. -/
inductive Plain (x : Outcome α) : Prop
  | returns (a : α) (result : x.result = .ok a) (quiet : x.alarms = [])
  | fails (e : Failure) (own : e.Own) (result : x.result = .error e)
      (reported : x.alarms = reports e)

theorem Plain.pure (a : α) : Plain (Pure.pure a) := .returns a rfl rfl

theorem Plain.raise {f : Failure} (h : f.Own) : (raise f : Outcome α).Plain :=
  .fails f h rfl (alarms_raise f)

theorem Plain.bind {x : Outcome α} {f : α → Outcome β} (hx : x.Plain) (hf : ∀ a, (f a).Plain) :
    (x >>= f).Plain := by
  cases hx with
  | fails e own result reported =>
    exact .fails e own (result_bind_error f result) ((alarms_bind_error f result).trans reported)
  | returns a result quiet =>
    have halarms := alarms_bind_ok f result
    rw [quiet, List.nil_append] at halarms
    cases hf a with
    | returns b resultB quietB =>
      exact .returns b ((result_bind_ok f result).trans resultB) (halarms.trans quietB)
    | fails e own resultB reported =>
      exact .fails e own ((result_bind_ok f result).trans resultB) (halarms.trans reported)

theorem Plain.map {x : Outcome α} (f : α → β) (hx : x.Plain) : (f <$> x).Plain :=
  hx.bind fun a => .pure (f a)

theorem Plain.sequence {xs : List (Outcome α)} (h : ∀ x ∈ xs, x.Plain) :
    (sequence xs).Plain := by
  induction xs with
  | nil => exact .pure []
  | cons x xs ih =>
    obtain ⟨hx, hxs⟩ := List.forall_mem_cons.1 h
    exact hx.bind fun a => (ih hxs).bind fun as => .pure (a :: as)

theorem Plain.ofExcept (x : Except NodeFault α) : (ofExcept .node x).Plain := by
  cases x with
  | ok a => exact .pure a
  | error e => exact .raise trivial

end Outcome

namespace Record

open Outcome (Plain)

variable (owner field : Bytes) (members : Members)

theorem string_plain : (string owner field members).Plain := by
  rw [string]
  split
  · exact .raise trivial
  · exact .pure _
  · exact .raise trivial

theorem string?_plain : (string? owner field members).Plain := by
  rw [string?]
  split
  · exact .pure _
  · exact .pure _
  · exact .pure _
  · exact .raise trivial

theorem integerValue_plain (v : Value) : (integerValue owner field v).Plain := by
  unfold integerValue
  split
  · exact .pure _
  · exact .raise trivial

theorem integer_plain : (integer owner field members).Plain := by
  rw [integer]
  split
  · exact .raise trivial
  · exact integerValue_plain owner field _

theorem integer?_plain : (integer? owner field members).Plain := by
  rw [integer?]
  split
  · exact .pure _
  · exact .pure _
  · exact (integerValue_plain owner field _).map some

theorem integerOr_plain (fallback : Int32) : (integerOr fallback owner field members).Plain :=
  (integer?_plain owner field members).map _

theorem boolOr_plain (fallback : Bool) : (boolOr fallback owner field members).Plain := by
  rw [boolOr]
  split
  · exact .pure _
  · exact .pure _
  · exact .pure _
  · exact .raise trivial

theorem metadata_plain : (metadata owner members).Plain := by
  rw [metadata]
  split
  · exact .pure _
  · exact .pure _
  · exact .pure _
  · exact .raise trivial

theorem location_plain (v : Value) : (location v).Plain := by
  cases v with
  | obj members =>
    exact (string_plain _ _ members).bind fun _ => (integer?_plain _ _ members).bind fun _ =>
      (integer?_plain _ _ members).bind fun _ => (integer?_plain _ _ members).bind fun _ =>
        (string?_plain _ _ members).bind fun _ => (metadata_plain _ members).bind fun _ => .pure _
  | _ => exact .raise trivial

theorem attrs_plain : (attrs owner members).Plain := by
  refine (metadata_plain owner members).bind ?_
  intro note
  split
  · exact .pure _
  · exact .pure _
  · exact (location_plain _).bind fun _ => .pure _

theorem status_plain : (status members).Plain := by
  refine (string?_plain _ _ members).bind ?_
  intro name
  split
  · exact .pure _
  · split
    · exact .pure _
    · exact .raise trivial

theorem alignmentNamed_plain (kind : Kind) (name : Bytes) : (alignmentNamed kind name).Plain := by
  rw [alignmentNamed]
  split
  · exact .pure _
  · exact .raise trivial

theorem cellAlignment_plain : (cellAlignment members).Plain := by
  refine (string?_plain _ _ members).bind ?_
  intro name
  split
  · exact .pure _
  · exact alignmentNamed_plain _ _

theorem columnAlignment_plain (v : Value) : (columnAlignment v).Plain := by
  unfold columnAlignment
  split
  · exact alignmentNamed_plain _ _
  · exact .pure _

theorem alignments_plain : (alignments members).Plain := by
  rw [alignments]
  split
  · exact .pure _
  · exact .pure _
  · apply Plain.sequence
    intro x hx
    obtain ⟨v, -, rfl⟩ := List.mem_map.1 hx
    exact columnAlignment_plain v
  · exact .raise trivial

theorem fence_plain : (fence members).Plain := by
  rw [fence]
  split
  · exact .pure _
  · exact .pure _
  · exact .raise trivial
  · exact .raise trivial

theorem representationsFrom_plain (ms : Members) : (representationsFrom owner ms).Plain := by
  induction ms with
  | nil => exact .pure _
  | cons m ms ih =>
    obtain ⟨dialect, v⟩ := m
    cases v with
    | str s => exact ih.bind fun _ => .pure _
    | _ => exact .raise trivial

theorem representations_plain : (representations owner members).Plain := by
  rw [representations]
  split
  · exact .pure _
  · exact .pure _
  · exact representationsFrom_plain owner _
  · exact .raise trivial

theorem formula_plain : (formula owner members).Plain :=
  (representations_plain owner members).bind fun _ => (string?_plain owner _ members).bind fun _ =>
    (string_plain owner _ members).bind fun _ => .pure _

end Record

namespace Node

open Outcome (Plain)

theorem build_plain (shape : Shape) (attrs : Attrs) (slots : List Slot) :
    (build shape attrs slots).Plain :=
  .ofExcept _

theorem buildHeading_plain (level : Int32) (attrs : Attrs) (slots : List Slot) :
    (buildHeading level attrs slots).Plain :=
  .ofExcept _

theorem buildTable_plain (header : Slot) (rows : List Slot) (alignments : List Alignment)
    (caption : Option Bytes) (attrs : Attrs) :
    (buildTable header rows alignments caption attrs).Plain :=
  .ofExcept _

theorem buildDefinitionList_plain (entries : List DefinitionEntry) (attrs : Attrs) :
    (buildDefinitionList entries attrs).Plain :=
  .ofExcept _

theorem buildAnyHeading_plain (level : Int32) (attrs : Attrs) (slots : List Slot) :
    (buildAnyHeading level attrs slots).Plain := by
  rw [buildAnyHeading]
  split
  · exact build_plain _ attrs slots
  · exact Plain.bind (.returns () rfl rfl) fun _ => build_plain _ attrs slots

end Node
end Folio
