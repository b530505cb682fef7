import Folio.Proofs.Bytes.Numeral
import Folio.Proofs.Record.Course
import Folio.Proofs.Record.Reading

/-!
# Records that are refused

A record is refused when the check of its node fails. That ends the reading of all the
records around it with one fault, which names the kind of the refused record and quotes the
check, and the log gets two lines: that of the check, and that of the fault.

A message is cut at the first NUL of its text. The message of a failed check of a node holds
names of kinds, fixed words and numbers, none of which has a NUL, so it stands in full, also
when the fault of a record quotes it.
-/

set_option autoImplicit false

namespace Folio

namespace Bytes

theorem nul_notMem_ofInt (n : Int) : 0 ∉ ofInt n := by
  cases n with
  | ofNat n => exact nul_notMem_ofNat n
  | negSucc n => simpa [ofInt] using nul_notMem_ofNat (n + 1)

end Bytes

theorem Kind.nul_notMem_name (kind : Kind) : 0 ∉ kind.name := by
  cases kind <;> decide

theorem Role.nul_notMem_name (role : Role) : 0 ∉ role.name := by
  cases role <;> decide

theorem NodeFault.nul_notMem_message (cause : NodeFault) : 0 ∉ cause.message := by
  have hwords : ∀ s ∈ [" child ", " is null", " ", " must be ", ", got ", "Document child ",
      " must be a block node, got ", "Heading level must be between 1 and 6, got ",
      "Table header must be TableRow, got ", "DefinitionList item ",
      " must start with a DefinitionTerm"], 0 ∉ utf8 s := by decide
  cases cause <;>
    simp [message, Kind.nul_notMem_name, Role.nul_notMem_name, Bytes.nul_notMem_ofNat,
      Bytes.nul_notMem_ofInt, hwords]

namespace Failure

theorem message_node (cause : NodeFault) : (node cause).message = cause.message :=
  Bytes.untilNul_eq_self cause.nul_notMem_message

theorem message_rejected (kind : Kind) (cause : NodeFault) :
    (record (.rejected kind cause)).message =
      kind.name ++ utf8 ": " ++ (node cause).message := by
  have hcolon : 0 ∉ utf8 ": " := by decide
  rw [message_node]
  apply Bytes.untilNul_eq_self
  simp [text, RecordFault.message, kind.nul_notMem_name, cause.nul_notMem_message, hcolon]

end Failure

/-- The lines that tell of a fault at the level of errors; a failed check is told of first. -/
def RecordFault.alarms : RecordFault → List Entry
  | .rejected kind cause =>
    Outcome.reports (.node cause) ++ Outcome.reports (.record (.rejected kind cause))
  | fault => Outcome.reports (.record fault)

theorem RecordFault.alarms_own {fault : RecordFault} (h : (Failure.record fault).Own) :
    fault.alarms = Outcome.reports (.record fault) := by
  cases fault with
  | rejected => exact h.elim
  | _ => rfl

namespace Record

/-- The reading returns without alarm, or fails with a fault and the alarms that tell of it. -/
inductive Accounted (x : Outcome Node) : Prop
  | returns (n : Node) (result : x.result = .ok n) (quiet : x.alarms = [])
  | fails (fault : RecordFault) (result : x.result = .error (.record fault))
      (told : x.alarms = fault.alarms)

theorem Accounted.of_ok {x : Outcome Node} {n : Node} (hx : Accounted x)
    (h : x.result = .ok n) : x.alarms = [] := by
  cases hx with
  | returns _ _ quiet => exact quiet
  | fails fault result _ => simp [h] at result

theorem Accounted.of_error {x : Outcome Node} {e : Failure} (hx : Accounted x)
    (h : x.result = .error e) : ∃ fault, e = .record fault ∧ x.alarms = fault.alarms := by
  cases hx with
  | returns n result _ => simp [h] at result
  | fails fault result told => exact ⟨fault, Except.error.inj (h.symm.trans result), told⟩

section
variable {x : Outcome Node} (kind : Kind)

theorem rejectAs_ok {n : Node} (h : x.result = .ok n) : rejectAs kind x = x := by
  simp [rejectAs, Outcome.recover, h]

theorem rejectAs_node {cause : NodeFault} (h : x.result = .error (.node cause)) :
    (rejectAs kind x).result = .error (.record (.rejected kind cause)) ∧
      (rejectAs kind x).alarms = x.alarms ++ Outcome.reports (.record (.rejected kind cause)) := by
  constructor
  · simp [rejectAs, Outcome.recover, h, refuse, Outcome.raise]
  · have hraise := Outcome.alarms_raise (α := Node) (.record (.rejected kind cause))
    simp only [rejectAs, Outcome.recover, h, refuse, Outcome.alarms, List.filter_append] at hraise ⊢
    rw [hraise]

theorem rejectAs_record {fault : RecordFault} (h : x.result = .error (.record fault)) :
    rejectAs kind x = x := by
  obtain ⟨journal, result⟩ := x
  obtain rfl : result = .error (.record fault) := h
  simp [rejectAs, Outcome.recover, Outcome.fail]

end

theorem assemble_node_course (kind : Kind) {members : Members}
    (h : ∀ w, Beneath members w → Accounted (node w)) :
    Course (Beneath members) node fun r => assemble kind members (.reading r kind members) := by
  refine assemble_course kind (Below.reads_reading ?_ fun _ hw => hw)
  intro w hw n hn
  exact (h w hw).of_ok hn

theorem Accounted.rejectAs (kind : Kind) {S : Value → Prop} {X : Reader → Outcome Node}
    (hX : Course S node X) (h : ∀ w, S w → Accounted (node w)) :
    Accounted (rejectAs kind (X node)) := by
  cases hX with
  | returns n result quiet =>
    have hok := result node (.refl node)
    rw [rejectAs_ok kind hok]
    exact .returns n hok quiet
  | fails e own result reported =>
    have herror := result node (.refl node)
    cases e with
    | node cause =>
      obtain ⟨hresult, halarms⟩ := rejectAs_node kind herror
      exact .fails _ hresult (by rw [halarms, reported]; rfl)
    | record fault =>
      rw [rejectAs_record kind herror]
      exact .fails fault herror (by rw [reported, RecordFault.alarms_own own])
    | _ => exact own.elim
  | passes w e mem failed result handed =>
    obtain ⟨fault, rfl, told⟩ := (h w mem).of_error failed
    have herror := result node (.refl node) _ failed
    rw [rejectAs_record kind herror]
    exact .fails fault herror (handed.trans told)

theorem node_accounted (v : Value) : Accounted (node v) := by
  induction v using induct with
  | refused v fault own hv =>
    rw [hv]
    exact .fails fault rfl ((Outcome.alarms_raise _).trans (RecordFault.alarms_own own).symm)
  | named kind members names ih =>
    rw [node_named names]
    exact .rejectAs kind (assemble_node_course kind ih) ih

theorem assemble_node_ends (kind : Kind) (members : Members) :
    Course (Beneath members) node fun r => assemble kind members (.reading r kind members) :=
  assemble_node_course kind fun w _ => node_accounted w

/-- Reading the fields of a record comes as far as the record `w` and ends there: whatever
failure takes the place of reading `w` is the failure of the whole. -/
def EndsAt (kind : Kind) (members : Members) (w : Value) : Prop :=
  ∀ e, (assemble kind members
    (.reading (Function.update node w (.fail e)) kind members)).result = .error e

/-- Reading the record comes to a record of the given kind, itself or one beneath it at any
depth, whose fields are read and whose node then fails its check. -/
inductive Refused (kind : Kind) (cause : NodeFault) : Value → Prop
  | here {members : Members} (names : Names members kind)
      (check : (assemble kind members (.reading node kind members)).result =
        .error (.node cause)) : Refused kind cause (.obj members)
  | beneath {owner : Kind} {members : Members} {w : Value} (names : Names members owner)
      (endsAt : EndsAt owner members w) (refused : Refused kind cause w) :
      Refused kind cause (.obj members)

theorem EndsAt.result {kind : Kind} {members : Members} {w : Value} {e : Failure}
    (h : EndsAt kind members w) (hw : (node w).result = .error e) :
    (assemble kind members (.reading node kind members)).result = .error e := by
  have hagrees (f : Failure) : Agrees node (Function.update node w (.fail f)) :=
    agrees_update hw (.fail f)
  -- A failure that no reading ends in by itself shows that it was `w` that ended this one.
  have hprobe := h (.refused [])
  cases assemble_node_ends kind members with
  | returns n result _ => simp [result _ (hagrees (.refused []))] at hprobe
  | fails f own result _ =>
    obtain rfl := Except.error.inj ((result _ (hagrees (.refused []))).symm.trans hprobe)
    exact own.elim
  | passes u f _ failed result _ =>
    by_cases hu : u = w
    · subst hu
      obtain rfl := Except.error.inj (failed.symm.trans hw)
      exact result node (.refl node) f failed
    · have hfailed : (Function.update node w (.fail (.refused [])) u).result = .error f := by
        rwa [Function.update_of_ne hu]
      obtain rfl :=
        Except.error.inj ((result _ (hagrees (.refused [])) f hfailed).symm.trans hprobe)
      obtain ⟨fault, hfault, -⟩ := (node_accounted u).of_error failed
      cases hfault

theorem Refused.result {kind : Kind} {cause : NodeFault} {v : Value} (h : Refused kind cause v) :
    (node v).result = .error (.record (.rejected kind cause)) := by
  induction h with
  | here names check =>
    rw [node_named names]
    exact (rejectAs_node kind check).1
  | beneath names endsAt refused ih =>
    have hassemble := endsAt.result ih
    rw [node_named names, rejectAs_record _ hassemble, hassemble]

theorem refused_of_result {kind : Kind} {cause : NodeFault} (v : Value)
    (h : (node v).result = .error (.record (.rejected kind cause))) : Refused kind cause v := by
  induction v using induct with
  | refused v fault own hv =>
    obtain rfl : fault = .rejected kind cause := by simpa [hv, refuse, Outcome.raise] using h
    exact own.elim
  | named owner members names ih =>
    rw [node_named names] at h
    cases assemble_node_ends owner members with
    | returns n result _ =>
      have hok := result node (.refl node)
      simp [rejectAs_ok owner hok, hok] at h
    | fails e own result _ =>
      have herror := result node (.refl node)
      cases e with
      | node check =>
        obtain ⟨rfl, rfl⟩ : owner = kind ∧ check = cause := by
          simpa [(rejectAs_node owner herror).1] using h
        exact .here names herror
      | record fault =>
        obtain rfl : fault = .rejected kind cause := by
          simpa [rejectAs_record owner herror, herror] using h
        exact own.elim
      | _ => exact own.elim
    | passes w e mem failed result _ =>
      obtain ⟨fault, rfl, -⟩ := (node_accounted w).of_error failed
      have herror := result node (.refl node) _ failed
      obtain rfl : fault = .rejected kind cause := by
        simpa [rejectAs_record owner herror, herror] using h
      refine .beneath names ?_ (ih w mem failed)
      intro f
      exact result _ (agrees_update failed (.fail f)) f (by rw [Function.update_self]; rfl)

theorem refused_iff {kind : Kind} {cause : NodeFault} {v : Value} :
    Refused kind cause v ↔ (node v).result = .error (.record (.rejected kind cause)) :=
  ⟨Refused.result, refused_of_result v⟩

end Record

namespace Node

/-- Any value is read into a tree of checked nodes with objects for metadata, or refused. A check
that fails, on whatever record, comes out as one fault with the kind of that record before it. -/
theorem ofRecord_refusals (v : Value) :
    (∀ n, (ofRecord v).result = .ok n →
      n.All fun m => m.Checked ∧ m.attrs.metadata.isObject = true) ∧
    (∀ e, (ofRecord v).result = .error e → e.code = .serializationError) ∧
    (∀ kind cause, Record.Refused kind cause v → ∃ e, (ofRecord v).result = .error e ∧
      e.message = kind.name ++ utf8 ": " ++ (Failure.node cause).message ∧
      (ofRecord v).alarmsOf .json =
        [⟨.error, .json, Code.serializationError.name ++ utf8 ": " ++ e.message⟩]) ∧
    ((ofRecord v).alarmsOf .node ≠ [] → ∃ kind cause, Record.Refused kind cause v) := by
  refine ⟨?_, ?_, ?_, ?_⟩
  · intro n hn m hm
    obtain ⟨hchecked, hobjects⟩ := Record.node_yields v n hn m hm
    exact ⟨hchecked, hobjects.1⟩
  · intro e he
    obtain ⟨fault, rfl, -⟩ := (Record.node_accounted v).of_error he
    rfl
  · intro kind cause hrefused
    have hresult := hrefused.result
    obtain ⟨_, ⟨⟩, told⟩ := (Record.node_accounted v).of_error hresult
    refine ⟨_, hresult, Failure.message_rejected kind cause, ?_⟩
    rw [Outcome.alarmsOf_eq, ofRecord, told]
    rfl
  · intro halarm
    rw [Outcome.alarmsOf_eq] at halarm
    cases Record.node_accounted v with
    | returns n _ quiet => simp [ofRecord, quiet] at halarm
    | fails fault hfault told =>
      rw [ofRecord, told] at halarm
      cases fault with
      | rejected kind cause => exact ⟨kind, cause, Record.refused_iff.2 hfault⟩
      | _ => exact (halarm rfl).elim

def misplaced : Value :=
  .object [(utf8 "node_type", .str (utf8 "Document")), (utf8 "children", .arr [
    .object [(utf8 "node_type", .str (utf8 "BlockQuote")), (utf8 "children", .arr [
      .object [(utf8 "node_type", .str (utf8 "List")), (utf8 "items", .arr [
        .object [(utf8 "node_type", .str (utf8 "Paragraph")), (utf8 "content", .arr [])]])]])]])]

/-- The fault names the list, two records down, and neither the quote nor the document. -/
theorem misplaced_ofRecord_refusals :
    Record.Refused .list (.wrongKind .item 0 .paragraph) misplaced ∧
      ∃ e, (ofRecord misplaced).result = .error e ∧ e.code = .serializationError ∧
        e.message = utf8 "List: List item 0 must be ListItem, got Paragraph" ∧
        (ofRecord misplaced).alarmsOf .json = [⟨.error, .json,
          utf8 "serialization_error: List: List item 0 must be ListItem, got Paragraph"⟩] := by
  obtain ⟨-, hcode, hfault, -⟩ := ofRecord_refusals misplaced
  have hrefused : Record.Refused .list (.wrongKind .item 0 .paragraph) misplaced :=
    Record.refused_iff.2 rfl
  obtain ⟨e, he, hmessage, halarms⟩ := hfault _ _ hrefused
  have hwords : Kind.list.name ++ utf8 ": " ++
      (Failure.node (.wrongKind .item 0 .paragraph)).message =
      utf8 "List: List item 0 must be ListItem, got Paragraph" := by decide
  rw [hwords] at hmessage
  refine ⟨hrefused, e, he, hcode e he, hmessage, ?_⟩
  rw [halarms, hmessage]
  decide

end Node

end Folio
