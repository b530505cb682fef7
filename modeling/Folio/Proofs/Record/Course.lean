import Mathlib.Logic.Function.Basic
import Folio.Proofs.Record.Level

/-!
# The course of reading one record

A record is read with a reader for the records beneath it. Those are read one after the
other, and the first that cannot be read ends the whole with its own failure, whatever that
is; what the log holds at the level of errors is then what reading that one left there. The
reader matters through the records it returns and through that one failure alone.
-/

set_option autoImplicit false

namespace Folio.Record

/-- The other reader returns what this one returns; where this one fails it may do anything. -/
def Agrees (r r' : Reader) : Prop := ∀ w n, (r w).result = .ok n → (r' w).result = .ok n

theorem Agrees.refl (r : Reader) : Agrees r r := fun _ _ h => h

theorem agrees_update {r : Reader} {w : Value} {e : Failure} (h : (r w).result = .error e)
    (x : Outcome Node) : Agrees r (Function.update r w x) := by
  intro u n hn
  have hne : u ≠ w := by
    rintro rfl
    simp [h] at hn
  rwa [Function.update_of_ne hne]

/-- The ends that reading with a reader can come to. The records are from a set `S`; one that
ends the reading hands over its failure and its alarms. -/
inductive Course {α : Type} (S : Value → Prop) (r : Reader) (X : Reader → Outcome α) : Prop
  | returns (a : α) (result : ∀ r', Agrees r r' → (X r').result = .ok a)
      (quiet : (X r).alarms = [])
  | fails (e : Failure) (own : e.Own) (result : ∀ r', Agrees r r' → (X r').result = .error e)
      (reported : (X r).alarms = Outcome.reports e)
  | passes (w : Value) (e : Failure) (mem : S w) (failed : (r w).result = .error e)
      (result : ∀ r', Agrees r r' → ∀ f, (r' w).result = .error f → (X r').result = .error f)
      (handed : (X r).alarms = (r w).alarms)

def Quiet (S : Value → Prop) (r : Reader) : Prop :=
  ∀ w, S w → ∀ n, (r w).result = .ok n → (r w).alarms = []

section
variable {S : Value → Prop} {r : Reader} {α β : Type}

theorem Course.plain {x : Outcome α} (h : x.Plain) : Course S r fun _ => x := by
  cases h with
  | returns a result quiet => exact .returns a (fun _ _ => result) quiet
  | fails e own result reported => exact .fails e own (fun _ _ => result) reported

theorem Course.bind {X : Reader → Outcome α} {F : α → Reader → Outcome β} (hX : Course S r X)
    (hF : ∀ a, Course S r (F a)) : Course S r fun r => X r >>= fun a => F a r := by
  cases hX with
  | fails e own result reported =>
    refine .fails e own ?_ ?_
    · intro r' h
      exact Outcome.result_bind_error _ (result r' h)
    · exact (Outcome.alarms_bind_error _ (result r (.refl r))).trans reported
  | passes w e mem failed result handed =>
    refine .passes w e mem failed ?_ ?_
    · intro r' h f hf
      exact Outcome.result_bind_error _ (result r' h f hf)
    · exact (Outcome.alarms_bind_error _ (result r (.refl r) e failed)).trans handed
  | returns a result quiet =>
    have hresult : ∀ r', Agrees r r' → (X r' >>= fun a => F a r').result = (F a r').result :=
      fun r' h => Outcome.result_bind_ok _ (result r' h)
    have halarms : (X r >>= fun a => F a r).alarms = (F a r).alarms := by
      rw [Outcome.alarms_bind_ok _ (result r (.refl r)), quiet, List.nil_append]
    cases hF a with
    | returns b resultF quietF =>
      exact .returns b (fun r' h => (hresult r' h).trans (resultF r' h)) (halarms.trans quietF)
    | fails e own resultF reported =>
      exact .fails e own (fun r' h => (hresult r' h).trans (resultF r' h))
        (halarms.trans reported)
    | passes w e mem failed resultF handed =>
      exact .passes w e mem failed (fun r' h f hf => (hresult r' h).trans (resultF r' h f hf))
        (halarms.trans handed)

theorem Course.after {x : Outcome α} {F : α → Reader → Outcome β} (hx : x.Plain)
    (hF : ∀ a, Course S r (F a)) : Course S r fun r => x >>= fun a => F a r :=
  Course.bind (.plain hx) hF

theorem Course.map {X : Reader → Outcome α} (f : α → β) (hX : Course S r X) :
    Course S r fun r => f <$> X r :=
  hX.bind fun a => .plain (.pure (f a))

theorem Course.read (hr : Quiet S r) {w : Value} (hw : S w) : Course S r fun r => r w := by
  cases h : (r w).result with
  | ok n => exact .returns n (fun r' hr' => hr' w n h) (hr w hw n h)
  | error e => exact .passes w e hw h (fun _ _ _ hf => hf) rfl

theorem Course.sequence {γ : Type} {F : γ → Reader → Outcome α} {cs : List γ}
    (h : ∀ c ∈ cs, Course S r (F c)) : Course S r fun r => .sequence (cs.map fun c => F c r) := by
  induction cs with
  | nil => exact .plain (.pure [])
  | cons c cs ih =>
    obtain ⟨hc, hcs⟩ := List.forall_mem_cons.1 h
    exact hc.bind fun a => (ih hcs).bind fun as => .plain (.pure (a :: as))

end

section
variable {S : Value → Prop} {r : Reader} {kind : Kind} {members : Members}

theorem recordAt_course (hr : Quiet S r) (hS : ∀ w, Beneath members w → S w)
    (field : Bytes) : Course S r fun r => recordAt r kind field members := by
  unfold recordAt
  split
  · exact .plain (.raise trivial)
  · next w h => exact .read hr (hS w (Members.sizeOf_get? h))

theorem listAt_course (hr : Quiet S r) (hS : ∀ w, Beneath members w → S w)
    (field : Bytes) : Course S r fun r => listAt r kind field members := by
  unfold listAt
  split
  · exact .plain (.raise trivial)
  · next ws h =>
    apply Course.sequence
    intro w hw
    exact .read hr (hS w (Members.sizeOf_mem_get? h hw))
  · exact .plain (.raise trivial)

theorem entry_course (hr : Quiet S r) {v : Value} (hS : ∀ w, sizeOf w < sizeOf v → S w) :
    Course S r fun r => entry r kind v := by
  cases v with
  | obj members =>
    have hmembers : ∀ w, Beneath members w → S w := fun w hw => hS w (by simp; omega)
    exact (recordAt_course hr hmembers _).bind fun _ => (listAt_course hr hmembers _).bind fun _ =>
      .plain (.pure _)
  | _ => exact .plain (.raise trivial)

end

structure Below.Reads (S : Value → Prop) (r : Reader) (below : Reader → Below) : Prop where
  node? : ∀ field, Course S r fun r => (below r).node? field
  nodes : ∀ field, Course S r fun r => (below r).nodes field
  entries : ∀ field, Course S r fun r => (below r).entries field

theorem Below.reads_reading {S : Value → Prop} {r : Reader} {kind : Kind} {members : Members}
    (hr : Quiet S r) (hS : ∀ w, Beneath members w → S w) :
    Below.Reads S r fun r => .reading r kind members where
  node? field := by
    unfold reading
    dsimp only
    split
    · exact .plain (.pure none)
    · exact .plain (.pure none)
    · next w _ h => exact (Course.read hr (hS w (Members.sizeOf_get? h))).map some
  nodes field := listAt_course hr hS field
  entries field := by
    unfold reading
    dsimp only
    split
    · exact .plain (.raise trivial)
    · next vs h =>
      apply Course.sequence
      intro v hv
      exact entry_course hr fun w hw => hS w (Nat.lt_trans hw (Members.sizeOf_mem_get? h hv))
    · exact .plain (.raise trivial)

section
variable {S : Value → Prop} {r : Reader} {members : Members} {below : Reader → Below}

theorem container_course (s : Shape) (field : Bytes) (h : Below.Reads S r below) :
    Course S r fun r => container s field members (below r) :=
  .after (attrs_plain _ members) fun _ => (h.nodes field).bind fun _ =>
    .plain (Node.build_plain _ _ _)

theorem literal_plain (kind : Kind) (field : Bytes) (shape : Bytes → Shape) :
    (literal kind field shape members).Plain :=
  (attrs_plain _ members).bind fun _ => (string_plain _ _ members).bind fun _ =>
    Node.build_plain _ _ _

theorem math_plain (kind : Kind) (shape : Formula → Shape) : (math kind shape members).Plain :=
  (attrs_plain _ members).bind fun _ => (formula_plain _ members).bind fun _ =>
    Node.build_plain _ _ _

theorem heading_course (h : Below.Reads S r below) :
    Course S r fun r => heading members (below r) := by
  refine .after (integer_plain _ _ members) ?_
  intro level
  split
  · exact .after (attrs_plain _ members) fun _ => (h.nodes _).bind fun _ =>
      .plain (Node.buildHeading_plain _ _ _)
  · exact .after (.returns () rfl rfl) fun _ => .after (attrs_plain _ members) fun _ =>
      (h.nodes _).bind fun _ => .plain (Node.buildAnyHeading_plain _ _ _)

theorem codeBlock_plain : (codeBlock members).Plain :=
  (fence_plain members).bind fun _ => (attrs_plain _ members).bind fun _ =>
    (integerOr_plain _ _ members 3).bind fun _ => (string?_plain _ _ members).bind fun _ =>
      (string_plain _ _ members).bind fun _ => Node.build_plain _ _ _

theorem list_course (h : Below.Reads S r below) : Course S r fun r => list members (below r) :=
  .after (attrs_plain _ members) fun _ => .after (boolOr_plain _ _ members true) fun _ =>
    .after (integerOr_plain _ _ members 1) fun _ => (h.nodes _).bind fun _ =>
      .after (boolOr_plain _ _ members false) fun _ => .plain (Node.build_plain _ _ _)

theorem listItem_course (h : Below.Reads S r below) :
    Course S r fun r => listItem members (below r) :=
  .after (status_plain members) fun _ => container_course _ _ h

theorem table_course (h : Below.Reads S r below) : Course S r fun r => table members (below r) :=
  (h.node? _).bind fun _ => .after (alignments_plain members) fun _ =>
    .after (attrs_plain _ members) fun _ => .after (string?_plain _ _ members) fun _ =>
      (h.nodes _).bind fun _ => .plain (Node.buildTable_plain _ _ _ _ _)

theorem tableRow_course (h : Below.Reads S r below) :
    Course S r fun r => tableRow members (below r) :=
  .after (attrs_plain _ members) fun _ => .after (boolOr_plain _ _ members false) fun _ =>
    (h.nodes _).bind fun _ => .plain (Node.build_plain _ _ _)

theorem tableCell_course (h : Below.Reads S r below) :
    Course S r fun r => tableCell members (below r) :=
  .after (cellAlignment_plain members) fun _ => .after (attrs_plain _ members) fun _ =>
    .after (integerOr_plain _ _ members 1) fun _ =>
      .after (integerOr_plain _ _ members 1) fun _ =>
        (h.nodes _).bind fun _ => .plain (Node.build_plain _ _ _)

theorem footnoteDefinition_course (h : Below.Reads S r below) :
    Course S r fun r => footnoteDefinition members (below r) :=
  .after (attrs_plain _ members) fun _ => (h.nodes _).bind fun _ =>
    .after (string_plain _ _ members) fun _ => .plain (Node.build_plain _ _ _)

theorem definitionList_course (h : Below.Reads S r below) :
    Course S r fun r => definitionList members (below r) :=
  (h.entries _).bind fun _ => .after (attrs_plain _ members) fun _ =>
    .plain (Node.buildDefinitionList_plain _ _)

theorem link_course (h : Below.Reads S r below) : Course S r fun r => link members (below r) :=
  .after (attrs_plain _ members) fun _ => .after (string?_plain _ _ members) fun _ =>
    (h.nodes _).bind fun _ => .after (string_plain _ _ members) fun _ =>
      .plain (Node.build_plain _ _ _)

theorem image_plain : (image members).Plain :=
  (attrs_plain _ members).bind fun _ => (integer?_plain _ _ members).bind fun _ =>
    (integer?_plain _ _ members).bind fun _ => (string?_plain _ _ members).bind fun _ =>
      (string?_plain _ _ members).bind fun _ => (string_plain _ _ members).bind fun _ =>
        Node.build_plain _ _ _

theorem thematicBreak_plain : (thematicBreak members).Plain :=
  (attrs_plain _ members).bind fun _ => Node.build_plain _ _ _

theorem lineBreak_plain : (lineBreak members).Plain :=
  (attrs_plain _ members).bind fun _ => (boolOr_plain _ _ members false).bind fun _ =>
    Node.build_plain _ _ _

theorem assemble_course (kind : Kind) (h : Below.Reads S r below) :
    Course S r fun r => assemble kind members (below r) := by
  cases kind with
  | document | paragraph | blockQuote | definitionTerm | definitionDescription | emphasis | strong
  | strikethrough | underline | superscript | subscript => exact container_course _ _ h
  | htmlBlock | comment | text | code | htmlInline | commentInline | footnoteReference =>
    exact .plain (literal_plain _ _ _)
  | mathBlock | mathInline => exact .plain (math_plain _ _)
  | heading => exact heading_course h
  | codeBlock => exact .plain codeBlock_plain
  | list => exact list_course h
  | listItem => exact listItem_course h
  | table => exact table_course h
  | tableRow => exact tableRow_course h
  | tableCell => exact tableCell_course h
  | thematicBreak => exact .plain thematicBreak_plain
  | footnoteDefinition => exact footnoteDefinition_course h
  | definitionList => exact definitionList_course h
  | link => exact link_course h
  | image => exact .plain image_plain
  | lineBreak => exact .plain lineBreak_plain

end

end Folio.Record
