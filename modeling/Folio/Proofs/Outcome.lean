import Mathlib.Data.List.Forall2
import Folio.Outcome

/-!
# Results and alarms of outcomes

What an operation returns, whatever it writes into the log on its way. A chain of
operations returns what its last step returns, and a property of results passes
along the chain, which ends in the first failure on its way. What the log gets at the
level of errors adds up along the chain, as far as that goes.
-/

set_option autoImplicit false

namespace Folio

theorem except_bind_eq_ok {ε α β : Type} {x : Except ε α} {f : α → Except ε β} {b : β} :
    x >>= f = .ok b ↔ ∃ a, x = .ok a ∧ f a = .ok b := by
  cases x <;> simp [bind, Except.bind]

theorem except_check_eq_ok {ε β : Type} {x : Except ε Unit} {y : Except ε β} {b : β} :
    (x >>= fun _ => y) = .ok b ↔ x = .ok () ∧ y = .ok b := by
  cases x <;> simp [bind, Except.bind]

theorem except_pure_eq_ok {ε α : Type} {a b : α} : (pure a : Except ε α) = .ok b ↔ a = b := by
  simp [pure, Except.pure]

namespace Outcome

variable {α β : Type}

/-- Whatever the operation returns has the property; it may also fail. -/
def Yields (x : Outcome α) (P : α → Prop) : Prop := ∀ a, x.result = .ok a → P a

def Succeeds (x : Outcome α) : Prop := ∃ a, x.result = .ok a

theorem result_bind_ok {x : Outcome α} {a : α} (f : α → Outcome β) (h : x.result = .ok a) :
    (x >>= f).result = (f a).result := by
  rw [result_bind, h]
  rfl

theorem result_bind_error {x : Outcome α} {e : Failure} (f : α → Outcome β)
    (h : x.result = .error e) : (x >>= f).result = .error e := by
  rw [result_bind, h]
  rfl

theorem result_map (f : α → β) (x : Outcome α) : (f <$> x).result = f <$> x.result := by
  show (x >>= fun a => Pure.pure (f a)).result = _
  rw [result_bind]
  cases x.result <;> rfl

theorem result_map_ok {x : Outcome α} {a : α} (f : α → β) (h : x.result = .ok a) :
    (f <$> x).result = .ok (f a) :=
  result_bind_ok (fun a => Pure.pure (f a)) h

theorem result_bind_eq_ok {x : Outcome α} {f : α → Outcome β} {b : β} :
    (x >>= f).result = .ok b ↔ ∃ a, x.result = .ok a ∧ (f a).result = .ok b := by
  rw [result_bind]
  exact except_bind_eq_ok

@[simp] theorem result_debug_bind (subject : Subject) (text : Bytes) (f : Unit → Outcome β) :
    (debug subject text >>= f).result = (f ()).result := rfl

@[simp] theorem result_write_bind (severity : Log.Severity) (subject : Subject) (text : Bytes)
    (f : Unit → Outcome β) : (write severity subject text >>= f).result = (f ()).result := rfl

theorem yields_pure {P : α → Prop} {a : α} (h : P a) : Yields (Pure.pure a) P := by
  rintro _ ⟨⟩
  exact h

theorem yields_raise (P : α → Prop) (f : Failure) : Yields (raise f) P := by
  rintro _ ⟨⟩

theorem yields_bind {P : α → Prop} {Q : β → Prop} {x : Outcome α} {f : α → Outcome β}
    (hx : x.Yields P) (hf : ∀ a, P a → (f a).Yields Q) : (x >>= f).Yields Q := by
  intro b hb
  obtain ⟨a, ha, hb⟩ := result_bind_eq_ok.1 hb
  exact hf a (hx a ha) b hb

theorem yields_after {Q : β → Prop} {x : Outcome α} {f : α → Outcome β}
    (hf : ∀ a, (f a).Yields Q) : (x >>= f).Yields Q :=
  yields_bind (P := fun _ => True) (fun _ _ => trivial) fun a _ => hf a

theorem yields_map {P : β → Prop} {x : Outcome α} {f : α → β}
    (h : x.Yields fun a => P (f a)) : (f <$> x).Yields P :=
  yields_bind h fun _ ha => yields_pure ha

theorem result_ofExcept_ok {ε : Type} {cause : ε → Failure} {x : Except ε α} {a : α}
    (h : x = .ok a) : (ofExcept cause x).result = .ok a := by
  rw [h]
  rfl

theorem yields_ofExcept {ε : Type} {P : α → Prop} {cause : ε → Failure} {x : Except ε α}
    (h : ∀ a, x = .ok a → P a) : (ofExcept cause x).Yields P := by
  cases x with
  | ok a => exact yields_pure (h a rfl)
  | error e => exact yields_raise P (cause e)

theorem yields_sequence {γ : Type} {P : α → Prop} {f : γ → Outcome α} {cs : List γ}
    (h : ∀ c ∈ cs, (f c).Yields P) : (sequence (cs.map f)).Yields fun as => ∀ a ∈ as, P a := by
  induction cs with
  | nil => exact yields_pure (by simp)
  | cons c cs ih =>
    obtain ⟨hc, hcs⟩ := List.forall_mem_cons.1 h
    refine yields_bind hc ?_
    intro a ha
    refine yields_bind (ih hcs) ?_
    intro as has
    exact yields_pure (List.forall_mem_cons.2 ⟨ha, has⟩)

theorem yields_recover {P : α → Prop} {x : Outcome α} {handler : Failure → Outcome α}
    (hx : x.Yields P) (hh : ∀ e, (handler e).Yields P) : (x.recover handler).Yields P := by
  intro a ha
  unfold recover at ha
  cases h : x.result with
  | ok b => exact hx a (by simpa [h] using ha)
  | error e => exact hh e a (by simpa [h] using ha)

theorem result_recover_ok {x : Outcome α} {a : α} (handler : Failure → Outcome α)
    (h : x.result = .ok a) : (x.recover handler).result = .ok a := by
  simp [recover, h]

theorem result_sequence_forall₂ {xs : List (Outcome α)} {as : List α}
    (h : List.Forall₂ (fun x a => x.result = .ok a) xs as) : (sequence xs).result = .ok as := by
  induction h with
  | nil => rfl
  | @cons x a xs as ha _ ih =>
    show (x >>= fun a => sequence xs >>= fun as => pure (a :: as)).result = _
    rw [result_bind_ok _ ha, result_bind_ok _ ih]
    rfl

theorem result_sequence_eq_ok {xs : List (Outcome α)} {as : List α} :
    (sequence xs).result = .ok as ↔ List.Forall₂ (fun x a => x.result = .ok a) xs as := by
  refine ⟨fun h => ?_, result_sequence_forall₂⟩
  induction xs generalizing as with
  | nil =>
    obtain rfl := Except.ok.inj h
    exact .nil
  | cons x xs ih =>
    obtain ⟨a, ha, hrest⟩ := result_bind_eq_ok.1 h
    obtain ⟨rest, hxs, has⟩ := result_bind_eq_ok.1 hrest
    obtain rfl := Except.ok.inj has
    exact .cons ha (ih hxs)

theorem result_sequence {f : α → Outcome β} {g : α → β} {as : List α}
    (h : ∀ a ∈ as, (f a).result = .ok (g a)) :
    (sequence (as.map f)).result = .ok (as.map g) :=
  result_sequence_forall₂
    (List.forall₂_map_left_iff.2 (List.forall₂_map_right_iff.2 (List.forall₂_same.2 h)))

theorem exists_sequence {P : α → β → Prop} {f : α → Outcome β} {as : List α}
    (h : ∀ a ∈ as, ∃ b, (f a).result = .ok b ∧ P a b) :
    ∃ bs, (sequence (as.map f)).result = .ok bs ∧ List.Forall₂ P as bs := by
  induction as with
  | nil => exact ⟨[], rfl, .nil⟩
  | cons a as ih =>
    obtain ⟨⟨b, hb, hP⟩, has⟩ := List.forall_mem_cons.1 h
    obtain ⟨bs, hbs, hall⟩ := ih has
    exact ⟨b :: bs, result_sequence_eq_ok.2 (.cons hb (result_sequence_eq_ok.1 hbs)),
      .cons hP hall⟩

def failure? (x : Outcome α) : Option Failure :=
  match x.result with
  | .ok _ => none
  | .error e => some e

theorem failure?_eq_some {x : Outcome α} {e : Failure} :
    x.failure? = some e ↔ x.result = .error e := by
  unfold failure?
  cases x.result <;> simp

theorem failure?_eq_none {x : Outcome α} : x.failure? = none ↔ ∃ a, x.result = .ok a := by
  unfold failure?
  cases x.result <;> simp

section FailsOr

-- A result that is known up to the failure that may stand in its place.
variable {x : Outcome α} {o : Option Failure} {a : α} (h : x.result = o.elim (.ok a) .error)
include h

theorem failure?_of_result : x.failure? = o := by
  unfold failure?
  rw [h]
  cases o <;> rfl

theorem yields_of_result : x.Yields (· = a) := by
  intro b hb
  rw [h] at hb
  cases o with
  | none => exact (Except.ok.inj hb).symm
  | some e => exact nomatch hb

theorem result_map_or (f : α → β) : (f <$> x).result = o.elim (.ok (f a)) .error := by
  cases o with
  | none => exact result_map_ok f h
  | some e => exact result_bind_error (fun a => Pure.pure (f a)) h

end FailsOr

theorem failure?_bind_some {x : Outcome α} {e : Failure} (f : α → Outcome β)
    (h : x.failure? = some e) : (x >>= f).failure? = some e :=
  failure?_eq_some.2 (result_bind_error f (failure?_eq_some.1 h))

theorem failure?_bind_ok {x : Outcome α} {a : α} (f : α → Outcome β) (h : x.result = .ok a) :
    (x >>= f).failure? = (f a).failure? := by
  unfold failure?
  rw [result_bind_ok f h]

theorem failure?_bind {x : Outcome α} {f : α → Outcome β} {o : Option Failure}
    (h : ∀ a, x.result = .ok a → (f a).failure? = o) : (x >>= f).failure? = x.failure?.or o := by
  cases hx : x.failure? with
  | some e => exact failure?_bind_some f hx
  | none =>
    obtain ⟨a, ha⟩ := failure?_eq_none.1 hx
    exact (failure?_bind_ok f ha).trans (h a ha)

theorem failure?_map (f : α → β) (x : Outcome α) : (f <$> x).failure? = x.failure? := by
  have hmap : (x >>= fun a => Pure.pure (f a)).failure? = x.failure?.or none :=
    failure?_bind fun _ _ => rfl
  exact hmap.trans Option.or_none

theorem failure?_sequence (xs : List (Outcome α)) :
    (sequence xs).failure? = xs.findSome? failure? := by
  induction xs with
  | nil => rfl
  | cons x xs ih =>
    have hrest (a : α) : (sequence xs >>= fun as => pure (a :: as)).failure? =
        xs.findSome? failure? := (failure?_map (a :: ·) (sequence xs)).trans ih
    show (x >>= fun a => sequence xs >>= fun as => pure (a :: as)).failure? = _
    rw [failure?_bind fun a _ => hrest a, List.findSome?_cons]
    cases x.failure? <;> rfl

/-- The operation returns something that has the property, or it fails with the code. -/
def Answers (P : α → Prop) (code : Code) (x : Outcome α) : Prop :=
  x.Yields P ∧ ∀ e, x.result = .error e → e.code = code

theorem answers_pure {P : α → Prop} {a : α} (h : P a) (code : Code) :
    Answers P code (Pure.pure a) := by
  refine ⟨yields_pure h, ?_⟩
  rintro _ ⟨⟩

theorem answers_raise (P : α → Prop) (f : Failure) : Answers P f.code (raise f) := by
  refine ⟨yields_raise P f, ?_⟩
  rintro _ ⟨⟩
  rfl

theorem answers_map {P : β → Prop} {code : Code} {x : Outcome α} {f : α → β}
    (h : x.Answers (fun a => P (f a)) code) : (f <$> x).Answers P code := by
  refine ⟨yields_map h.1, fun e he => h.2 e ?_⟩
  cases hx : x.result with
  | ok a => exact nomatch (result_map_ok f hx).symm.trans he
  | error e' =>
    have hmap : (f <$> x).result = .error e' := result_bind_error _ hx
    rw [Except.error.inj (hmap.symm.trans he)]

/-- The entries of a run at the level of errors. -/
def alarms (x : Outcome α) : List Entry := x.journal.filter fun l => l.severity = .error

theorem alarms_bind_ok {x : Outcome α} {a : α} (f : α → Outcome β) (h : x.result = .ok a) :
    (x >>= f).alarms = x.alarms ++ (f a).alarms := by
  obtain ⟨journal, result⟩ := x
  obtain rfl : result = .ok a := h
  exact List.filter_append ..

theorem alarms_bind_error {x : Outcome α} {e : Failure} (f : α → Outcome β)
    (h : x.result = .error e) : (x >>= f).alarms = x.alarms := by
  obtain ⟨journal, result⟩ := x
  obtain rfl : result = .error e := h
  rfl

@[simp] theorem alarms_raise (f : Failure) : (raise f : Outcome α).alarms = reports f := by
  rw [alarms, raise, reports]
  split <;> rfl

def alarmsOf (subject : Subject) (x : Outcome α) : List Entry :=
  x.journal.filter fun l => l.severity = .error ∧ l.subject = subject

theorem alarmsOf_eq (subject : Subject) (x : Outcome α) :
    x.alarmsOf subject = x.alarms.filter fun l => l.subject = subject := by
  simp [alarmsOf, alarms, List.filter_filter, Bool.and_comm]

end Outcome
end Folio
