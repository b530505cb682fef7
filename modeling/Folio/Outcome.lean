import Folio.Failure

/-!
# Outcomes

What running an operation leaves: the log entries that it wrote, in order, and a
result or the failure that ended it. An operation that fails stops there, and keeps
the entries that it had written.
-/

set_option autoImplicit false

namespace Folio

structure Entry where
  severity : Log.Severity
  subject : Subject
  text : Bytes
  deriving DecidableEq

def Entry.line (e : Entry) : Bytes := Log.line e.severity.rank e.subject.name e.text

structure Outcome (α : Type) where
  journal : List Entry
  result : Except Failure α

namespace Outcome

variable {α β γ : Type}

def pure (a : α) : Outcome α := ⟨[], .ok a⟩

def bind (x : Outcome α) (f : α → Outcome β) : Outcome β :=
  match x.result with
  | .ok a => ⟨x.journal ++ (f a).journal, (f a).result⟩
  | .error e => ⟨x.journal, .error e⟩

instance : Monad Outcome where
  pure := pure
  bind := bind

/-- Fails without a word in the log. -/
def fail (f : Failure) : Outcome α := ⟨[], .error f⟩

def write (severity : Log.Severity) (subject : Subject) (text : Bytes) : Outcome Unit :=
  ⟨[⟨severity, subject, text⟩], .ok ()⟩

def debug (subject : Subject) (text : Bytes) : Outcome Unit := write .debug subject text

def reports (f : Failure) : List Entry :=
  match f.subject? with
  | some subject => [⟨.error, subject, f.code.name ++ utf8 ": " ++ f.message⟩]
  | none => []

/-- Fails, and reports the failure. -/
def raise (f : Failure) : Outcome α := ⟨reports f, .error f⟩

def ofExcept {ε : Type} (cause : ε → Failure) : Except ε α → Outcome α
  | .ok a => pure a
  | .error e => raise (cause e)

/-- Runs an operation whose failure is a result to go on with. -/
def attempt (x : Outcome α) : Outcome (Except Failure α) := ⟨x.journal, .ok x.result⟩

def recover (x : Outcome α) (handler : Failure → Outcome α) : Outcome α :=
  match x.result with
  | .ok _ => x
  | .error e => ⟨x.journal ++ (handler e).journal, (handler e).result⟩

def sequence : List (Outcome α) → Outcome (List α)
  | [] => pure []
  | x :: xs => bind x fun a => bind (sequence xs) fun as => pure (a :: as)

@[simp] theorem pure_eq (a : α) : (Pure.pure a : Outcome α) = ⟨[], .ok a⟩ := rfl

@[simp] theorem bind_ok (journal : List Entry) (a : α) (f : α → Outcome β) :
    (⟨journal, .ok a⟩ : Outcome α) >>= f = ⟨journal ++ (f a).journal, (f a).result⟩ := rfl

@[simp] theorem bind_error (journal : List Entry) (e : Failure) (f : α → Outcome β) :
    (⟨journal, .error e⟩ : Outcome α) >>= f = ⟨journal, .error e⟩ := rfl

theorem result_bind (x : Outcome α) (f : α → Outcome β) :
    (x >>= f).result = x.result.bind fun a => (f a).result := by
  obtain ⟨journal, result⟩ := x
  cases result <;> rfl

theorem bind_assoc (x : Outcome α) (f : α → Outcome β) (g : β → Outcome γ) :
    x >>= f >>= g = x >>= fun a => f a >>= g := by
  obtain ⟨journal, result⟩ := x
  cases result with
  | error e => rfl
  | ok a =>
    cases h : f a with
    | mk fj fr => cases fr <;> simp [h, List.append_assoc]

end Outcome
end Folio
