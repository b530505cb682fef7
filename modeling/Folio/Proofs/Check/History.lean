import Mathlib.Data.List.DropRight
import Folio.Proofs.Check.Run

/-!
# A validator in use

A validator goes on from one tree to the next, whether a check ran to its end or not, until it is
reset. So what it has noted is given by the trees that it has checked since: all their findings,
up to the number that it may list, or for a strict one the findings that its checks ended with.
-/

set_option autoImplicit false

namespace Folio

namespace Validator

inductive Use where
  | check (n : Node)
  | reset

def Use.tree? : Use → Option Node
  | check n => some n
  | reset => none

def sinceReset (uses : List Use) : List Node :=
  (uses.rtakeWhile fun use => use.tree?.isSome).filterMap Use.tree?

/-- A validator, and the failures that its checks have ended in since the last reset. -/
structure Watched where
  validator : Validator
  thrown : List Failure := []

def Watched.step (w : Watched) : Use → Watched
  | .check n =>
    let (v, x) := w.validator.visit n
    match x.result with
    | .ok _ => ⟨v, w.thrown⟩
    | .error e => ⟨v, w.thrown ++ [e]⟩
  | .reset => ⟨w.validator.reset, []⟩

def after (o : CheckOptions) (uses : List Use) : Watched :=
  uses.foldl Watched.step { validator := { options := o } }

@[simp] theorem after_append (o : CheckOptions) (uses : List Use) (use : Use) :
    after o (uses ++ [use]) = (after o uses).step use :=
  List.foldl_append

@[simp] theorem sinceReset_check (uses : List Use) (n : Node) :
    sinceReset (uses ++ [.check n]) = sinceReset uses ++ [n] := by
  rw [sinceReset, List.rtakeWhile_concat_pos _ _ _ rfl, List.filterMap_append]
  rfl

@[simp] theorem sinceReset_reset (uses : List Use) : sinceReset (uses ++ [.reset]) = [] := by
  rw [sinceReset, List.rtakeWhile_concat_neg _ _ _ Bool.false_ne_true]
  rfl

variable {o : CheckOptions}

theorem visit_strict (ho : o.strict = true) (errors : List Finding) (n : Node) :
    (⟨o, errors⟩ : Validator).visit n =
      match n.findings o with
      | [] => (⟨o, errors⟩, pure ())
      | f :: _ => (⟨o, errors ++ [f]⟩, .raise (.finding f)) := by
  rw [visit_eq]
  exact if_pos ho

theorem visit_lenient (ho : o.strict = false) (errors : List Finding) (n : Node) :
    (⟨o, errors⟩ : Validator).visit n =
      (⟨o, errors ++ (⟨o, errors⟩ : Validator).room (n.findings o)⟩,
        ⟨((⟨o, errors⟩ : Validator).room (n.findings o)).map warning, .ok ()⟩) := by
  rw [visit_eq]
  exact if_neg (by simp [ho])

theorem check_strict (ho : o.strict = true) (errors : List Finding) (thrown : List Failure)
    (n : Node) :
    (⟨⟨o, errors⟩, thrown⟩ : Watched).step (.check n) =
      ⟨⟨o, errors ++ (n.findings o).head?.toList⟩,
        thrown ++ (n.findings o).head?.toList.map .finding⟩ := by
  rw [Watched.step, visit_strict ho]
  cases n.findings o with
  | nil => simp
  | cons f fs => rfl

theorem check_lenient (ho : o.strict = false) (errors : List Finding) (thrown : List Failure)
    (n : Node) :
    (⟨⟨o, errors⟩, thrown⟩ : Watched).step (.check n) =
      ⟨⟨o, errors ++ (⟨o, errors⟩ : Validator).room (n.findings o)⟩, thrown⟩ := by
  rw [Watched.step, visit_lenient ho]

/-- The findings that strict checks of these trees end with. -/
def firsts (o : CheckOptions) (ns : List Node) : List Finding :=
  ns.flatMap fun n => (n.findings o).head?.toList

theorem after_strict (ho : o.strict = true) (uses : List Use) :
    after o uses =
      ⟨⟨o, firsts o (sinceReset uses)⟩, (firsts o (sinceReset uses)).map .finding⟩ := by
  induction uses using List.reverseRecOn with
  | nil => rfl
  | append_singleton uses use ih =>
    rw [after_append, ih]
    cases use with
    | reset =>
      rw [sinceReset_reset]
      rfl
    | check n =>
      rw [check_strict ho, sinceReset_check, firsts, firsts, List.flatMap_append, List.map_append,
        List.flatMap_singleton]

/-- What a validator that lists findings has noted is what a new one has room for. -/
theorem after_lenient (ho : o.strict = false) (uses : List Use) :
    after o uses =
      ⟨⟨o, ({ options := o } : Validator).room
        ((sinceReset uses).flatMap (Node.findings o))⟩, []⟩ := by
  induction uses using List.reverseRecOn with
  | nil =>
    show after o [] = ⟨⟨o, ({ options := o } : Validator).room []⟩, []⟩
    rw [room_nil]
    rfl
  | append_singleton uses use ih =>
    rw [after_append, ih]
    cases use with
    | reset =>
      rw [sinceReset_reset, List.flatMap_nil, room_nil]
      rfl
    | check n =>
      rw [check_lenient ho, sinceReset_check, List.flatMap_append, List.flatMap_singleton,
        room_append]
      rfl

/-- After these uses the validator lists the findings of all trees since the last reset, no more
of them than it may, and none of its checks fails. -/
structure Lists (o : CheckOptions) (uses : List Use) : Prop where
  capped : 0 < o.maxErrors → (after o uses).validator.errors =
    ((sinceReset uses).flatMap (Node.findings o)).take o.maxErrors.toNat
  uncapped : o.maxErrors ≤ 0 → (after o uses).validator.errors =
    (sinceReset uses).flatMap (Node.findings o)
  passes : ∀ n, ((after o uses).validator.visit n).2.result = .ok ()

/-- After these uses the validator fails in the check of a tree that has findings, with the first
of them, and in no other; it has noted what it has thrown since the last reset, and nothing else. -/
structure Stops (o : CheckOptions) (uses : List Use) : Prop where
  fails : ∀ n f, (n.findings o).head? = some f →
    ((after o uses).validator.visit n).2.result = .error (.finding f)
  passes : ∀ n, n.findings o = [] → ((after o uses).validator.visit n).2.result = .ok ()
  errors : (after o uses).validator.errors = firsts o (sinceReset uses)
  thrown : (after o uses).thrown = (after o uses).validator.errors.map .finding
  codes : ∀ e ∈ (after o uses).thrown, e.code = .validationFailed
  texts : (after o uses).thrown.map Failure.text =
    (after o uses).validator.errors.map Finding.message

theorem after_lists (ho : o.strict = false) (uses : List Use) : Lists o uses := by
  have hafter := after_lenient ho uses
  constructor
  · intro hcap
    rw [hafter]
    exact if_pos hcap
  · intro hcap
    rw [hafter]
    exact if_neg (Int.not_lt.2 hcap)
  · intro n
    rw [hafter, visit_lenient ho]

theorem after_stops (ho : o.strict = true) (uses : List Use) : Stops o uses := by
  have hafter := after_strict ho uses
  have hthrown : (after o uses).thrown = (after o uses).validator.errors.map .finding := by
    rw [hafter]
  constructor
  · intro n f hf
    obtain ⟨fs, hfs⟩ := List.head?_eq_some_iff.1 hf
    rw [hafter, visit_strict ho, hfs]
    rfl
  · intro n hn
    rw [hafter, visit_strict ho, hn]
    rfl
  · rw [hafter]
  · exact hthrown
  · intro e he
    rw [hthrown] at he
    obtain ⟨f, -, rfl⟩ := List.mem_map.1 he
    rfl
  · rw [hthrown, List.map_map]
    rfl

/-- Whatever a validator is used for, what it has noted is given by the trees since the last
reset, also where a check was broken off, and it is valid just when it has noted nothing. -/
theorem after_notes (o : CheckOptions) (uses : List Use) :
    (o.strict = false → Lists o uses) ∧ (o.strict = true → Stops o uses) ∧
      ((after o uses).validator.valid = true ↔ (after o uses).validator.errors = []) :=
  ⟨fun ho => after_lists ho uses, fun ho => after_stops ho uses, List.isEmpty_iff⟩

def bare : Node := Node.plain (.list true 0 true) []

/-- A bound of three cuts what the third check finds. A strict validator has no use for a bound:
two of its three checks fail. -/
theorem bare_after_notes :
    (after { strict := false, maxErrors := 3 }
      [.check bare, .reset, .check bare, .check bare]).validator.errors =
        [.listStart 0, .emptyList, .listStart 0] ∧
    (after { maxErrors := 1 }
      [.check bare, .check (Node.plain .document []), .check bare]).thrown =
        [.finding (.listStart 0), .finding (.listStart 0)] := by
  obtain ⟨hlists, -, -⟩ := after_notes { strict := false, maxErrors := 3 }
    [.check bare, .reset, .check bare, .check bare]
  obtain ⟨-, hstops, -⟩ := after_notes { maxErrors := 1 }
    [.check bare, .check (Node.plain .document []), .check bare]
  constructor
  · rw [(hlists rfl).capped (by decide)]
    decide
  · rw [(hstops rfl).thrown, (hstops rfl).errors]
    decide

end Validator
end Folio
