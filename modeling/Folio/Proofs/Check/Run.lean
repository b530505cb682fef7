import Mathlib.Data.List.Perm.Basic
import Folio.Check.Validator
import Folio.Proofs.Outcome

/-!
# The run of a check

A check comes to every node of a tree once, in an order of its own, and meets the node's own
findings there. A strict check meets all that any other check meets at a node. What the run
comes to is given by the list of findings that it meets: a strict check ends with the first of
them, any other notes as many as it has room for.
-/

set_option autoImplicit false

namespace Folio

namespace CheckOptions

def strictly (o : CheckOptions) : CheckOptions := { o with strict := true }

def leniently (o : CheckOptions) : CheckOptions := { o with strict := false }

end CheckOptions

namespace Node

/-- The nodes of a tree in the order in which a check looks at them: a node before those beneath
it, but a table after the header that it has. -/
def visitOrder : Node → List Node := fold fun n below =>
  if n.hasHeader then (below.take 1).flatten ++ n :: (below.drop 1).flatten
  else n :: below.flatten

theorem visitOrder_eq (n : Node) :
    n.visitOrder =
      if n.hasHeader then
        (n.children.take 1).flatMap visitOrder ++ n :: (n.children.drop 1).flatMap visitOrder
      else n :: n.children.flatMap visitOrder := by
  rw [visitOrder, fold_eq, ← List.map_take, ← List.map_drop]
  rfl

theorem visitOrder_perm (n : Node) : n.visitOrder.Perm n.preorder := by
  induction n using induct with
  | step s a cs ih =>
    have hcs : (cs.flatMap visitOrder).Perm (cs.map preorder).flatten :=
      List.Perm.flatMap_left cs ih
    rw [visitOrder_eq, preorder_eq]
    split
    · have hsplit : (cs.take 1).flatMap visitOrder ++ (cs.drop 1).flatMap visitOrder =
          cs.flatMap visitOrder := by
        rw [← List.flatMap_append, List.take_append_drop]
      refine List.perm_middle.trans (.cons _ ?_)
      show ((cs.take 1).flatMap visitOrder ++ (cs.drop 1).flatMap visitOrder).Perm _
      rwa [hsplit]
    · exact .cons _ hcs

def findings (o : CheckOptions) (n : Node) : List Finding := n.visitOrder.flatMap (ownFindings o)

theorem findings_eq (o : CheckOptions) (n : Node) :
    n.findings o =
      if n.hasHeader then
        (n.children.take 1).flatMap (findings o) ++
          (n.ownFindings o ++ (n.children.drop 1).flatMap (findings o))
      else n.ownFindings o ++ n.children.flatMap (findings o) := by
  rw [findings, visitOrder_eq]
  split
  · rw [List.flatMap_append, List.flatMap_cons, List.flatMap_assoc, List.flatMap_assoc]
    rfl
  · rw [List.flatMap_cons, List.flatMap_assoc]
    rfl

theorem findings_perm (o : CheckOptions) (n : Node) :
    (n.findings o).Perm (n.preorder.flatMap (ownFindings o)) :=
  n.visitOrder_perm.flatMap_right _

theorem findings_ne_nil {o : CheckOptions} {n : Node} :
    n.findings o ≠ [] ↔ ∃ m ∈ n.preorder, m.ownFindings o ≠ [] := by
  have hmem : ∀ m, m ∈ n.visitOrder ↔ m ∈ n.preorder := fun m => n.visitOrder_perm.mem_iff
  simp [findings, hmem]

/-- What any check finds wrong with a node, a strict check finds too. -/
theorem ownFindings_sublist (o : CheckOptions) (n : Node) :
    (n.ownFindings o.leniently).Sublist (n.ownFindings o.strictly) := by
  obtain ⟨s, a, cs⟩ := n
  cases s <;> simp [ownFindings, shape, CheckOptions.leniently, CheckOptions.strictly]

theorem findings_leniently {o : CheckOptions} {n : Node} (h : n.findings o.strictly = []) :
    n.findings o.leniently = [] := by
  rw [findings, List.flatMap_eq_nil_iff] at h ⊢
  intro m hm
  have hsub := ownFindings_sublist o m
  rw [h m hm] at hsub
  exact List.sublist_nil.1 hsub

end Node

namespace Validator

def room (v : Validator) (found : List Finding) : List Finding :=
  if 0 < v.options.maxErrors then found.take (v.options.maxErrors.toNat - v.errors.length)
  else found

/-- What a check comes to that meets these findings one after the other. -/
def meeting (found : List Finding) : Stretch := fun v =>
  if v.options.strict then
    match found with
    | [] => (v, pure ())
    | f :: _ => ({ v with errors := v.errors ++ [f] }, .raise (.finding f))
  else ({ v with errors := v.errors ++ v.room found }, ⟨(v.room found).map warning, .ok ()⟩)

theorem meeting_options (found : List Finding) (v : Validator) :
    (meeting found v).1.options = v.options := by
  unfold meeting
  split
  · split <;> rfl
  · rfl

theorem room_nil (v : Validator) : v.room [] = [] := by
  simp [room]

theorem room_append (v : Validator) (xs ys : List Finding) :
    v.room (xs ++ ys) =
      v.room xs ++ ({ v with errors := v.errors ++ v.room xs } : Validator).room ys := by
  by_cases hcap : 0 < v.options.maxErrors
  · simp only [room, hcap, if_true, List.take_append, List.length_append, List.length_take]
    congr 2
    omega
  · simp [room, hcap]

theorem meeting_nil (v : Validator) : meeting [] v = (v, pure ()) := by
  unfold meeting
  split
  · rfl
  · simp [room_nil]

theorem report_eq (f : Finding) : report f = meeting [f] := by
  funext v
  unfold report meeting
  split
  · rfl
  · by_cases hcap : 0 < v.options.maxErrors
    · by_cases hfull : v.options.maxErrors ≤ v.errors.length
      · have hnone : v.options.maxErrors.toNat - v.errors.length = 0 := by omega
        simp [room, hcap, hfull, hnone]
      · obtain ⟨k, hk⟩ : ∃ k, v.options.maxErrors.toNat - v.errors.length = k + 1 :=
          ⟨v.options.maxErrors.toNat - v.errors.length - 1, by omega⟩
        simp [room, hcap, hfull, hk]
    · simp [room, hcap]

theorem andThen_meeting (xs ys : List Finding) :
    andThen (meeting xs) (meeting ys) = meeting (xs ++ ys) := by
  funext v
  by_cases hs : v.options.strict = true
  · cases xs with
    | nil =>
      simp only [andThen, meeting_nil, List.nil_append]
      rfl
    | cons x xs => simp [andThen, meeting, hs, Outcome.raise]
  · simp [andThen, meeting, hs, room_append]

/-- The stretch comes to what meeting these findings, under the options in force, comes to. -/
def Meets (c : Stretch) (found : CheckOptions → List Finding) : Prop :=
  ∀ v, c v = meeting (found v.options) v

theorem Meets.andThen {c d : Stretch} {f g : CheckOptions → List Finding} (hc : Meets c f)
    (hd : Meets d g) : Meets (Validator.andThen c d) fun o => f o ++ g o := by
  intro v
  have hoptions := meeting_options (f v.options) v
  rw [← andThen_meeting]
  simp only [Validator.andThen, hc v, hd _, hoptions]

theorem meets_inOrder {α : Type} {as : List α} {c : α → Stretch}
    {f : α → CheckOptions → List Finding} (h : ∀ a ∈ as, Meets (c a) (f a)) :
    Meets (inOrder (as.map c)) fun o => as.flatMap fun a => f a o := by
  induction as with
  | nil => exact fun v => (meeting_nil v).symm
  | cons a as ih => exact (h a (by simp)).andThen (ih fun b hb => h b (by simp [hb]))

theorem meets_own (n : Node) : Meets (own n) fun o => n.ownFindings o := by
  intro v
  have hreport : ∀ f ∈ n.ownFindings v.options, Meets (report f) fun _ => [f] :=
    fun f _ w => congrFun (report_eq f) w
  have hrun := meets_inOrder hreport v
  simpa [own] using hrun

theorem meets_visit (n : Node) : Meets (n.fold visitWith) fun o => n.findings o := by
  induction n using Node.induct with
  | step s a cs ih =>
    have hcs (ds : List Node) (hds : ds ⊆ cs) :
        Meets (inOrder (ds.map (Node.fold visitWith))) fun o => ds.flatMap (Node.findings o) :=
      meets_inOrder fun d hd => ih d (hds hd)
    intro v
    show (Node.mk s a cs).fold visitWith v = meeting ((Node.mk s a cs).findings v.options) v
    rw [fold_visitWith, Node.findings_eq, visitWith, ← List.map_take, ← List.map_drop]
    split
    · have hheader := hcs _ (List.take_subset 1 cs)
      have hrows := hcs _ (List.drop_subset 1 cs)
      exact hheader.andThen ((meets_own _).andThen hrows) v
    · exact (meets_own _).andThen (hcs _ (List.Subset.refl cs)) v

theorem visit_eq (v : Validator) (n : Node) : v.visit n = meeting (n.findings v.options) v :=
  meets_visit n v

end Validator

namespace Node

theorem validate_strict {o : CheckOptions} (ho : o.strict = true) (n : Node) :
    (n.validate o).result =
      match n.findings o with
      | [] => .ok []
      | f :: _ => .error (.finding f) := by
  unfold validate
  simp only [Validator.visit_eq]
  cases h : n.findings o with
  | nil => simp [Validator.meeting, ho, Validator.valid]
  | cons f fs => simp [Validator.meeting, ho, Outcome.raise]

theorem validate_lenient {o : CheckOptions} (ho : o.strict = false) (n : Node) :
    (n.validate o).result = .ok (({ options := o } : Validator).room (n.findings o)) := by
  unfold validate
  simp only [Validator.visit_eq, Validator.meeting, ho, Bool.false_eq_true, if_false,
    List.nil_append, Outcome.bind_ok]
  split <;> rfl

/-- A check that lists findings without a bound lists those of every node of the tree, each as
often as a node has it. A strict check fails just when some node has a finding under its rules,
with the first that it comes to; a tree that it lets pass has no findings at all. -/
theorem validate_reports (o : CheckOptions) (n : Node) :
    (o.maxErrors ≤ 0 → ∃ found, (n.validate o.leniently).result = .ok found ∧
      found.Perm (n.preorder.flatMap (ownFindings o.leniently))) ∧
    ((∃ e, (n.validate o.strictly).result = .error e ∧ e.code = .validationFailed) ↔
      ∃ m ∈ n.preorder, m.ownFindings o.strictly ≠ []) ∧
    (∀ e, (n.validate o.strictly).result = .error e →
      ∃ f, (n.visitOrder.flatMap (ownFindings o.strictly)).head? = some f ∧ e = .finding f ∧
        e.message = f.message.untilNul) ∧
    ((∃ found, (n.validate o.strictly).result = .ok found) →
      (n.validate o.leniently).result = .ok []) := by
  have hstrict := validate_strict (o := o.strictly) rfl n
  have hlenient := validate_lenient (o := o.leniently) rfl n
  constructor
  · intro hcap
    have hroom : ({ options := o.leniently } : Validator).room (n.findings o.leniently) =
        n.findings o.leniently := if_neg (by simpa [CheckOptions.leniently] using hcap)
    rw [hroom] at hlenient
    exact ⟨_, hlenient, n.findings_perm o.leniently⟩
  rw [hstrict, ← findings_ne_nil]
  show (_ ↔ n.findings o.strictly ≠ []) ∧
    (∀ e, _ → ∃ f, (n.findings o.strictly).head? = some f ∧ _) ∧ _
  cases h : n.findings o.strictly with
  | nil =>
    refine ⟨by simp, by simp, ?_⟩
    intro _
    rw [hlenient, findings_leniently h, Validator.room_nil]
  | cons f fs =>
    refine ⟨by simp [Failure.code], ?_, by simp⟩
    rintro _ ⟨⟩
    exact ⟨f, rfl, rfl, rfl⟩

def faulty : Node :=
  plain (.table true [] none)
    [plain (.tableRow true)
      [plain (.tableCell 1 1 .none) [plain (.heading 7) [plain (.link [] none) []]]],
    plain (.tableRow false)
      [plain (.tableCell 1 1 .none) [plain (.htmlInline [60]) []], plain (.tableCell 1 1 .none) []]]

/-- The table's own finding is listed among the others, and a strict check meets the header
first. -/
theorem faulty_validate_reports :
    (∃ found, (faulty.validate { strict := false }).result = .ok found ∧
      found.Perm [.rowCells 0 2 1, .headingLevel 7, .emptyUrl .link, .rawHtml .htmlInline]) ∧
    (∃ e, (faulty.validate {}).result = .error e ∧
      e = .finding (.notInline .tableCell 0 .heading)) ∧
    ((plain .document []).validate { strict := false }).result = .ok [] := by
  obtain ⟨hlist, hfails, hfirst, -⟩ := validate_reports {} faulty
  refine ⟨hlist (by decide), ?_, ?_⟩
  · obtain ⟨e, he, -⟩ := hfails.2 (by decide)
    obtain ⟨f, hf, rfl, -⟩ := hfirst e he
    have hhead : (faulty.visitOrder.flatMap (ownFindings {})).head? =
        some (.notInline .tableCell 0 .heading) := by decide
    exact ⟨_, he, congrArg Failure.finding (Option.some.inj (hf.symm.trans hhead))⟩
  · exact (validate_reports {} (plain .document [])).2.2.2 ⟨[], rfl⟩

end Node

end Folio
