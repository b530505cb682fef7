import Folio.Proofs.Bytes.Search

/-!
# Replaced places of a pattern

A text is cut at the first place of a pattern, and what is left behind it is cut again. Replacing
joins the pieces with the replacement between them: it looks at the text alone, never at what it put
in. A loop that edits the text in place and goes on behind what it put in comes to the same end.
-/

set_option autoImplicit false

namespace Folio.Bytes

variable {pattern replacement before after s t : Bytes} {pieces : List Bytes}

/-- The pieces of a text between the leftmost places of a pattern that do not overlap. -/
inductive Pieces (pattern : Bytes) : Bytes → List Bytes → Prop
  | last {s : Bytes} (none : ¬ pattern <:+: s) : Pieces pattern s [s]
  | cut {before after s : Bytes} {pieces : List Bytes} (leads : Leads pattern before after s)
      (rest : Pieces pattern after pieces) : Pieces pattern s (before :: pieces)

theorem Leads.infix (h : Leads pattern before after s) : pattern <:+: s :=
  ⟨before, after, h.eq.symm⟩

theorem Leads.unique {before' after' : Bytes} (h : Leads pattern before after s)
    (h' : Leads pattern before' after' s) : before = before' ∧ after = after' := by
  have hbefore : before = before' := by
    have hsome := before?_eq_some.2 ⟨after, h⟩
    rw [before?_eq_some.2 ⟨after', h'⟩] at hsome
    exact (Option.some.inj hsome).symm
  subst hbefore
  have heq := h.eq.symm.trans h'.eq
  exact ⟨rfl, List.append_cancel_left heq⟩

theorem Leads.length_lt (h : Leads pattern before after s) (hp : pattern ≠ []) :
    after.length < s.length := by
  have hpattern := List.length_pos_iff.2 hp
  have hlength := congrArg List.length h.eq
  simp only [List.length_append] at hlength
  omega

theorem exists_pieces (hp : pattern ≠ []) (s : Bytes) : ∃ pieces, Pieces pattern s pieces := by
  induction hn : s.length using Nat.strong_induction_on generalizing s with
  | _ n ih =>
    by_cases h : pattern <:+: s
    · obtain ⟨before, after, hleads⟩ := exists_leads h
      obtain ⟨pieces, hpieces⟩ := ih after.length (hn ▸ hleads.length_lt hp) after rfl
      exact ⟨before :: pieces, .cut hleads hpieces⟩
    · exact ⟨[s], .last h⟩

theorem Pieces.unique {pieces' : List Bytes} (h : Pieces pattern s pieces)
    (h' : Pieces pattern s pieces') : pieces = pieces' := by
  induction h generalizing pieces' with
  | last none =>
    cases h' with
    | last => rfl
    | cut leads rest => exact absurd leads.infix none
  | cut leads rest ih =>
    cases h' with
    | last none => exact absurd leads.infix none
    | cut leads' rest' =>
      obtain ⟨rfl, rfl⟩ := leads.unique leads'
      rw [ih rest']

theorem join_cons (separator before : Bytes) (h : pieces ≠ []) :
    join separator (before :: pieces) = before ++ separator ++ join separator pieces := by
  cases pieces with
  | nil => exact absurd rfl h
  | cons piece pieces => exact List.intercalate_cons_cons

theorem Pieces.ne_nil (h : Pieces pattern s pieces) : pieces ≠ [] := by
  cases h <;> simp

theorem Pieces.join_eq (h : Pieces pattern s pieces) : join pattern pieces = s := by
  induction h with
  | last => simp [join]
  | cut leads rest ih => rw [join_cons _ _ rest.ne_nil, ih, leads.eq]

theorem replaceFrom_leads (hp : pattern ≠ []) (h : Leads pattern before after s) :
    replaceFrom pattern replacement 0 s =
      before ++ replacement ++ replaceFrom pattern replacement 0 after := by
  induction before generalizing s with
  | nil =>
    obtain ⟨b, tail, rfl⟩ := List.exists_cons_of_ne_nil hp
    have hstart : startsWith (b :: tail) (b :: (tail ++ after)) = true :=
      startsWith_iff.2 ⟨after, rfl⟩
    have hskip := replaceFrom_length_skip (b :: tail) replacement tail after
    rw [leads_nil.1 h, List.cons_append, replaceFrom, if_pos hstart]
    exact congrArg (replacement ++ ·) hskip
  | cons b before ih =>
    cases s with
    | nil => exact absurd h.eq (by simp)
    | cons c s =>
      obtain ⟨rfl, hno, hrest⟩ := leads_cons.1 h
      rw [replaceFrom, if_neg (mt startsWith_iff.1 hno), ih hrest]
      rfl

theorem replaceFrom_eq_self (h : ¬ pattern <:+: s) :
    replaceFrom pattern replacement 0 s = s := by
  induction s with
  | nil => rfl
  | cons b s ih =>
    rw [List.infix_cons_iff, not_or] at h
    rw [replaceFrom, if_neg (mt startsWith_iff.1 h.1), ih h.2]

theorem replaceAll_nil (replacement s : Bytes) : replaceAll [] replacement s = s := rfl

theorem replaceAll_eq (hp : pattern ≠ []) (replacement s : Bytes) :
    replaceAll pattern replacement s = replaceFrom pattern replacement 0 s :=
  if_neg (by simpa using hp)

theorem Pieces.replaceAll (h : Pieces pattern s pieces) (hp : pattern ≠ []) :
    replaceAll pattern replacement s = join replacement pieces := by
  rw [replaceAll_eq hp]
  induction h with
  | last none => rw [replaceFrom_eq_self none, join, List.intercalate_singleton]
  | cut leads rest ih => rw [replaceFrom_leads hp leads, ih, join_cons _ _ rest.ne_nil]

theorem replaceAll_self (pattern s : Bytes) : replaceAll pattern pattern s = s := by
  by_cases hp : pattern = []
  · rw [hp, replaceAll_nil]
  · obtain ⟨pieces, hpieces⟩ := exists_pieces hp s
    rw [hpieces.replaceAll hp, hpieces.join_eq]

/-- A text that is being edited, and the place from which on it is searched. -/
structure Cursor where
  text : Bytes
  place : Nat

def Cursor.edit? (pattern replacement : Bytes) (c : Cursor) : Option Cursor :=
  (before? pattern (c.text.drop c.place)).map fun before =>
    let found := c.place + before.length
    ⟨c.text.take found ++ replacement ++ c.text.drop (found + pattern.length),
      found + replacement.length⟩

inductive Edits (pattern replacement : Bytes) : Cursor → Bytes → Prop
  | done {c : Cursor} (none : c.edit? pattern replacement = none) :
      Edits pattern replacement c c.text
  | more {c next : Cursor} {t : Bytes} (edit : c.edit? pattern replacement = some next)
      (rest : Edits pattern replacement next t) : Edits pattern replacement c t

theorem edit?_none (h : ¬ pattern <:+: s) (done : Bytes) :
    Cursor.edit? pattern replacement ⟨done ++ s, done.length⟩ = none := by
  rw [Cursor.edit?, List.drop_left, before?_eq_none.2 h]
  rfl

theorem edit?_leads (h : Leads pattern before after s) (done : Bytes) :
    Cursor.edit? pattern replacement ⟨done ++ s, done.length⟩ =
      some ⟨done ++ before ++ replacement ++ after,
        (done ++ before ++ replacement).length⟩ := by
  have hfront : (done ++ s).take (done.length + before.length) = done ++ before := by
    have htext : done ++ s = done ++ before ++ (pattern ++ after) := by simp [h.eq]
    rw [htext]
    exact List.take_left' List.length_append
  have hback : (done ++ s).drop (done.length + before.length + pattern.length) = after := by
    have htext : done ++ s = done ++ before ++ pattern ++ after := by simp [h.eq]
    rw [htext]
    apply List.drop_left'
    simp [Nat.add_assoc]
  have hplace : done.length + before.length + replacement.length =
      (done ++ before ++ replacement).length := by simp [Nat.add_assoc]
  rw [Cursor.edit?, List.drop_left, before?_eq_some.2 ⟨after, h⟩]
  simp only [Option.map_some, hfront, hback, hplace]

theorem Edits.unique {c : Cursor} (h : Edits pattern replacement c s)
    (h' : Edits pattern replacement c t) : s = t := by
  induction h with
  | done none =>
    cases h' with
    | done => rfl
    | more edit => exact nomatch none.symm.trans edit
  | more edit rest ih =>
    cases h' with
    | done none => exact nomatch none.symm.trans edit
    | more edit' rest' =>
      obtain rfl := Option.some.inj (edit.symm.trans edit')
      exact ih rest'

/-- What is in front of the cursor is left alone, and the pieces behind it are joined. -/
theorem Pieces.edits (h : Pieces pattern s pieces) (replacement done : Bytes) :
    Edits pattern replacement ⟨done ++ s, done.length⟩ (done ++ join replacement pieces) := by
  induction h generalizing done with
  | last none =>
    rw [join, List.intercalate_singleton]
    exact .done (edit?_none none done)
  | @cut before after s pieces leads rest ih =>
    have hrest := ih (done ++ before ++ replacement)
    have hjoin : done ++ join replacement (before :: pieces) =
        done ++ before ++ replacement ++ join replacement pieces := by
      simp [join_cons _ _ rest.ne_nil]
    rw [← hjoin] at hrest
    exact .more (edit?_leads leads done) hrest

/-- Editing a text from its start on ends, and it ends with the text that replacing makes of it. -/
theorem edits_iff (hp : pattern ≠ []) :
    Edits pattern replacement ⟨s, 0⟩ t ↔ t = replaceAll pattern replacement s := by
  obtain ⟨pieces, hpieces⟩ := exists_pieces hp s
  have hends : Edits pattern replacement ⟨s, 0⟩ (replaceAll pattern replacement s) := by
    rw [hpieces.replaceAll hp]
    exact hpieces.edits replacement []
  constructor
  · intro h
    exact h.unique hends
  · rintro rfl
    exact hends

end Folio.Bytes
