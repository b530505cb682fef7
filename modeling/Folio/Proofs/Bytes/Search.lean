import Mathlib.Data.List.TakeWhile
import Folio.Bytes

/-!
# Pieces of byte strings

A text that is cut at its first or last separator, or split at all of them, is made of the pieces
with the separators between, and the pieces hold no separator where none is left. Pieces that are
put together are found again. What stands in front of a pattern is told from the first of its
places.
-/

set_option autoImplicit false

namespace Folio.Bytes

variable {separator : UInt8} {s before after piece : Bytes}

theorem cutFirst?_append (h : separator ∉ before) (after : Bytes) :
    cutFirst? separator (before ++ separator :: after) = some (before, after) := by
  induction before with
  | nil => simp [cutFirst?]
  | cons b before ih =>
    rw [List.mem_cons, not_or] at h
    simp [cutFirst?, Ne.symm h.1, ih h.2]

theorem cutFirst?_eq_none (h : separator ∉ s) : cutFirst? separator s = none := by
  cases hcut : cutFirst? separator s with
  | none => rfl
  | some parts =>
    obtain ⟨before, after⟩ := parts
    rw [(eq_of_cutFirst? hcut).1] at h
    simp at h

theorem cutLast?_eq_none : cutLast? separator s = none ↔ separator ∉ s := by
  induction s with
  | nil => simp [cutLast?]
  | cons b s ih =>
    rw [cutLast?, List.mem_cons, not_or, ← ih]
    cases cutLast? separator s with
    | some p => simp
    | none => simp [eq_comm]

theorem cutLast?_append (h : separator ∉ after) (before : Bytes) :
    cutLast? separator (before ++ separator :: after) = some (before, after) := by
  induction before with
  | nil => simp [cutLast?, cutLast?_eq_none.2 h]
  | cons b before ih => simp [cutLast?, ih]

theorem eq_of_cutLast? (h : cutLast? separator s = some (before, after)) :
    s = before ++ separator :: after ∧ separator ∉ after := by
  induction s generalizing before with
  | nil => simp [cutLast?] at h
  | cons b s ih =>
    cases hs : cutLast? separator s with
    | some p =>
      simp only [cutLast?, hs, Option.some.injEq, Prod.mk.injEq] at h
      obtain ⟨rfl, rfl⟩ := h
      obtain ⟨hs, hafter⟩ := ih hs
      exact ⟨congrArg (b :: ·) hs, hafter⟩
    | none =>
      by_cases hb : b = separator
      · simp only [cutLast?, hs, hb, ↓reduceIte, Option.some.injEq, Prod.mk.injEq] at h
        obtain ⟨rfl, rfl⟩ := h
        exact ⟨by simp [hb], cutLast?_eq_none.1 hs⟩
      · simp [cutLast?, hs, hb] at h

theorem splitOn_eq (separator : UInt8) (s : Bytes) :
    splitOn separator s = List.splitOn separator s := by
  induction s with
  | nil => rfl
  | cons b s ih =>
    rw [splitOn, ih, List.splitOn_cons_eq_if_modifyHead]
    cases hs : List.splitOn separator s with
    | nil => exact absurd hs (List.splitOn_ne_nil separator s)
    | cons piece pieces => simp

theorem splitOn_join {pieces : List Bytes} (h : ∀ piece ∈ pieces, separator ∉ piece)
    (hne : pieces ≠ []) : splitOn separator (join [separator] pieces) = pieces := by
  rw [splitOn_eq]
  exact List.splitOn_intercalate separator h hne

theorem splitOn_cons_self (separator : UInt8) (s : Bytes) :
    splitOn separator (separator :: s) = [] :: splitOn separator s := if_pos rfl

theorem splitOn_cons_ne {b : UInt8} (h : b ≠ separator) (s : Bytes) :
    ∃ first pieces, splitOn separator s = first :: pieces ∧
      splitOn separator (b :: s) = (b :: first) :: pieces := by
  obtain ⟨first, pieces, hs⟩ := List.exists_cons_of_ne_nil (splitOn_ne_nil separator s)
  exact ⟨first, pieces, hs, by rw [splitOn, if_neg h, hs]⟩

theorem mem_splitOn (h : piece ∈ splitOn separator s) : separator ∉ piece ∧ piece ⊆ s := by
  induction s generalizing piece with
  | nil =>
    obtain rfl := List.mem_singleton.1 h
    exact ⟨List.not_mem_nil, List.Subset.refl _⟩
  | cons b s ih =>
    have hrest : ∀ p ∈ splitOn separator s, separator ∉ p ∧ p ⊆ b :: s := fun p hp =>
      ⟨(ih hp).1, List.subset_cons_of_subset b (ih hp).2⟩
    by_cases hb : b = separator
    · rw [hb, splitOn_cons_self] at h
      rcases List.mem_cons.1 h with rfl | h
      · exact ⟨List.not_mem_nil, List.nil_subset _⟩
      · exact hrest piece h
    · obtain ⟨first, pieces, hs, hcons⟩ := splitOn_cons_ne hb s
      rw [hs] at ih hrest
      rw [hcons] at h
      rcases List.mem_cons.1 h with rfl | h
      · obtain ⟨hfirst, hsub⟩ := ih List.mem_cons_self
        exact ⟨by simp [hfirst, Ne.symm hb], List.cons_subset_cons b hsub⟩
      · exact hrest piece (List.mem_cons_of_mem first h)

theorem notMem_join {pieces : List Bytes} {b : UInt8} (hb : b ≠ separator)
    (h : ∀ piece ∈ pieces, b ∉ piece) : b ∉ join [separator] pieces := by
  induction pieces with
  | nil => exact List.not_mem_nil
  | cons piece pieces ih =>
    obtain ⟨hpiece, hpieces⟩ := List.forall_mem_cons.1 h
    cases pieces with
    | nil => rwa [join, List.intercalate_singleton]
    | cons next pieces =>
      rw [join, List.intercalate_cons_cons, List.mem_append, List.mem_append, List.mem_singleton]
      exact not_or.2 ⟨not_or.2 ⟨hpiece, hb⟩, ih hpieces⟩

theorem nul_notMem_untilNul (s : Bytes) : 0 ∉ s.untilNul :=
  fun h => absurd (List.mem_takeWhile_imp h) (by decide)

section Pattern

variable {pattern before after s : Bytes}

theorem startsWith_iff : startsWith pattern s = true ↔ pattern <+: s :=
  List.isPrefixOf_iff_prefix

/-- The pattern stands in a text between these parts, and at no place in front. -/
structure Leads (pattern before after s : Bytes) : Prop where
  eq : s = before ++ pattern ++ after
  first : ∀ i < before.length, ¬ pattern <+: s.drop i

theorem leads_nil : Leads pattern [] after s ↔ s = pattern ++ after := by
  constructor
  · intro h
    exact h.eq
  · intro h
    exact ⟨h, nofun⟩

theorem leads_cons {a b : UInt8} :
    Leads pattern (a :: before) after (b :: s) ↔
      a = b ∧ ¬ pattern <+: b :: s ∧ Leads pattern before after s := by
  constructor
  · intro ⟨heq, hfirst⟩
    obtain ⟨rfl, rfl⟩ := List.cons.inj heq
    exact ⟨rfl, hfirst 0 (by simp), rfl, fun i hi => hfirst (i + 1) (by simpa using hi)⟩
  · rintro ⟨rfl, hb, rfl, hfirst⟩
    constructor
    · rfl
    · intro i hi
      cases i with
      | zero => exact hb
      | succ i => exact hfirst i (by simpa using hi)

theorem beforeFrom?_eq (pattern seen s : Bytes) :
    beforeFrom? pattern seen s = (before? pattern s).map (seen.reverse ++ ·) := by
  induction s generalizing seen with
  | nil => by_cases h : pattern.isEmpty <;> simp [before?, beforeFrom?, h]
  | cons b s ih =>
    unfold before? beforeFrom?
    by_cases h : startsWith pattern (b :: s) = true
    · simp [h]
    · rw [if_neg h, if_neg h, ih, ih [b]]
      simp [Function.comp_def]

theorem before?_cons (pattern : Bytes) (b : UInt8) (s : Bytes) :
    before? pattern (b :: s) =
      if startsWith pattern (b :: s) then some [] else (before? pattern s).map (b :: ·) := by
  rw [before?, beforeFrom?, beforeFrom?_eq]
  rfl

theorem before?_eq_some :
    before? pattern s = some before ↔ ∃ after, Leads pattern before after s := by
  induction s generalizing before with
  | nil =>
    cases before with
    | nil => cases pattern <;> simp [before?, beforeFrom?, leads_nil]
    | cons a before =>
      have hnone : ∀ after, ¬ Leads pattern (a :: before) after [] := fun _ h => nomatch h.eq
      simp [before?, beforeFrom?, hnone]
  | cons b s ih =>
    rw [before?_cons]
    by_cases h : pattern <+: b :: s
    · rw [if_pos (startsWith_iff.2 h)]
      cases before with
      | nil =>
        obtain ⟨after, hafter⟩ := h
        simp [leads_nil, ← hafter]
      | cons a before => simp [leads_cons, h]
    · rw [if_neg (mt startsWith_iff.1 h)]
      cases before with
      | nil =>
        have hnone : ∀ after, ¬ b :: s = pattern ++ after := fun after heq => h ⟨after, heq.symm⟩
        simp [leads_nil, hnone]
      | cons a before =>
        simp only [leads_cons, h, Option.map_eq_some_iff, ih, List.cons.injEq, not_false_eq_true,
          true_and, exists_and_left]
        constructor
        · rintro ⟨found, hfound, rfl, rfl⟩
          exact ⟨rfl, hfound⟩
        · rintro ⟨rfl, hfound⟩
          exact ⟨before, hfound, rfl, rfl⟩

theorem before?_eq_none : before? pattern s = none ↔ ¬ pattern <:+: s := by
  induction s with
  | nil => cases pattern <;> simp [before?, beforeFrom?]
  | cons b s ih =>
    rw [before?_cons, List.infix_cons_iff, not_or, ← ih]
    by_cases h : pattern <+: b :: s
    · simp [startsWith_iff.2 h, h]
    · simp [mt startsWith_iff.1 h, h]

theorem exists_leads (h : pattern <:+: s) : ∃ before after, Leads pattern before after s := by
  cases hfound : before? pattern s with
  | none => exact absurd h (before?_eq_none.1 hfound)
  | some before => exact ⟨before, before?_eq_some.1 hfound⟩

/-- A pattern without letters is found in a text whatever the case of the letters. -/
theorem infix_lower (h : (pattern.all fun c => lowerByte c == c && !isLowerLetter c) = true) :
    pattern <:+: lower s ↔ pattern <:+: s := by
  have hsame : ∀ c ∈ pattern, ∀ b, lowerByte b = c → b = c := by
    intro c hc b hb
    have hletter := List.all_eq_true.1 h c hc
    grind [lowerByte, isLowerLetter]
  constructor
  · rintro ⟨front, back, heq⟩
    obtain ⟨s₁, s₂, rfl, hfront, -⟩ := List.map_eq_append_iff.1 heq.symm
    obtain ⟨t₁, t₂, rfl, -, hpattern⟩ := List.map_eq_append_iff.1 hfront
    have hmiddle : ∀ b ∈ t₂, lowerByte b = id b := by
      intro b hb
      have hmem : lowerByte b ∈ pattern := hpattern ▸ List.mem_map_of_mem hb
      exact (hsame _ hmem b rfl).symm
    rw [List.map_congr_left hmiddle, List.map_id] at hpattern
    exact ⟨t₁, s₂, by rw [hpattern]⟩
  · intro hs
    have hlower : ∀ c ∈ pattern, lowerByte c = id c := by
      intro c hc
      have hletter := List.all_eq_true.1 h c hc
      exact eq_of_beq (Bool.and_eq_true_iff.1 hletter).1
    have hmap : pattern.map lowerByte <:+: s.map lowerByte := hs.map lowerByte
    rwa [List.map_congr_left hlower, List.map_id] at hmap

end Pattern

end Folio.Bytes
