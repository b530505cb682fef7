import Mathlib.Data.List.Forall2
import Folio.Proofs.Bytes.CodePoint
import Folio.Section.Query

/-!
# What a pattern library does

An expression matches a text that falls into pieces, one for each of its items: an item takes one
character, or any number of them if it is repeated. A pattern library is documented to quote a byte
so that it stands for itself, to compile expressions up to a size, and to match what they say. Our
own library does: its reader reads back what an expression is spelled as, and the first of the
answers that its matcher keeps says whether there are such pieces.
-/

set_option autoImplicit false

namespace Folio

open Bytes

namespace Expression

def Item.Takes (folding : CaseFolding) (caseSensitive : Bool) (item : Item) (piece : List Char) :
    Prop :=
  if item.repeated then ∀ c ∈ piece, item.atom.takes folding caseSensitive c = true
  else ∃ c, piece = [c] ∧ item.atom.takes folding caseSensitive c = true

/-- Whether a text falls into pieces that the items of an expression take, each its own. -/
def Matches (folding : CaseFolding) (caseSensitive : Bool) (items : List Item) (cs : List Char) :
    Prop :=
  ∃ pieces, List.Forall₂ (Item.Takes folding caseSensitive) items pieces ∧ pieces.flatten = cs

variable {folding : CaseFolding} {caseSensitive : Bool} {items : List Item} {a : Atom}
  {c : Char} {cs : List Char}

@[simp] theorem matches_nil : Matches folding caseSensitive [] cs ↔ cs = [] := by
  constructor
  · rintro ⟨pieces, hpieces, rfl⟩
    rw [List.forall₂_nil_left_iff.1 hpieces, List.flatten_nil]
  · rintro rfl
    exact ⟨[], .nil, rfl⟩

theorem matches_cons {item : Item} : Matches folding caseSensitive (item :: items) cs ↔
    ∃ piece rest, item.Takes folding caseSensitive piece ∧
      Matches folding caseSensitive items rest ∧ piece ++ rest = cs := by
  constructor
  · rintro ⟨pieces, hpieces, rfl⟩
    obtain ⟨piece, rest, hpiece, hrest, rfl⟩ := List.forall₂_cons_left_iff.1 hpieces
    exact ⟨piece, rest.flatten, hpiece, ⟨rest, hrest, rfl⟩, rfl⟩
  · rintro ⟨piece, _, hpiece, ⟨rest, hrest, rfl⟩, rfl⟩
    exact ⟨piece :: rest, .cons hpiece hrest, rfl⟩

theorem matches_once_nil : ¬ Matches folding caseSensitive (⟨a, false⟩ :: items) [] := by
  rw [matches_cons]
  rintro ⟨piece, rest, ⟨c, rfl, -⟩, -, happend⟩
  exact List.cons_ne_nil _ _ happend

theorem matches_once_cons : Matches folding caseSensitive (⟨a, false⟩ :: items) (c :: cs) ↔
    a.takes folding caseSensitive c = true ∧ Matches folding caseSensitive items cs := by
  rw [matches_cons]
  constructor
  · rintro ⟨piece, rest, ⟨d, rfl, hd⟩, hrest, happend⟩
    obtain ⟨rfl, rfl⟩ := List.cons.inj happend
    exact ⟨hd, hrest⟩
  · rintro ⟨hc, hrest⟩
    exact ⟨[c], cs, ⟨c, rfl, hc⟩, hrest, rfl⟩

theorem matches_many_nil : Matches folding caseSensitive (⟨a, true⟩ :: items) [] ↔
    Matches folding caseSensitive items [] := by
  rw [matches_cons]
  constructor
  · rintro ⟨piece, rest, -, hrest, happend⟩
    rwa [(List.append_eq_nil_iff.1 happend).2] at hrest
  · exact fun h => ⟨[], [], List.forall_mem_nil _, h, rfl⟩

theorem matches_many_cons : Matches folding caseSensitive (⟨a, true⟩ :: items) (c :: cs) ↔
    Matches folding caseSensitive items (c :: cs) ∨
      a.takes folding caseSensitive c = true ∧
        Matches folding caseSensitive (⟨a, true⟩ :: items) cs := by
  rw [matches_cons, matches_cons]
  constructor
  · rintro ⟨piece, rest, hpiece, hrest, happend⟩
    rcases List.append_eq_cons_iff.1 happend with ⟨rfl, rfl⟩ | ⟨piece', rfl, rfl⟩
    · exact .inl hrest
    · obtain ⟨hc, hpiece'⟩ := List.forall_mem_cons.1 hpiece
      exact .inr ⟨hc, piece', rest, hpiece', hrest, rfl⟩
  · rintro (hstop | ⟨hc, piece, rest, hpiece, hrest, rfl⟩)
    · exact ⟨[], c :: cs, List.forall_mem_nil _, hstop, rfl⟩
    · exact ⟨c :: piece, rest, List.forall_mem_cons.2 ⟨hc, hpiece⟩, hrest, rfl⟩

theorem answers_cons (folding : CaseFolding) (caseSensitive : Bool) (c : Char) (cs : List Char)
    (items : List Item) : ∃ first, answers folding caseSensitive (c :: cs) items =
      first :: answers folding caseSensitive cs items := by
  induction items with
  | nil => exact ⟨false, rfl⟩
  | cons item items ih =>
    obtain ⟨first, hfirst⟩ := ih
    obtain ⟨a, again⟩ := item
    cases again <;> simp only [answers, hfirst] <;> exact ⟨_, rfl⟩

section Answers

variable (ih : ∀ cs, (answers folding caseSensitive cs items).headD false = true ↔
  Matches folding caseSensitive items cs)
include ih

theorem headD_afterOne :
    (afterOne (a.takes folding caseSensitive) cs
      (answers folding caseSensitive cs items)).headD false = true ↔
        Matches folding caseSensitive (⟨a, false⟩ :: items) cs := by
  cases cs with
  | nil => simp [afterOne, matches_once_nil]
  | cons c cs =>
    obtain ⟨first, hfirst⟩ := answers_cons folding caseSensitive c cs items
    rw [matches_once_cons, ← ih, hfirst, afterOne, List.headD_cons, Bool.and_eq_true]

theorem headD_afterRun :
    (afterRun (a.takes folding caseSensitive) cs
      (answers folding caseSensitive cs items)).headD false = true ↔
        Matches folding caseSensitive (⟨a, true⟩ :: items) cs := by
  induction cs with
  | nil =>
    rw [matches_many_nil, ← ih, afterRun]
    simp
  | cons c cs ihcs =>
    have hwhole := ih (c :: cs)
    obtain ⟨first, hfirst⟩ := answers_cons folding caseSensitive c cs items
    rw [hfirst, List.headD_cons] at hwhole
    rw [matches_many_cons, ← hwhole, ← ihcs, hfirst, afterRun, List.headD_cons]
    simp

end Answers

/-- The first answer says whether the whole text falls into pieces. -/
theorem answers_iff : (answers folding caseSensitive cs items).headD false = true ↔
    Matches folding caseSensitive items cs := by
  induction items generalizing cs with
  | nil => cases cs <;> simp [answers, emptySuffixes]
  | cons item items ih =>
    obtain ⟨a, again⟩ := item
    cases again with
    | false => exact headD_afterOne fun _ => ih
    | true => exact headD_afterRun fun _ => ih

instance : Decidable (Matches folding caseSensitive items cs) := decidable_of_iff _ answers_iff

theorem readSigns_word (h : isWord c = true) (rest : List Char) :
    readSigns (c :: rest) = (Sign.atom (.char c) :: ·) <$> readSigns rest := by
  have hne (d : Char) (hd : isWord d = false) : c ≠ d := by
    rintro rfl
    exact Bool.false_ne_true (hd.symm.trans h)
  have hdot : c ≠ '.' := hne _ (by decide)
  have hstar : c ≠ '*' := hne _ (by decide)
  have hbackslash : c ≠ '\\' := hne _ (by decide)
  rw [readSigns, if_pos h] <;> simp [hdot, hstar, hbackslash]

theorem readSigns_escaped (h : isWord c = false) (rest : List Char) :
    readSigns ('\\' :: c :: rest) = (Sign.atom (.char c) :: ·) <$> readSigns rest := by
  have hx : c ≠ 'x' := by
    rintro rfl
    exact absurd h (by decide)
  simp [readSigns, hx, h]

theorem readSigns_spelled (s : Sign) (rest : List Char) :
    readSigns (s.spelled ++ rest) = (s :: ·) <$> readSigns rest := by
  cases s with
  | star => rfl
  | atom a =>
    cases a with
    | any => rfl
    | char c =>
      rw [Sign.spelled]
      split
      case isTrue hword => exact readSigns_word hword rest
      case isFalse hword =>
      split
      case isTrue hzero => rw [hzero]; rfl
      case isFalse => exact readSigns_escaped (Bool.eq_false_iff.2 hword) rest

theorem readSigns_flatMap (signs : List Sign) :
    readSigns (signs.flatMap Sign.spelled) = some signs := by
  induction signs with
  | nil => rfl
  | cons s signs ih => rw [List.flatMap_cons, readSigns_spelled, ih]; rfl

theorem head?_signs (items : List Item) : (items.flatMap Item.signs).head? ≠ some .star := by
  cases items <;> simp [Item.signs]

theorem readItems_flatMap (items : List Item) :
    readItems (items.flatMap Item.signs) = some items := by
  induction items with
  | nil => rfl
  | cons item items ih =>
    obtain ⟨a, again⟩ := item
    cases again with
    | true =>
      show (⟨a, true⟩ :: ·) <$> readItems (items.flatMap Item.signs) = _
      rw [ih]
      rfl
    | false =>
      have hhead := head?_signs items
      show readItems (.atom a :: items.flatMap Item.signs) = _
      cases hsigns : items.flatMap Item.signs with
      | nil => rw [readItems, ← hsigns, ih] <;> simp
      | cons s signs =>
        cases s with
        | star => simp [hsigns] at hhead
        | atom b => rw [readItems, ← hsigns, ih] <;> simp

theorem read_spelled (items : List Item) : read (spell (spelled items)) = some items := by
  rw [read, characters?_spell]
  show readSigns (spelled items) >>= readItems = _
  rw [spelled, readSigns_flatMap]
  exact readItems_flatMap items

end Expression

open Expression

/-- What a pattern library is documented to do, as far as patterns use it. It quotes a byte by a
backslash, unless it is a letter, a digit, an underscore or not of ASCII; it compiles the
expressions of up to a number of bytes; and what is compiled matches the texts of valid UTF-8 that
the expression says. -/
structure Engine.Documented (engine : Engine) (folding : CaseFolding) (capacity : Nat) : Prop where
  quote_byte : ∀ b, engine.quote [b] = quotedByte b
  compiles : ∀ caseSensitive items, (spell (spelled items)).length ≤ capacity →
    ∃ accepts, engine.compile caseSensitive (spell (spelled items)) = .ok accepts
  accepts_iff : ∀ caseSensitive items accepts,
    engine.compile caseSensitive (spell (spelled items)) = .ok accepts →
      ∀ cs, accepts (spell cs) = true ↔ Matches folding caseSensitive items cs

theorem Engine.plain_documented (folding : CaseFolding) (capacity : Nat) :
    (Engine.plain folding).Documented folding capacity := by
  have hcompiled (caseSensitive : Bool) (items : List Item) :
      (Engine.plain folding).compile caseSensitive (spell (spelled items)) = .ok fun text =>
        text.characters?.any fun cs => (answers folding caseSensitive cs items).headD false := by
    simp only [Engine.plain, read_spelled]
  constructor
  case quote_byte => exact fun b => List.flatMap_singleton _ b
  case compiles => exact fun caseSensitive items _ => ⟨_, hcompiled caseSensitive items⟩
  case accepts_iff =>
    intro caseSensitive items accepts haccepts cs
    obtain rfl := Except.ok.inj ((hcompiled caseSensitive items).symm.trans haccepts)
    simp only [characters?_spell, Option.any_some]
    exact answers_iff

end Folio
