import Mathlib.Order.Fin.Basic
import Folio.Draft
import Folio.Proofs.Node.Built

/-!
# Where items stand in drafted lists

Every item that is added stands at the end of the lists so far, in a list of its level; where a
level is skipped, items without content carry the lists beneath them. So the items of the lists
serve those that were added: they answer them in their order, and all others are fillers.
-/

set_option autoImplicit false

namespace Folio

section Serves

variable {α β γ : Type} {Answers : α → β → Prop} {Filler : β → Prop}

/-- The members of the second list answer those of the first in their order, but for fillers. -/
inductive Serves (Answers : α → β → Prop) (Filler : β → Prop) : List α → List β → Prop
  | nil : Serves Answers Filler [] []
  | answer {a : α} {b : β} {as : List α} {bs : List β} (h : Answers a b)
      (hrest : Serves Answers Filler as bs) : Serves Answers Filler (a :: as) (b :: bs)
  | filler {b : β} {as : List α} {bs : List β} (h : Filler b)
      (hrest : Serves Answers Filler as bs) : Serves Answers Filler as (b :: bs)

theorem Serves.append {as as' : List α} {bs bs' : List β} (h : Serves Answers Filler as bs)
    (h' : Serves Answers Filler as' bs') : Serves Answers Filler (as ++ as') (bs ++ bs') := by
  induction h with
  | nil => exact h'
  | answer h _ ih => exact .answer h ih
  | filler h _ ih => exact .filler h ih

theorem Serves.of_append {as : List α} {bs bs' : List β}
    (h : Serves Answers Filler as (bs ++ bs')) :
    ∃ front back, as = front ++ back ∧ Serves Answers Filler front bs ∧
      Serves Answers Filler back bs' := by
  induction bs generalizing as with
  | nil => exact ⟨[], as, rfl, .nil, h⟩
  | cons b bs ih =>
    cases h with
    | answer ha hrest =>
      obtain ⟨front, back, rfl, hfront, hback⟩ := ih hrest
      exact ⟨_ :: front, back, rfl, .answer ha hfront, hback⟩
    | filler hb hrest =>
      obtain ⟨front, back, rfl, hfront, hback⟩ := ih hrest
      exact ⟨front, back, rfl, .filler hb hfront, hback⟩

theorem Serves.map {Answers' : α → γ → Prop} {Filler' : γ → Prop} (g : β → γ)
    {as : List α} {bs : List β} (h : Serves Answers Filler as bs)
    (hanswers : ∀ a ∈ as, ∀ b, Answers a b → Answers' a (g b))
    (hfiller : ∀ b, Filler b → Filler' (g b)) : Serves Answers' Filler' as (bs.map g) := by
  induction h with
  | nil => exact .nil
  | answer ha _ ih =>
    exact .answer (hanswers _ List.mem_cons_self _ ha)
      (ih fun a h => hanswers a (List.mem_cons_of_mem _ h))
  | filler hb _ ih => exact .filler (hfiller _ hb) (ih hanswers)

theorem Serves.mem {as : List α} {bs : List β} (h : Serves Answers Filler as bs) :
    ∀ b ∈ bs, (∃ a ∈ as, Answers a b) ∨ Filler b := by
  induction h with
  | nil => simp
  | answer ha _ ih =>
    intro b hb
    rcases List.mem_cons.1 hb with rfl | hb
    · exact .inl ⟨_, List.mem_cons_self, ha⟩
    · exact (ih b hb).imp_left fun ⟨a, h, hab⟩ => ⟨a, List.mem_cons_of_mem _ h, hab⟩
  | filler hf _ ih =>
    intro b hb
    rcases List.mem_cons.1 hb with rfl | hb
    · exact .inr hf
    · exact ih b hb

theorem Serves.exists_strictMono {as : List α} {bs : List β} (h : Serves Answers Filler as bs) :
    ∃ f : Fin as.length → Fin bs.length, StrictMono f ∧ (∀ i, Answers as[i] bs[f i]) ∧
      ∀ j, (∀ i, f i ≠ j) → Filler bs[j] := by
  induction h with
  | nil => exact ⟨Fin.elim0, fun i => i.elim0, fun i => i.elim0, fun j => j.elim0⟩
  | @answer a b as bs ha _ ih =>
    obtain ⟨f, hmono, hanswers, hfiller⟩ := ih
    refine ⟨Fin.cases 0 fun i => (f i).succ, ?_, ?_, ?_⟩
    · intro i j hij
      cases j using Fin.cases with
      | zero => exact absurd hij (Fin.not_lt_zero i)
      | succ j =>
        cases i using Fin.cases with
        | zero => exact Fin.succ_pos (f j)
        | succ i => exact Fin.succ_lt_succ_iff.2 (hmono (Fin.succ_lt_succ_iff.1 hij))
    · intro i
      cases i using Fin.cases with
      | zero => exact ha
      | succ i => exact hanswers i
    · intro j hj
      cases j using Fin.cases with
      | zero => exact absurd rfl (hj 0)
      | succ j => exact hfiller j fun i hi => hj i.succ (congrArg Fin.succ hi)
  | @filler b as bs hb _ ih =>
    obtain ⟨f, hmono, hanswers, hfiller⟩ := ih
    refine ⟨Fin.succ ∘ f, fun i j hij => Fin.succ_lt_succ_iff.2 (hmono hij), hanswers, ?_⟩
    intro j hj
    cases j using Fin.cases with
    | zero => exact hb
    | succ j => exact hfiller j fun i hi => hj i (congrArg Fin.succ hi)

end Serves

/-- Where something stands among nested lists: how many lists deep, whether the innermost one is
numbered, and at which place in it. -/
structure Spot (α : Type) where
  depth : Nat
  ordered : Bool
  place : Nat
  item : α

def Spot.map {α β : Type} (f : α → β) (s : Spot α) : Spot β :=
  ⟨s.depth, s.ordered, s.place, f s.item⟩

namespace Node

mutual
def listSpots (depth : Nat) : Node → List (Spot Node)
  | mk (.list ordered _ _) _ items => itemSpots depth ordered 0 items
  | mk _ _ _ => []

def itemSpots (depth : Nat) (ordered : Bool) (place : Nat) : List Node → List (Spot Node)
  | [] => []
  | mk s a blocks :: items =>
    ⟨depth, ordered, place, mk s a blocks⟩ ::
      (blockSpots (depth + 1) blocks ++ itemSpots depth ordered (place + 1) items)

def blockSpots (depth : Nat) : List Node → List (Spot Node)
  | [] => []
  | block :: blocks => listSpots depth block ++ blockSpots depth blocks
end

theorem blockSpots_append (depth : Nat) (ns ms : List Node) :
    blockSpots depth (ns ++ ms) = blockSpots depth ns ++ blockSpots depth ms := by
  induction ns with
  | nil => rfl
  | cons n ns ih => rw [List.cons_append, blockSpots, blockSpots, ih, List.append_assoc]

theorem itemSpots_append (depth : Nat) (ordered : Bool) (place : Nat) (ns ms : List Node) :
    itemSpots depth ordered place (ns ++ ms) =
      itemSpots depth ordered place ns ++ itemSpots depth ordered (place + ns.length) ms := by
  induction ns generalizing place with
  | nil => rfl
  | cons n ns ih =>
    obtain ⟨s, a, blocks⟩ := n
    rw [List.cons_append, itemSpots, itemSpots, ih, List.length_cons, Nat.add_right_comm,
      ← Nat.add_assoc]
    simp

theorem blockSpots_eq_nil {depth : Nat} {ns : List Node} (h : ∀ n ∈ ns, n.kind ≠ .list) :
    blockSpots depth ns = [] := by
  induction ns with
  | nil => rfl
  | cons n ns ih =>
    have hnone : listSpots depth n = [] := by
      obtain ⟨s, a, blocks⟩ := n
      cases s with
      | list => exact absurd rfl (h _ List.mem_cons_self)
      | _ => rfl
    rw [blockSpots, hnone, List.nil_append, ih fun m hm => h m (List.mem_cons_of_mem n hm)]

end Node

namespace ListDraft

abbrev Nested := ItemDraft × List ListDraft

mutual
def spots (depth : Nat) : ListDraft → List (Spot Nested)
  | mk ordered items => itemSpots depth ordered items

def itemSpots (depth : Nat) (ordered : Bool) : List Nested → List (Spot Nested)
  | [] => []
  | (item, nested) :: older =>
    itemSpots depth ordered older ++
      ⟨depth, ordered, older.length, (item, nested)⟩ :: allSpots (depth + 1) nested

def allSpots (depth : Nat) : List ListDraft → List (Spot Nested)
  | [] => []
  | l :: older => allSpots depth older ++ spots depth l
end

structure Call where
  level : Int
  ordered : Bool
  item : ItemDraft

def Peopled : ListDraft → Prop
  | mk _ items => items ≠ []

structure Call.Drafts (c : Call) (s : Spot Nested) : Prop where
  depth : (s.depth : Int) = c.level
  ordered : s.ordered = c.ordered
  item : s.item.1 = c.item
  peopled : ∀ l ∈ s.item.2, l.Peopled

/-- A drafted item that is there for the lists nested under it. -/
structure Carries (s : Spot Nested) : Prop where
  first : s.place = 0
  item : s.item.1 = {}
  nested : s.item.2 ≠ []
  peopled : ∀ l ∈ s.item.2, l.Peopled

section Add

variable {ordered : Bool} {item : ItemDraft}

theorem add_eq_cons (ordered : Bool) (item : ItemDraft) (k : Nat) (lists : List ListDraft) :
    ∃ o newest items older, add ordered item k lists = mk o (newest :: items) :: older ∧
      ∀ l ∈ older, l ∈ lists := by
  cases k with
  | zero =>
    cases lists with
    | nil => exact ⟨_, _, _, _, rfl, nofun⟩
    | cons l older =>
      obtain ⟨o, items⟩ := l
      by_cases h : o = ordered
      · exact ⟨_, _, _, _, by rw [add, if_pos h], fun l hl => List.mem_cons_of_mem _ hl⟩
      · exact ⟨_, _, _, _, by rw [add, if_neg h], fun l hl => hl⟩
  | succ k =>
    cases lists with
    | nil => exact ⟨_, _, _, _, rfl, nofun⟩
    | cons l older =>
      obtain ⟨o, items⟩ := l
      cases items with
      | nil => exact ⟨_, _, _, _, rfl, fun l hl => List.mem_cons_of_mem _ hl⟩
      | cons entry items => exact ⟨_, _, _, _, rfl, fun l hl => List.mem_cons_of_mem _ hl⟩

theorem add_ne_nil (k : Nat) (lists : List ListDraft) : add ordered item k lists ≠ [] := by
  obtain ⟨o, newest, items, older, hadd, -⟩ := add_eq_cons ordered item k lists
  rw [hadd]
  exact List.cons_ne_nil _ _

theorem add_peopled {k : Nat} {lists : List ListDraft} (h : ∀ l ∈ lists, l.Peopled) :
    ∀ l ∈ add ordered item k lists, l.Peopled := by
  obtain ⟨o, newest, items, older, hadd, holder⟩ := add_eq_cons ordered item k lists
  rw [hadd]
  intro l hl
  rcases List.mem_cons.1 hl with rfl | hl
  · exact List.cons_ne_nil _ _
  · exact h l (holder l hl)

theorem allSpots_add_zero (ordered : Bool) (item : ItemDraft) (depth : Nat)
    (lists : List ListDraft) :
    ∃ place, allSpots depth (add ordered item 0 lists) =
      allSpots depth lists ++ [⟨depth, ordered, place, (item, [])⟩] := by
  cases lists with
  | nil => exact ⟨0, rfl⟩
  | cons l older =>
    obtain ⟨o, items⟩ := l
    by_cases h : o = ordered
    · refine ⟨items.length, ?_⟩
      rw [add, if_pos h, ← h]
      simp [allSpots, spots, itemSpots]
    · refine ⟨0, ?_⟩
      rw [add, if_neg h]
      simp [allSpots, spots, itemSpots]

/-- An item that goes deeper hangs from the last item; if there is none, from a new one without
content. -/
theorem allSpots_add_succ (ordered : Bool) (item : ItemDraft) (depth k : Nat)
    (lists : List ListDraft) :
    (∃ o, allSpots depth (add ordered item (k + 1) lists) =
      allSpots depth lists ++ ⟨depth, o, 0, ({}, add ordered item k [])⟩ ::
        allSpots (depth + 1) (add ordered item k [])) ∨
    ∃ front o place carrier nested,
      allSpots depth lists =
        front ++ ⟨depth, o, place, (carrier, nested)⟩ :: allSpots (depth + 1) nested ∧
      allSpots depth (add ordered item (k + 1) lists) =
        front ++ ⟨depth, o, place, (carrier, add ordered item k nested)⟩ ::
          allSpots (depth + 1) (add ordered item k nested) := by
  cases lists with
  | nil => exact .inl ⟨ordered, rfl⟩
  | cons l older =>
    obtain ⟨o, items⟩ := l
    cases items with
    | nil => exact .inl ⟨o, by simp [add, allSpots, spots, itemSpots]⟩
    | cons entry items =>
      obtain ⟨carrier, nested⟩ := entry
      refine .inr ⟨allSpots depth older ++ itemSpots depth o items, o, items.length, carrier,
        nested, ?_, ?_⟩
      · simp [allSpots, spots, itemSpots]
      · simp [add, allSpots, spots, itemSpots]

theorem add_serves {calls : List Call} {c : Call} {k : Nat} {lists : List ListDraft} {depth : Nat}
    (hlevel : c.level = depth + k)
    (h : Serves Call.Drafts Carries calls (allSpots depth lists)) :
    Serves Call.Drafts Carries (calls ++ [c]) (allSpots depth (add c.ordered c.item k lists)) := by
  induction k generalizing calls lists depth with
  | zero =>
    obtain ⟨place, hspots⟩ := allSpots_add_zero c.ordered c.item depth lists
    have hlast : c.Drafts ⟨depth, c.ordered, place, (c.item, [])⟩ :=
      ⟨by simp [hlevel], rfl, rfl, nofun⟩
    rw [hspots]
    exact h.append (.answer hlast .nil)
  | succ k ih =>
    have hdeeper : c.level = (depth + 1 : Nat) + k := by
      omega
    rcases allSpots_add_succ c.ordered c.item depth k lists with
      ⟨o, hspots⟩ | ⟨front, o, place, carrier, nested, hbefore, hafter⟩
    · have hcarries : Carries ⟨depth, o, 0, ({}, add c.ordered c.item k [])⟩ :=
        ⟨rfl, rfl, add_ne_nil k [], add_peopled nofun⟩
      have hnew : Serves Call.Drafts Carries ([] ++ [c])
          (allSpots (depth + 1) (add c.ordered c.item k [])) := ih hdeeper .nil
      rw [hspots]
      exact h.append (.filler hcarries hnew)
    · rw [hbefore] at h
      obtain ⟨calls, back, rfl, hfront, hback⟩ := h.of_append
      rw [hafter, List.append_assoc]
      apply hfront.append
      -- What is added hangs from the last item, be it an answer or a carrier, and stands behind
      -- all that hung from it before.
      cases hback with
      | answer hdrafts hrest =>
        exact .answer ⟨hdrafts.depth, hdrafts.ordered, hdrafts.item, add_peopled hdrafts.peopled⟩
          (ih hdeeper hrest)
      | filler hcarries hrest =>
        exact .filler ⟨hcarries.first, hcarries.item, add_ne_nil k nested,
          add_peopled hcarries.peopled⟩ (ih hdeeper hrest)

end Add

end ListDraft

end Folio
