import Mathlib.Data.Finset.Card
import Mathlib.Data.List.Basic
import Folio.Log.Registry

/-!
# Names of log categories

A registry stores names cut to a size and compares them whole with the names that are looked up.
Beside it stands the table of the whole names, in the order in which they were first looked up.
The two give the same answers as long as no name comes that a stored one was cut from, or is
mistaken for. A long name is never found again, so it is given a category at each look-up.
-/

set_option autoImplicit false

namespace Folio.Log

def stored (name : Bytes) : Bytes := name.take (nameSize - 1)

theorem stored_eq_self {name : Bytes} (h : name.length < nameSize) : stored name = name :=
  List.take_of_length_le (Nat.le_sub_one_of_lt h)

theorem length_stored (name : Bytes) : (stored name).length < nameSize := by
  rw [stored, List.length_take]
  exact Nat.lt_of_le_of_lt (Nat.min_le_left _ _) (by decide)

theorem stored_ne {name : Bytes} (long : nameSize ≤ name.length) (t : Bytes) : stored t ≠ name := by
  rintro rfl
  exact Nat.not_lt.2 long (length_stored t)

def enter (table : List Bytes) (name : Bytes) : List Bytes :=
  if name ∈ table then table else table ++ [name]

def enterAll (table names : List Bytes) : List Bytes := names.foldl enter table

/-- Whether a look-up tells a name from the names of a table, when each is stored cut: it is not
one of those that were cut, and comes before any that is cut to it. -/
def ToldFrom (table : List Bytes) (name : Bytes) : Prop :=
  ∀ before long after, table = before ++ long :: after → nameSize ≤ long.length →
    name ≠ long ∧ (name = stored long → name ∈ before)

def ToldApart (table : List Bytes) : List Bytes → Prop
  | [] => True
  | name :: names => ToldFrom table name ∧ ToldApart (enter table name) names

theorem prefix_enter (table : List Bytes) (name : Bytes) : table <+: enter table name := by
  unfold enter
  split
  · exact List.prefix_rfl
  · exact List.prefix_append table [name]

theorem mem_enter {table : List Bytes} {name t : Bytes} :
    t ∈ enter table name ↔ t ∈ table ∨ t = name := by
  unfold enter
  split
  · next h => exact ⟨Or.inl, fun ht => ht.elim id (· ▸ h)⟩
  · simp

theorem nodup_enter {table : List Bytes} (h : table.Nodup) (name : Bytes) :
    (enter table name).Nodup := by
  unfold enter
  split
  · exact h
  · next hname => exact List.Nodup.append h (List.nodup_singleton name) (by simpa using hname)

theorem prefix_enterAll (table names : List Bytes) : table <+: enterAll table names := by
  induction names generalizing table with
  | nil => exact List.prefix_rfl
  | cons name names ih => exact (prefix_enter table name).trans (ih (enter table name))

theorem mem_enterAll {table names : List Bytes} {t : Bytes} :
    t ∈ enterAll table names ↔ t ∈ table ∨ t ∈ names := by
  induction names generalizing table with
  | nil => simp [enterAll]
  | cons name names ih =>
    show t ∈ enterAll (enter table name) names ↔ _
    rw [ih, mem_enter, List.mem_cons, or_assoc]

theorem nodup_enterAll {table : List Bytes} (h : table.Nodup) (names : List Bytes) :
    (enterAll table names).Nodup := by
  induction names generalizing table with
  | nil => exact h
  | cons name names ih => exact ih (nodup_enter h name)

theorem length_enterAll_le (first : Bytes) (names : List Bytes) :
    (enterAll [first] names).length ≤ names.toFinset.card + 1 := by
  have hnodup := nodup_enterAll (List.nodup_singleton first) names
  have hsub : (enterAll [first] names).toFinset ⊆ insert first names.toFinset := by
    intro t ht
    simpa [mem_enterAll] using ht
  rw [← List.toFinset_card_of_nodup hnodup]
  exact (Finset.card_le_card hsub).trans (Finset.card_insert_le _ _)

theorem ToldFrom.stored_ne {before rest : List Bytes} {name : Bytes}
    (told : ToldFrom (before ++ rest) name) (h : name ∉ before) :
    ∀ t ∈ before, stored t ≠ name := by
  rintro t ht rfl
  obtain ⟨front, back, rfl⟩ := List.append_of_mem ht
  by_cases hlong : nameSize ≤ t.length
  · obtain ⟨-, hfront⟩ := told front t (back ++ rest) (by simp) hlong
    exact h (List.mem_append_left _ (hfront rfl))
  · rw [stored_eq_self (Nat.not_le.1 hlong)] at h
    exact h ht

theorem findIdx?_first {before : List Bytes} {s : Bytes} (h : s ∉ before) (after : List Bytes) :
    (before ++ s :: after).findIdx? (· == s) = some before.length := by
  have hpassed : before.findIdx? (· == s) = none := by
    rw [List.findIdx?_eq_none_iff]
    exact fun t ht => beq_eq_false_iff_ne.2 fun heq => h (heq ▸ ht)
  rw [List.findIdx?_append, hpassed]
  simp [List.findIdx?_cons]

theorem findIdx?_stored_of_mem {table : List Bytes} {name : Bytes} (told : ToldFrom table name)
    (h : name ∈ table) :
    (table.map stored).findIdx? (· == name) = some (table.idxOf name) := by
  obtain ⟨before, after, rfl, hbefore⟩ := List.eq_append_cons_of_mem h
  have hshort : name.length < nameSize := by
    by_contra hlong
    exact (told before name after rfl (Nat.not_lt.1 hlong)).1 rfl
  have hpassed : name ∉ before.map stored := by
    intro hmem
    obtain ⟨t, ht, heq⟩ := List.mem_map.1 hmem
    exact told.stored_ne hbefore t ht heq
  rw [List.map_append, List.map_cons, stored_eq_self hshort, findIdx?_first hpassed,
    List.length_map, List.idxOf_append_of_notMem hbefore]
  simp

theorem findIdx?_stored_of_notMem {table : List Bytes} {name : Bytes} (told : ToldFrom table name)
    (h : name ∉ table) : (table.map stored).findIdx? (· == name) = none := by
  rw [List.findIdx?_eq_none_iff]
  intro s hs
  obtain ⟨t, ht, rfl⟩ := List.mem_map.1 hs
  rw [← List.append_nil table] at told
  exact beq_eq_false_iff_ne.2 (told.stored_ne h t ht)

namespace Registry

def names (r : Registry) : List Bytes := r.categories.map Category.name

variable {r : Registry} {table : List Bytes} {name : Bytes}

theorem categoryUnder_name (rules : List Rule) (name : Bytes) :
    (categoryUnder rules name).name = name := by
  unfold categoryUnder
  split <;> rfl

theorem find_eq (r : Registry) (name : Bytes) :
    r.find name =
      match r.names.findIdx? (· == name) with
      | some i => (r, i)
      | none =>
        if maxCategories ≤ r.names.length then (r, 0)
        else ({ r with categories := r.categories ++ [categoryUnder r.rules (stored name)] },
          r.names.length) := by
  rw [names, List.findIdx?_map, List.length_map]
  rfl

section Told

variable (htable : r.names = table.map stored) (told : ToldFrom table name)
include htable told

theorem find_of_mem (h : name ∈ table) : r.find name = (r, table.idxOf name) := by
  rw [find_eq, htable, findIdx?_stored_of_mem told h]

theorem find_of_notMem (h : name ∉ table) (room : table.length < maxCategories) :
    r.find name =
      ({ r with categories := r.categories ++ [categoryUnder r.rules (stored name)] },
        table.length) := by
  rw [find_eq, htable, findIdx?_stored_of_notMem told h, List.length_map]
  exact if_neg (Nat.not_le.2 room)

/-- The answer is where the name stands in the table, and the registry stays abreast of it. -/
theorem find_told (room : (enter table name).length ≤ maxCategories) :
    (r.find name).2 = (enter table name).idxOf name ∧
      (r.find name).1.names = (enter table name).map stored := by
  by_cases h : name ∈ table
  · rw [find_of_mem htable told h, enter, if_pos h]
    exact ⟨rfl, htable⟩
  · rw [enter, if_neg h, List.length_append] at room
    rw [find_of_notMem htable told h room, enter, if_neg h, List.idxOf_append_of_notMem h]
    constructor
    · simp
    · rw [names] at htable ⊢
      rw [List.map_append, List.map_append, htable, List.map_singleton, List.map_singleton,
        categoryUnder_name]

end Told

section Untold

variable (htable : r.names = table.map stored)
include htable

theorem find_long_ne (long : nameSize ≤ name.length) (hmem : name ∈ table)
    (hfirst : table.idxOf name ≠ 0) : (r.find name).2 ≠ table.idxOf name := by
  have hnone : r.names.findIdx? (· == name) = none := by
    rw [List.findIdx?_eq_none_iff, htable]
    intro s hs
    obtain ⟨t, -, rfl⟩ := List.mem_map.1 hs
    exact beq_eq_false_iff_ne.2 (stored_ne long t)
  rw [find_eq, hnone, htable, List.length_map]
  dsimp only
  split
  · exact hfirst.symm
  · exact Nat.ne_of_gt (List.idxOf_lt_length_iff.2 hmem)

theorem find_stored {long : Bytes} (hmem : long ∈ table) :
    ∃ before t after, table = before ++ t :: after ∧ stored t = stored long ∧
      (∀ u ∈ before, stored u ≠ stored long) ∧ (r.find (stored long)).2 = before.length := by
  obtain ⟨as, bs, hsplit, has⟩ :=
    List.eq_append_cons_of_mem (List.mem_map_of_mem (f := stored) hmem)
  obtain ⟨before, rest, rfl, rfl, hrest⟩ := List.map_eq_append_iff.1 hsplit
  obtain ⟨t, after, rfl, ht, -⟩ := List.map_eq_cons_iff.1 hrest
  refine ⟨before, t, after, rfl, ht, fun u hu heq => has (heq ▸ List.mem_map_of_mem hu), ?_⟩
  rw [find_eq, htable, hsplit, findIdx?_first has, List.length_map]

/-- A name that gets no category of another name is told apart from all that were there. -/
theorem toldFrom_of_find (hfirst : [defaultName] <+: table)
    (hfind : ∀ t ∈ table, t ≠ defaultName → (name = t ↔ (r.find name).2 = table.idxOf t)) :
    ToldFrom table name := by
  intro before long after hsplit hlong
  have hmem : long ∈ table := by simp [hsplit]
  have hdefault : long ≠ defaultName := by
    rintro rfl
    exact absurd hlong (by decide)
  constructor
  · rintro rfl
    have hpos : table.idxOf name ≠ 0 := by
      obtain ⟨rest, rfl⟩ := hfirst
      rw [List.singleton_append, List.idxOf_cons_ne rest hdefault.symm]
      exact Nat.succ_ne_zero _
    exact find_long_ne htable hlong hmem hpos ((hfind name hmem hdefault).1 rfl)
  · rintro rfl
    by_contra hbefore
    obtain ⟨front, t, back, hat, ht, hfront, hanswer⟩ := find_stored htable hmem
    have hnotMem : t ∉ front := fun h => hfront t h ht
    have hplace : table.idxOf t = front.length := by
      rw [hat, List.idxOf_append_of_notMem hnotMem]
      simp
    -- Otherwise one of `t` and `long` stands before the other, which neither of them does.
    have hother : stored long ≠ t := by
      intro heq
      have hsame : long ≠ t := fun h => stored_ne hlong long (heq.trans h.symm)
      rw [hsplit, List.append_eq_append_iff] at hat
      obtain ⟨between, hbetween, hrest⟩ | ⟨between, hbetween, hrest⟩ := hat
      · rcases List.cons_eq_append_iff.1 hrest with ⟨-, hhead⟩ | ⟨tail, rfl, -⟩
        · exact hsame (List.cons.inj hhead).1.symm
        · exact hfront long (by simp [hbetween]) rfl
      · rcases List.cons_eq_append_iff.1 hrest with ⟨-, hhead⟩ | ⟨tail, rfl, -⟩
        · exact hsame (List.cons.inj hhead).1
        · exact hbefore (by simp [hbetween, heq])
    have hnamed : t ≠ defaultName := by
      rintro rfl
      exact hother (ht.symm.trans (stored_eq_self (by decide)))
    exact hother ((hfind t (by simp [hat]) hnamed).2 (hanswer.trans hplace.symm))

end Untold

theorem ensureDefault_of_names {first : Bytes} {rest : List Bytes} (h : r.names = first :: rest) :
    r.ensureDefault = r := by
  have hsome : r.categories ≠ [] := by
    intro hnone
    simp [names, hnone] at h
  rw [ensureDefault, if_neg (by simpa using hsome)]

theorem ensureDefault_of_nil (h : r.categories = []) :
    r.ensureDefault = { r with categories := [categoryUnder r.rules defaultName] } := by
  have hfind : r.find defaultName =
      ({ r with categories := [categoryUnder r.rules defaultName] }, 0) := by
    rw [find_eq, names, h]
    rfl
  rw [ensureDefault, h, hfind]
  rfl

theorem ensureDefault_names_of_nil (h : r.categories = []) :
    r.ensureDefault.names = [defaultName].map stored := by
  rw [ensureDefault_of_nil h, names, List.map_singleton, List.map_singleton, categoryUnder_name]
  rfl

theorem length_le_ensureDefault (r : Registry) :
    r.categories.length ≤ r.ensureDefault.names.length := by
  by_cases h : r.categories = []
  · simp [h]
  · rw [ensureDefault, if_neg (by simpa using h), names, List.length_map]

/-- The names that are looked up one after the other, each with the category that it is given. -/
def given (r : Registry) : List Bytes → List (Bytes × Nat)
  | [] => []
  | name :: names =>
    let (next, category) := r.lookup (some name)
    (name.untilNul, category) :: given next names

def lookups (r : Registry) : List Bytes → Registry
  | [] => r
  | name :: names => lookups (r.lookup (some name)).1 names

theorem lookup_told (htable : r.ensureDefault.names = table.map stored)
    (hfirst : [defaultName] <+: table) (told : ToldFrom table name.untilNul)
    (room : (enter table name.untilNul).length ≤ maxCategories) :
    (r.lookup (some name)).2 = (enter table name.untilNul).idxOf name.untilNul ∧
      (r.lookup (some name)).1.ensureDefault.names = (enter table name.untilNul).map stored := by
  obtain ⟨hanswer, hnames⟩ := find_told htable told room
  obtain ⟨rest, hrest⟩ := hfirst.trans (prefix_enter table name.untilNul)
  refine ⟨hanswer, ?_⟩
  have hsome : (r.lookup (some name)).1.names = stored defaultName :: rest.map stored := by
    rw [← hrest] at hnames
    exact hnames
  rw [ensureDefault_of_names hsome]
  exact hnames

theorem given_told {names : List Bytes} (htable : r.ensureDefault.names = table.map stored)
    (hfirst : [defaultName] <+: table) (told : ToldApart table (names.map Bytes.untilNul))
    (room : (enterAll table (names.map Bytes.untilNul)).length ≤ maxCategories) :
    (∀ p ∈ given r names, p.1 ∈ enterAll table (names.map Bytes.untilNul) ∧
      p.2 = (enterAll table (names.map Bytes.untilNul)).idxOf p.1) ∧
    (lookups r names).ensureDefault.names =
      (enterAll table (names.map Bytes.untilNul)).map stored := by
  induction names generalizing r table with
  | nil => exact ⟨nofun, htable⟩
  | cons name names ih =>
    obtain ⟨htold, hrest⟩ := told
    have hbegins := prefix_enterAll (enter table name.untilNul) (names.map Bytes.untilNul)
    have hroom := hbegins.length_le.trans room
    obtain ⟨hanswer, hnext⟩ := lookup_told htable hfirst htold hroom
    obtain ⟨hgiven, hlast⟩ := ih hnext (hfirst.trans (prefix_enter _ _)) hrest room
    refine ⟨List.forall_mem_cons.2 ⟨?_, hgiven⟩, hlast⟩
    have hmem : name.untilNul ∈ enter table name.untilNul := mem_enter.2 (.inr rfl)
    exact ⟨hbegins.subset hmem, hanswer.trans (hbegins.idxOf_eq_of_mem hmem)⟩

theorem toldApart_of_given {names : List Bytes} {before : List (Bytes × Nat)}
    (htable : r.ensureDefault.names = table.map stored) (hfirst : [defaultName] <+: table)
    (hbefore : ∀ t ∈ table, t ≠ defaultName → (t, table.idxOf t) ∈ before)
    (room : (enterAll table (names.map Bytes.untilNul)).length ≤ maxCategories)
    (hapart : ∀ p ∈ before ++ given r names, ∀ q ∈ before ++ given r names,
      (p.1 = q.1 ↔ p.2 = q.2)) :
    ToldApart table (names.map Bytes.untilNul) := by
  induction names generalizing r table before with
  | nil => trivial
  | cons name names ih =>
    have hgiven : (name.untilNul, (r.lookup (some name)).2) ∈ before ++ given r (name :: names) :=
      List.mem_append_right _ List.mem_cons_self
    have htold : ToldFrom table name.untilNul := by
      refine toldFrom_of_find htable hfirst fun t ht hother => ?_
      exact hapart _ hgiven _ (List.mem_append_left _ (hbefore t ht hother))
    have hbegins := prefix_enterAll (enter table name.untilNul) (names.map Bytes.untilNul)
    obtain ⟨hanswer, hnext⟩ := lookup_told htable hfirst htold (hbegins.length_le.trans room)
    have hentered : ∀ t ∈ enter table name.untilNul, t ≠ defaultName →
        (t, (enter table name.untilNul).idxOf t) ∈
          before ++ [(name.untilNul, (r.lookup (some name)).2)] := by
      intro t ht hother
      by_cases hold : t ∈ table
      · rw [← (prefix_enter table name.untilNul).idxOf_eq_of_mem hold]
        exact List.mem_append_left _ (hbefore t hold hother)
      · obtain rfl := (mem_enter.1 ht).resolve_left hold
        rw [← hanswer]
        exact List.mem_append_right _ List.mem_cons_self
    refine ⟨htold, ih hnext (hfirst.trans (prefix_enter _ _)) hentered room ?_⟩
    simpa [given] using hapart

/-- What look-ups are for: a category for each name, another for each other name, and no more
categories than names, the default one apart. -/
structure Interns (names : List Bytes) : Prop where
  apart : ∀ p ∈ given {} names, ∀ q ∈ given {} names, (p.1 = q.1 ↔ p.2 = q.2)
  size : (lookups {} names).categories.length ≤ (names.map Bytes.untilNul).toFinset.card + 1

theorem toldFrom_of_short (htable : ∀ t ∈ table, t.length < nameSize) (name : Bytes) :
    ToldFrom table name := by
  intro before long after hsplit hlong
  exact absurd (htable long (by simp [hsplit])) (Nat.not_lt.2 hlong)

theorem toldApart_of_short {names : List Bytes} (htable : ∀ t ∈ table, t.length < nameSize)
    (hshort : ∀ name ∈ names, name.length < nameSize) : ToldApart table names := by
  induction names generalizing table with
  | nil => trivial
  | cons name names ih =>
    obtain ⟨hname, hnames⟩ := List.forall_mem_cons.1 hshort
    refine ⟨toldFrom_of_short htable name, ih (fun t ht => ?_) hnames⟩
    exact (mem_enter.1 ht).elim (htable t) (· ▸ hname)

theorem short_default : ∀ t ∈ [defaultName], t.length < nameSize := by decide

/-- Of less names than there is room for, each gets a category of its own just when each is told
apart from those before it, which names of less than 64 bytes always are. -/
theorem interns_iff {names : List Bytes}
    (hfew : (names.map Bytes.untilNul).toFinset.card < maxCategories) :
    (Interns names ↔ ToldApart [defaultName] (names.map Bytes.untilNul)) ∧
      ((∀ name ∈ names, name.untilNul.length < nameSize) → Interns names) := by
  have hroom := (length_enterAll_le defaultName (names.map Bytes.untilNul)).trans hfew
  have hstart : ({} : Registry).ensureDefault.names = [defaultName].map stored :=
    ensureDefault_names_of_nil rfl
  have hinterns : ToldApart [defaultName] (names.map Bytes.untilNul) → Interns names := by
    intro told
    obtain ⟨hgiven, hlast⟩ := given_told hstart List.prefix_rfl told hroom
    constructor
    · intro p hp q hq
      obtain ⟨hmem, hp⟩ := hgiven p hp
      obtain ⟨-, hq⟩ := hgiven q hq
      rw [hp, hq, List.idxOf_inj hmem]
    · have hlength := length_le_ensureDefault (lookups {} names)
      rw [hlast, List.length_map] at hlength
      exact hlength.trans (length_enterAll_le _ _)
  refine ⟨⟨fun h => ?_, hinterns⟩, fun hshort => hinterns ?_⟩
  · have hnone : ∀ t ∈ [defaultName], t ≠ defaultName → (t, [defaultName].idxOf t) ∈
        ([] : List (Bytes × Nat)) := fun t ht hother => absurd (List.mem_singleton.1 ht) hother
    exact toldApart_of_given hstart List.prefix_rfl hnone hroom h.apart
  · exact toldApart_of_short short_default (by simpa using hshort)

def longName : Bytes := List.replicate nameSize 97

theorem longName_interns :
    ([utf8 "a", utf8 "a", longName].map Bytes.untilNul).toFinset.card < maxCategories ∧
      Interns [utf8 "a", utf8 "a", longName] := by
  have hfew : ([utf8 "a", utf8 "a", longName].map Bytes.untilNul).toFinset.card <
      maxCategories := by decide
  have hlong : ToldFrom [defaultName, utf8 "a"] longName := toldFrom_of_short (by decide) _
  have hagain : ToldFrom [defaultName, utf8 "a"] (utf8 "a") := toldFrom_of_short (by decide) _
  have htold : ToldApart [defaultName] ([utf8 "a", utf8 "a", longName].map Bytes.untilNul) :=
    ⟨toldFrom_of_short short_default _, hagain, hlong, trivial⟩
  exact ⟨hfew, (interns_iff hfew).1.2 htold⟩

/-- Looked up twice, a long name is given two categories. -/
theorem longName_forgotten :
    ([longName, longName].map Bytes.untilNul).toFinset.card < maxCategories ∧
      given {} [longName, longName] = [(longName, 1), (longName, 2)] ∧
      ¬ Interns [longName, longName] := by
  have hgiven : given {} [longName, longName] = [(longName, 1), (longName, 2)] := by decide +kernel
  refine ⟨by decide, hgiven, fun h => ?_⟩
  have hsame := (h.apart (longName, 1) (by simp [hgiven]) (longName, 2) (by simp [hgiven])).1 rfl
  exact absurd hsame (by decide)

end Registry
end Folio.Log
