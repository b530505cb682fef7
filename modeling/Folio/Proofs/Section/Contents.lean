import Folio.Proofs.Section.Nesting
import Folio.Proofs.Text.Slug

/-!
# What a table of contents says

The nested table lists the headings in order, and puts a heading beneath another exactly
when it stands in the section of the other.
The lines of a table link to their headings by slugs, which are given in the order of the
headings. However its headings read, no two lines of a table have the same link.
-/

set_option autoImplicit false

namespace Folio.Contents

def numbered (k : Nat) : List (List (List Nat × Bytes)) → List (List Nat × Bytes)
  | [] => []
  | es :: rest => es.map (fun e => (k :: e.1, e.2)) ++ numbered (k + 1) rest

/-- The entries of a list with lists in its items, in the order in which they are met: the text
of each and its address, the numbers of the items on the way to it. -/
def entries : Node → List (List Nat × Bytes) :=
  Node.fold fun n below =>
    match n.shape with
    | .list .. => numbered 0 below
    | .listItem _ => below.flatten
    | _ => [([], n.text)]

theorem entries_paragraph (t : Bytes) : entries (paragraph t) = [([], t)] := by
  have htext : (paragraph t).text = [t].flatten := rfl
  have hentries : entries (paragraph t) = [([], (paragraph t).text)] := rfl
  rw [hentries, htext, List.flatten_singleton]

theorem entries_bulletList (items : List Node) :
    entries (bulletList items) = numbered 0 (items.map entries) := by
  rw [entries, Node.fold_eq]
  rfl

theorem entries_item (t : Bytes) (beneath : List Node) :
    entries (item t beneath) = ([], t) :: numbered 0 (beneath.map entries) := by
  have hitem : entries (item t beneath) =
      ((paragraph t ::
        if beneath.isEmpty then [] else [bulletList beneath]).map entries).flatten := by
    rw [entries, Node.fold_eq]
    rfl
  rw [hitem, List.map_cons, List.flatten_cons, entries_paragraph]
  cases beneath with
  | nil => rfl
  | cons n beneath => simp [entries_bulletList]

section Addresses

variable {α β : Type} (level : α → Int)

/-- The address of each member of a list, from number `k` on: the deeper ones that follow a
member at once have their addresses beneath it. -/
def addressed (k : Nat) : List α → List (α × List Nat)
  | [] => []
  | x :: xs =>
    (x, [k]) :: ((addressed 0 (deeper level (level x) xs)).map fun r => (r.1, k :: r.2)) ++
      addressed (k + 1) (onward level (level x) xs)
termination_by xs => xs.length
decreasing_by
  · exact Nat.lt_succ_of_le (length_deeper_le level _ _)
  · exact Nat.lt_succ_of_le (length_onward_le level _ _)

theorem addressed_fst (k : Nat) (xs : List α) : (addressed level k xs).map Prod.fst = xs := by
  induction k, xs using addressed.induct level with
  | case1 k => simp [addressed]
  | case2 k x xs ihdeeper ihonward =>
    rw [addressed, List.cons_append, List.map_cons, List.map_append, List.map_map, ihonward]
    show x :: ((addressed level 0 (deeper level (level x) xs)).map Prod.fst ++ _) = _
    rw [ihdeeper, deeper_append_onward]

theorem addressed_map (f : β → α) (k : Nat) (ys : List β) :
    addressed level k (ys.map f) =
      (addressed (level ∘ f) k ys).map fun r => (f r.1, r.2) := by
  induction k, ys using addressed.induct (level ∘ f) with
  | case1 k => simp [addressed]
  | case2 k y ys ihdeeper ihonward =>
    have hdeeper : deeper level (level (f y)) (ys.map f) =
        (deeper (level ∘ f) ((level ∘ f) y) ys).map f := deeper_map level f _ ys
    have honward : onward level (level (f y)) (ys.map f) =
        (onward (level ∘ f) ((level ∘ f) y) ys).map f := onward_map level f _ ys
    rw [List.map_cons, addressed, addressed, hdeeper, honward, ihdeeper, ihonward]
    simp

theorem mem_addressed {k : Nat} {xs : List α} {x : α} {p : List Nat}
    (h : (x, p) ∈ addressed level k xs) : x ∈ xs ∧ ∃ i q, p = i :: q ∧ k ≤ i := by
  constructor
  · rw [← addressed_fst level k xs]
    exact List.mem_map_of_mem h
  · induction k, xs using addressed.induct level with
    | case1 k => simp [addressed] at h
    | case2 k y ys _ ihonward =>
      rw [addressed, List.cons_append] at h
      rcases List.mem_cons.1 h with h | h
      · obtain ⟨rfl, rfl⟩ := Prod.mk.inj h
        exact ⟨k, [], rfl, Nat.le_refl k⟩
      · rcases List.mem_append.1 h with h | h
        · obtain ⟨r, -, hr⟩ := List.mem_map.1 h
          obtain ⟨rfl, rfl⟩ := Prod.mk.inj hr
          exact ⟨k, r.2, rfl, Nat.le_refl k⟩
        · obtain ⟨i, q, hp, hi⟩ := ihonward h
          exact ⟨i, q, hp, by omega⟩

end Addresses

theorem numbered_nested (k : Nat) (ls : List Line) :
    numbered k ((nested ls).map entries) =
      (addressed Line.level k ls).map fun r => (r.2, r.1.text) := by
  induction k, ls using addressed.induct Line.level with
  | case1 k => simp [addressed, nested, numbered]
  | case2 k l ls ihdeeper ihonward =>
    rw [nested_cons, List.map_cons, numbered, entries_item, ihdeeper, ihonward, addressed]
    simp

def Beneath (p q : List Nat) : Prop := p <+: q ∧ p ≠ q

theorem beneath_cons (k : Nat) (p q : List Nat) :
    Beneath (k :: p) (k :: q) ↔ Beneath p q := by
  simp [Beneath, List.cons_prefix_cons]

theorem beneath_singleton (k i : Nat) (q : List Nat) : Beneath [k] (k :: i :: q) := by
  simp [Beneath]

theorem not_beneath_singleton (k : Nat) (p : List Nat) : ¬ Beneath (k :: p) [k] := by
  simp [Beneath]

theorem not_beneath_of_ne {i j : Nat} (h : i ≠ j) (p q : List Nat) :
    ¬ Beneath (i :: p) (j :: q) := by
  simp [Beneath, List.cons_prefix_cons, h]

/-- Of two sections with addresses, each lies beneath the other when it stands in it. -/
def Agree (r s : Section × List Nat) : Prop :=
  (Beneath r.2 s.2 ↔ r.1.Inside s.1) ∧ (Beneath s.2 r.2 ↔ s.1.Inside r.1)

theorem agree_apart {s t : Section} {i j : Nat} (h : i ≠ j) (p q : List Nat)
    (hstart : s.start < t.start) (hstop : s.stop ≤ t.start) : Agree (s, i :: p) (t, j :: q) := by
  have hst : ¬ s.Inside t := by
    rintro ⟨-, hin⟩
    omega
  have hts : ¬ t.Inside s := by
    rintro ⟨hin, -⟩
    omega
  exact ⟨iff_of_false (not_beneath_of_ne h p q) hst,
    iff_of_false (not_beneath_of_ne (Ne.symm h) q p) hts⟩

theorem addressed_agree (k : Nat) {ss : List Section} (h : Section.Laminar ss) :
    (addressed Section.level k ss).Pairwise Agree := by
  induction k, ss using addressed.induct Section.level with
  | case1 k => simp [addressed]
  | case2 k s ss ihdeeper ihonward =>
    obtain ⟨hlater, hdeeper, honward, hrest⟩ := h
    -- The section against all later ones, then those within it, those after it, and across.
    rw [addressed, List.cons_append, List.pairwise_cons, List.pairwise_append, List.pairwise_map]
    constructor
    · intro r hr
      rcases List.mem_append.1 hr with hr | hr
      · obtain ⟨⟨t, p⟩, htp, rfl⟩ := List.mem_map.1 hr
        obtain ⟨ht, i, q, rfl, -⟩ := mem_addressed Section.level htp
        have hstart := hlater t ((List.takeWhile_sublist _).subset ht)
        have hts : ¬ t.Inside s := by
          rintro ⟨hin, -⟩
          omega
        exact ⟨iff_of_true (beneath_singleton k i q) ⟨hstart, hdeeper t ht⟩,
          iff_of_false (not_beneath_singleton k _) hts⟩
      · obtain ⟨t, p⟩ := r
        obtain ⟨ht, i, q, rfl, hi⟩ := mem_addressed Section.level hr
        have hstart := hlater t ((List.dropWhile_sublist _).subset ht)
        exact agree_apart (by omega) [] q hstart (honward t ht)
    constructor
    · apply (ihdeeper (hrest.deeper _)).imp
      rintro ⟨t, p⟩ ⟨u, q⟩ hagree
      show (Beneath (k :: p) (k :: q) ↔ _) ∧ (Beneath (k :: q) (k :: p) ↔ _)
      rw [beneath_cons, beneath_cons]
      exact hagree
    constructor
    · exact ihonward (hrest.onward _)
    · intro r hr r' hr'
      obtain ⟨⟨t, p⟩, htp, rfl⟩ := List.mem_map.1 hr
      obtain ⟨u, q⟩ := r'
      obtain ⟨ht, -⟩ := mem_addressed Section.level htp
      obtain ⟨hu, j, q, rfl, hj⟩ := mem_addressed Section.level hr'
      obtain ⟨hstart, hstop⟩ := hrest.apart ht hu
      exact agree_apart (by omega) p q hstart hstop

theorem beneath_iff_inside (k : Nat) {ss : List Section} (h : Section.Laminar ss) :
    ∀ r ∈ addressed Section.level k ss, ∀ s ∈ addressed Section.level k ss,
      (Beneath r.2 s.2 ↔ r.1.Inside s.1) := by
  have hpairs := addressed_agree k h
  have hself : ∀ r ∈ addressed Section.level k ss, Agree r r := by
    intro r _
    have hbeneath : ¬ Beneath r.2 r.2 := fun hb => hb.2 rfl
    have hinside : ¬ r.1.Inside r.1 := fun hi => Nat.lt_irrefl _ hi.1
    exact ⟨iff_of_false hbeneath hinside, iff_of_false hbeneath hinside⟩
  have hflip : (addressed Section.level k ss).Pairwise (flip Agree) :=
    hpairs.imp fun hrs => ⟨hrs.2, hrs.1⟩
  intro r hr s hs
  exact (hpairs.forall_of_forall_of_flip hself hflip hr hs).1

theorem entries_nested (d : Document) (deepest : Int) :
    entries (bulletList (nested (lines d deepest))) =
      (addressed Section.level 0 (d.outline 1 deepest)).map fun r => (r.2, r.1.text) := by
  have hrows : ∃ rows : List (Section × Bytes), rows.map Prod.fst = d.outline 1 deepest ∧
      lines d deepest = rows.map fun r => ⟨r.1.level, r.1.text, r.2⟩ := by
    have hlength : (d.outline 1 deepest).length ≤
        (Slug.uniqueAll [] ((d.outline 1 deepest).map Section.text)).length := by
      simp [Slug.length_uniqueAll]
    exact ⟨_, List.map_fst_zip hlength, rfl⟩
  obtain ⟨rows, hsections, hlines⟩ := hrows
  rw [entries_bulletList, numbered_nested, hlines, ← hsections, addressed_map, addressed_map,
    List.map_map, List.map_map]
  rfl

/-- A list of the headings down to a level, nested as the sections that they open. -/
structure Shows (d : Document) (sections : List Section) (deepest : Int) (list : Node) : Prop where
  texts : (entries list).map Prod.snd =
    (d.children.filter (Node.opens deepest)).map fun n => n.text.trim
  headings : (sections.filter fun s => s.level ≤ deepest).map Section.heading =
    (d.children.filter (Node.opens deepest)).map some
  nests : ∃ rows : List (Section × List Nat),
    rows.map Prod.fst = (sections.filter fun s => s.level ≤ deepest) ∧
    entries list = rows.map (fun r => (r.2, r.1.text)) ∧
    ∀ r ∈ rows, ∀ s ∈ rows, (Beneath r.2 s.2 ↔ r.1.Inside s.1)
  built : ∃ items, list = bulletList items ∧
    ∀ level, (∀ l ∈ lines d deepest, level ≤ l.level) →
      ∀ made left, Builds level (lines d deepest) made left ↔ made = items ∧ left = []

theorem lines_eq_nil {d : Document} {deepest : Int} :
    lines d deepest = [] ↔ d.outline 1 deepest = [] := by
  rw [← List.length_eq_zero_iff, ← List.length_eq_zero_iff]
  simp [lines, Slug.length_uniqueAll]

theorem builds_all_iff {ls : List Line} {level : Int} (h : ∀ l ∈ ls, level ≤ l.level)
    {made : List Node} {left : List Line} :
    Builds level ls made left ↔ made = nested ls ∧ left = [] := by
  have hin : ∀ l ∈ ls, decide (level - 1 < l.level) = true := by
    intro l hl
    have hle := h l hl
    simp
    omega
  have hdeeper : deeper Line.level (level - 1) ls = ls := List.takeWhile_eq_self_iff.2 hin
  have honward : onward Line.level (level - 1) ls = [] := List.dropWhile_eq_nil_iff.2 hin
  have hbuilds := builds_nested ls level
  rw [hdeeper, honward] at hbuilds
  constructor
  · intro hmade
    exact hmade.unique hbuilds
  · rintro ⟨rfl, rfl⟩
    exact hbuilds

end Folio.Contents

namespace Folio.Document

open Contents

theorem sections_filter (d : Document) {deepest : Int} (h : deepest ≤ 6) :
    d.sections.filter (fun s => s.level ≤ deepest) = d.outline 1 deepest := by
  have hopens : (fun l : Int => (decide (1 ≤ l) && decide (l ≤ 6)) && decide (l ≤ deepest)) =
      fun l => decide (1 ≤ l) && decide (l ≤ deepest) := by
    funext l
    rw [Bool.eq_iff_iff]
    simp
    omega
  have hfilter := Section.scan_filter (fun l => 1 ≤ l && l ≤ 6) (fun l => l ≤ deepest)
    (fun l m => m ≤ l) 0 d.children
  rw [hopens] at hfilter
  exact hfilter

theorem outline_headings {d : Document} (h : Levelled d.children) (deepest : Int) :
    (d.outline 1 deepest).map Section.heading =
      (d.children.filter (Node.opens deepest)).map some :=
  Section.outlineFrom_headings h 0

theorem outline_texts {d : Document} (h : Levelled d.children) (deepest : Int) :
    (d.outline 1 deepest).map Section.text =
      (d.children.filter (Node.opens deepest)).map fun n => n.text.trim :=
  Section.texts_of_headings (outline_headings h deepest)

theorem outline_eq_nil {d : Document} (h : Levelled d.children) {deepest : Int} :
    d.outline 1 deepest = [] ↔ ∀ n ∈ d.children, n.opens deepest = false := by
  have hheadings := congrArg List.length (outline_headings h deepest)
  rw [List.length_map, List.length_map] at hheadings
  rw [← List.length_eq_zero_iff, hheadings, List.length_eq_zero_iff]
  simp

theorem shows_nested {d : Document} {deepest : Int} (hd : deepest ≤ 6)
    (hlevels : Levelled d.children) :
    Shows d d.sections deepest (bulletList (nested (lines d deepest))) where
  texts := by
    rw [entries_nested, List.map_map, ← outline_texts hlevels,
      ← addressed_fst Section.level 0 (d.outline 1 deepest), List.map_map, addressed_fst]
    rfl
  headings := by
    rw [sections_filter d hd]
    exact outline_headings hlevels deepest
  nests := by
    rw [sections_filter d hd]
    have hlaminar : Section.Laminar (d.outline 1 deepest) :=
      Section.laminar_outlineFrom hlevels 0
    exact ⟨_, addressed_fst Section.level 0 _, entries_nested d deepest,
      beneath_iff_inside 0 hlaminar⟩
  built := ⟨_, rfl, fun _ hlow _ _ => builds_all_iff hlow⟩

/-- The nested table of a document has a list when a heading of the levels exists. The list shows
the headings in order, one beneath another exactly when it stands in the section of the other,
and the descent through the levels builds it and leaves no line. -/
theorem contents_nested (d : Document) {deepest : Int} (hd : 1 ≤ deepest ∧ deepest ≤ 6)
    (hlevels : Levelled d.children) :
    ∃ table sections, (d.contents deepest .nested).result = .ok table ∧
      (d.sectionsBetween 1 6).result = .ok sections ∧
      (table.list = none ↔ ∀ n ∈ d.children, n.opens deepest = false) ∧
      ∀ list, table.list = some list → Shows d sections deepest list := by
  have htable : (d.contents deepest .nested).result =
      .ok ⟨[], listNode? .nested (lines d deepest)⟩ := by
    unfold contents linesDownTo
    rw [outOfRange_eq_false hd]
    rfl
  have hnone : listNode? .nested (lines d deepest) = none ↔
      ∀ n ∈ d.children, n.opens deepest = false := by
    rw [← outline_eq_nil hlevels, ← lines_eq_nil]
    simp [listNode?]
  have hsome : ∀ list, listNode? .nested (lines d deepest) = some list →
      Shows d d.sections deepest list := by
    intro list hlist
    unfold listNode? at hlist
    split at hlist
    · cases hlist
    · obtain rfl := Option.some.inj hlist
      exact shows_nested hd.2 hlevels
  exact ⟨_, d.sections, htable, rfl, hnone, hsome⟩

def skewed : Document :=
  { children := [Node.plain (.heading 3) [], Node.plain (.heading 1) [],
      Node.plain (.heading 4) [], Node.plain (.heading 2) []] }

theorem skewed_levelled : Levelled skewed.children := by decide

theorem skewed_contents_nested :
    ∃ table sections, (skewed.contents 3 .nested).result = .ok table ∧
      (skewed.sectionsBetween 1 6).result = .ok sections ∧
      ∀ list, table.list = some list → Shows skewed sections 3 list := by
  have hdeepest : (1 : Int) ≤ 3 ∧ (3 : Int) ≤ 6 := by decide
  obtain ⟨table, sections, htable, hsections, -, hshows⟩ :=
    contents_nested skewed hdeepest skewed_levelled
  exact ⟨table, sections, htable, hsections, hshows⟩

end Folio.Document

namespace Folio

open Contents

theorem Contents.lines_slugs (d : Document) (deepest : Int) :
    (lines d deepest).map Line.slug =
      Slug.uniqueAll [] ((d.outline 1 deepest).map Section.text) := by
  rw [lines, List.map_map]
  exact List.map_snd_zip (by simp [Slug.length_uniqueAll])

/-- The third heading has taken the name that the second was given, and gets another one. -/
example : Slug.uniqueAll [utf8 "section"]
      [utf8 "Notes", utf8 "Notes", utf8 "Notes 1", utf8 "!", utf8 "notes"] =
    [utf8 "notes", utf8 "notes-1", utf8 "notes-1-1", utf8 "section-1", utf8 "notes-2"] := by
  decide +kernel

end Folio
