import Folio.Proofs.Section.Partition

/-!
# How the sections of an outline lie

A section of the outline holds the deeper sections that follow it at once, and ends
before every other section that comes later.
-/

set_option autoImplicit false

namespace Folio

section Runs

variable {α β : Type} (level : α → Int) {a b : Int}

def deeper (a : Int) (xs : List α) : List α := xs.takeWhile fun x => a < level x

def onward (a : Int) (xs : List α) : List α := xs.dropWhile fun x => a < level x

theorem deeper_append_onward (a : Int) (xs : List α) :
    deeper level a xs ++ onward level a xs = xs :=
  List.takeWhile_append_dropWhile

theorem length_deeper_le (a : Int) (xs : List α) : (deeper level a xs).length ≤ xs.length :=
  (List.takeWhile_sublist _).length_le

theorem length_onward_le (a : Int) (xs : List α) : (onward level a xs).length ≤ xs.length :=
  (List.dropWhile_sublist _).length_le

theorem deeper_map (f : β → α) (a : Int) (ys : List β) :
    deeper level a (ys.map f) = (deeper (level ∘ f) a ys).map f :=
  List.takeWhile_map

theorem onward_map (f : β → α) (a : Int) (ys : List β) :
    onward level a (ys.map f) = (onward (level ∘ f) a ys).map f :=
  List.dropWhile_map

variable {level}

theorem deeper_cons_deep {x : α} (h : a < level x) (xs : List α) :
    deeper level a (x :: xs) = x :: deeper level a xs := by
  simp [deeper, h]

theorem onward_cons_deep {x : α} (h : a < level x) (xs : List α) :
    onward level a (x :: xs) = onward level a xs := by
  simp [onward, h]

theorem deeper_cons_shallow {x : α} (h : level x ≤ a) (xs : List α) :
    deeper level a (x :: xs) = [] := by
  have hshallow : ¬ a < level x := by omega
  simp [deeper, hshallow]

theorem onward_cons_shallow {x : α} (h : level x ≤ a) (xs : List α) :
    onward level a (x :: xs) = x :: xs := by
  have hshallow : ¬ a < level x := by omega
  simp [onward, hshallow]

theorem deeper_deeper (h : a ≤ b) (xs : List α) :
    deeper level b (deeper level a xs) = deeper level b xs := by
  induction xs with
  | nil => rfl
  | cons x xs ih =>
    by_cases hb : b < level x
    · have ha : a < level x := by omega
      rw [deeper_cons_deep ha, deeper_cons_deep hb, deeper_cons_deep hb, ih]
    · rw [deeper_cons_shallow (a := b) (by omega)]
      by_cases ha : a < level x
      · rw [deeper_cons_deep ha, deeper_cons_shallow (by omega)]
      · rw [deeper_cons_shallow (by omega)]
        rfl

theorem onward_deeper (h : a ≤ b) (xs : List α) :
    onward level b (deeper level a xs) = deeper level a (onward level b xs) := by
  induction xs with
  | nil => rfl
  | cons x xs ih =>
    by_cases hb : b < level x
    · have ha : a < level x := by omega
      rw [deeper_cons_deep ha, onward_cons_deep hb, onward_cons_deep hb, ih]
    · rw [onward_cons_shallow (a := b) (by omega)]
      by_cases ha : a < level x
      · rw [deeper_cons_deep ha, onward_cons_shallow (by omega)]
      · rw [deeper_cons_shallow (by omega)]
        rfl

theorem onward_onward (h : a ≤ b) (xs : List α) :
    onward level a (onward level b xs) = onward level a xs := by
  induction xs with
  | nil => rfl
  | cons x xs ih =>
    by_cases hb : b < level x
    · have ha : a < level x := by omega
      rw [onward_cons_deep hb, onward_cons_deep ha, ih]
    · rw [onward_cons_shallow (a := b) (by omega)]

end Runs

def Levelled (ns : List Node) : Prop := ∀ n ∈ ns, ∀ l, n.level? = some l → 1 ≤ l

theorem levelled_iff {ns : List Node} :
    Levelled ns ↔ ∀ n ∈ ns, n.level?.all (1 ≤ ·) = true := by
  simp [Levelled, Option.all_eq_true]

instance (ns : List Node) : Decidable (Levelled ns) := decidable_of_iff' _ levelled_iff

theorem Levelled.head {n : Node} {ns : List Node} (h : Levelled (n :: ns)) {l : Int}
    (hl : n.level? = some l) : 1 ≤ l :=
  h n List.mem_cons_self l hl

theorem Levelled.tail {n : Node} {ns : List Node} (h : Levelled (n :: ns)) : Levelled ns :=
  fun m hm => h m (List.mem_cons_of_mem n hm)

namespace Section

variable {deepest : Int}

def outlineFrom (deepest : Int) (i : Nat) (ns : List Node) : List Section :=
  scan (fun l => 1 ≤ l && l ≤ deepest) (fun l m => m ≤ l) i ns

theorem scan_filter (opens p : Int → Bool) (closes : Int → Int → Bool) (i : Nat)
    (ns : List Node) :
    (scan opens closes i ns).filter (fun s => p s.level) =
      scan (fun l => opens l && p l) closes i ns := by
  induction ns generalizing i with
  | nil => rfl
  | cons n ns ih =>
    cases hl : n.level? with
    | none =>
      have hnone (q : Int → Bool) : ∀ l, n.level? = some l → q l = false := by simp [hl]
      rw [scan_cons_skip closes (hnone _), scan_cons_skip closes (hnone _), ih]
    | some l =>
      cases ho : opens l <;> cases hp : p l <;> simp [scan, hl, ho, hp, ih]

theorem outlineFrom_cons_skip {n : Node} (h : n.opens deepest = false) (i : Nat)
    (ns : List Node) : outlineFrom deepest i (n :: ns) = outlineFrom deepest (i + 1) ns := by
  apply scan_cons_skip
  intro l hl
  have hdeep : ¬ l ≤ deepest := by
    intro hle
    rw [Node.opens_iff.2 ⟨l, hl, hle⟩] at h
    cases h
  simp [hdeep]

theorem outlineFrom_cons_open {n : Node} {l : Int} (hl : n.level? = some l) (hlow : 1 ≤ l)
    (hle : l ≤ deepest) (i : Nat) (ns : List Node) :
    ∃ s : Section, outlineFrom deepest i (n :: ns) = s :: outlineFrom deepest (i + 1) ns ∧
      s.heading = some n ∧ s.level = l ∧ s.start = i ∧
      s.stop = i + 1 + (upToOpener l ns).length := by
  obtain ⟨s, hscan, hheading, hlevel, hstart, hcontent, hstop⟩ :=
    scan_cons_open (fun l => 1 ≤ l && l ≤ deepest) (fun l m => m ≤ l) hl
      (by simp [hlow, hle]) i ns
  rw [hcontent] at hstop
  exact ⟨s, hscan, hheading, hlevel, hstart, hstop⟩

theorem outlineFrom_headings {ns : List Node} (h : Levelled ns) (i : Nat) :
    (outlineFrom deepest i ns).map heading = (ns.filter (Node.opens deepest)).map some := by
  have hopens : (ns.filter fun n => n.level?.any fun l => 1 ≤ l && l ≤ deepest) =
      ns.filter (Node.opens deepest) := by
    refine List.filter_congr fun n hn => ?_
    rw [Bool.eq_iff_iff, Node.opens, Option.any_eq_true, Option.any_eq_true]
    exact exists_congr fun l => and_congr_right fun hl => by simp [h n hn l hl]
  rw [← hopens]
  exact scan_headings _ _ i ns

theorem outlineFrom_start {ns : List Node} (h : Levelled ns) (i : Nat) :
    ∀ s ∈ outlineFrom deepest i ns, i ≤ s.start := by
  induction ns generalizing i with
  | nil => simp [outlineFrom, scan]
  | cons n ns ih =>
    intro t ht
    cases ho : n.opens deepest with
    | false =>
      rw [outlineFrom_cons_skip ho] at ht
      have hstart := ih h.tail (i + 1) t ht
      omega
    | true =>
      obtain ⟨l, hl, hle⟩ := Node.opens_iff.1 ho
      obtain ⟨s, hcut, -, -, hs, -⟩ := outlineFrom_cons_open hl (h.head hl) hle i ns
      rw [hcut] at ht
      rcases List.mem_cons.1 ht with rfl | ht
      · omega
      · have hstart := ih h.tail (i + 1) t ht
        omega

/-- What a section of level `l` before the blocks holds are the blocks up to the next heading
that closes it. -/
theorem outlineFrom_runs {l : Int} (hl : l ≤ deepest) {ns : List Node} (h : Levelled ns)
    (i : Nat) :
    (∀ t ∈ deeper level l (outlineFrom deepest i ns), t.start < i + (upToOpener l ns).length) ∧
      ∀ t ∈ onward level l (outlineFrom deepest i ns), i + (upToOpener l ns).length ≤ t.start := by
  induction ns generalizing i with
  | nil => simp [deeper, onward, outlineFrom, scan]
  | cons n ns ih =>
    have hnext := ih h.tail (i + 1)
    -- Only a heading that closes the section ends the run; a deeper one joins it.
    cases hcloses : n.opens l with
    | true =>
      have hstop : (upToOpener l (n :: ns)).length = 0 := by simp [upToOpener, hcloses]
      obtain ⟨k, hk, hkl⟩ := Node.opens_iff.1 hcloses
      have hkd : k ≤ deepest := by omega
      obtain ⟨s, hcut, -, hlevel, -⟩ := outlineFrom_cons_open hk (h.head hk) hkd i ns
      have hshallow : s.level ≤ l := by omega
      rw [hstop]
      constructor
      · simp [hcut, deeper_cons_shallow hshallow]
      · intro t ht
        exact outlineFrom_start h i t ((List.dropWhile_sublist _).subset ht)
    | false =>
      have hgrow : (upToOpener l (n :: ns)).length = (upToOpener l ns).length + 1 := by
        simp [upToOpener, hcloses]
      rw [hgrow]
      cases ho : n.opens deepest with
      | false =>
        rw [outlineFrom_cons_skip ho]
        constructor
        · intro t ht
          have hstart := hnext.1 t ht
          omega
        · intro t ht
          have hstart := hnext.2 t ht
          omega
      | true =>
        obtain ⟨k, hk, hkd⟩ := Node.opens_iff.1 ho
        obtain ⟨s, hcut, -, hlevel, hs, -⟩ :=
          outlineFrom_cons_open hk (h.head hk) hkd i ns
        have hdeep : l < s.level := by
          apply Int.not_le.1
          intro hle
          rw [Node.opens_iff.2 ⟨k, hk, by omega⟩] at hcloses
          cases hcloses
        rw [hcut, deeper_cons_deep hdeep, onward_cons_deep hdeep]
        constructor
        · intro t ht
          rcases List.mem_cons.1 ht with rfl | ht
          · omega
          · have hstart := hnext.1 t ht
            omega
        · intro t ht
          have hstart := hnext.2 t ht
          omega

/-- Sections in order, each of which holds the deeper ones that follow at once and ends before
all others. -/
def Laminar : List Section → Prop
  | [] => True
  | s :: ss =>
    (∀ t ∈ ss, s.start < t.start) ∧ (∀ t ∈ deeper level s.level ss, t.start < s.stop) ∧
      (∀ t ∈ onward level s.level ss, s.stop ≤ t.start) ∧ Laminar ss

theorem laminar_outlineFrom {ns : List Node} (h : Levelled ns) (i : Nat) :
    Laminar (outlineFrom deepest i ns) := by
  induction ns generalizing i with
  | nil => trivial
  | cons n ns ih =>
    cases ho : n.opens deepest with
    | false =>
      rw [outlineFrom_cons_skip ho]
      exact ih h.tail (i + 1)
    | true =>
      obtain ⟨l, hl, hle⟩ := Node.opens_iff.1 ho
      obtain ⟨s, hcut, -, hlevel, hstart, hstop⟩ :=
        outlineFrom_cons_open hl (h.head hl) hle i ns
      obtain ⟨hdeeper, honward⟩ := outlineFrom_runs hle h.tail (i + 1)
      have hlater : ∀ t ∈ outlineFrom deepest (i + 1) ns, i < t.start := by
        intro t ht
        have hnext := outlineFrom_start h.tail (i + 1) t ht
        omega
      rw [hcut, Laminar, hlevel, hstart, hstop]
      exact ⟨hlater, hdeeper, honward, ih h.tail (i + 1)⟩

theorem Laminar.deeper {ss : List Section} (h : Laminar ss) (l : Int) :
    Laminar (deeper level l ss) := by
  induction ss with
  | nil => trivial
  | cons s ss ih =>
    obtain ⟨hlater, hdeeper, honward, hrest⟩ := h
    by_cases hl : l < s.level
    · have hle : l ≤ s.level := by omega
      rw [deeper_cons_deep hl, Laminar, deeper_deeper hle, onward_deeper hle]
      have hafter : ∀ t ∈ Folio.deeper level l ss, s.start < t.start :=
        fun t ht => hlater t ((List.takeWhile_sublist _).subset ht)
      have hbehind : ∀ t ∈ Folio.deeper level l (onward level s.level ss), s.stop ≤ t.start :=
        fun t ht => honward t ((List.takeWhile_sublist _).subset ht)
      exact ⟨hafter, hdeeper, hbehind, ih hrest⟩
    · rw [deeper_cons_shallow (by omega)]
      trivial

theorem Laminar.onward {ss : List Section} (h : Laminar ss) (l : Int) :
    Laminar (onward level l ss) := by
  induction ss with
  | nil => trivial
  | cons s ss ih =>
    by_cases hl : l < s.level
    · rw [onward_cons_deep hl]
      exact ih h.2.2.2
    · rw [onward_cons_shallow (by omega)]
      exact h

theorem Laminar.apart {ss : List Section} (h : Laminar ss) {l : Int} {s t : Section}
    (hs : s ∈ Folio.deeper level l ss) (ht : t ∈ Folio.onward level l ss) :
    s.start < t.start ∧ s.stop ≤ t.start := by
  induction ss with
  | nil => cases hs
  | cons r ss ih =>
    obtain ⟨hlater, -, honward, hrest⟩ := h
    by_cases hl : l < r.level
    · rw [deeper_cons_deep hl] at hs
      rw [onward_cons_deep hl] at ht
      rcases List.mem_cons.1 hs with rfl | hs
      · have hle : l ≤ s.level := by omega
        have hstart := hlater t ((List.dropWhile_sublist _).subset ht)
        rw [← onward_onward hle] at ht
        exact ⟨hstart, honward t ((List.dropWhile_sublist _).subset ht)⟩
      · exact ih hrest hs ht
    · rw [deeper_cons_shallow (by omega)] at hs
      cases hs

def Inside (s t : Section) : Prop := s.start < t.start ∧ t.start < s.stop

end Section
end Folio
