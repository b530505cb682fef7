import Mathlib.Data.List.TakeWhile
import Folio.Section.Basic

/-!
# What a partition covers

The headings down to a level cut the blocks of a document into what stands before the
first of them and one section for each. Nothing is lost at a cut, a section starts with
its heading, and no other heading of the partition stands inside a section.
-/

set_option autoImplicit false

namespace Folio

theorem getElem?_behind {α : Type} (front : List α) (a : α) (rest : List α) (i : Nat) :
    (front ++ a :: rest)[front.length + 1 + i]? = rest[i]? := by
  rw [List.getElem?_append_right (by omega)]
  simp [show front.length + 1 + i - front.length = i + 1 by omega]

def Node.opens (deepest : Int) (n : Node) : Bool := n.level?.any (· ≤ deepest)

theorem outOfRange_eq_false {level : Int} (h : 1 ≤ level ∧ level ≤ 6) :
    (decide (level < 1) || decide (6 < level)) = false := by
  simp
  omega

theorem Node.opens_iff {deepest : Int} {n : Node} :
    n.opens deepest = true ↔ ∃ l, n.level? = some l ∧ l ≤ deepest := by
  cases h : n.level? <;> simp [opens, h]

theorem Node.kind_eq_heading_iff {n : Node} : n.kind = .heading ↔ ∃ l, n.level? = some l := by
  obtain ⟨shape, attrs, children⟩ := n
  cases shape <;> simp [Node.kind, Node.level?, Node.shape, Shape.kind]

theorem Node.opens_mono {a b : Int} {n : Node} (h : n.opens a = true) (hab : a ≤ b) :
    n.opens b = true := by
  obtain ⟨l, hl, hle⟩ := Node.opens_iff.1 h
  exact Node.opens_iff.2 ⟨l, hl, by omega⟩

namespace Section

variable {deepest : Int}

def cut (deepest : Int) (i : Nat) (ns : List Node) : List Section :=
  scan (fun l => l ≤ deepest) (fun _ m => m ≤ deepest) i ns

def upToOpener (deepest : Int) (ns : List Node) : List Node :=
  ns.takeWhile fun n => !n.opens deepest

def fromOpener (deepest : Int) (ns : List Node) : List Node :=
  ns.dropWhile fun n => !n.opens deepest

theorem upToOpener_append_fromOpener (ns : List Node) :
    upToOpener deepest ns ++ fromOpener deepest ns = ns :=
  List.takeWhile_append_dropWhile

def Plain (deepest : Int) (ns : List Node) : Prop := ∀ n ∈ ns, n.opens deepest = false

def Opened (deepest : Int) (ns : List Node) : Prop :=
  ∃ n rest, ns = n :: rest ∧ n.opens deepest = true ∧ Plain deepest rest

theorem plain_upToOpener (ns : List Node) : Plain deepest (upToOpener deepest ns) := by
  intro n hn
  simpa using List.mem_takeWhile_imp hn

theorem scan_cons_skip {opens : Int → Bool} {n : Node} (closes : Int → Int → Bool)
    (h : ∀ l, n.level? = some l → opens l = false) (i : Nat) (ns : List Node) :
    scan opens closes i (n :: ns) = scan opens closes (i + 1) ns := by
  cases hl : n.level? with
  | none => simp [scan, hl]
  | some l => simp [scan, hl, h l hl]

theorem scan_cons_open (opens : Int → Bool) (closes : Int → Int → Bool) {n : Node} {l : Int}
    (hl : n.level? = some l) (ho : opens l = true) (i : Nat) (ns : List Node) :
    ∃ s : Section, scan opens closes i (n :: ns) = s :: scan opens closes (i + 1) ns ∧
      s.heading = some n ∧ s.level = l ∧ s.start = i ∧
      s.content = ns.takeWhile (fun m => !m.level?.any (closes l)) ∧
      s.stop = i + 1 + s.content.length := by
  simp [scan, hl, ho]

/-- What a scan finds at the heading `n` at place `i` when the blocks `ns` come after it. -/
structure Found (closes : Int → Int → Bool) (s : Section) (i : Nat) (n : Node) (ns : List Node) :
    Prop where
  heading : s.heading = some n
  level : n.level? = some s.level
  start : s.start = i
  content : s.content = ns.takeWhile fun m => !m.level?.any (closes s.level)
  stop : s.stop = i + 1 + s.content.length

theorem scan_cons (opens : Int → Bool) (closes : Int → Int → Bool) (i : Nat) (n : Node)
    (ns : List Node) :
    (∃ s : Section, s.Found closes i n ns ∧ opens s.level = true ∧
      scan opens closes i (n :: ns) = s :: scan opens closes (i + 1) ns) ∨
    (n.level?.any opens = false ∧
      scan opens closes i (n :: ns) = scan opens closes (i + 1) ns) := by
  cases hany : n.level?.any opens with
  | false =>
    have hskip : ∀ l, n.level? = some l → opens l = false := by
      intro l hl
      simpa [hl] using hany
    exact .inr ⟨rfl, scan_cons_skip closes hskip i ns⟩
  | true =>
    obtain ⟨l, hl, ho⟩ := (Option.any_eq_true ..).1 hany
    obtain ⟨s, hscan, hheading, rfl, hstart, hcontent, hstop⟩ :=
      scan_cons_open opens closes hl ho i ns
    exact .inl ⟨s, ⟨hheading, hl, hstart, hcontent, hstop⟩, ho, hscan⟩

theorem scan_headings (opens : Int → Bool) (closes : Int → Int → Bool) (i : Nat)
    (ns : List Node) :
    (scan opens closes i ns).map heading = (ns.filter fun n => n.level?.any opens).map some := by
  induction ns generalizing i with
  | nil => rfl
  | cons n ns ih =>
    rcases scan_cons opens closes i n ns with ⟨s, hs, ho, hcut⟩ | ⟨hskip, hcut⟩
    · rw [hcut, List.filter_cons_of_pos (by simp [hs.level, ho]), List.map_cons, List.map_cons, ih,
        hs.heading]
    · rw [hcut, List.filter_cons_of_neg (by simp [hskip]), ih]

theorem texts_of_headings {ss : List Section} {ns : List Node}
    (h : ss.map heading = ns.map some) : ss.map text = ns.map fun n => n.text.trim := by
  have htext : text = (fun slot : Slot => (slot.map fun n => n.text.trim).getD []) ∘ heading := by
    funext s
    cases hs : s.heading <;> simp [text, hs]
  rw [htext, ← List.map_map, h, List.map_map]
  rfl

theorem scan_eq_nil {opens : Int → Bool} {closes : Int → Int → Bool} {i : Nat} {ns : List Node} :
    scan opens closes i ns = [] ↔ ∀ n ∈ ns, n.level?.any opens = false := by
  induction ns generalizing i with
  | nil => simp [scan]
  | cons n ns ih =>
    rcases scan_cons opens closes i n ns with ⟨s, hs, ho, hscan⟩ | ⟨hskip, hscan⟩
    · simp [hscan, hs.level, ho]
    · rw [hscan, ih, List.forall_mem_cons, and_iff_right hskip]

theorem mem_scan {opens : Int → Bool} {closes : Int → Int → Bool} {i : Nat} {ns : List Node}
    {s : Section} (hs : s ∈ scan opens closes i ns) :
    ∃ before n after, ns = before ++ n :: after ∧ s.Found closes (i + before.length) n after ∧
      opens s.level = true := by
  induction ns generalizing i with
  | nil => cases hs
  | cons n ns ih =>
    have hlater (h : s ∈ scan opens closes (i + 1) ns) :
        ∃ before m after, n :: ns = before ++ m :: after ∧
          s.Found closes (i + before.length) m after ∧ opens s.level = true := by
      obtain ⟨before, m, after, rfl, hfound, ho⟩ := ih h
      have hplace : i + (n :: before).length = i + 1 + before.length := by
        simp
        omega
      exact ⟨n :: before, m, after, rfl, hplace ▸ hfound, ho⟩
    rcases scan_cons opens closes i n ns with ⟨t, ht, ho, hscan⟩ | ⟨-, hscan⟩
    · rw [hscan] at hs
      rcases List.mem_cons.1 hs with rfl | hs
      · exact ⟨[], n, ns, rfl, ht, ho⟩
      · exact hlater hs
    · rw [hscan] at hs
      exact hlater hs

theorem nodes_subset_of_mem_scan {opens : Int → Bool} {closes : Int → Int → Bool} {i : Nat}
    {ns : List Node} {s : Section} (hs : s ∈ scan opens closes i ns) : s.nodes ⊆ ns := by
  obtain ⟨before, n, after, rfl, hfound, -⟩ := mem_scan hs
  rw [nodes, hfound.heading, hfound.content]
  refine List.Subset.trans (List.cons_subset_cons n ?_) (List.subset_append_right _ _)
  exact (List.takeWhile_prefix _).subset

theorem cut_cons_plain {n : Node} (h : n.opens deepest = false) (i : Nat) (ns : List Node) :
    cut deepest i (n :: ns) = cut deepest (i + 1) ns := by
  apply scan_cons_skip
  intro l hl
  simpa [Node.opens, hl] using h

theorem cut_cons_opener {n : Node} (h : n.opens deepest = true) (i : Nat) (ns : List Node) :
    ∃ s : Section, cut deepest i (n :: ns) = s :: cut deepest (i + 1) ns ∧
      s.heading = some n ∧ s.content = upToOpener deepest ns ∧ s.start = i := by
  obtain ⟨l, hl, hle⟩ := Node.opens_iff.1 h
  obtain ⟨s, hscan, hheading, -, hstart, hcontent, -⟩ :=
    scan_cons_open (fun l => l ≤ deepest) (fun _ m => m ≤ deepest) hl (decide_eq_true hle) i ns
  exact ⟨s, hscan, hheading, hcontent, hstart⟩

theorem cut_nodes_flatten (i : Nat) (ns : List Node) :
    ((cut deepest i ns).map nodes).flatten = fromOpener deepest ns := by
  induction ns generalizing i with
  | nil => rfl
  | cons n ns ih =>
    cases h : n.opens deepest with
    | false =>
      rw [cut_cons_plain h, ih]
      simp [fromOpener, h]
    | true =>
      obtain ⟨s, hcut, hheading, hcontent, -⟩ := cut_cons_opener h i ns
      have hnodes : s.nodes = n :: upToOpener deepest ns := by simp [nodes, hheading, hcontent]
      rw [hcut, List.map_cons, List.flatten_cons, ih, hnodes, List.cons_append,
        upToOpener_append_fromOpener]
      simp [fromOpener, h]

/-- A section holds the heading that opens it and no second one. -/
theorem opened_of_mem_cut {i : Nat} {ns : List Node} {s : Section} (hs : s ∈ cut deepest i ns) :
    Opened deepest s.nodes := by
  induction ns generalizing i with
  | nil => cases hs
  | cons n ns ih =>
    cases h : n.opens deepest with
    | false =>
      rw [cut_cons_plain h] at hs
      exact ih hs
    | true =>
      obtain ⟨t, hcut, hheading, hcontent, -⟩ := cut_cons_opener h i ns
      rw [hcut] at hs
      rcases List.mem_cons.1 hs with rfl | hs
      · exact ⟨n, upToOpener deepest ns, by simp [nodes, hheading, hcontent], h,
          plain_upToOpener ns⟩
      · exact ih hs

theorem cut_eq_nil {i : Nat} {ns : List Node} (h : cut deepest i ns = []) :
    fromOpener deepest ns = [] := by
  have hflat : ((cut deepest i ns).map nodes).flatten = fromOpener deepest ns :=
    cut_nodes_flatten i ns
  rw [h] at hflat
  exact hflat.symm

theorem cut_eq_cons {i : Nat} {ns : List Node} {s : Section} {ss : List Section}
    (h : cut deepest i ns = s :: ss) : s.start = i + (upToOpener deepest ns).length := by
  induction ns generalizing i with
  | nil => cases h
  | cons n ns ih =>
    cases ho : n.opens deepest with
    | false =>
      rw [cut_cons_plain ho] at h
      rw [ih h]
      simp [upToOpener, ho]
      omega
    | true =>
      obtain ⟨t, hcut, -, -, hstart⟩ := cut_cons_opener ho i ns
      rw [hcut] at h
      obtain ⟨rfl, -⟩ := List.cons.inj h
      simp [hstart, upToOpener, ho]

/-- The runs of blocks that a partition makes: what no section holds, unless it is empty, and
the sections. -/
def stretches (deepest : Int) (ns : List Node) : List (List Node) :=
  (if (upToOpener deepest ns).isEmpty then [] else [upToOpener deepest ns]) ++
    (cut deepest 0 ns).map nodes

/-- Sections of a partition, after at most one run of blocks that no section holds. -/
structure Separated (deepest : Int) (nss : List (List Node)) : Prop where
  each : ∀ ns ∈ nss, ns ≠ [] ∧ Plain deepest ns ∨ Opened deepest ns
  later : nss.Pairwise fun _ ns => Opened deepest ns

theorem Separated.sublist {nss mss : List (List Node)} (h : Separated deepest nss)
    (hsub : mss.Sublist nss) : Separated deepest mss where
  each ns hns := h.each ns (hsub.subset hns)
  later := h.later.sublist hsub

theorem separated_opened {nss : List (List Node)} (h : ∀ ns ∈ nss, Opened deepest ns) :
    Separated deepest nss where
  each ns hns := Or.inr (h ns hns)
  later := List.pairwise_of_forall_mem_list fun _ _ ns hns => h ns hns

theorem separated_cons {ns : List Node} {nss : List (List Node)} (hsome : ns ≠ [])
    (hplain : Plain deepest ns) (h : ∀ ms ∈ nss, Opened deepest ms) :
    Separated deepest (ns :: nss) where
  each ms hms := by
    rcases List.mem_cons.1 hms with rfl | hms
    · exact Or.inl ⟨hsome, hplain⟩
    · exact Or.inr (h ms hms)
  later := List.pairwise_cons.2 ⟨h, (separated_opened h).later⟩

theorem separated_stretches (ns : List Node) : Separated deepest (stretches deepest ns) := by
  have hsections : ∀ ms ∈ (cut deepest 0 ns).map nodes, Opened deepest ms := by
    intro ms hms
    obtain ⟨s, hs, rfl⟩ := List.mem_map.1 hms
    exact opened_of_mem_cut hs
  unfold stretches
  split
  · exact separated_opened hsections
  next hsome =>
    exact separated_cons (by simpa using hsome) (plain_upToOpener ns) hsections

theorem upToOpener_plain_append {ns ms : List Node} (h : Plain deepest ns) :
    upToOpener deepest (ns ++ ms) = ns ++ upToOpener deepest ms :=
  List.takeWhile_append_of_pos fun n hn => by simp [h n hn]

theorem cut_plain_append {ns : List Node} (h : Plain deepest ns) (i : Nat) (ms : List Node) :
    cut deepest i (ns ++ ms) = cut deepest (i + ns.length) ms := by
  induction ns generalizing i with
  | nil => rfl
  | cons n ns ih =>
    have hrest : Plain deepest ns := fun m hm => h m (by simp [hm])
    rw [List.cons_append, cut_cons_plain (h n (by simp)), ih hrest, List.length_cons]
    congr 1
    omega

theorem cut_flatten {nss : List (List Node)} (h : ∀ ns ∈ nss, Opened deepest ns) (i : Nat) :
    upToOpener deepest nss.flatten = [] ∧ (cut deepest i nss.flatten).map nodes = nss := by
  induction nss generalizing i with
  | nil => exact ⟨rfl, rfl⟩
  | cons ns nss ih =>
    obtain ⟨n, rest, rfl, hopens, hplain⟩ := h ns (by simp)
    have hlater : ∀ ms ∈ nss, Opened deepest ms := fun ms hms => h ms (by simp [hms])
    obtain ⟨s, hcut, hheading, hcontent, -⟩ := cut_cons_opener hopens i (rest ++ nss.flatten)
    have hnext := ih hlater (i + 1 + rest.length)
    constructor
    · simp [upToOpener, hopens]
    · rw [upToOpener_plain_append hplain, hnext.1, List.append_nil] at hcontent
      rw [List.flatten_cons, List.cons_append, hcut, cut_plain_append hplain, List.map_cons,
        hnext.2]
      simp [nodes, hheading, hcontent]

theorem stretches_flatten {nss : List (List Node)} (h : Separated deepest nss) :
    stretches deepest nss.flatten = nss := by
  cases nss with
  | nil => rfl
  | cons ns nss =>
    have hlater : ∀ ms ∈ nss, Opened deepest ms := (List.pairwise_cons.1 h.later).1
    rcases h.each ns (by simp) with ⟨hsome, hplain⟩ | hopened
    · have hcut := cut_flatten hlater (0 + ns.length)
      rw [stretches, List.flatten_cons, upToOpener_plain_append hplain, hcut.1, List.append_nil,
        cut_plain_append hplain, hcut.2]
      simp [hsome]
    · have hall : ∀ ms ∈ ns :: nss, Opened deepest ms := by
        intro ms hms
        rcases List.mem_cons.1 hms with rfl | hms
        · exact hopened
        · exact hlater ms hms
      have hcut := cut_flatten hall 0
      rw [stretches, hcut.1, hcut.2]
      rfl

end Section

namespace Document

variable {deepest : Int}

theorem beforeParts_eq (d : Document) (deepest : Int) :
    d.beforeParts (d.partition deepest) = Section.upToOpener deepest d.children := by
  have hsplit : Section.upToOpener deepest d.children ++ Section.fromOpener deepest d.children =
      d.children := Section.upToOpener_append_fromOpener d.children
  cases h : d.partition deepest with
  | nil =>
    rw [Section.cut_eq_nil h, List.append_nil] at hsplit
    exact hsplit.symm
  | cons s ss =>
    have hstart : s.start = (Section.upToOpener deepest d.children).length := by
      simpa using Section.cut_eq_cons h
    have htake := congrArg (List.take s.start) hsplit
    rw [List.take_left' hstart.symm] at htake
    exact htake.symm

theorem partition_covers (d : Document) (deepest : Int) :
    d.beforeParts (d.partition deepest) ++ ((d.partition deepest).map Section.nodes).flatten =
      d.children := by
  rw [beforeParts_eq]
  show _ ++ ((Section.cut deepest 0 d.children).map Section.nodes).flatten = _
  rw [Section.cut_nodes_flatten]
  exact Section.upToOpener_append_fromOpener d.children

theorem partition_nodes_ne_nil {d : Document} {s : Section} (hs : s ∈ d.partition deepest) :
    s.nodes ≠ [] := by
  obtain ⟨n, rest, hnodes, -⟩ := Section.opened_of_mem_cut hs
  simp [hnodes]

theorem partition_ne_nil {d : Document} {n : Node} (hn : n ∈ d.children)
    (h : n.opens deepest = true) : d.partition deepest ≠ [] := by
  intro hnil
  have hdrop : Section.fromOpener deepest d.children = [] := Section.cut_eq_nil hnil
  have hplain := List.dropWhile_eq_nil_iff.1 hdrop n hn
  simp [h] at hplain

end Document
end Folio
