import Mathlib.Data.List.Forall2
import Folio.Proofs.Node.Admission
import Folio.Proofs.Section.Extent
import Folio.Section.Edit

/-!
# The sections that stay

A section is taken out with all that it holds. What ends it ends every section that it ended,
so the other sections keep their blocks, but for those that the section took up itself.
-/

set_option autoImplicit false

namespace Folio

namespace Section

def outside (start stop i : Nat) (ns : List Node) : List Node :=
  ((ns.zipIdx i).filter fun p => !(start ≤ p.2 && p.2 < stop)).map Prod.fst

/-- What becomes of a section when another one is taken out of the document. -/
structure Leaves (removed s s' : Section) : Prop where
  heading : s'.heading = s.heading
  level : s'.level = s.level
  start : s'.start =
    if s.start < removed.start then s.start else s.start - (removed.stop - removed.start)
  nodes : s'.nodes = outside removed.start removed.stop s.start s.nodes
  content : ¬ s.Encloses removed → s'.content = s.content

section Places

variable {start stop : Nat}

theorem outside_append (i : Nat) (ns ms : List Node) :
    outside start stop i (ns ++ ms) =
      outside start stop i ns ++ outside start stop (i + ns.length) ms := by
  simp [outside, List.zipIdx_append]

theorem outside_eq_self {i : Nat} {ns : List Node} (h : i + ns.length ≤ start ∨ stop ≤ i) :
    outside start stop i ns = ns := by
  have hall : ∀ p ∈ ns.zipIdx i, (!(decide (start ≤ p.2) && decide (p.2 < stop))) = true := by
    rintro ⟨n, j⟩ hp
    have hplace := List.mem_zipIdx hp
    simp
    omega
  rw [outside, List.filter_eq_self.2 hall, List.zipIdx_map_fst]

theorem outside_eq_nil {i : Nat} {ns : List Node} (hstart : start ≤ i)
    (hstop : i + ns.length ≤ stop) : outside start stop i ns = [] := by
  have hnone : ∀ p ∈ ns.zipIdx i, ¬ (!(decide (start ≤ p.2) && decide (p.2 < stop))) = true := by
    rintro ⟨n, j⟩ hp
    have hplace := List.mem_zipIdx hp
    simp
    omega
  rw [outside, List.filter_eq_nil_iff.2 hnone, List.map_nil]

end Places

variable {opens : Int → Bool}

theorem outlineOf_append (opens : Int → Bool) (i : Nat) (ns ms : List Node) :
    ∃ own, outlineOf opens i (ns ++ ms) = own ++ outlineOf opens (i + ns.length) ms ∧
      own.length = ns.countP (fun n => n.level?.any opens) ∧
      ∀ s ∈ own, i ≤ s.start ∧ s.start < i + ns.length := by
  induction ns generalizing i with
  | nil => exact ⟨[], rfl, rfl, by simp⟩
  | cons n ns ih =>
    obtain ⟨own, happend, hlong, hown⟩ := ih (i + 1)
    have hlength : i + 1 + ns.length = i + (n :: ns).length := by
      rw [List.length_cons]
      omega
    rw [hlength] at happend hown
    have hwider : ∀ s ∈ own, i ≤ s.start ∧ s.start < i + (n :: ns).length := by
      intro s hs
      have hrange := hown s hs
      omega
    rcases outlineOf_cons opens i n (ns ++ ms) with ⟨s, hs, ho, hcut⟩ | ⟨hskip, hcut⟩
    · refine ⟨s :: own, ?_, ?_, ?_⟩
      · rw [List.cons_append, hcut, happend, List.cons_append]
      · rw [List.countP_cons_of_pos (by simp [hs.level, ho]), List.length_cons, hlong]
      · intro t ht
        rcases List.mem_cons.1 ht with rfl | ht
        · rw [hs.start, List.length_cons]
          omega
        · exact hwider t ht
    · refine ⟨own, ?_, ?_, hwider⟩
      · rw [List.cons_append, hcut, happend]
      · rw [List.countP_cons_of_neg (by simp [hskip]), hlong]

theorem Heads.nodes {s : Section} {i : Nat} {n : Node} {ns : List Node} (h : s.Heads i n ns) :
    s.nodes = n :: upToOpener s.level ns := by
  rw [Section.nodes, h.heading, h.content]
  rfl

theorem Heads.stop_eq {s : Section} {i : Nat} {n : Node} {after : List Node}
    (h : s.Heads i n after) : s.stop = i + s.nodes.length := by
  rw [h.stop, h.content, h.nodes, List.length_cons, Nat.add_right_comm, Nat.add_assoc]

theorem Heads.split {s : Section} {before after : List Node} {n : Node}
    (h : s.Heads before.length n after) :
    before ++ n :: after = (before ++ s.nodes) ++ fromOpener s.level after ∧
      s.stop = (before ++ s.nodes).length := by
  constructor
  · rw [h.nodes, List.append_assoc, List.cons_append, upToOpener_append_fromOpener]
  · rw [h.stop_eq, List.length_append]

/-- Whether a block opens a section hangs neither on its place nor on the blocks behind it. -/
theorem outlineOf_cons_both (opens : Int → Bool) (i j : Nat) (n : Node) (ns ms : List Node) :
    (∃ s s' : Section, s.Heads i n ns ∧ s'.Heads j n ms ∧ s'.level = s.level ∧
      outlineOf opens i (n :: ns) = s :: outlineOf opens (i + 1) ns ∧
      outlineOf opens j (n :: ms) = s' :: outlineOf opens (j + 1) ms) ∨
    (outlineOf opens i (n :: ns) = outlineOf opens (i + 1) ns ∧
      outlineOf opens j (n :: ms) = outlineOf opens (j + 1) ms) := by
  rcases outlineOf_cons opens i n ns with ⟨s, hs, ho, hcut⟩ | ⟨hskip, hcut⟩ <;>
    rcases outlineOf_cons opens j n ms with ⟨s', hs', ho', hcut'⟩ | ⟨hskip', hcut'⟩
  · have hlevel : s'.level = s.level := Option.some.inj (hs'.level.symm.trans hs.level)
    exact .inl ⟨s, s', hs, hs', hlevel, hcut, hcut'⟩
  · simp [hs.level, ho] at hskip'
  · simp [hs'.level, ho'] at hskip
  · exact .inr ⟨hcut, hcut'⟩

theorem leaves_behind {removed : Section} {j k : Nat} (hj : removed.start ≤ j)
    (hk : removed.stop = removed.start + k) (ns : List Node) :
    List.Forall₂ (Leaves removed) (outlineOf opens (j + k) ns) (outlineOf opens j ns) := by
  induction ns generalizing j with
  | nil => exact .nil
  | cons n ns ih =>
    have hlater := ih (j := j + 1) (by omega)
    rw [Nat.add_right_comm] at hlater
    rcases outlineOf_cons_both opens (j + k) j n ns ns with
      ⟨s, s', hs, hs', hlevel, hcut, hcut'⟩ | ⟨hcut, hcut'⟩
    · have hcontent : s'.content = s.content := by rw [hs.content, hs'.content, hlevel]
      have hheading : s'.heading = s.heading := by rw [hs.heading, hs'.heading]
      have hbehind : removed.stop ≤ s.start := by
        rw [hs.start]
        omega
      rw [hcut, hcut']
      refine .cons ⟨hheading, hlevel, ?_, ?_, fun _ => hcontent⟩ hlater
      · rw [hs.start, hs'.start, if_neg (by omega)]
        omega
      · rw [outside_eq_self (.inr hbehind), nodes, nodes, hheading, hcontent]
    · rw [hcut, hcut']
      exact hlater

/-- The blocks that a section of a level takes up, and the blocks behind it. -/
structure Closed (level : Int) (taken rest : List Node) : Prop where
  opened : ∃ n inner, taken = n :: inner ∧ n.level? = some level ∧ Plain level inner
  ended : ∀ n ∈ rest.head?, n.opens level = true

theorem opens_of_head_fromOpener {a : Int} {ns : List Node} :
    ∀ n ∈ (fromOpener a ns).head?, n.opens a = true := by
  intro n hn
  have hhead := List.head?_dropWhile_not (fun n => !Node.opens a n) ns
  rw [show (ns.dropWhile fun n => !Node.opens a n).head? = some n from hn] at hhead
  simpa using hhead

theorem upToOpener_eq_nil {a : Int} {ns : List Node} (h : ∀ n ∈ ns.head?, n.opens a = true) :
    upToOpener a ns = [] := by
  cases ns with
  | nil => rfl
  | cons n ns => simp [upToOpener, h n rfl]

theorem upToOpener_append_of_not_plain {a : Int} {ns : List Node} (h : ¬ Plain a ns)
    (ms : List Node) : upToOpener a (ns ++ ms) = upToOpener a ns := by
  have hshort : (upToOpener a ns).length ≠ ns.length := by
    intro hlength
    apply h
    rw [← (List.takeWhile_sublist _).eq_of_length hlength]
    exact plain_upToOpener ns
  exact List.takeWhile_append.trans (if_neg hshort)

section Closed

variable {level : Int} {taken rest : List Node}

theorem Closed.passes_or_ends (h : Closed level taken rest) (a : Int) :
    (a < level ∧ Plain a taken) ∨
      (upToOpener a (taken ++ rest) = [] ∧ upToOpener a rest = []) := by
  obtain ⟨n, inner, rfl, hlevel, hinner⟩ := h.opened
  by_cases ha : a < level
  · left
    refine ⟨ha, ?_⟩
    intro m hm
    rw [← Bool.not_eq_true]
    intro hopens
    rcases List.mem_cons.1 hm with rfl | hm
    · obtain ⟨l, hl, hle⟩ := Node.opens_iff.1 hopens
      rw [hlevel] at hl
      obtain rfl := Option.some.inj hl
      omega
    · have hno := hinner m hm
      rw [Node.opens_mono hopens (by omega)] at hno
      cases hno
  · right
    have hfirst : n.opens a = true := Node.opens_iff.2 ⟨level, hlevel, by omega⟩
    constructor
    · simp [upToOpener, hfirst]
    · exact upToOpener_eq_nil fun m hm => Node.opens_mono (h.ended m hm) (by omega)

theorem Closed.upToOpener_cut (h : Closed level taken rest) (a : Int) (before : List Node) :
    (upToOpener a (before ++ (taken ++ rest)) = upToOpener a (before ++ rest) ∧
      (upToOpener a (before ++ rest)).length ≤ before.length) ∨
    (a < level ∧ upToOpener a (before ++ (taken ++ rest)) = before ++ (taken ++ upToOpener a rest) ∧
      upToOpener a (before ++ rest) = before ++ upToOpener a rest) := by
  by_cases hbefore : Plain a before
  · rw [upToOpener_plain_append hbefore, upToOpener_plain_append hbefore]
    rcases h.passes_or_ends a with ⟨ha, htaken⟩ | ⟨hend, hend'⟩
    · right
      rw [upToOpener_plain_append htaken]
      exact ⟨ha, rfl, rfl⟩
    · left
      rw [hend, hend', List.append_nil]
      exact ⟨rfl, Nat.le_refl _⟩
  · left
    rw [upToOpener_append_of_not_plain hbefore, upToOpener_append_of_not_plain hbefore]
    exact ⟨rfl, (List.takeWhile_sublist _).length_le⟩

/-- A section before the one that is taken out either ends before it or encloses it. -/
theorem Closed.leaves (h : Closed level taken rest) {removed s s' : Section} {i : Nat} {n : Node}
    {before : List Node} (hlevel : removed.level = level)
    (hstart : removed.start = i + 1 + before.length)
    (hstop : removed.stop = removed.start + taken.length)
    (hs : s.Heads i n (before ++ (taken ++ rest))) (hs' : s'.Heads i n (before ++ rest))
    (hsame : s'.level = s.level) : Leaves removed s s' := by
  have hcontent := hs'.content
  have hnodes := hs'.nodes
  rw [hsame] at hcontent hnodes
  have hheading : s'.heading = s.heading := by rw [hs.heading, hs'.heading]
  have hplace : s'.start = if s.start < removed.start then s.start
      else s.start - (removed.stop - removed.start) := by
    rw [hs.start, hs'.start, if_pos (by omega)]
  rcases h.upToOpener_cut s.level before with ⟨heq, hshort⟩ | ⟨hdeep, heq, heq'⟩
  · refine ⟨hheading, hsame, hplace, ?_, fun _ => ?_⟩
    · rw [hnodes, hs.nodes, heq, hs.start, outside_eq_self]
      left
      rw [List.length_cons]
      omega
    · rw [hcontent, hs.content, heq]
  · refine ⟨hheading, hsame, hplace, ?_, ?_⟩
    · have hfront : outside removed.start removed.stop i (n :: before) = n :: before :=
        outside_eq_self (.inl (by rw [List.length_cons]; omega))
      have hgone : outside removed.start removed.stop (i + (n :: before).length) taken = [] :=
        outside_eq_nil (by rw [List.length_cons]; omega) (by rw [List.length_cons]; omega)
      have hback : outside removed.start removed.stop (i + (n :: before).length + taken.length)
          (upToOpener s.level rest) = upToOpener s.level rest :=
        outside_eq_self (.inr (by rw [List.length_cons]; omega))
      rw [hnodes, hs.nodes, heq, heq', hs.start, ← List.cons_append, ← List.cons_append,
        outside_append, outside_append, hfront, hgone, hback, List.nil_append]
    · intro hnot
      refine absurd ⟨?_, ?_, ?_⟩ hnot
      · rw [hs.start]
        omega
      · rw [hs.stop, hs.content, heq]
        simp
        omega
      · omega

end Closed

theorem Closed.outline_leaves {level : Int} {taken rest : List Node}
    (h : Closed level taken rest) (opens : Int → Bool) {removed : Section}
    (hlevel : removed.level = level)
    (hstop : removed.stop = removed.start + taken.length) {i : Nat} {before : List Node}
    (hstart : removed.start = i + before.length) :
    List.Forall₂ (Leaves removed)
      ((outlineOf opens i (before ++ (taken ++ rest))).filter fun t =>
        !(removed.start ≤ t.start && t.start < removed.stop))
      (outlineOf opens i (before ++ rest)) := by
  induction before generalizing i with
  -- The scan stands at the section that is taken out: what starts in it goes, the rest moves.
  | nil =>
    obtain rfl : removed.start = i := hstart
    obtain ⟨own, happend, -, hown⟩ := outlineOf_append opens removed.start taken rest
    have hinside : ∀ t ∈ own,
        ¬ (!(decide (removed.start ≤ t.start) && decide (t.start < removed.stop))) = true := by
      intro t ht
      have hrange := hown t ht
      simp
      omega
    have houtside : ∀ t ∈ outlineOf opens (removed.start + taken.length) rest,
        (!(decide (removed.start ≤ t.start) && decide (t.start < removed.stop))) = true := by
      intro t ht
      obtain ⟨before, n, after, -, hheads, -⟩ := mem_outlineOf ht
      have hplace := hheads.start
      simp
      omega
    rw [List.nil_append, List.nil_append, happend, List.filter_append,
      List.filter_eq_nil_iff.2 hinside, List.filter_eq_self.2 houtside, List.nil_append]
    exact leaves_behind (Nat.le_refl _) hstop rest
  | cons n before ih =>
    rw [List.length_cons] at hstart
    have hlater := ih (i := i + 1) (by omega)
    rw [List.cons_append, List.cons_append]
    rcases outlineOf_cons_both opens i i n (before ++ (taken ++ rest)) (before ++ rest) with
      ⟨s, s', hs, hs', hlevels, hcut, hcut'⟩ | ⟨hcut, hcut'⟩
    · have hplace := hs.start
      rw [hcut, hcut', List.filter_cons_of_pos (by simp; omega)]
      exact .cons (h.leaves hlevel (by omega) hstop hs hs' hlevels) hlater
    · rw [hcut, hcut']
      exact hlater

end Section

namespace Document

theorem resolve_place {d : Document} {k : Nat} {s : Section} (h : d.sections[k]? = some s) :
    (d.resolve (.index k)).result = .ok s := by
  have hplace : (if (k : Int) < 0 then none else d.sections[(k : Int).toNat]?) = some s := by
    rw [if_neg (by omega), Int.toNat_natCast, h]
  rw [resolve, hplace]
  rfl

theorem exists_place_of_resolve {d : Document} {i : Int} {s : Section}
    (h : (d.resolve (.index i)).result = .ok s) : ∃ k : Nat, i = k ∧ d.sections[k]? = some s := by
  simp only [resolve] at h
  split at h
  next t ht =>
    cases h
    split at ht
    · cases ht
    · exact ⟨i.toNat, by omega, ht⟩
  next => cases h

theorem mem_sections_of_resolve {d : Document} {target : Target} {s : Section}
    (h : (d.resolve target).result = .ok s) : s ∈ d.sections := by
  cases target with
  | index i =>
    obtain ⟨k, -, hk⟩ := exists_place_of_resolve h
    exact List.mem_of_getElem? hk
  | text wanted caseSensitive =>
    simp only [resolve] at h
    split at h
    · cases h
    next hs =>
      cases h
      exact (List.mem_filter.1 (hs ▸ List.mem_singleton_self s)).1
    · cases h

theorem replaceSection_result {d : Document} {target : Target} {s : Section}
    (hs : (d.resolve target).result = .ok s) {ns : List Node} (hns : Shape.document.Takes ns) :
    ∃ replaced, (d.replaceSection target (ns.map some)).result = .ok replaced ∧
      replaced.children = d.children.take s.start ++ ns ++ d.children.drop s.stop ∧
      replaced.attrs = d.attrs := by
  have htakes : Shape.document.Takes (d.children.take s.start ++ ns ++ d.children.drop s.stop) := by
    rw [Shape.takes_document_append, Shape.takes_document_append]
    exact ⟨⟨fun c hc => d.areBlocks c (List.mem_of_mem_take hc), hns⟩,
      fun c hc => d.areBlocks c (List.mem_of_mem_drop hc)⟩
  have hbuilt := Document.build_attrs htakes d
  rw [List.map_append, List.map_append] at hbuilt
  refine ⟨d.withChildren _ htakes, ?_, rfl, rfl⟩
  rw [replaceSection, Outcome.result_bind_ok _ hs, Outcome.result_debug_bind]
  exact hbuilt

theorem removeSection_result {d : Document} {target : Target} {s : Section}
    (hs : (d.resolve target).result = .ok s) :
    ∃ left, (d.removeSection target).result = .ok left ∧
      left.children = d.children.take s.start ++ d.children.drop s.stop ∧
      left.attrs = d.attrs := by
  have hnone : Shape.document.Takes [] := nofun
  have hreplaced := replaceSection_result hs hnone
  rw [List.append_nil] at hreplaced
  exact hreplaced

/-- Taking a section out of a document leaves the sections that do not start in it, in their
order. Each keeps its blocks but for those of the section that is taken out, and a section that
does not enclose that one keeps all of them. -/
theorem removeSection_leaves (d : Document) {target : Target} {s : Section}
    (hs : (d.resolve target).result = .ok s) :
    ∃ left, (d.removeSection target).result = .ok left ∧
      List.Forall₂ (Section.Leaves s)
        (d.sections.filter fun t => !(s.start ≤ t.start && t.start < s.stop)) left.sections := by
  obtain ⟨before, n, after, hchildren, hheads, -⟩ :=
    Section.mem_outlineOf (mem_sections_of_resolve hs)
  rw [Nat.zero_add] at hheads
  have hclosed : Section.Closed s.level (n :: Section.upToOpener s.level after)
      (Section.fromOpener s.level after) := by
    exact ⟨⟨n, _, rfl, hheads.level, Section.plain_upToOpener after⟩,
      Section.opens_of_head_fromOpener⟩
  have hsplit : d.children = before ++ ((n :: Section.upToOpener s.level after) ++
      Section.fromOpener s.level after) := by
    rw [hchildren, List.cons_append, Section.upToOpener_append_fromOpener]
  have hstop : s.stop = s.start + (n :: Section.upToOpener s.level after).length := by
    rw [hheads.stop, hheads.start, hheads.content, List.length_cons]
    omega
  obtain ⟨left, hresult, hchildren', -⟩ := removeSection_result hs
  refine ⟨left, hresult, ?_⟩
  have hleft : d.children.take s.start ++ d.children.drop s.stop =
      before ++ Section.fromOpener s.level after := by
    rw [hsplit, List.take_left' hheads.start.symm, ← List.append_assoc, List.drop_left']
    rw [hstop, hheads.start, List.length_append]
  have houtline := hclosed.outline_leaves (fun l => 1 ≤ l && l ≤ 6) rfl hstop
    (hheads.start.trans (Nat.zero_add _).symm)
  rw [← hsplit, ← hleft, ← hchildren'] at houtline
  exact houtline

def chaptered : Document :=
  { children := [Node.plain (.heading 1) [], Node.plain (.heading 2) [],
      Node.plain (.heading 3) [], Node.plain (.heading 2) [], Node.plain (.heading 1) []] }

def chapter : Section where
  heading := some (Node.plain (.heading 2) [])
  level := 2
  content := [Node.plain (.heading 3) []]
  start := 1
  stop := 3

theorem chaptered_removeSection_leaves :
    (chaptered.resolve (.index 1)).result = .ok chapter ∧
    ∃ left, (chaptered.removeSection (.index 1)).result = .ok left ∧
      List.Forall₂ (Section.Leaves chapter)
        (chaptered.sections.filter fun t => !(1 ≤ t.start && t.start < 3)) left.sections := by
  have hresolve : (chaptered.resolve (.index 1)).result = .ok chapter := rfl
  exact ⟨hresolve, removeSection_leaves chaptered hresolve⟩

end Document
end Folio
