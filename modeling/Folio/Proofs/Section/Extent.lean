import Folio.Proofs.Section.Partition

/-!
# The extent of a section

A section of an outline reaches from its heading to the next heading that is not deeper, or to
the end of the blocks. It follows that of two sections one ends before the other starts, or
the later one lies within the earlier and is deeper.
-/

set_option autoImplicit false

namespace Folio
namespace Section

variable {opens : Int → Bool}

/-- The sections that the chosen headings open among blocks of which the first has place `i`. -/
def outlineOf (opens : Int → Bool) (i : Nat) (ns : List Node) : List Section :=
  scan opens (fun l m => m ≤ l) i ns

/-- What the heading `n` at place `i` opens when the blocks `ns` come after it. -/
structure Heads (s : Section) (i : Nat) (n : Node) (ns : List Node) : Prop where
  heading : s.heading = some n
  level : n.level? = some s.level
  start : s.start = i
  content : s.content = upToOpener s.level ns
  stop : s.stop = i + 1 + s.content.length

theorem Found.heads {s : Section} {i : Nat} {n : Node} {ns : List Node}
    (h : s.Found (fun l m => m ≤ l) i n ns) : s.Heads i n ns :=
  ⟨h.heading, h.level, h.start, h.content, h.stop⟩

theorem outlineOf_cons (opens : Int → Bool) (i : Nat) (n : Node) (ns : List Node) :
    (∃ s : Section, s.Heads i n ns ∧ opens s.level = true ∧
      outlineOf opens i (n :: ns) = s :: outlineOf opens (i + 1) ns) ∨
    (n.level?.any opens = false ∧
      outlineOf opens i (n :: ns) = outlineOf opens (i + 1) ns) :=
  (scan_cons opens _ i n ns).imp_left fun ⟨s, hs, hscan⟩ => ⟨s, hs.heads, hscan⟩

theorem mem_outlineOf {i : Nat} {ns : List Node} {s : Section} (hs : s ∈ outlineOf opens i ns) :
    ∃ before n after, ns = before ++ n :: after ∧ s.Heads (i + before.length) n after ∧
      opens s.level = true := by
  obtain ⟨before, n, after, hns, hfound, ho⟩ := mem_scan hs
  exact ⟨before, n, after, hns, hfound.heads, ho⟩

theorem outlineOf_places (i : Nat) (ns : List Node) :
    (outlineOf opens i ns).map (fun s => (s.heading, s.start)) =
      ((ns.zipIdx i).filter fun p => p.1.level?.any opens).map fun p => (some p.1, p.2) := by
  induction ns generalizing i with
  | nil => rfl
  | cons n ns ih =>
    rcases outlineOf_cons opens i n ns with ⟨s, hs, ho, hcut⟩ | ⟨hskip, hcut⟩
    · rw [hcut, List.zipIdx_cons, List.filter_cons_of_pos (by simp [hs.level, ho]),
        List.map_cons, List.map_cons, ih, hs.heading, hs.start]
    · rw [hcut, List.zipIdx_cons, List.filter_cons_of_neg (by simp [hskip]), ih]

theorem outlineOf_ascends (i : Nat) (ns : List Node) :
    (outlineOf opens i ns).Pairwise fun s t => s.start < t.start := by
  induction ns generalizing i with
  | nil => exact .nil
  | cons n ns ih =>
    rcases outlineOf_cons opens i n ns with ⟨s, hs, -, hcut⟩ | ⟨-, hcut⟩
    · rw [hcut]
      refine .cons ?_ (ih (i + 1))
      intro t ht
      obtain ⟨before, m, after, -, hheads, -⟩ := mem_outlineOf ht
      rw [hs.start, hheads.start]
      omega
    · rw [hcut]
      exact ih (i + 1)

/-- A section of blocks reaches from its heading, over blocks that are no headings or deeper
ones, to the first heading that is not deeper or to the end. -/
structure Extends (s : Section) (ns : List Node) : Prop where
  heading : ∃ n, ns[s.start]? = some n ∧ s.heading = some n ∧ n.level? = some s.level
  range : s.start < s.stop ∧ s.stop ≤ ns.length
  content : s.content = (ns.take s.stop).drop (s.start + 1)
  deeper : ∀ i n m, s.start < i → i < s.stop → ns[i]? = some n → n.level? = some m → s.level < m
  stop : s.stop = ns.length ∨ ∃ n m, ns[s.stop]? = some n ∧ n.level? = some m ∧ m ≤ s.level

theorem upToOpener_eq_take (l : Int) (ns : List Node) :
    upToOpener l ns = ns.take (upToOpener l ns).length :=
  List.prefix_iff_eq_take.1 (List.takeWhile_prefix _)

theorem getElem?_upToOpener {l : Int} {ns : List Node} {i : Nat} {n : Node} {m : Int}
    (hi : i < (upToOpener l ns).length) (hn : ns[i]? = some n) (hm : n.level? = some m) :
    l < m := by
  have hmem : n ∈ upToOpener l ns := by
    rw [upToOpener_eq_take]
    apply List.mem_of_getElem?
    rw [List.getElem?_take_of_lt hi]
    exact hn
  have hplain := plain_upToOpener ns n hmem
  simpa [Node.opens, hm] using hplain

theorem getElem?_length_upToOpener (l : Int) (ns : List Node) :
    (upToOpener l ns).length = ns.length ∨
      ∃ n m, ns[(upToOpener l ns).length]? = some n ∧ n.level? = some m ∧ m ≤ l := by
  induction ns with
  | nil => exact .inl rfl
  | cons n ns ih =>
    cases ho : n.opens l with
    | true =>
      obtain ⟨m, hm, hle⟩ := Node.opens_iff.1 ho
      exact .inr ⟨n, m, by simp [upToOpener, ho], hm, hle⟩
    | false =>
      have hgrow : (upToOpener l (n :: ns)).length = (upToOpener l ns).length + 1 := by
        simp [upToOpener, ho]
      rw [hgrow, List.getElem?_cons_succ, List.length_cons]
      exact ih.imp_left (congrArg (· + 1))

theorem Heads.extends {before after : List Node} {n : Node} {s : Section}
    (h : s.Heads before.length n after) : s.Extends (before ++ n :: after) := by
  have hstart : s.start = before.length := h.start
  have hstop : s.stop = before.length + 1 + (upToOpener s.level after).length := by
    rw [h.stop, h.content]
  have hdrop : (before ++ n :: after).drop (before.length + 1) = after := by
    simp
  have hlength : (upToOpener s.level after).length ≤ after.length :=
    (List.takeWhile_sublist _).length_le
  refine ⟨⟨n, ?_, h.heading, h.level⟩, ?_, ?_, ?_, ?_⟩
  · simp [hstart]
  · rw [hstart, hstop, List.length_append, List.length_cons]
    omega
  · rw [hstart, hstop, h.content, List.drop_take, hdrop, Nat.add_sub_cancel_left]
    exact upToOpener_eq_take s.level after
  · intro i k m hi hstop hk hm
    obtain ⟨j, rfl⟩ := Nat.exists_eq_add_of_le (show before.length + 1 ≤ i by omega)
    rw [getElem?_behind] at hk
    exact getElem?_upToOpener (by omega) hk hm
  · rw [hstop, getElem?_behind]
    refine (getElem?_length_upToOpener s.level after).imp_left fun hend => ?_
    rw [hend, List.length_append, List.length_cons]
    omega

def Encloses (s t : Section) : Prop := s.start < t.start ∧ t.stop ≤ s.stop ∧ s.level < t.level

/-- A section that starts in another one is deeper than it, so whatever ends the other one
ends it as well. -/
theorem Extends.nested {ns : List Node} {s t : Section} (hs : s.Extends ns) (ht : t.Extends ns)
    (hst : s.start < t.start) : s.stop ≤ t.start ∨ s.Encloses t := by
  by_cases hin : t.start < s.stop
  · right
    obtain ⟨n, hn, -, hlevel⟩ := ht.heading
    have hdeep : s.level < t.level := hs.deeper t.start n t.level hst hin hn hlevel
    -- The heading that stops the outer section is no deeper than it, so it stops the inner one.
    have hends : t.stop ≤ s.stop := by
      apply Nat.le_of_not_lt
      intro hlong
      rcases hs.stop with hend | ⟨k, m, hk, hm, hle⟩
      · have hrange := ht.range.2
        omega
      · have hdeeper := ht.deeper s.stop k m hin hlong hk hm
        omega
    exact ⟨hst, hends, hdeep⟩
  · left
    omega

end Section

namespace Document

/-- The sections of a document for the headings of the levels between two: one for each, in
order, each of its full extent, and any two of them apart or one within the other. -/
structure Outlines (d : Document) (low high : Int) (sections : List Section) : Prop where
  places : sections.map (fun s => (s.heading, s.start)) =
    (d.children.zipIdx.filter fun p => p.1.level?.any fun l => low ≤ l && l ≤ high).map
      fun p => (some p.1, p.2)
  extents : ∀ s ∈ sections, s.Extends d.children
  laminar : sections.Pairwise fun s t => s.stop ≤ t.start ∨ s.Encloses t

theorem outline_extends {d : Document} {low high : Int} {s : Section}
    (hs : s ∈ d.outline low high) : s.Extends d.children := by
  obtain ⟨before, n, after, hchildren, hheads, -⟩ := Section.mem_outlineOf hs
  rw [Nat.zero_add] at hheads
  rw [hchildren]
  exact hheads.extends

theorem outline_outlines (d : Document) (low high : Int) :
    d.Outlines low high (d.outline low high) where
  places := Section.outlineOf_places 0 d.children
  extents _ hs := outline_extends hs
  laminar := by
    apply (Section.outlineOf_ascends 0 d.children).imp_of_mem
    intro s t hs ht hst
    exact (outline_extends hs).nested (outline_extends ht) hst

theorem levels_in_order {low high : Int} (h : 1 ≤ low ∧ low ≤ high ∧ high ≤ 6) :
    (decide (low < 1) || decide (6 < high) || decide (high < low)) = false := by
  simp
  omega

theorem sectionsBetween_result {low high : Int} (h : 1 ≤ low ∧ low ≤ high ∧ high ≤ 6)
    (d : Document) : (d.sectionsBetween low high).result = .ok (d.outline low high) := by
  rw [sectionsBetween, levels_in_order h]
  rfl

/-- Between two levels from one to six in their order a document has its outline; any other
two levels are refused as an invalid argument. -/
theorem sectionsBetween_outlines (d : Document) (low high : Int) :
    if 1 ≤ low ∧ low ≤ high ∧ high ≤ 6 then
      ∃ sections, (d.sectionsBetween low high).result = .ok sections ∧
        d.Outlines low high sections
    else ∃ f, (d.sectionsBetween low high).result = .error f ∧ f.code = .invalidArgument := by
  by_cases hrange : 1 ≤ low ∧ low ≤ high ∧ high ≤ 6
  · rw [if_pos hrange]
    exact ⟨_, sectionsBetween_result hrange d, d.outline_outlines low high⟩
  · have hguard : (decide (low < 1) || decide (6 < high) || decide (high < low)) = true := by
      simp
      omega
    rw [if_neg hrange, sectionsBetween, hguard]
    exact ⟨_, rfl, rfl⟩

end Document
end Folio
