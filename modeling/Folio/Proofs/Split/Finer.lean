import Folio.Proofs.Split.Cover

/-!
# Splitting the parts of a split

A part of a split at headings runs from one heading of the upper levels to the next, so deeper
headings cut it where they cut the whole document. Splitting the parts again at the next level
is splitting the document at that level.
-/

set_option autoImplicit false

namespace Folio

theorem Node.opens_succ {level : Int} {n : Node} (h : n.level? ≠ some (level + 1)) :
    n.opens (level + 1) = n.opens level := by
  cases hn : n.level? with
  | none => simp [opens, hn]
  | some l =>
    have hne : l ≠ level + 1 := fun hl => h (by rw [hn, hl])
    have hiff : l ≤ level + 1 ↔ l ≤ level := by omega
    simp [opens, hn, hiff]

namespace Section

variable {deepest finer : Int}

theorem stretches_join (ns : List Node) : (stretches deepest ns).flatten = ns := by
  have hbefore : (if (upToOpener deepest ns).isEmpty then []
      else [upToOpener deepest ns]).flatten = upToOpener deepest ns := by
    cases upToOpener deepest ns <;> simp
  rw [stretches, List.flatten_append, hbefore, cut_nodes_flatten, upToOpener_append_fromOpener]

/-- A section cut at deeper headings is sections only, the first of them under its own heading. -/
theorem Opened.stretches {ns : List Node} (h : Opened deepest ns) (hd : deepest ≤ finer) :
    ∀ ms ∈ stretches finer ns, Opened finer ms := by
  obtain ⟨n, rest, rfl, hopens, -⟩ := h
  have hnone : upToOpener finer (n :: rest) = [] := by
    simp [upToOpener, Node.opens_mono hopens hd]
  intro ms hms
  rw [Section.stretches, hnone] at hms
  obtain ⟨s, hs, rfl⟩ := List.mem_map.1 hms
  exact opened_of_mem_cut hs

theorem separated_finer (hd : deepest ≤ finer) (ns : List Node) :
    Separated finer ((stretches deepest ns).flatMap (stretches finer)) where
  each ms hms := by
    obtain ⟨s, -, hms⟩ := List.mem_flatMap.1 hms
    exact (separated_stretches s).each ms hms
  later := by
    apply List.pairwise_flatMap.2
    constructor
    · intro s _
      exact (separated_stretches s).later
    · exact (separated_stretches ns).later.imp fun hopened _ _ ms hms =>
        hopened.stretches hd ms hms

theorem stretches_finer (hd : deepest ≤ finer) (ns : List Node) :
    (stretches deepest ns).flatMap (stretches finer) = stretches finer ns := by
  have hjoin : ((stretches deepest ns).flatMap (stretches finer)).flatten = ns := by
    rw [List.flatMap, List.flatten_flatten, List.map_map]
    have hid : List.flatten ∘ stretches finer = id := funext stretches_join
    rw [hid, List.map_id, stretches_join]
  have hcut := stretches_flatten (separated_finer hd ns)
  rw [hjoin] at hcut
  exact hcut.symm

/-- A stretch without a heading of the next level is one stretch of that level too. -/
theorem stretches_succ {level : Int} {ns s : List Node} (hs : s ∈ stretches level ns)
    (hnone : ∀ n ∈ s, n.level? ≠ some (level + 1)) : stretches (level + 1) s = [s] := by
  have hseparated : Separated (level + 1) [s] := by
    constructor
    · intro ms hms
      obtain rfl := List.mem_singleton.1 hms
      rcases (separated_stretches ns).each ms hs with
        ⟨hsome, hplain⟩ | ⟨n, rest, rfl, hopens, hplain⟩
      · refine .inl ⟨hsome, ?_⟩
        intro n hn
        rw [Node.opens_succ (hnone n hn)]
        exact hplain n hn
      · refine .inr ⟨n, rest, rfl, Node.opens_mono hopens (by omega), ?_⟩
        intro m hm
        rw [Node.opens_succ (hnone m (by simp [hm]))]
        exact hplain m hm
    · exact List.pairwise_singleton _ _
  simpa using stretches_flatten hseparated

end Section

namespace Document

/-- The blocks of the parts of a split at headings of a level: without a heading of the very
level, all blocks stay together. -/
def pieces (level : Int) (ns : List Node) : List (List Node) :=
  if ns.any fun n => n.level? == some level then Section.stretches level ns else [ns]

theorem splitByHeading_pieces (d : Document) {level : Int} (h : 1 ≤ level ∧ level ≤ 6) :
    ∃ parts, (d.splitByHeading level true).result = .ok parts ∧
      (parts.map fun p => p.document.children) = pieces level d.children := by
  cases hat : d.hasHeadingAt level with
  | false =>
    rw [splitByHeading_whole h hat]
    have hpieces : pieces level d.children = [d.children] := if_neg (Bool.eq_false_iff.1 hat)
    exact ⟨_, d.keptWhole_result none _, hpieces.symm⟩
  | true =>
    have hpieces : pieces level d.children = Section.stretches level d.children := if_pos hat
    have hcuts := Passage.cuts_partition (partition_of_hasHeadingAt hat)
    obtain ⟨parts, hresult, hparts⟩ := splitByHeading_result h hat true hcuts.subset
    refine ⟨parts, hresult, ?_⟩
    rw [hparts.map_eq fun _ _ hshows => hshows.children, hpieces]
    exact Passage.partition_stretches d level

theorem pieces_succ {level : Int} {ns s : List Node} (hs : s ∈ pieces level ns)
    (hat : ∃ n ∈ ns, n.level? = some (level + 1)) :
    pieces (level + 1) s = Section.stretches (level + 1) s := by
  by_cases hsome : s.any fun n => n.level? == some (level + 1)
  · rw [pieces, if_pos hsome]
  · rw [pieces, if_neg hsome]
    unfold pieces at hs
    split at hs
    · refine (Section.stretches_succ hs ?_).symm
      simpa using hsome
    · obtain rfl := List.mem_singleton.1 hs
      exact absurd (by simpa using hat) hsome

theorem pieces_join {level : Int} {ns : List Node}
    (hat : ∃ n ∈ ns, n.level? = some (level + 1)) :
    (pieces level ns).flatMap (pieces (level + 1)) = pieces (level + 1) ns := by
  have hwhole : pieces (level + 1) ns = Section.stretches (level + 1) ns := by
    rw [pieces, if_pos (by simpa using hat)]
  have hparts : (pieces level ns).flatMap (pieces (level + 1)) =
      (pieces level ns).flatMap (Section.stretches (level + 1)) :=
    List.flatMap_congr fun s hs => pieces_succ hs hat
  rw [hwhole, hparts, pieces]
  split
  · exact Section.stretches_finer (by omega) ns
  · simp

/-- Where some heading has the next level, splitting the parts of a split at headings again at
the next level hands out the blocks as a split of the document at that level does. -/
theorem splitByHeading_finer (d : Document) {level : Int} (h : 1 ≤ level ∧ level ≤ 5)
    (hat : ∃ n ∈ d.children, n.level? = some (level + 1)) :
    ∃ (coarse direct : List Part) (finer : Part → List Part),
      (d.splitByHeading level true).result = .ok coarse ∧
      (∀ part ∈ coarse,
        (part.document.splitByHeading (level + 1) true).result = .ok (finer part)) ∧
      (d.splitByHeading (level + 1) true).result = .ok direct ∧
      ((coarse.flatMap finer).map fun p => p.document.children) =
        direct.map fun p => p.document.children := by
  have hlevel : 1 ≤ level ∧ level ≤ 6 := by omega
  have hnext : 1 ≤ level + 1 ∧ level + 1 ≤ 6 := by omega
  obtain ⟨coarse, hcoarse, hpieces⟩ := d.splitByHeading_pieces hlevel
  obtain ⟨direct, hdirect, hdirectPieces⟩ := d.splitByHeading_pieces hnext
  choose finer hfiner hfinerPieces using
    fun part : Part => part.document.splitByHeading_pieces hnext
  refine ⟨coarse, direct, finer, hcoarse, fun part _ => hfiner part, hdirect, ?_⟩
  calc ((coarse.flatMap finer).map fun p => p.document.children)
      = coarse.flatMap fun part => pieces (level + 1) part.document.children := by
        simp only [List.map_flatMap, hfinerPieces]
    _ = (pieces level d.children).flatMap (pieces (level + 1)) := by
        rw [← hpieces, List.flatMap_map]
    _ = direct.map fun p => p.document.children := by rw [pieces_join hat, hdirectPieces]

def stepped : Document :=
  { children := Node.plain .paragraph [] ::
      [3, 2, 4, 3, 1].map fun level => Node.plain (.heading level) [] }

theorem stepped_splitByHeading_finer :
    ∃ (coarse direct : List Part) (finer : Part → List Part),
      (stepped.splitByHeading 2 true).result = .ok coarse ∧
      (∀ part ∈ coarse, (part.document.splitByHeading 3 true).result = .ok (finer part)) ∧
      (stepped.splitByHeading 3 true).result = .ok direct ∧
      ((coarse.flatMap finer).map fun p => p.document.children) =
        direct.map fun p => p.document.children := by
  have hat : ∃ n ∈ stepped.children, n.level? = some (2 + 1) :=
    ⟨_, List.mem_cons_of_mem _ List.mem_cons_self, rfl⟩
  exact splitByHeading_finer stepped (by decide) hat

end Document
end Folio
