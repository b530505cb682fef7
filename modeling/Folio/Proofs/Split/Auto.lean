import Folio.Proofs.Section.Tiling
import Folio.Proofs.Split.Cover

/-!
# The automatic split

The automatic choice measures sections of the outline, which lie in one another, and the split
that it chooses hands out parts of a partition, which do not. A part is never longer than the
section under its heading, so that what was measured bounds what is handed out.
-/

set_option autoImplicit false

namespace Folio

theorem textWords_prefix {ns ms : List Node} (h : ns <+: ms) : textWords ns ≤ textWords ms := by
  obtain ⟨rest, rfl⟩ := h
  simp

theorem foldl_max_le_iff {ws : List Nat} {w : Nat} {bound : Int} :
    (ws.foldl max w : Nat) ≤ bound ↔ (w : Int) ≤ bound ∧ ∀ v ∈ ws, (v : Int) ≤ bound := by
  induction ws generalizing w with
  | nil => simp
  | cons v ws ih =>
    rw [List.foldl_cons, ih, List.forall_mem_cons, ← and_assoc]
    exact and_congr_left fun _ => by omega

namespace Section

theorem upTo_nodes (s : Section) (place : Nat) : (s.upTo place).nodes <+: s.nodes :=
  (List.prefix_append_right_inj _).2 (List.take_prefix _ _)

theorem abutting_nodes {ss : List Section} {p : Section} (h : p ∈ abutting ss) :
    ∃ s ∈ ss, p.nodes <+: s.nodes := by
  induction ss with
  | nil => cases h
  | cons s ss ih =>
    cases ss with
    | nil => exact ⟨p, h, List.prefix_rfl⟩
    | cons t ss =>
      rcases List.mem_cons.1 h with rfl | h
      · exact ⟨s, List.mem_cons_self, upTo_nodes s t.start⟩
      · obtain ⟨r, hr, hprefix⟩ := ih h
        exact ⟨r, List.mem_cons_of_mem s hr, hprefix⟩

end Section

namespace Passage

theorem before_eq (d : Document) (parts : List Section) :
    before d parts = [] ∨ before d parts = [⟨some preambleTitle, d.beforeParts parts⟩] := by
  unfold before
  cases d.beforeParts parts with
  | nil => exact .inl rfl
  | cons n ns => exact .inr rfl

/-- A passage that is filled up stays within the target, or nothing is added to it. -/
theorem mem_fillAll {target : Nat} {ps : List Passage} {p : Passage} (h : p ∈ fillAll target ps) :
    p.words ≤ target ∨ p ∈ ps := by
  cases ps with
  | nil => cases h
  | cons q ps =>
    rw [fillAll_eq] at h
    obtain ⟨batch, hbatch, rfl⟩ := List.mem_map.1 h
    have hwithin : Within target batch := batches_within (fun h => by simp at h) batch hbatch
    by_cases hlength : 1 < batch.length
    · left
      rw [merge_words]
      exact hwithin hlength
    · right
      have hsome : batch.length ≠ 0 := by simpa using batches_ne_nil (by simp) batch hbatch
      obtain ⟨r, rfl⟩ := List.length_eq_one_iff.1 (show batch.length = 1 by omega)
      rw [merge_singleton, ← List.singleton_append, ← batches_flatten target [q] ps]
      exact List.mem_flatten_of_mem hbatch List.mem_cons_self

end Passage

namespace Document

def FitsTop (d : Document) (target : Int) : Prop :=
  (∃ n ∈ d.children, n.level? = some 1) ∧
    ∀ s ∈ d.outline 1 1, (textWords s.nodes : Int) ≤ 2 * target

/-- Sections of level two exist, and twice the words of all of them are at most three targets for
each. -/
def FitsSecond (d : Document) (target : Int) : Prop :=
  (∃ n ∈ d.children, n.level? = some 2) ∧
    2 * (((d.outline 2 2).map fun s => textWords s.nodes).sum : Int) ≤
      3 * target * (d.outline 2 2).length

theorem outline_eq_nil_iff {d : Document} {level : Int} :
    d.outline level level = [] ↔ ¬ ∃ n ∈ d.children, n.level? = some level := by
  have hat (n : Node) : (n.level?.any fun l => level ≤ l && l ≤ level) = false ↔
      n.level? ≠ some level := by
    cases hn : n.level? with
    | none => simp
    | some l => simp; omega
  rw [outline, Section.scan_eq_nil]
  simp [hat]

theorem suitsTop_result (d : Document) {target : Int} (h : 1 ≤ target) :
    ∃ b, (d.suitsTop target).result = .ok b ∧ (b = true ↔ d.FitsTop target) := by
  unfold suitsTop
  split
  next hnone =>
    have hat := outline_eq_nil_iff.1 hnone
    exact ⟨false, rfl, iff_of_false nofun fun hfits => hat hfits.1⟩
  next hsome =>
    have hat : ∃ n ∈ d.children, n.level? = some 1 :=
      by_contra fun hnone => hsome (outline_eq_nil_iff.2 hnone)
    refine ⟨_, rfl, ?_⟩
    rw [decide_eq_true_iff, foldl_max_le_iff, FitsTop, and_iff_right hat, List.forall_mem_map,
      Int.mul_comm target 2]
    exact and_iff_right (by omega)

theorem suitsSecond_result (d : Document) (target : Int) :
    ∃ b, (d.suitsSecond target).result = .ok b ∧ (b = true ↔ d.FitsSecond target) := by
  unfold suitsSecond
  split
  next hnone =>
    have hat := outline_eq_nil_iff.1 hnone
    exact ⟨false, rfl, iff_of_false nofun fun hfits => hat hfits.1⟩
  next hsome =>
    have hat : ∃ n ∈ d.children, n.level? = some 2 :=
      by_contra fun hnone => hsome (outline_eq_nil_iff.2 hnone)
    refine ⟨_, rfl, ?_⟩
    rw [decide_eq_true_iff, FitsSecond, and_iff_right hat]
    rfl

/-- The first of the parts, when it is what stands before all sections. -/
structure Preamble (d : Document) (sections : List Section) (parts : List Part) (part : Part) :
    Prop where
  first : parts.head? = some part
  title : part.title = some Passage.preambleTitle
  children : part.document.children = d.beforeParts sections

theorem preamble_or_section {d : Document} {sections : List Section} {parts : List Part}
    (hparts : PartsOf d (Passage.before d sections ++ sections.map Passage.ofSection) parts) :
    ∀ part ∈ parts, d.Preamble sections parts part ∨
      ∃ s ∈ sections, part.document.children = s.nodes := by
  have hsection {rest : List Part}
      (hrest : List.Forall₂ (Part.Shows d) (sections.map Passage.ofSection) rest) :
      ∀ part ∈ rest, ∃ s ∈ sections, part.document.children = s.nodes := by
    intro part hpart
    obtain ⟨p, hp, hshows⟩ := exists_shown hrest hpart
    obtain ⟨s, hs, rfl⟩ := List.mem_map.1 hp
    exact ⟨s, hs, hshows.children⟩
  have hshown := hparts.shown
  rcases Passage.before_eq d sections with hbefore | hbefore
  · rw [hbefore] at hshown
    exact fun part hpart => .inr (hsection hshown part hpart)
  · rw [hbefore] at hshown
    obtain ⟨first, rest, hfirst, hrest, rfl⟩ := List.forall₂_cons_left_iff.1 hshown
    refine List.forall_mem_cons.2 ⟨.inl ⟨rfl, hfirst.title, hfirst.children⟩, ?_⟩
    exact fun part hpart => .inr (hsection hrest part hpart)

structure Counted (parts : List Part) : Prop where
  nonempty : parts ≠ []
  words : ∀ part ∈ parts, part.words = textWords part.document.children

theorem counted_of_partsOf {d : Document} {ps : List Passage} {parts : List Part}
    (h : PartsOf d ps parts) (hps : ps ≠ []) : Counted parts where
  nonempty := h.ne_nil hps
  words part hpart := by
    obtain ⟨p, -, hshows⟩ := h.exists_passage hpart
    rw [hshows.words, hshows.children]
    rfl

theorem Counted.note {parts : List Part} (h : Counted parts) (key text : Bytes) :
    Counted (parts.map (Part.note key text)) where
  nonempty := by simpa using h.nonempty
  words := List.forall_mem_map.2 h.words

theorem splitByHeading_parts {d : Document} {level : Int} (h : 1 ≤ level ∧ level ≤ 6)
    (hat : ∃ n ∈ d.children, n.level? = some level) :
    ∃ parts, (d.splitByHeading level true).result = .ok parts ∧ Counted parts ∧
      ∀ part ∈ parts, d.Preamble (d.partition level) parts part ∨
        ∃ s ∈ d.partition level, part.document.children = s.nodes := by
  have hheading : d.hasHeadingAt level = true := by simpa [hasHeadingAt] using hat
  have hcuts := Passage.cuts_partition (partition_of_hasHeadingAt hheading)
  obtain ⟨parts, hresult, hparts⟩ := splitByHeading_result h hheading true hcuts.subset
  exact ⟨parts, hresult, counted_of_partsOf hparts hcuts.nonempty, preamble_or_section hparts⟩

theorem Preamble.note {d : Document} {sections : List Section} {parts : List Part} {part : Part}
    (h : d.Preamble sections parts part) (key text : Bytes) :
    d.Preamble sections (parts.map (Part.note key text)) (part.note key text) where
  first := by
    rw [List.head?_map, h.first]
    rfl
  title := h.title
  children := h.children

theorem mem_passages {d : Document} {p : Passage} (h : p ∈ d.passages) :
    (∃ s ∈ d.partition 6, p.nodes = s.nodes) ∨ p.nodes = d.beforeParts (d.partition 6) := by
  rcases List.mem_append.1 h with hp | hp
  · right
    rcases Passage.before_eq d (d.partition 6) with hbefore | hbefore
    · rw [hbefore] at hp
      cases hp
    · rw [hbefore] at hp
      rw [List.mem_singleton.1 hp]
  · left
    obtain ⟨s, hs, rfl⟩ := List.mem_map.1 hp
    exact ⟨s, hs, rfl⟩

theorem splitByWords_parts {d : Document} {target : Int} (h : 1 ≤ target) :
    ∃ parts, (d.splitByWords target).result = .ok parts ∧ Counted parts ∧
      ∀ part ∈ parts, (part.words : Int) ≤ target ∨
        (∃ s ∈ d.partition 6, part.document.children = s.nodes) ∨
        part.document.children = d.beforeParts (d.partition 6) := by
  by_cases hparts : d.partition 6 = []
  · have hcounted : Counted [d.onlyPart none] := ⟨List.cons_ne_nil _ _, by simp [onlyPart]⟩
    rw [splitByWords_whole h hparts]
    refine ⟨_, d.keptWhole_result none _, hcounted.note _ _, ?_⟩
    rw [hparts]
    exact List.forall_mem_singleton.2 (.inr (.inr rfl))
  · have hcuts := (Passage.cuts_partition hparts).fillAll target.toNat
    obtain ⟨parts, hresult, hshown⟩ := splitByWords_result h hparts
    refine ⟨parts, hresult, counted_of_partsOf hshown hcuts.nonempty, ?_⟩
    intro part hpart
    obtain ⟨p, hp, hshows⟩ := hshown.exists_passage hpart
    rw [hshows.words, hshows.children]
    rcases Passage.mem_fillAll hp with hwords | hp
    · left
      omega
    · exact .inr (mem_passages hp)

structure Suits (d : Document) (target : Int) (strategy : Bytes) : Prop where
  top : strategy = utf8 "auto:h1" ↔ d.FitsTop target
  second : strategy = utf8 "auto:h2" ↔ ¬ d.FitsTop target ∧ d.FitsSecond target
  byWords : strategy = utf8 "auto:word_count" ↔ ¬ d.FitsTop target ∧ ¬ d.FitsSecond target

/-- What an automatic split makes of a document: the strategy that suits is noted on every part,
and bounds the words of a part. By headings, only what stands before the first heading of level one
may be longer; by words, only what is never cut, and that is the whole document if no heading
opens a part. -/
structure AutoSplit (d : Document) (target : Int) (strategy : Bytes) (parts : List Part) : Prop
    where
  suits : d.Suits target strategy
  counted : Counted parts
  noted : ∀ part ∈ parts, part.metadata.get? (utf8 "strategy") = some (.str strategy)
  topSize : strategy = utf8 "auto:h1" → ∀ part ∈ parts,
    (part.words : Int) ≤ 2 * target ∨ d.Preamble (d.partition 1) parts part
  wordsSize : strategy = utf8 "auto:word_count" → ∀ part ∈ parts,
    (part.words : Int) ≤ target ∨ (∃ s ∈ d.partition 6, part.document.children = s.nodes) ∨
      part.document.children = d.beforeParts (d.partition 6)

section Choice

variable {d : Document} {target : Int}

theorem suits_top (htop : d.FitsTop target) : d.Suits target (utf8 "auto:h1") where
  top := iff_of_true rfl htop
  second := iff_of_false (by decide) fun h => h.1 htop
  byWords := iff_of_false (by decide) fun h => h.1 htop

theorem suits_second (htop : ¬ d.FitsTop target) (hsecond : d.FitsSecond target) :
    d.Suits target (utf8 "auto:h2") where
  top := iff_of_false (by decide) htop
  second := iff_of_true rfl ⟨htop, hsecond⟩
  byWords := iff_of_false (by decide) fun h => h.2 hsecond

theorem suits_byWords (htop : ¬ d.FitsTop target) (hsecond : ¬ d.FitsSecond target) :
    d.Suits target (utf8 "auto:word_count") where
  top := iff_of_false (by decide) htop
  second := iff_of_false (by decide) fun h => hsecond h.2
  byWords := iff_of_true rfl ⟨htop, hsecond⟩

theorem Suits.autoSplit {strategy : Bytes} {parts : List Part} (hsuits : d.Suits target strategy)
    (hcounted : Counted parts)
    (htop : strategy = utf8 "auto:h1" → ∀ part ∈ parts,
      (part.words : Int) ≤ 2 * target ∨ d.Preamble (d.partition 1) parts part)
    (hwords : strategy = utf8 "auto:word_count" → ∀ part ∈ parts,
      (part.words : Int) ≤ target ∨ (∃ s ∈ d.partition 6, part.document.children = s.nodes) ∨
        part.document.children = d.beforeParts (d.partition 6)) :
    d.AutoSplit target strategy (parts.map (Part.note (utf8 "strategy") strategy)) where
  suits := hsuits
  counted := hcounted.note _ _
  noted := by
    refine List.forall_mem_map.2 fun part _ => ?_
    rw [Part.note, Members.get?_insert, if_pos rfl]
  topSize h := List.forall_mem_map.2 fun part hpart =>
    (htop h part hpart).imp_right fun hbefore => hbefore.note _ _
  wordsSize h := List.forall_mem_map.2 (hwords h)

theorem partition_words (hlevels : Levelled d.children) (h : d.FitsTop target) :
    ∀ s ∈ d.partition 1, (textWords s.nodes : Int) ≤ 2 * target := by
  intro s hs
  rw [partition_eq_abutting hlevels] at hs
  obtain ⟨t, ht, hprefix⟩ := Section.abutting_nodes hs
  have hpart := textWords_prefix hprefix
  have hsection := h.2 t ht
  omega

/-- The automatic split of a document succeeds, whatever the target, if all its headings have a
level of at least one. -/
theorem splitAuto_fits (h : 1 ≤ target) (hlevels : Levelled d.children) :
    ∃ strategy parts, (d.splitAuto target).result = .ok parts ∧
      d.AutoSplit target strategy parts := by
  obtain ⟨top, htop, hfits⟩ := d.suitsTop_result h
  obtain ⟨second, hsecond, hfits'⟩ := d.suitsSecond_result target
  unfold splitAuto
  rw [if_neg (by omega), Outcome.result_bind_ok _ htop]
  cases top with
  | true =>
    have hfitsTop := hfits.1 rfl
    obtain ⟨parts, hsplit, hcounted, hparts⟩ := splitByHeading_parts (by omega) hfitsTop.1
    have hsizes : ∀ part ∈ parts,
        (part.words : Int) ≤ 2 * target ∨ d.Preamble (d.partition 1) parts part := by
      intro part hpart
      rcases hparts part hpart with hbefore | ⟨s, hs, hchildren⟩
      · exact .inr hbefore
      · left
        rw [hcounted.words part hpart, hchildren]
        exact partition_words hlevels hfitsTop s hs
    refine ⟨_, _, chose_result hsplit _, (suits_top hfitsTop).autoSplit hcounted ?_ ?_⟩
    · exact fun _ => hsizes
    · exact fun hname => absurd hname (by decide)
  | false =>
    have hnotTop : ¬ d.FitsTop target := fun h => nomatch hfits.2 h
    simp only [Bool.false_eq_true, if_false]
    rw [Outcome.result_bind_ok _ hsecond]
    cases second with
    | true =>
      have hfitsSecond := hfits'.1 rfl
      have hsuits := suits_second hnotTop hfitsSecond
      obtain ⟨parts, hsplit, hcounted, -⟩ := splitByHeading_parts (by omega) hfitsSecond.1
      refine ⟨_, _, chose_result hsplit _, hsuits.autoSplit hcounted ?_ ?_⟩
      · exact fun hname => absurd hname (by decide)
      · exact fun hname => absurd hname (by decide)
    | false =>
      have hsuits := suits_byWords hnotTop fun h => nomatch hfits'.2 h
      obtain ⟨parts, hsplit, hcounted, hsizes⟩ := splitByWords_parts h
      refine ⟨_, _, chose_result hsplit _, hsuits.autoSplit hcounted ?_ ?_⟩
      · exact fun hname => absurd hname (by decide)
      · exact fun _ => hsizes

end Choice

def introduced : Document :=
  { children := [Node.plain .paragraph [Node.plainText (utf8 "one two three")],
      Node.plain (.heading 1) [Node.plainText (utf8 "four")],
      Node.plain (.heading 2) [Node.plainText (utf8 "five")]] }

theorem introduced_levelled : Levelled introduced.children := by decide

theorem introduced_fitsTop : introduced.FitsTop 1 :=
  ⟨by decide, by decide⟩

/-- With a target of one word, what stands in front may be longer than two. -/
theorem introduced_splitAuto_fits :
    Levelled introduced.children ∧
    ∃ parts, (introduced.splitAuto 1).result = .ok parts ∧ parts.map Part.words = [3, 2] ∧
      introduced.AutoSplit 1 (utf8 "auto:h1") parts := by
  obtain ⟨strategy, parts, hresult, hsplit⟩ :=
    splitAuto_fits (show (1 : Int) ≤ 1 by decide) introduced_levelled
  obtain rfl : strategy = utf8 "auto:h1" := hsplit.suits.top.2 introduced_fitsTop
  have hwords : (introduced.splitAuto 1).result.map (List.map Part.words) = .ok [3, 2] := by rfl
  rw [hresult] at hwords
  exact ⟨introduced_levelled, parts, hresult, Except.ok.inj hwords, hsplit⟩

end Document
end Folio
