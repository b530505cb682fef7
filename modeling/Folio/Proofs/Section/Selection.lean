import Folio.Proofs.Number
import Folio.Proofs.Section.Partition

/-!
# Specifications put together

A specification is read part by part, and what a part selects does not depend on the parts around
it. So two specifications with a comma between select what either selects, and fail where either
does. All that is selected are places of sections, so an extraction by numbers finds a section at
each of them.
-/

set_option autoImplicit false

namespace Folio

theorem Bytes.splitOn_append (separator : UInt8) (s t : Bytes) :
    splitOn separator (s ++ separator :: t) = splitOn separator s ++ splitOn separator t := by
  rw [splitOn_eq, splitOn_eq, splitOn_eq]
  exact List.splitOnP_append_cons s t (beq_self_eq_true separator)

namespace Range

variable {total : Int} {ranges others part text : Bytes} {is : List Nat}

theorem bound_unquoted {n : Int} (h : (bound ranges text).result = .ok n) (others : Bytes) :
    (bound others text).result = .ok n :=
  bound_eq_ok.2 (bound_eq_ok.1 h)

theorem side_unquoted {α : Type} {absent : Int} {side : Bytes} {f g : Int → Outcome α} {a : α}
    (hfg : ∀ n, (f n).result = .ok a → (g n).result = .ok a) (others : Bytes)
    (h : (if side.isEmpty then pure absent >>= f
      else (· - 1) <$> bound ranges side >>= f).result = .ok a) :
    (if side.isEmpty then pure absent >>= g
      else (· - 1) <$> bound others side >>= g).result = .ok a := by
  by_cases hempty : side.isEmpty = true
  · rw [if_pos hempty] at h ⊢
    exact hfg absent h
  · rw [if_neg hempty] at h ⊢
    obtain ⟨n, hn, ha⟩ := Outcome.result_bind_eq_ok.1 h
    obtain ⟨m, hm, hmap⟩ := Outcome.result_bind_eq_ok.1 hn
    obtain rfl := Except.ok.inj hmap
    have hside := Outcome.result_map_ok (· - 1) (bound_unquoted hm others)
    exact Outcome.result_bind_eq_ok.2 ⟨m - 1, hside, hfg _ ha⟩

theorem ends_unquoted {p : Int × Int} (h : (ends ranges total part).result = .ok p)
    (others : Bytes) : (ends others total part).result = .ok p := by
  unfold ends at h ⊢
  cases hcut : part.cutFirst? 45 with
  | none =>
    simp only [hcut] at h ⊢
    obtain ⟨n, hn, hp⟩ := Outcome.result_bind_eq_ok.1 h
    exact Outcome.result_bind_eq_ok.2 ⟨n, bound_unquoted hn others, hp⟩
  | some sides =>
    simp only [hcut] at h ⊢
    refine side_unquoted (fun first hfirst => ?_) others h
    exact side_unquoted (fun last hlast => hlast) others hfirst

/-- A part takes a place if it is read as a range that has it. -/
def Takes (total : Int) (part : Bytes) (i : Nat) : Prop :=
  ∃ p, (ends part total part).result = .ok p ∧ i ∈ places total p

theorem takes_iff {p : Int × Int} (h : (ends ranges total part).result = .ok p) {i : Nat} :
    Takes total part i ↔ i ∈ places total p := by
  have hpart := ends_unquoted h part
  constructor
  · rintro ⟨q, hq, hi⟩
    obtain rfl := Except.ok.inj (hpart.symm.trans hq)
    exact hi
  · intro hi
    exact ⟨p, hpart, hi⟩

theorem mem_flatten_places {parts : List Bytes} {found : List (Int × Int)}
    (h : List.Forall₂ (fun part p => (ends ranges total part).result = .ok p) parts found)
    {i : Nat} : i ∈ (found.map (places total)).flatten ↔ ∃ part ∈ parts, Takes total part i := by
  induction h with
  | nil => simp
  | cons hpart _ ih =>
    rw [List.map_cons, List.flatten_cons, List.mem_append, ih, List.exists_mem_cons_iff,
      takes_iff hpart]

theorem select_eq_ok :
    (select ranges total).result = .ok is ↔
      (select ranges total).Succeeds ∧ is.Pairwise (· < ·) ∧
        ∀ i, i ∈ is ↔ ∃ part ∈ parts ranges, Takes total part i := by
  have hselected {js : List Nat} (h : (select ranges total).result = .ok js) :
      js.Pairwise (· < ·) ∧ ∀ i, i ∈ js ↔ ∃ part ∈ parts ranges, Takes total part i := by
    obtain ⟨found, hfound, hjs⟩ := Outcome.result_bind_eq_ok.1 h
    obtain rfl := Except.ok.inj hjs
    rw [Outcome.result_sequence_eq_ok, List.forall₂_map_left_iff] at hfound
    exact ⟨listed_ascends _, fun i => mem_listed.trans (mem_flatten_places hfound)⟩
  constructor
  · intro h
    exact ⟨⟨is, h⟩, hselected h⟩
  · rintro ⟨⟨js, hjs⟩, hascends, hmem⟩
    obtain ⟨hjs_ascends, hjs_mem⟩ := hselected hjs
    rw [hjs, hascends.eq_of_mem_iff hjs_ascends fun i => (hmem i).trans (hjs_mem i).symm]

def Readable (part : Bytes) : Prop :=
  ∀ b ∈ partBounds part, b.untilNul = [] ∨ Whole IsBound b.untilNul

theorem select_succeeds_parts :
    (select ranges total).Succeeds ↔ ∀ part ∈ parts ranges, Readable part := by
  simp only [select_succeeds, bounds, List.mem_flatMap, Readable]
  constructor
  · intro h part hpart b hb
    exact h b ⟨part, hpart, hb⟩
  · rintro h b ⟨part, hpart, hb⟩
    exact h part hpart b hb

theorem select_congr (h : ∀ part, part ∈ parts ranges ↔ part ∈ parts others) :
    (select ranges total).result = .ok is ↔ (select others total).result = .ok is := by
  simp only [select_eq_ok, select_succeeds_parts, h]

theorem parts_append (s t : Bytes) : parts (s ++ 44 :: t) = parts s ++ parts t := by
  simp only [parts, Bytes.splitOn_append, List.map_append, List.filter_append]

theorem mem_parts_join {pieces : List Bytes} :
    part ∈ parts (Bytes.join [44] pieces) ↔ ∃ piece ∈ pieces, part ∈ parts piece := by
  induction pieces with
  | nil => simp [Bytes.join, parts, Bytes.splitOn, Bytes.trim]
  | cons piece pieces ih =>
    cases pieces with
    | nil => simp [Bytes.join]
    | cons next pieces =>
      have hjoin : Bytes.join [44] (piece :: next :: pieces) =
          piece ++ 44 :: Bytes.join [44] (next :: pieces) := by
        simp [Bytes.join, List.intercalate_cons_cons]
      rw [hjoin, parts_append, List.mem_append, ih, List.exists_mem_cons_iff _ piece]

theorem select_append_succeeds (s t : Bytes) :
    (select (s ++ 44 :: t) total).Succeeds ↔
      (select s total).Succeeds ∧ (select t total).Succeeds := by
  simp only [select_succeeds_parts, parts_append, List.forall_mem_append]

theorem select_append {s t : Bytes} {js : List Nat} (hs : (select s total).result = .ok is)
    (ht : (select t total).result = .ok js) :
    ∃ ks, (select (s ++ 44 :: t) total).result = .ok ks ∧ ∀ i, i ∈ ks ↔ i ∈ is ∨ i ∈ js := by
  obtain ⟨ks, hks⟩ := (select_append_succeeds s t).2 ⟨⟨is, hs⟩, ⟨js, ht⟩⟩
  refine ⟨ks, hks, fun i => ?_⟩
  rw [(select_eq_ok.1 hks).2.2, (select_eq_ok.1 hs).2.2, (select_eq_ok.1 ht).2.2, parts_append]
  simp only [List.mem_append, or_and_right, exists_or]

theorem bound_code {e : Failure} (h : (bound ranges text).failure? = some e) :
    e.code = .invalidArgument := by
  rw [Outcome.failure?_eq_some] at h
  unfold bound at h
  dsimp only at h
  split at h
  · cases h
    rfl
  · split at h
    · cases h
      rfl
    · split at h
      · cases h
        rfl
      · cases h

theorem select_answers (ranges : Bytes) (total : Int) :
    (select ranges total).Answers
      (fun is => is.Pairwise (· < ·) ∧ ∀ i : Nat, i ∈ is → (i : Int) < total)
      .invalidArgument := by
  constructor
  · intro is his
    obtain ⟨-, hascends, hmem⟩ := select_eq_ok.1 his
    refine ⟨hascends, fun i hi => ?_⟩
    obtain ⟨part, -, p, -, hp⟩ := (hmem i).1 hi
    exact (mem_places.1 hp).2.2
  · intro e he
    rw [← Outcome.failure?_eq_some, select_failure?] at he
    obtain ⟨b, -, hb⟩ := List.exists_of_findSome?_eq_some he
    exact bound_code hb

end Range

namespace Document

variable {d : Document}

theorem joinSections_eq (found : List Section) :
    joinSections found = [Node.plain .thematicBreak []].intercalate (found.map Section.nodes) := by
  induction found with
  | nil => rfl
  | cons s rest ih =>
    cases rest with
    | nil => simp [joinSections]
    | cons next rest =>
      rw [List.map_cons, List.map_cons, List.intercalate_cons_cons, ← List.map_cons, ← ih,
        List.append_assoc]
      rfl

theorem joinSections_take_one (found : List Section) :
    joinSections (found.take 1) = (found.take 1).flatMap Section.nodes := by
  cases found <;> simp [joinSections]

theorem joinSections_blocks {found : List Section} (h : found ⊆ d.sections) :
    ∀ n ∈ joinSections found, n.kind.isDocumentBlock = true := by
  induction found with
  | nil => simp [joinSections]
  | cons s rest ih =>
    obtain ⟨hs, hrest⟩ := List.cons_subset.1 h
    have hnodes : ∀ n ∈ s.nodes, n.kind.isDocumentBlock = true := fun n hn =>
      d.areBlocks n (Section.nodes_subset_of_mem_scan hs hn)
    cases rest with
    | nil => exact hnodes
    | cons next rest =>
      intro n hn
      rw [joinSections, List.mem_append, List.mem_cons] at hn
      obtain hn | rfl | hn := hn
      · exact hnodes n hn
      · rfl
      · exact ih hrest n hn
      · exact nofun

theorem sublist_drop {α : Type} {xs found : List α} {is : List Nat}
    (h : List.Forall₂ (fun i x => xs[i]? = some x) is found) (hascends : is.Pairwise (· < ·))
    {k : Nat} (hk : ∀ i ∈ is, k ≤ i) : found.Sublist (xs.drop k) := by
  induction h generalizing k with
  | nil => exact List.nil_sublist _
  | @cons i x is found hx _ ih =>
    obtain ⟨hi, rfl⟩ := List.getElem?_eq_some_iff.1 hx
    have hbehind : found.Sublist (xs.drop (i + 1)) :=
      ih hascends.tail fun _ hj => List.rel_of_pairwise_cons hascends hj
    have hfront := hbehind.cons_cons xs[i]
    rw [← List.drop_eq_getElem_cons hi] at hfront
    exact hfront.trans (List.drop_sublist_drop_left xs (hk i List.mem_cons_self))

theorem exists_found {α : Type} {xs : List α} {is : List Nat} (h : ∀ i ∈ is, i < xs.length) :
    List.Forall₂ (fun i x => xs[i]? = some x) is (is.filterMap (xs[·]?)) := by
  induction is with
  | nil => exact .nil
  | cons i is ih =>
    obtain ⟨hi, his⟩ := List.forall_mem_cons.1 h
    rw [List.filterMap_cons_some (List.getElem?_eq_getElem hi)]
    exact .cons (List.getElem?_eq_getElem hi) (ih his)

/-- The document has the blocks of the sections at these places, all of them with a break between
each two or those of the first one, and the metadata. -/
structure Excerpts (d : Document) (combine : Bool) (is : List Nat) (e : Document) : Prop where
  children : ∃ found, List.Forall₂ (fun i s => d.sections[i]? = some s) is found ∧
    found.Sublist d.sections ∧
    e.children =
      if combine then [Node.plain .thematicBreak []].intercalate (found.map Section.nodes)
      else (found.take 1).flatMap Section.nodes
  attrs : e.attrs = { metadata := d.attrs.metadata }

/-- What an extraction answers when places are selected, or why they are not. -/
def Extracts (d : Document) (combine : Bool) (answer : Except Failure Document) :
    Except Failure (List Nat) → Prop
  | .error e => answer = .error e ∧ e.code = .invalidArgument
  | .ok [] => ∃ e, answer = .error e ∧ e.code = .targetNotFound
  | .ok (i :: is) => ∃ e, answer = .ok e ∧ Excerpts d combine (i :: is) e

theorem excerpts_found {is : List Nat} (hascends : is.Pairwise (· < ·))
    (hplaces : ∀ i ∈ is, i < d.sections.length) (combine : Bool) :
    ∃ e, (d.excerpt (joinSections (if combine then is.filterMap (d.sections[·]?)
      else (is.filterMap (d.sections[·]?)).take 1))).result = .ok e ∧ Excerpts d combine is e := by
  have hfound := exists_found hplaces
  have hsub : (is.filterMap (d.sections[·]?)).Sublist d.sections := by
    simpa using sublist_drop hfound hascends (k := 0) (by simp)
  have hblocks : ∀ n ∈ joinSections (if combine then is.filterMap (d.sections[·]?)
      else (is.filterMap (d.sections[·]?)).take 1), n.kind.isDocumentBlock = true := by
    apply joinSections_blocks
    split
    · exact hsub.subset
    · exact ((List.take_sublist 1 _).trans hsub).subset
  refine ⟨_, excerpt_result hblocks, ⟨_, hfound, hsub, ?_⟩, rfl⟩
  cases combine with
  | true => exact joinSections_eq _
  | false => exact joinSections_take_one _

section Numbers

variable {spec : Bytes} (hspec : Bytes.startsWith (utf8 "#:") spec.trim = true)
include hspec

theorem selectSections_error {e : Failure} (engine : Engine) (caseSensitive : Bool)
    (h : (Range.select (spec.trim.drop 2) d.sections.length).result = .error e) :
    (d.selectSections engine spec caseSensitive).result = .error e := by
  rw [selectSections, if_pos hspec]
  exact Outcome.result_bind_error _ h

theorem selectSections_ok {is : List Nat} (engine : Engine) (caseSensitive : Bool)
    (h : (Range.select (spec.trim.drop 2) d.sections.length).result = .ok is) :
    (d.selectSections engine spec caseSensitive).result =
      match is.filterMap (d.sections[·]?) with
      | [] => .error (.outline (.noRange spec.trim d.sections.length))
      | found => .ok found := by
  rw [selectSections, if_pos hspec, Outcome.result_bind_ok _ h]
  cases is.filterMap (d.sections[·]?) <;> rfl

theorem extractSections_numbers (d : Document) (engine : Engine) (caseSensitive combine : Bool) :
    Extracts d combine (d.extractSections engine spec caseSensitive combine).result
      (Range.select (spec.trim.drop 2) d.sections.length).result := by
  obtain ⟨hyields, hcode⟩ := Range.select_answers (spec.trim.drop 2) d.sections.length
  cases hselect : (Range.select (spec.trim.drop 2) d.sections.length).result with
  | error e =>
    have herror := selectSections_error hspec engine caseSensitive hselect
    exact ⟨Outcome.result_bind_error _ herror, hcode e hselect⟩
  | ok is =>
    have hsections := selectSections_ok hspec engine caseSensitive hselect
    cases is with
    | nil => exact ⟨_, Outcome.result_bind_error _ hsections, rfl⟩
    | cons i is =>
      obtain ⟨hascends, hplaces⟩ := hyields (i :: is) hselect
      have hplaces : ∀ j ∈ i :: is, j < d.sections.length := fun j hj => by
        exact_mod_cast hplaces j hj
      obtain ⟨e, hexcerpt, hexcerpts⟩ := excerpts_found hascends hplaces combine
      cases hfound : (i :: is).filterMap (d.sections[·]?) with
      | nil =>
        have hnone := exists_found hplaces
        rw [hfound] at hnone
        exact nomatch hnone
      | cons s found =>
        rw [hfound] at hsections hexcerpt
        exact ⟨e, (Outcome.result_bind_ok _ hsections).trans hexcerpt, hexcerpts⟩

end Numbers

end Document

open Range in
/-- Two specifications with a comma between fail where one of them does, and select what either
selects, so neither the order of specifications nor their repetition matters. Whatever a
specification is, it selects places of sections in order, or a bound is refused, and an extraction
by numbers gives the sections at these places, unless there are none. -/
theorem selections_compose :
    (∀ (total : Int) (s t : Bytes),
      ((select (s ++ 44 :: t) total).Succeeds ↔
        (select s total).Succeeds ∧ (select t total).Succeeds) ∧
      ∀ is js, (select s total).result = .ok is → (select t total).result = .ok js →
        ∃ ks, (select (s ++ 44 :: t) total).result = .ok ks ∧
          ∀ i, i ∈ ks ↔ i ∈ is ∨ i ∈ js) ∧
    (∀ (total : Int) (pieces others : List Bytes), (∀ piece, piece ∈ pieces ↔ piece ∈ others) →
      ∀ is, (select (Bytes.join [44] pieces) total).result = .ok is ↔
        (select (Bytes.join [44] others) total).result = .ok is) ∧
    (∀ (total : Int) (ranges : Bytes), (select ranges total).Answers
      (fun is => is.Pairwise (· < ·) ∧ ∀ i : Nat, i ∈ is → (i : Int) < total) .invalidArgument) ∧
    ∀ (d : Document) (engine : Engine) (spec : Bytes) (caseSensitive combine : Bool),
      Bytes.startsWith (utf8 "#:") spec.trim = true →
        d.Extracts combine (d.extractSections engine spec caseSensitive combine).result
          (select (spec.trim.drop 2) d.sections.length).result := by
  refine ⟨?together, ?reordered, fun total ranges => select_answers ranges total, ?extracted⟩
  case together =>
    intro total s t
    exact ⟨select_append_succeeds s t, fun _ _ => select_append⟩
  case reordered =>
    intro total pieces others h is
    apply select_congr
    intro part
    simp only [mem_parts_join, h]
  case extracted =>
    intro d engine spec caseSensitive combine hspec
    exact Document.extractSections_numbers hspec d engine caseSensitive combine

def threeChapters : Document :=
  { children := [Node.plain (.heading 1) [], Node.plain .paragraph [],
      Node.plain (.heading 1) [], Node.plain (.heading 1) []] }

theorem threeChapters_selections_compose :
    (Range.select (utf8 "3") 3).result = .ok [2] ∧ (Range.select (utf8 "-1") 3).result = .ok [0] ∧
    (∃ ks, (Range.select (utf8 "3,-1") 3).result = .ok ks ∧ ∀ i, i ∈ ks ↔ i ∈ [2] ∨ i ∈ [0]) ∧
    (∀ is, (Range.select (utf8 "3,-1,3") 3).result = .ok is ↔
      (Range.select (utf8 "-1,3") 3).result = .ok is) ∧
    threeChapters.Extracts true
      (threeChapters.extractSections (.plain .asciiOnly) (utf8 " #:3,-1") false true).result
      (.ok [0, 2]) := by
  obtain ⟨htogether, hreordered, -, hextracted⟩ := selections_compose
  have hthird : (Range.select (utf8 "3") 3).result = .ok [2] := by decide +kernel
  have hfirst : (Range.select (utf8 "-1") 3).result = .ok [0] := by decide +kernel
  have hcomma : utf8 "3,-1" = utf8 "3" ++ 44 :: utf8 "-1" := by decide
  obtain ⟨ks, hks, hmem⟩ := (htogether 3 (utf8 "3") (utf8 "-1")).2 [2] [0] hthird hfirst
  rw [← hcomma] at hks
  refine ⟨hthird, hfirst, ⟨ks, hks, hmem⟩, ?_, ?_⟩
  · have hlong : utf8 "3,-1,3" = Bytes.join [44] [utf8 "3", utf8 "-1", utf8 "3"] := by decide
    have hshort : utf8 "-1,3" = Bytes.join [44] [utf8 "-1", utf8 "3"] := by decide
    rw [hlong, hshort]
    apply hreordered 3
    intro piece
    simp only [List.mem_cons]
    tauto
  · have hboth : ks = [0, 2] := by
      refine (Range.select_eq_ok.1 hks).2.1.eq_of_mem_iff (by decide) fun i => ?_
      simp only [hmem, List.mem_cons, List.not_mem_nil, or_false]
      exact or_comm
    have hnumbers : (utf8 " #:3,-1").trim.drop 2 = utf8 "3,-1" := by decide
    have hextract := hextracted threeChapters (.plain .asciiOnly) (utf8 " #:3,-1") false true
      (by decide)
    rwa [show threeChapters.sections.length = 3 from rfl, Nat.cast_ofNat, hnumbers, hks, hboth]
      at hextract

end Folio
