import Folio.Proofs.Draft.Layout

/-!
# The lists that drafts are built into

Lists build from items whose content is in place, and the items of what is built stand where
the drafted items stood. So a run of additions gives lists in which every added item stands at
its level, in the order of the run; the only other items carry lists beneath a skipped level.
-/

set_option autoImplicit false

namespace Folio

/-- The content is in place, and no block of it is a list. -/
def ItemDraft.Filled (item : ItemDraft) : Prop :=
  ∃ blocks : List Node, item.content = blocks.map some ∧ ∀ b ∈ blocks, b.kind ≠ .list

def ItemDraft.blocks (item : ItemDraft) : List Node := item.content.filterMap id

theorem ItemDraft.Filled.content_eq {item : ItemDraft} (h : item.Filled) :
    item.content = item.blocks.map some := by
  obtain ⟨blocks, hcontent, -⟩ := h
  simp [ItemDraft.blocks, hcontent]

theorem ItemDraft.Filled.kind_ne {item : ItemDraft} (h : item.Filled) :
    ∀ b ∈ item.blocks, b.kind ≠ .list := by
  obtain ⟨blocks, hcontent, hkinds⟩ := h
  simpa [ItemDraft.blocks, hcontent] using hkinds

namespace ListDraft

mutual
/-- The list that a draft is built into. -/
def frozen : ListDraft → Node
  | mk ordered items => Node.plain (.list ordered 1 true) (frozenItems items)

def frozenItems : List Nested → List Node
  | [] => []
  | (item, nested) :: older =>
    frozenItems older ++ [Node.plain (.listItem item.status) (item.blocks ++ frozenAll nested)]

def frozenAll : List ListDraft → List Node
  | [] => []
  | l :: older => frozenAll older ++ [frozen l]
end

def frozenItem (p : Nested) : Node :=
  Node.plain (.listItem p.1.status) (p.1.blocks ++ frozenAll p.2)

theorem frozenItems_cons (p : Nested) (older : List Nested) :
    frozenItems (p :: older) = frozenItems older ++ [frozenItem p] := rfl

theorem frozenItems_eq (items : List Nested) :
    frozenItems items = (items.map frozenItem).reverse := by
  induction items with
  | nil => rfl
  | cons p older ih => simp [frozenItems_cons, ih]

theorem frozenAll_eq (lists : List ListDraft) : frozenAll lists = (lists.map frozen).reverse := by
  induction lists with
  | nil => rfl
  | cons l older ih => simp [frozenAll, ih]

theorem frozen_kind (l : ListDraft) : l.frozen.kind = .list := by
  cases l
  rfl

theorem frozenAll_kind {lists : List ListDraft} : ∀ l ∈ frozenAll lists, l.kind = .list := by
  simp [frozenAll_eq, frozen_kind]

theorem frozenItems_takes (ordered : Bool) (start : Int32) (tight : Bool) (items : List Nested) :
    (Shape.list ordered start tight).Takes (frozenItems items) := by
  intro c hc
  simp only [frozenItems_eq, List.mem_reverse, List.mem_map] at hc
  obtain ⟨p, -, rfl⟩ := hc
  rfl

theorem Peopled.frozen {l : ListDraft} (h : l.Peopled) : l.frozen.children ≠ [] := by
  obtain ⟨ordered, items⟩ := l
  show frozenItems items ≠ []
  simpa [frozenItems_eq] using (show items ≠ [] from h)

theorem frozenAll_peopled {lists : List ListDraft} (h : ∀ l ∈ lists, l.Peopled) :
    ∀ l ∈ frozenAll lists, l.children ≠ [] := by
  intro l hl
  simp only [frozenAll_eq, List.mem_reverse, List.mem_map] at hl
  obtain ⟨draft, hdraft, rfl⟩ := hl
  exact (h draft hdraft).frozen

mutual
theorem build_result (depth : Nat) :
    ∀ l, (∀ s ∈ spots depth l, s.item.1.Filled) → (build l).result = .ok (frozen l)
  | mk ordered items => by
    intro h
    rw [build, Outcome.result_bind_ok _ (buildItems_result depth ordered items h)]
    exact Node.build_result (frozenItems_takes ordered 1 true items) {}

theorem buildItems_result (depth : Nat) (ordered : Bool) :
    ∀ items, (∀ s ∈ itemSpots depth ordered items, s.item.1.Filled) →
      (buildItems items).result = .ok (frozenItems items)
  | [] => fun _ => rfl
  | (item, nested) :: older => by
    intro h
    simp only [itemSpots, List.mem_append, List.mem_cons] at h
    have holder := buildItems_result depth ordered older fun s hs => h s (.inl hs)
    have hnested := buildAll_result (depth + 1) nested fun s hs => h s (.inr (.inr hs))
    have hfilled : item.Filled := h _ (.inr (.inl rfl))
    have htakes : (Shape.listItem item.status).Takes (item.blocks ++ frozenAll nested) := trivial
    have hbuilt := Node.build_result htakes {}
    rw [buildItems, Outcome.result_bind_ok _ holder, Outcome.result_bind_ok _ hnested,
      hfilled.content_eq, ← List.map_append, Outcome.result_bind_ok _ hbuilt]
    rfl

theorem buildAll_result (depth : Nat) :
    ∀ lists, (∀ s ∈ allSpots depth lists, s.item.1.Filled) →
      (buildAll lists).result = .ok (frozenAll lists)
  | [] => fun _ => rfl
  | l :: older => by
    intro h
    simp only [allSpots, List.mem_append] at h
    have holder := buildAll_result depth older fun s hs => h s (.inl hs)
    have hl := build_result depth l fun s hs => h s (.inr hs)
    rw [buildAll, Outcome.result_bind_ok _ holder, Outcome.result_bind_ok _ hl]
    rfl
end

mutual
theorem listSpots_frozen (depth : Nat) :
    ∀ l, (∀ s ∈ spots depth l, s.item.1.Filled) →
      Node.listSpots depth (frozen l) = (spots depth l).map (Spot.map frozenItem)
  | mk ordered items => itemSpots_frozen depth ordered items

theorem itemSpots_frozen (depth : Nat) (ordered : Bool) :
    ∀ items, (∀ s ∈ itemSpots depth ordered items, s.item.1.Filled) →
      Node.itemSpots depth ordered 0 (frozenItems items) =
        (itemSpots depth ordered items).map (Spot.map frozenItem)
  | [] => fun _ => rfl
  | (item, nested) :: older => by
    intro h
    simp only [itemSpots, List.mem_append, List.mem_cons] at h
    have holder := itemSpots_frozen depth ordered older fun s hs => h s (.inl hs)
    have hnested := blockSpots_frozen (depth + 1) nested fun s hs => h s (.inr (.inr hs))
    have hfilled : item.Filled := h _ (.inr (.inl rfl))
    have hlast (place : Nat) :
        Node.itemSpots depth ordered place [frozenItem (item, nested)] =
          ⟨depth, ordered, place, frozenItem (item, nested)⟩ ::
            Node.blockSpots (depth + 1) (frozenAll nested) := by
      rw [frozenItem, Node.plain, Node.itemSpots, Node.itemSpots, Node.blockSpots_append,
        Node.blockSpots_eq_nil hfilled.kind_ne, List.append_nil, List.nil_append]
    rw [frozenItems_cons, Node.itemSpots_append, holder, hlast, hnested]
    simp [itemSpots, Spot.map, frozenItems_eq]

theorem blockSpots_frozen (depth : Nat) :
    ∀ lists, (∀ s ∈ allSpots depth lists, s.item.1.Filled) →
      Node.blockSpots depth (frozenAll lists) = (allSpots depth lists).map (Spot.map frozenItem)
  | [] => fun _ => rfl
  | l :: older => by
    intro h
    simp only [allSpots, List.mem_append] at h
    have holder := blockSpots_frozen depth older fun s hs => h s (.inl hs)
    have hl := listSpots_frozen depth l fun s hs => h s (.inr hs)
    rw [frozenAll, Node.blockSpots_append, holder, Node.blockSpots, hl]
    simp [allSpots, Node.blockSpots]
end

def addItems : List Call → List ListDraft → Outcome (List ListDraft)
  | [], lists => pure lists
  | c :: calls, lists => do
    let lists ← addItem lists c.level c.ordered c.item
    addItems calls lists

theorem addItem_result {c : Call} (h : 1 ≤ c.level) (lists : List ListDraft) :
    ∃ k : Nat, c.level = (1 : Nat) + k ∧
      (addItem lists c.level c.ordered c.item).result = .ok (add c.ordered c.item k lists) := by
  refine ⟨c.level.toNat - 1, by omega, ?_⟩
  rw [addItem, if_neg (by omega)]
  rfl

theorem addItems_serves {calls done : List Call} {lists : List ListDraft}
    (hlevel : ∀ c ∈ calls, 1 ≤ c.level) (hpeopled : ∀ l ∈ lists, l.Peopled)
    (hserves : Serves Call.Drafts Carries done (allSpots 1 lists)) :
    ∃ drafts, (addItems calls lists).result = .ok drafts ∧ (∀ l ∈ drafts, l.Peopled) ∧
      Serves Call.Drafts Carries (done ++ calls) (allSpots 1 drafts) := by
  induction calls generalizing done lists with
  | nil => exact ⟨lists, rfl, hpeopled, by rwa [List.append_nil]⟩
  | cons c calls ih =>
    obtain ⟨k, hk, hadd⟩ := addItem_result (hlevel c List.mem_cons_self) lists
    obtain ⟨drafts, hdrafts, hrest⟩ := ih (fun d hd => hlevel d (List.mem_cons_of_mem c hd))
      (add_peopled hpeopled) (add_serves hk hserves)
    refine ⟨drafts, ?_, ?_⟩
    · rw [addItems, Outcome.result_bind_ok _ hadd]
      exact hdrafts
    · rwa [List.append_assoc] at hrest

/-- The item that a call asks for: in a list of its level that is numbered as asked, with its
status, and with its content before the lists nested under it. -/
structure Call.AnsweredBy (c : Call) (s : Spot Node) : Prop where
  depth : (s.depth : Int) = c.level
  ordered : s.ordered = c.ordered
  status : s.item.shape = .listItem c.item.status
  content : ∃ blocks nested : List Node, c.item.content = blocks.map some ∧
    s.item.children = blocks ++ nested ∧ ∀ l ∈ nested, l.kind = .list

/-- An item without content or status that stands first in its list and holds lists. -/
structure IsCarrier (s : Spot Node) : Prop where
  first : s.place = 0
  status : s.item.shape = .listItem .none
  holds : s.item.children ≠ []
  content : ∀ l ∈ s.item.children, l.kind = .list

/-- Lists with an item for each call, in the order of the calls. All other items are carriers,
and no list is empty. -/
structure LaidOut (calls : List Call) (lists : List Node) : Prop where
  roots : ∀ l ∈ lists, l.kind = .list ∧ l.children ≠ []
  nested : ∀ s ∈ Node.blockSpots 1 lists, ∀ l ∈ s.item.children, l.kind = .list → l.children ≠ []
  items : ∃ place : Fin calls.length → Fin (Node.blockSpots 1 lists).length, StrictMono place ∧
    (∀ i : Fin calls.length, calls[i].AnsweredBy (Node.blockSpots 1 lists)[place i]) ∧
      ∀ j, (∀ i, place i ≠ j) → IsCarrier (Node.blockSpots 1 lists)[j]

theorem Call.Drafts.frozen {c : Call} {s : Spot Nested} (hfilled : c.item.Filled)
    (h : c.Drafts s) : c.AnsweredBy (s.map frozenItem) := by
  obtain ⟨depth, ordered, place, item, nested⟩ := s
  obtain ⟨hdepth, hordered, rfl, -⟩ := h
  exact ⟨hdepth, hordered, rfl, c.item.blocks, frozenAll nested, hfilled.content_eq, rfl,
    frozenAll_kind⟩

theorem Carries.frozen {s : Spot Nested} (h : Carries s) : IsCarrier (s.map frozenItem) := by
  obtain ⟨depth, ordered, place, item, nested⟩ := s
  obtain ⟨hfirst, rfl, hnested, -⟩ := h
  refine ⟨hfirst, rfl, ?_, frozenAll_kind⟩
  show frozenAll nested ≠ []
  simpa [frozenAll_eq] using hnested

theorem frozenItem_nested {p : Nested} (hfilled : p.1.Filled) (hpeopled : ∀ l ∈ p.2, l.Peopled) :
    ∀ l ∈ (frozenItem p).children, l.kind = .list → l.children ≠ [] := by
  intro l hl hkind
  rcases List.mem_append.1 hl with hl | hl
  · exact absurd hkind (hfilled.kind_ne l hl)
  · exact frozenAll_peopled hpeopled l hl

theorem filled_empty : ItemDraft.Filled {} := ⟨[], rfl, nofun⟩

theorem Serves.filled {calls : List Call} {ss : List (Spot Nested)}
    (h : Serves Call.Drafts Carries calls ss) (hfilled : ∀ c ∈ calls, c.item.Filled) :
    ∀ s ∈ ss, s.item.1.Filled ∧ ∀ l ∈ s.item.2, l.Peopled := by
  intro s hs
  rcases h.mem s hs with ⟨c, hc, hdrafts⟩ | hcarries
  · exact ⟨hdrafts.item ▸ hfilled c hc, hdrafts.peopled⟩
  · exact ⟨hcarries.item ▸ filled_empty, hcarries.peopled⟩

theorem frozenAll_laidOut {calls : List Call} {drafts : List ListDraft}
    (hfilled : ∀ c ∈ calls, c.item.Filled) (hpeopled : ∀ l ∈ drafts, l.Peopled)
    (hserves : Serves Call.Drafts Carries calls (allSpots 1 drafts)) :
    LaidOut calls (frozenAll drafts) := by
  have hsettled := Serves.filled hserves hfilled
  have hspots := blockSpots_frozen 1 drafts fun s hs => (hsettled s hs).1
  have hanswers : Serves Call.AnsweredBy IsCarrier calls
      (Node.blockSpots 1 (frozenAll drafts)) := by
    rw [hspots]
    exact hserves.map (Spot.map frozenItem) (fun c hc s => Call.Drafts.frozen (hfilled c hc))
      fun s => Carries.frozen
  refine ⟨?_, ?_, hanswers.exists_strictMono⟩
  · exact fun l hl => ⟨frozenAll_kind l hl, frozenAll_peopled hpeopled l hl⟩
  · rw [hspots]
    intro s hs
    obtain ⟨draft, hdraft, rfl⟩ := List.mem_map.1 hs
    obtain ⟨hdraftFilled, hdraftPeopled⟩ := hsettled draft hdraft
    exact frozenItem_nested hdraftFilled hdraftPeopled

/-- Items at levels from one on can always be added and built, whatever the levels skip. -/
theorem addItems_laidOut {calls : List Call} (hlevel : ∀ c ∈ calls, 1 ≤ c.level)
    (hfilled : ∀ c ∈ calls, c.item.Filled) :
    ∃ drafts lists d, (addItems calls []).result = .ok drafts ∧
      (buildAll drafts).result = .ok lists ∧ (document drafts).result = .ok d ∧
        d.children = lists ∧ d.attrs = {} ∧ LaidOut calls lists := by
  have hnone : ∀ l ∈ ([] : List ListDraft), l.Peopled := nofun
  have hempty : Serves Call.Drafts Carries [] (allSpots 1 []) := .nil
  obtain ⟨drafts, hdrafts, hpeopled, hserves⟩ := addItems_serves hlevel hnone hempty
  have hbuilt : (buildAll drafts).result = .ok (frozenAll drafts) :=
    buildAll_result 1 drafts fun s hs => (Serves.filled hserves hfilled s hs).1
  have htakes : Shape.document.Takes (frozenAll drafts) := by
    intro l hl
    rw [frozenAll_kind l hl]
    rfl
  have hdocument : (document drafts).result =
      .ok { children := frozenAll drafts, areBlocks := htakes } := by
    rw [document, Outcome.result_bind_ok _ hbuilt]
    exact Document.build_result htakes {}
  exact ⟨drafts, frozenAll drafts, _, hdrafts, hbuilt, hdocument, rfl, rfl,
    frozenAll_laidOut hfilled hpeopled hserves⟩

def skipping : List Call :=
  [⟨3, false, { content := [some (Node.plain .paragraph [])] }⟩, ⟨1, true, {}⟩,
    ⟨1, false, { status := .checked }⟩]

theorem skipping_laidOut :
    ∃ drafts lists d, (addItems skipping []).result = .ok drafts ∧
      (buildAll drafts).result = .ok lists ∧ (document drafts).result = .ok d ∧
        d.children = lists ∧ d.attrs = {} ∧ LaidOut skipping lists := by
  have hparagraph : ItemDraft.Filled { content := [some (Node.plain .paragraph [])] } :=
    ⟨[Node.plain .paragraph []], rfl, by simp [Node.plain, Node.kind, Node.shape, Shape.kind]⟩
  have hchecked : ItemDraft.Filled { status := .checked } := ⟨[], rfl, by simp⟩
  apply addItems_laidOut
  · simp [skipping]
  · simp [skipping, hparagraph, hchecked, filled_empty]

end ListDraft
end Folio
