import Folio.Proofs.Rewrite.Filter
import Folio.Proofs.Text.Words

/-!
# Nodes without text

Raw HTML, comments, images, references to footnotes and rules have no text, whatever they hold.
Deleting them from a document leaves the text that it has with any joiner as it was, byte by
byte: where texts run together they add nothing, and where texts are joined they ask for no joiner.
-/

set_option autoImplicit false

namespace Folio

/-- The kinds of nodes that never have a text. -/
def Kind.isSilent : Kind → Bool
  | .htmlBlock | .htmlInline | .comment | .commentInline | .image | .footnoteReference
  | .thematicBreak => true
  | _ => false

theorem Kind.isLeaf_of_isSilent {k : Kind} (h : k.isSilent = true) : k.isLeaf = true := by
  cases k <;> first | rfl | cases h

theorem pieces_filter {α : Type} {keep : α → Bool} {f : α → Bytes} {as : List α}
    (h : ∀ a ∈ as, keep a = false → f a = []) :
    ((as.filter keep).map f).filter (fun piece => !piece.isEmpty) =
      (as.map f).filter fun piece => !piece.isEmpty := by
  rw [List.filter_map, List.filter_map, List.filter_filter]
  refine congrArg (List.map f) (List.filter_congr fun a ha => ?_)
  cases hkeep : keep a with
  | true => simp
  | false => simp [h a ha hkeep]

theorem Shape.staying_eq_filter {keep : Node → Bool} {s : Shape} {cs : List Node} (h : s.Takes cs)
    (hterms : ∀ c ∈ cs, c.kind = .definitionTerm → keep c = true) :
    s.staying keep cs = cs.filter keep := by
  cases s with
  | definitionList =>
    obtain ⟨hloose, hentries⟩ := Node.takes_definitions.1 h
    have hflat : (Node.definitions cs).flatMap (fun e => e.1 :: e.2) = cs :=
      Node.flatten_definitions hloose
    have hkept : ∀ e ∈ Node.definitions cs, keep e.1 = true := fun e he =>
      hterms e.1 (Node.mem_of_definitions he).1 (hentries e he).1
    have hall : ((Node.definitions cs).filter fun e => keep e.1) = Node.definitions cs :=
      List.filter_eq_self.2 hkept
    calc (Node.entriesLeft keep (Node.definitions cs)).flatMap (fun e => e.1 :: e.2)
        = (Node.definitions cs).flatMap fun e => e.1 :: e.2.filter keep := by
          rw [Node.entriesLeft, hall, List.flatMap_map]
      _ = (Node.definitions cs).flatMap fun e => (e.1 :: e.2).filter keep :=
          List.flatMap_congr fun e he => by rw [List.filter_cons_of_pos (hkept e he)]
      _ = ((Node.definitions cs).flatMap fun e => e.1 :: e.2).filter keep :=
          List.filter_flatMap.symm
      _ = cs.filter keep := by rw [hflat]
  | _ => rfl

namespace Node

theorem textWith_congr {n : Node} {pieces others : List Bytes}
    (h : pieces.filter (fun piece => !piece.isEmpty) = others.filter fun piece => !piece.isEmpty)
    (joiner : Bytes) : n.textWith joiner pieces = n.textWith joiner others := by
  have hjoin : joinPieces joiner pieces = joinPieces joiner others := congrArg (Bytes.join joiner) h
  have hflat : pieces.flatten = others.flatten := by
    rw [← List.flatten_filter_not_isEmpty, h, List.flatten_filter_not_isEmpty]
  rw [textWith, textWith, hjoin, hflat]

theorem textWith_leaving (keep : Node → Bool) (s : Shape) (a : Attrs) (cs ds : List Node)
    (joiner : Bytes) (pieces : List Bytes) :
    (mk (s.leaving keep cs) a ds).textWith joiner pieces = (mk s a cs).textWith joiner pieces := by
  unfold Shape.leaving
  split <;> rfl

theorem extractText_silent {n : Node} (h : n.Checked) (hsilent : n.kind.isSilent = true)
    (joiner : Bytes) : n.extractText joiner = [] := by
  have hleaf : n.shape.isLeaf = true := by
    rw [Shape.isLeaf_eq]
    exact Kind.isLeaf_of_isSilent hsilent
  rw [extractText_eq, h.leaf hleaf]
  obtain ⟨s, a, cs⟩ := n
  cases s <;> first | rfl | cases hsilent

/-- Deleting nodes of kinds that have no text leaves the text as it is. -/
theorem extractText_pruned {keep : Node → Bool}
    (hkeep : ∀ m, keep m = false → m.kind.isSilent = true) {n : Node} (h : n.All Checked)
    (joiner : Bytes) :
    (n.pruned keep).extractText joiner = n.extractText joiner := by
  induction n using induct with
  | step s a cs ih =>
    obtain ⟨hchecked, hbelow⟩ := all_mk.1 h
    have hterms : ∀ c ∈ cs, c.kind = .definitionTerm → keep c = true := by
      intro c _ hterm
      by_contra hgone
      have hsilent := hkeep c (by simpa using hgone)
      simp [hterm, Kind.isSilent] at hsilent
    have hstaying : s.staying keep cs = cs.filter keep :=
      Shape.staying_eq_filter hchecked.takes hterms
    have hpieces : ((cs.filter keep).map (pruned keep)).map (extractText joiner) =
        (cs.filter keep).map (extractText joiner) := by
      rw [List.map_map]
      refine List.map_congr_left fun c hc => ?_
      have hmem := (List.mem_filter.1 hc).1
      exact ih c hmem (hbelow c hmem)
    have hsilent : ∀ c ∈ cs, keep c = false → c.extractText joiner = [] := fun c hc hgone =>
      extractText_silent (hbelow c hc).root (hkeep c hgone) joiner
    rw [extractText_eq, extractText_eq joiner (mk s a cs), pruned_mk, hstaying, textWith_leaving]
    show (mk s a cs).textWith joiner (((cs.filter keep).map (pruned keep)).map _) = _
    rw [hpieces]
    exact textWith_congr (pieces_filter hsilent) joiner

end Node

namespace Document

/-- Deleting all nodes of the kinds that have no text, at whatever depth, leaves none of them and
leaves the text of the document with any joiner, and so its words, as they were. -/
theorem filterNodes_silent {d : Document} (h : d.toNode.Built) :
    ∃ e, (d.filterNodes fun n => !n.kind.isSilent).result = .ok e ∧
      e = d.pruned (fun n => !n.kind.isSilent) ∧
      (∀ m ∈ e.toNode.preorder, m.kind.isSilent = false) ∧
      ∀ joiner, e.toNode.extractText joiner = d.toNode.extractText joiner ∧
        countWords (e.toNode.extractText joiner) = countWords (d.toNode.extractText joiner) := by
  have hpasses : Rewriter.passes (fun n => !n.kind.isSilent) = fun n => !n.kind.isSilent := by
    funext n
    by_cases hdocument : n.kind = .document <;> simp [Rewriter.passes, hdocument, Kind.isSilent]
  have hresult := filterNodes_result h.checked fun n => !n.kind.isSilent
  rw [hpasses] at hresult
  have htext (joiner : Bytes) : (d.pruned fun n => !n.kind.isSilent).toNode.extractText joiner =
      d.toNode.extractText joiner := by
    rw [toNode_pruned]
    exact Node.extractText_pruned (fun m hm => by simpa using hm) h.checked joiner
  refine ⟨_, hresult, rfl, ?_, fun joiner => ⟨htext joiner, congrArg countWords (htext joiner)⟩⟩
  intro m hm
  rw [toNode_pruned, Node.preorder_pruned] at hm
  obtain ⟨n, hn, rfl⟩ := List.mem_map.1 hm
  rw [Node.pruned_kind]
  rcases List.mem_cons.1 hn with rfl | hn
  · rfl
  · simpa using Node.remaining_passes h.checked _ n hn

def decorated : Document :=
  { children := [
      Node.plain .paragraph
        [Node.plainText (utf8 "a"), Node.plain (.image (utf8 "i") [] none none none) [],
          Node.plain (.htmlInline (utf8 "b")) []],
      Node.plain .thematicBreak [],
      Node.plain .blockQuote [Node.plain (.comment (utf8 "c")) []],
      Node.plain (.list false 1 true)
        [Node.plain (.listItem .none)
          [Node.plain (.htmlBlock (utf8 "d")) [],
            Node.plain .paragraph
              [Node.plain (.footnoteReference (utf8 "1")) [], Node.plainText (utf8 "e")]]]] }

/-- The quotation is left without a child, and there is one joiner between the two lines. -/
theorem decorated_filterNodes_silent :
    decorated.toNode.Built ∧
    ∃ e, (decorated.filterNodes fun n => !n.kind.isSilent).result = .ok e ∧
      e = { children := [
        Node.plain .paragraph [Node.plainText (utf8 "a")],
        Node.plain .blockQuote [],
        Node.plain (.list false 1 true)
          [Node.plain (.listItem .none) [Node.plain .paragraph [Node.plainText (utf8 "e")]]]] } ∧
      e.toNode.extractText (utf8 ", ") = decorated.toNode.extractText (utf8 ", ") ∧
      decorated.toNode.extractText (utf8 ", ") = utf8 "a, e" := by
  have hbuilt : decorated.toNode.Built := by decide
  obtain ⟨e, hresult, -, -, htext⟩ := filterNodes_silent hbuilt
  exact ⟨hbuilt, e, hresult, Except.ok.inj (hresult.symm.trans rfl), (htext _).1, by decide⟩

end Document
end Folio
