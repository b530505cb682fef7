import Folio.Proofs.Bytes.Replace
import Folio.Proofs.Rewrite.Refusal

/-!
# New texts

Replacing a literal pattern gives every text node of a tree another content and leaves everything
else as it is, code and the texts of images included. The new content is the old one, cut at the
leftmost places of the pattern that do not overlap, with the replacement in their stead.
-/

set_option autoImplicit false

namespace Folio

def Shape.retext (f : Bytes → Bytes) : Shape → Shape
  | .text content => .text (f content)
  | s => s

abbrev Node.retext (f : Bytes → Bytes) : Node → Node := reshape fun n => n.shape.retext f

section Retext

variable (f : Bytes → Bytes)

theorem Shape.retext_kind (s : Shape) : (s.retext f).kind = s.kind := by
  cases s <;> rfl

theorem Shape.Takes.retext {s : Shape} {cs : List Node} (h : s.Takes cs) :
    (s.retext f).Takes cs := by
  cases s with
  | text => trivial
  | _ => exact h

theorem Node.retext_eq_self {f : Bytes → Bytes} (h : ∀ s, f s = s) (n : Node) : n.retext f = n := by
  have hshape : (fun n : Node => n.shape.retext f) = Node.shape := by
    funext n
    cases hn : n.shape <;> simp [Shape.retext, h]
  rw [Node.retext, hshape, Node.reshape_shape]

end Retext

namespace Rewriter

variable {pattern replacement : Bytes} {n : Node}

theorem replaceText_keeps (pattern replacement : Bytes) (n : Node) :
    ∃ own, (replaceText pattern replacement n).result = .ok own ∧
      own.Keeps (n.shape.retext (Bytes.replaceAll pattern replacement)) := by
  unfold replaceText
  cases n.shape <;> exact ⟨_, rfl, rfl⟩

theorem run_replaceText (h : n.All Node.Checked) (pattern replacement : Bytes) :
    ((replaceText pattern replacement).run n).result =
      .ok (some (n.retext (Bytes.replaceAll pattern replacement))) :=
  run_reshape (replaceText_keeps pattern replacement) (fun n => n.shape.retext_kind _)
    (fun _ _ htakes => htakes.retext _) h

theorem rewrite_replaceText {d : Document} (h : d.toNode.All Node.Checked)
    (pattern replacement : Bytes) :
    ∃ e, (d.rewrite (replaceText pattern replacement)).result = .ok e ∧
      e.toNode = d.toNode.retext (Bytes.replaceAll pattern replacement) :=
  ⟨_, Document.rewrite_reshape (fun n => n.shape.retext_kind _)
    (fun _ _ htakes => htakes.retext _) h (replaceText_keeps pattern replacement),
    Document.toNode_reshape (fun n => n.shape.retext_kind _) d⟩

theorem retext_unchanged (h : pattern = [] ∨ replacement = pattern) (n : Node) :
    n.retext (Bytes.replaceAll pattern replacement) = n := by
  apply Node.retext_eq_self
  intro s
  rcases h with rfl | rfl
  · exact Bytes.replaceAll_nil replacement s
  · exact Bytes.replaceAll_self replacement s

/-- Replacing a pattern in any tree that can be built, or in a document, gives each text node a new
content and changes nothing else. The content is cut in one way at the leftmost places of the
pattern that do not overlap, and the pieces are joined with the replacement; editing it in place
ends, and with just this text. Nothing is changed where there is no pattern, or the replacement is
the pattern. -/
theorem replaceText_replaces {n : Node} (h : n.Built) (pattern replacement : Bytes) :
    ∃ f : Bytes → Bytes,
      ((replaceText pattern replacement).run n).result = .ok (some (n.retext f)) ∧
      (∀ d : Document, d.toNode = n →
        ∃ e, (d.rewrite (replaceText pattern replacement)).result = .ok e ∧
          e.toNode = n.retext f) ∧
      (pattern ≠ [] → ∀ s, ∃ pieces, Bytes.Pieces pattern s pieces ∧
        (∀ others, Bytes.Pieces pattern s others → others = pieces) ∧
        Bytes.join pattern pieces = s ∧ f s = Bytes.join replacement pieces ∧
        ∀ t, Bytes.Edits pattern replacement ⟨s, 0⟩ t ↔ t = f s) ∧
      (pattern = [] ∨ replacement = pattern → n.retext f = n) := by
  refine ⟨Bytes.replaceAll pattern replacement, run_replaceText h.checked pattern replacement,
    ?_, ?_, fun hsame => retext_unchanged hsame n⟩
  · rintro d rfl
    exact rewrite_replaceText h.checked pattern replacement
  · intro hp s
    obtain ⟨pieces, hpieces⟩ := Bytes.exists_pieces hp s
    exact ⟨pieces, hpieces, fun _ hothers => hothers.unique hpieces, hpieces.join_eq,
      hpieces.replaceAll hp, fun _ => Bytes.edits_iff hp⟩

def annotated (content : Bytes) : Document :=
  { children := [
      Node.plain .blockQuote
        [Node.plain (.heading 2) [Node.plain .emphasis [Node.plainText content]]],
      Node.plain .paragraph
        [Node.plain (.code (utf8 "aa")) [],
          Node.plain (.image (utf8 "aa") (utf8 "aa") none none none) []]]
    areBlocks := List.forall_mem_cons.2 ⟨rfl, List.forall_mem_singleton.2 rfl⟩ }

theorem overlap_pieces : Bytes.Pieces (utf8 "aa") (utf8 "aaab") [[], utf8 "ab"] := by
  have hleads : Bytes.Leads (utf8 "aa") [] (utf8 "ab") (utf8 "aaab") := ⟨rfl, nofun⟩
  apply Bytes.Pieces.cut hleads
  apply Bytes.Pieces.last
  decide

/-- The first two letters make way for three. The place that overlaps with them stays, and so does
the one that the replacement brings with it. -/
theorem annotated_replaceText_replaces :
    (annotated (utf8 "aaab")).toNode.Built ∧
    ∃ e, ((annotated (utf8 "aaab")).rewrite (replaceText (utf8 "aa") (utf8 "baa"))).result =
        .ok e ∧
      e.toNode = (annotated (utf8 "baaab")).toNode := by
  have hbuilt : (annotated (utf8 "aaab")).toNode.Built := by decide
  obtain ⟨f, -, hdocument, htexts, -⟩ := replaceText_replaces hbuilt (utf8 "aa") (utf8 "baa")
  obtain ⟨pieces, -, hunique, -, hf, -⟩ := htexts (by decide) (utf8 "aaab")
  have hcontent : f (utf8 "aaab") = utf8 "baaab" := by
    rw [hf, ← hunique _ overlap_pieces]
    rfl
  obtain ⟨e, he, htree⟩ := hdocument _ rfl
  have hannotated : e.toNode = (annotated (f (utf8 "aaab"))).toNode := htree
  rw [hcontent] at hannotated
  exact ⟨hbuilt, e, he, hannotated⟩

end Rewriter
end Folio
