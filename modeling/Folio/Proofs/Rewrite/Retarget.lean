import Folio.Check.Validator
import Folio.Proofs.Check.Disguise
import Folio.Proofs.Rewrite.Refusal

/-!
# New targets

Rewriting the links and images of a document goes through when the policy has nothing against any
of the new targets, at whatever depth, and fails on the first that it refuses. What comes of it is
the document with the new targets and nothing else changed. The rewriter asks the policy more
strictly than a check of the tree does, so a check finds fault with no target of the result.
-/

set_option autoImplicit false

namespace Folio

namespace Shape

def target? : Shape → Option Bytes
  | .link url _ => some url
  | .image url .. => some url
  | _ => none

def retarget (f : Bytes → Bytes) : Shape → Shape
  | .link url title => .link (f url) title
  | .image url alt title width height => .image (f url) alt title width height
  | s => s

variable (f : Bytes → Bytes) (s : Shape)

theorem retarget_kind : (s.retarget f).kind = s.kind := by
  cases s <;> rfl

theorem retarget_target? : (s.retarget f).target? = s.target?.map f := by
  cases s <;> rfl

variable {s}

theorem Takes.retarget {cs : List Node} (h : s.Takes cs) : (s.retarget f).Takes cs := by
  cases s with
  | link => trivial
  | image => trivial
  | _ => exact h

end Shape

namespace Node

def targets (n : Node) : List Bytes := n.preorder.filterMap fun m => m.shape.target?

abbrev retarget (f : Bytes → Bytes) : Node → Node := reshape fun n => n.shape.retarget f

theorem targets_retarget (f : Bytes → Bytes) (n : Node) :
    (n.retarget f).targets = n.targets.map f := by
  simp only [targets, preorder_reshape, List.filterMap_map, List.map_filterMap, Function.comp_def,
    shape_reshape, Shape.retarget_target?]

end Node

namespace Rewriter

variable (f : Bytes → Bytes)

def refusal? (n : Node) : Option Failure :=
  n.shape.target?.bind fun url =>
    (Url.check (f url) false).map fun fault => .rewrite (.url (.url n.kind.name (f url) fault))

theorem mapUrl_or (owner : Kind) (url : Bytes) :
    (mapUrl f true owner url).result =
      ((Url.check (f url) false).map fun fault =>
        Failure.rewrite (.url (.url owner.name (f url) fault))).elim (.ok (f url)) .error := by
  unfold mapUrl
  simp only [if_true]
  cases Url.check (f url) false <;> rfl

theorem mapLinks_or (n : Node) :
    (mapLinks f true n).result =
      (refusal? f n).elim (.ok (.keep (n.shape.retarget f))) .error := by
  obtain ⟨s, a, cs⟩ := n
  cases s with
  | link url title =>
    exact Outcome.result_map_or (mapUrl_or f .link url) fun mapped => Step.keep (.link mapped title)
  | image url alt title width height =>
    exact Outcome.result_map_or (mapUrl_or f .image url) fun mapped =>
      Step.keep (.image mapped alt title width height)
  | _ => rfl

end Rewriter

namespace Node

section UrlFindings

variable {context address : Bytes} {fault : Url.Fault}

theorem url_notMem_findingIf {condition : Bool} {g : Finding}
    (hg : Finding.url context address fault ≠ g) :
    Finding.url context address fault ∉ findingIf condition g := by
  cases condition <;> simp [findingIf, hg]

theorem url_notMem_tableFindings (hasHeader : Bool) (alignments : List Alignment)
    (cs : List Node) :
    Finding.url context address fault ∉ tableFindings hasHeader alignments cs := by
  unfold tableFindings
  split
  · exact List.not_mem_nil
  · intro hmem
    rcases List.mem_append.1 hmem with hrow | hcount
    · obtain ⟨⟨row, i⟩, -, hsome⟩ := List.mem_filterMap.1 hrow
      simp only at hsome
      split at hsome <;> simp at hsome
    · exact absurd hcount (url_notMem_findingIf (by simp))

theorem check_of_url_mem {owner : Kind} {url : Bytes} {allowInline : Bool}
    (h : Finding.url context address fault ∈ urlFindings owner url allowInline) :
    Url.check url allowInline = some fault := by
  obtain ⟨found, hfound, hsame⟩ := Option.map_eq_some_iff.1 (Option.mem_toList.1 h)
  obtain ⟨-, -, rfl⟩ := Finding.url.inj hsame
  exact hfound

/-- A check asks the policy about targets only, and lets images be inline. -/
theorem url_mem_ownFindings {o : CheckOptions} {n : Node}
    (h : Finding.url context address fault ∈ n.ownFindings o) :
    ∃ url ∈ n.shape.target?, Url.check url (n.kind == .image) = some fault := by
  obtain ⟨s, a, cs⟩ := n
  cases s with
  | link url title =>
    have hown : o.strict = true ∧
        Finding.url context address fault ∈ urlFindings .link url false := by
      simpa [ownFindings, shape, kind, Shape.kind, url_notMem_findingIf, blockChildren] using h
    exact ⟨url, rfl, check_of_url_mem hown.2⟩
  | image url alt title width height =>
    have hown : o.strict = true ∧
        Finding.url context address fault ∈ urlFindings .image url true := by
      simpa [ownFindings, shape, kind, Shape.kind, url_notMem_findingIf] using h
    exact ⟨url, rfl, check_of_url_mem hown.2⟩
  | table => exact absurd h (url_notMem_tableFindings _ _ _)
  | _ =>
    simp [ownFindings, shape, url_notMem_findingIf, blockChildren, inlineChildren,
      formulaFindings] at h

end UrlFindings
end Node

namespace Rewriter

section Links

variable {f : Bytes → Bytes} {d : Document}

theorem links_rewrite_or (h : d.toNode.All Node.Checked) :
    (links (some f) true >>= d.rewrite).result =
      (d.toNode.preorder.findSome? (refusal? f)).elim
        (.ok (d.reshape fun n => n.shape.retarget_kind f)) .error := by
  have hfailure : (fun n => (mapLinks f true n).failure?) = refusal? f :=
    funext fun n => Outcome.failure?_of_result (mapLinks_or f n)
  have hrewrite := Document.rewrite_or (r := mapLinks f true) (fun n => n.shape.retarget_kind f)
    (fun n cs htakes => htakes.retarget f) h
    fun n own hown => Outcome.yields_of_result (mapLinks_or f n) own hown ▸ rfl
  rwa [hfailure] at hrewrite

theorem refusal?_code {n : Node} {failure : Failure} (h : refusal? f n = some failure) :
    failure.code = .invalidArgument := by
  obtain ⟨url, -, hfault⟩ := Option.bind_eq_some_iff.1 h
  obtain ⟨fault, -, rfl⟩ := Option.map_eq_some_iff.1 hfault
  rfl

theorem refusals_eq_none_iff {n : Node} :
    n.preorder.findSome? (refusal? f) = none ↔
      ∀ url ∈ n.targets, Url.check (f url) false = none := by
  simp only [List.findSome?_eq_none_iff, Node.targets, List.mem_filterMap, refusal?,
    Option.bind_eq_none_iff, Option.map_eq_none_iff]
  constructor
  · rintro h url ⟨m, hm, htarget⟩
    exact h m hm url htarget
  · intro h m hm url htarget
    exact h url ⟨m, hm, htarget⟩

theorem retarget_passes {n : Node} (h : ∀ url ∈ n.targets, Url.check (f url) false = none)
    {m : Node} (hm : m ∈ (n.retarget f).preorder) :
    (∀ url ∈ m.shape.target?, Url.check url (m.kind == .image) = none) ∧
      ∀ o context address fault, Finding.url context address fault ∉ m.ownFindings o := by
  have hpasses : ∀ url ∈ m.shape.target?, Url.check url (m.kind == .image) = none := by
    intro url htarget
    have hmem : url ∈ (n.retarget f).targets := List.mem_filterMap.2 ⟨m, hm, htarget⟩
    rw [Node.targets_retarget] at hmem
    obtain ⟨old, hold, rfl⟩ := List.mem_map.1 hmem
    exact Url.check_inline (h old hold) _
  refine ⟨hpasses, fun o context address fault hfound => ?_⟩
  obtain ⟨url, htarget, hfault⟩ := Node.url_mem_ownFindings hfound
  exact nomatch (hpasses url htarget).symm.trans hfault

/-- Giving links and images new targets goes through just when the policy has nothing against the
new target of any of them, and otherwise fails on the first in document order that it refuses. -/
theorem links_retarget (h : d.toNode.Built) :
    ((∃ e, (links (some f) true >>= d.rewrite).result = .ok e) ↔
      ∀ url ∈ d.toNode.targets, Url.check (f url) false = none) ∧
    (∀ failure, (links (some f) true >>= d.rewrite).result = .error failure →
      failure.code = .invalidArgument ∧
      d.toNode.preorder.findSome? (refusal? f) = some failure) ∧
    ∀ e, (links (some f) true >>= d.rewrite).result = .ok e →
      e.toNode = d.toNode.retarget f ∧
      e.toNode.targets = d.toNode.targets.map f ∧
      ∀ m ∈ e.toNode.preorder,
        (∀ url ∈ m.shape.target?, Url.check url (m.kind == .image) = none) ∧
        ∀ o context address fault, Finding.url context address fault ∉ m.ownFindings o := by
  have hresult := links_rewrite_or (f := f) h.checked
  have hfirst := Outcome.failure?_of_result hresult
  have hiff : (∃ e, (links (some f) true >>= d.rewrite).result = .ok e) ↔
      ∀ url ∈ d.toNode.targets, Url.check (f url) false = none := by
    rw [← Outcome.failure?_eq_none, hfirst, refusals_eq_none_iff]
  refine ⟨hiff, ?_, ?_⟩
  · intro failure hfailure
    rw [← Outcome.failure?_eq_some, hfirst] at hfailure
    obtain ⟨m, -, hm⟩ := List.exists_of_findSome?_eq_some hfailure
    exact ⟨refusal?_code hm, hfailure⟩
  · intro e he
    have hpass := hiff.1 ⟨e, he⟩
    have htree : e.toNode = d.toNode.retarget f := by
      rw [Outcome.yields_of_result hresult e he]
      exact Document.toNode_reshape (fun n => n.shape.retarget_kind f) d
    rw [htree]
    exact ⟨rfl, Node.targets_retarget f _, fun m => retarget_passes hpass⟩

end Links

def crossReferences : Document :=
  { children := [
      Node.plain (.table true [] none)
        [Node.plain (.tableRow true)
          [Node.plain (.tableCell 1 1 .none)
            [Node.plain (.link (utf8 "a") none)
              [Node.plain (.link (utf8 "b") none)
                [Node.plain (.image (utf8 "c") [] none none none) []]]]]],
      Node.plain (.footnoteDefinition (utf8 "1")) [Node.plain (.link (utf8 "d") none) []],
      Node.plain .definitionList
        [Node.plain .definitionTerm [],
          Node.plain .definitionDescription [Node.plain (.link (utf8 "e") none) []]]] }

theorem crossReferences_built : crossReferences.toNode.Built := by decide

/-- Under a harmless address all five come through, and one script among them is refused. -/
theorem crossReferences_links_retarget :
    (∃ e, (links (some (utf8 "https://x.org/" ++ ·)) true >>= crossReferences.rewrite).result =
        .ok e ∧
      e.toNode.targets = [utf8 "https://x.org/a", utf8 "https://x.org/b", utf8 "https://x.org/c",
        utf8 "https://x.org/d", utf8 "https://x.org/e"]) ∧
    ∃ failure, (links (some fun url => if url = utf8 "e" then utf8 "javascript:e" else url) true >>=
        crossReferences.rewrite).result = .error failure ∧
      failure.code = .invalidArgument := by
  constructor
  · obtain ⟨hpasses, -, htree⟩ :=
      links_retarget (f := (utf8 "https://x.org/" ++ ·)) crossReferences_built
    obtain ⟨e, he⟩ := hpasses.2 (by decide)
    exact ⟨e, he, (htree e he).2.1⟩
  · obtain ⟨hpasses, hfails, -⟩ := links_retarget
      (f := fun url => if url = utf8 "e" then utf8 "javascript:e" else url) crossReferences_built
    have hrefused := mt hpasses.1 (by decide)
    rw [← Outcome.failure?_eq_none] at hrefused
    obtain ⟨failure, hfailure⟩ := Option.ne_none_iff_exists'.1 hrefused
    have hresult := Outcome.failure?_eq_some.1 hfailure
    exact ⟨failure, hresult, (hfails failure hresult).1⟩

end Rewriter
end Folio
