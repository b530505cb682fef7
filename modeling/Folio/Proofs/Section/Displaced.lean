import Folio.Proofs.Rewrite.Retarget
import Folio.Proofs.Section.Contents
import Folio.Proofs.Section.Insertion

/-!
# Anchors of a table inside its document

A table of contents gets the slugs of the headings before it is put into the document, and it
comes with a heading of its own. Behind the place of the table that heading has its slug before
the others have theirs. The links still lead to their headings exactly when none of these was
going to get the slug of the new one.
-/

set_option autoImplicit false

namespace Folio

def Node.listed (deepest : Int) (n : Node) : Bool := n.level?.any fun l => 1 ≤ l && l ≤ deepest

theorem Node.targets_eq (n : Node) :
    n.targets = n.shape.target?.toList ++ (n.children.map targets).flatten := by
  have hbelow : (n.children.map targets).flatten =
      (n.children.map preorder).flatten.filterMap fun m => m.shape.target? := by
    rw [List.filterMap_flatten, List.map_map]
    rfl
  rw [targets, preorder_eq, hbelow, List.filterMap_cons]
  cases n.shape.target? <;> rfl

namespace Contents

def titleNode : Node := Node.plain (.heading 1) [Node.plainText (utf8 "Table of Contents")]

theorem blocks_markdown (ls : List Line) :
    blocks .markdown ls =
      if ls = [] then [] else [titleNode, bulletList (ls.map linkItem)] := by
  cases ls <;> rfl

theorem targets_linkItem (l : Line) : (linkItem l).targets = [utf8 "#" ++ l.slug] := by
  simp [linkItem, Node.targets_eq, Node.plain, Node.plainText, Node.children, Node.shape,
    Shape.target?]

theorem targets_bulletList (ls : List Line) :
    (bulletList (ls.map linkItem)).targets = (ls.map Line.slug).map (utf8 "#" ++ ·) := by
  have hlist (items : List Node) :
      (bulletList items).targets = (items.map Node.targets).flatten := Node.targets_eq _
  have hitem : Node.targets ∘ linkItem = fun l => [utf8 "#" ++ l.slug] := funext targets_linkItem
  rw [hlist, List.map_map, List.map_map, hitem, ← List.flatMap_def]
  exact List.map_eq_flatMap.symm

theorem titleNode_listed {deepest : Int} (h : 1 ≤ deepest) : titleNode.listed deepest = true := by
  have hlevel : titleNode.level? = some 1 := rfl
  simpa [Node.listed, hlevel] using h

theorem bulletList_listed (deepest : Int) (items : List Node) :
    (bulletList items).listed deepest = false := rfl

def Place.spot (d : Document) : Place → Nat
  | .start => 0
  | .afterFirstHeading => d.afterFirstHeading

end Contents

namespace Document

open Contents

def slugs (d : Document) (deepest : Int) : List Bytes :=
  Slug.uniqueAll [] ((d.outline 1 deepest).map Section.text)

variable {d : Document} {deepest : Int}

theorem outline_listed (d : Document) (deepest : Int) :
    (d.outline 1 deepest).map Section.heading =
      (d.children.filter (Node.listed deepest)).map some :=
  Section.scan_headings _ _ 0 d.children

theorem slugs_eq (d : Document) (deepest : Int) :
    d.slugs deepest =
      Slug.uniqueAll [] ((d.children.filter (Node.listed deepest)).map fun n => n.text.trim) := by
  rw [slugs, Section.texts_of_headings (outline_listed d deepest)]

/-- A table of contents in a document: its heading, and its list of links with the slugs that the
headings had before. The new heading is number `k` among the headings of the new document. -/
structure Titled (d d' : Document) (deepest : Int) (spot k : Nat) (list : Node) : Prop where
  children : d'.children = d.children.take spot ++ [titleNode, list] ++ d.children.drop spot
  title : ((d'.outline 1 deepest).map Section.heading)[k]? = some (some titleNode)
  others : ((d'.outline 1 deepest).map Section.heading).eraseIdx k =
    (d.outline 1 deepest).map Section.heading
  links : list.targets = (d.slugs deepest).map (utf8 "#" ++ ·)

/-- Each link leads to the heading that it was made for: the headings but number `k` have these
slugs. -/
def Reaches (d' : Document) (deepest : Int) (k : Nat) (list : Node) : Prop :=
  list.targets = ((d'.slugs deepest).eraseIdx k).map (utf8 "#" ++ ·)

theorem table_taken {list : Node} (h : list.kind = .list) :
    Shape.document.Takes [titleNode, list] :=
  List.forall_mem_cons.2 ⟨rfl, List.forall_mem_singleton.2 (by rw [h]; rfl)⟩

theorem blocks_taken (ls : List Line) : Shape.document.Takes (blocks .markdown ls) := by
  rw [blocks_markdown]
  split
  · exact nofun
  · exact table_taken rfl

theorem insertContents_result (d : Document) (h : 1 ≤ deepest ∧ deepest ≤ 6) (place : Place) :
    (d.insertContents place deepest .markdown).result =
      .ok (d.inserted (place.spot d) _ (blocks_taken (lines d deepest))) := by
  have hinsert := d.insertAt_result (place.spot d) (blocks_taken (lines d deepest))
  unfold insertContents linesDownTo
  rw [outOfRange_eq_false h]
  cases place <;> exact hinsert

def linkList (d : Document) (deepest : Int) : Node := bulletList ((lines d deepest).map linkItem)

def withTable (d : Document) (deepest : Int) (spot : Nat) : Document :=
  d.inserted spot [titleNode, d.linkList deepest] (table_taken rfl)

theorem linkList_targets (d : Document) (deepest : Int) :
    (d.linkList deepest).targets = (d.slugs deepest).map (utf8 "#" ++ ·) := by
  rw [linkList, targets_bulletList, lines_slugs, slugs]

theorem withTable_listed (d : Document) (h : 1 ≤ deepest) (spot : Nat) :
    ∃ before after, d.children.filter (Node.listed deepest) = before ++ after ∧
      (d.withTable deepest spot).children.filter (Node.listed deepest) =
        before ++ titleNode :: after := by
  refine ⟨(d.children.take spot).filter (Node.listed deepest),
    (d.children.drop spot).filter (Node.listed deepest), ?_, ?_⟩
  · rw [← List.filter_append, List.take_append_drop]
  · rw [withTable, inserted_children, List.filter_append, List.filter_append,
      List.filter_cons_of_pos (titleNode_listed h),
      List.filter_cons_of_neg (by simp [linkList, bulletList_listed]), List.append_assoc]
    rfl

section
variable {d' : Document} {before after : List Node} {m : Node}
  (hd : d.children.filter (Node.listed deepest) = before ++ after)
  (hd' : d'.children.filter (Node.listed deepest) = before ++ m :: after)
include hd hd'

theorem headings_around :
    ((d'.outline 1 deepest).map Section.heading)[before.length]? = some (some m) ∧
      ((d'.outline 1 deepest).map Section.heading).eraseIdx before.length =
        (d.outline 1 deepest).map Section.heading := by
  have hlength : before.length = (before.map some).length := (List.length_map _).symm
  rw [outline_listed, outline_listed, hd, hd', List.map_append, List.map_append, List.map_cons,
    hlength]
  constructor
  · rw [List.getElem?_append_right (Nat.le_refl _), Nat.sub_self, List.getElem?_cons_zero]
  · rw [List.eraseIdx_append_of_length_le (Nat.le_refl _), Nat.sub_self, List.eraseIdx_cons_zero]

theorem slugs_around :
    ∃ own, (d'.slugs deepest)[before.length]? = some own ∧
      ((d'.slugs deepest).eraseIdx before.length = d.slugs deepest ↔
        own ∉ (d.slugs deepest).drop before.length) := by
  have hslugs := Slug.uniqueAll_insert [] (before.map fun n => n.text.trim) m.text.trim
    (after.map fun n => n.text.trim)
  rw [List.length_map] at hslugs
  rwa [slugs_eq, slugs_eq, hd, hd', List.map_append, List.map_append, List.map_cons]

end

/-- The links reach their headings exactly when no heading behind the table had the slug that the
heading of the table gets. -/
theorem withTable_titled (d : Document) (h : 1 ≤ deepest) (spot : Nat) :
    ∃ k own, d.Titled (d.withTable deepest spot) deepest spot k (d.linkList deepest) ∧
      ((d.withTable deepest spot).slugs deepest)[k]? = some own ∧
      ((d.withTable deepest spot).Reaches deepest k (d.linkList deepest) ↔
        own ∉ (d.slugs deepest).drop k) := by
  obtain ⟨before, after, hd, hd'⟩ := d.withTable_listed h spot
  obtain ⟨htitle, hothers⟩ := headings_around hd hd'
  obtain ⟨own, hown, hkeeps⟩ := slugs_around hd hd'
  refine ⟨before.length, own, ⟨rfl, htitle, hothers, d.linkList_targets deepest⟩, hown, ?_⟩
  have hinj : Function.Injective (List.map (utf8 "#" ++ ·)) :=
    List.map_injective_iff.2 (List.append_right_injective _)
  rw [Reaches, linkList_targets, hinj.eq_iff, ← hkeeps]
  exact eq_comm

/-- A table goes into every document, as a heading of its own and a list of links, unless the
document has no heading to list. The links have the slugs from before. They lead to the headings
that they were made for, as these are named in the new document, exactly when no heading behind
the table had the slug that the heading of the table gets. -/
theorem insertContents_reaches (d : Document) (h : 1 ≤ deepest ∧ deepest ≤ 6) (place : Place) :
    ∃ d', (d.insertContents place deepest .markdown).result = .ok d' ∧ d'.attrs = d.attrs ∧
      (d.outline 1 deepest = [] → d'.children = d.children) ∧
      (d.outline 1 deepest ≠ [] → ∃ k own list, d.Titled d' deepest (place.spot d) k list ∧
        (d'.slugs deepest)[k]? = some own ∧
        (d'.Reaches deepest k list ↔ own ∉ (d.slugs deepest).drop k)) := by
  refine ⟨_, d.insertContents_result h place, rfl, ?_, ?_⟩
  · intro hnone
    show d.children.take (place.spot d) ++ blocks .markdown (lines d deepest) ++
      d.children.drop (place.spot d) = d.children
    rw [blocks_markdown, if_pos (lines_eq_nil.2 hnone), List.append_nil, List.take_append_drop]
  · intro hsome
    have htable : d.inserted (place.spot d) _ (blocks_taken (lines d deepest)) =
        d.withTable deepest (place.spot d) := by
      refine Document.ext ?_ rfl
      show d.children.take (place.spot d) ++ blocks .markdown (lines d deepest) ++ _ = _
      rw [blocks_markdown, if_neg (mt lines_eq_nil.1 hsome)]
      rfl
    obtain ⟨k, own, htitled, hown, hreaches⟩ := withTable_titled d h.1 (place.spot d)
    rw [htable]
    exact ⟨k, own, d.linkList deepest, htitled, hown, hreaches⟩

def selfNamed : Document := { children := [titleNode] }

def selfNamedList : Node :=
  bulletList ([⟨1, utf8 "Table of Contents", utf8 "table-of-contents"⟩].map linkItem)

def selfNamedTabled : Document := { children := [titleNode, selfNamedList, titleNode] }

/-- The link to the only heading leads to the heading of the table instead: this one gets the slug
that the other had before, and the other a new one. -/
theorem selfNamed_misled :
    selfNamed.toNode.Built ∧
      (selfNamed.insertContents .start 3 .markdown).result = .ok selfNamedTabled ∧
      selfNamed.Titled selfNamedTabled 3 0 0 selfNamedList ∧
      selfNamedList.targets = [utf8 "#table-of-contents"] ∧
      selfNamedTabled.slugs 3 = [utf8 "table-of-contents", utf8 "table-of-contents-1"] ∧
      ¬ selfNamedTabled.Reaches 3 0 selfNamedList := by
  have hbuilt : selfNamed.toNode.Built := by decide
  have hdeepest : (1 : Int) ≤ 3 ∧ (3 : Int) ≤ 6 := by decide
  have hlines : lines selfNamed 3 =
      [⟨1, utf8 "Table of Contents", utf8 "table-of-contents"⟩] := by decide +kernel
  have htable : selfNamed.inserted (Place.spot selfNamed .start) _
      (blocks_taken (lines selfNamed 3)) = selfNamedTabled := by
    refine Document.ext ?_ rfl
    show _ ++ blocks .markdown (lines selfNamed 3) ++ _ = _
    rw [hlines]
    rfl
  have hresult := (selfNamed.insertContents_result hdeepest .start).trans (congrArg _ htable)
  have htargets : selfNamedList.targets = [utf8 "#table-of-contents"] := by
    rw [selfNamedList, targets_bulletList]
    decide
  have hslugs : selfNamed.slugs 3 = [utf8 "table-of-contents"] := by decide +kernel
  have hslugs' : selfNamedTabled.slugs 3 =
      [utf8 "table-of-contents", utf8 "table-of-contents-1"] := by decide +kernel
  refine ⟨hbuilt, hresult, ⟨rfl, rfl, rfl, ?_⟩, htargets, hslugs', ?_⟩
  · rw [htargets, hslugs]
    decide
  · rw [Reaches, htargets, hslugs']
    decide

def tableLast : Document :=
  { children := [Node.plain (.heading 2) [Node.plainText (utf8 "Intro")], titleNode] }

theorem tableLast_insertContents_reaches :
    ((1 : Int) ≤ 2 ∧ (2 : Int) ≤ 6) ∧
      ∃ d' k own list, (tableLast.insertContents .afterFirstHeading 2 .markdown).result = .ok d' ∧
        tableLast.Titled d' 2 (Place.spot tableLast .afterFirstHeading) k list ∧
        (d'.slugs 2)[k]? = some own ∧
        (d'.Reaches 2 k list ↔ own ∉ (tableLast.slugs 2).drop k) := by
  have hdeepest : (1 : Int) ≤ 2 ∧ (2 : Int) ≤ 6 := by decide
  obtain ⟨d', hresult, -, -, hsome⟩ :=
    insertContents_reaches tableLast hdeepest .afterFirstHeading
  have hheadings : tableLast.outline 1 2 ≠ [] := nofun
  obtain ⟨k, own, list, htitled, hown, hreaches⟩ := hsome hheadings
  exact ⟨hdeepest, d', k, own, list, hresult, htitled, hown, hreaches⟩

end Document
end Folio
