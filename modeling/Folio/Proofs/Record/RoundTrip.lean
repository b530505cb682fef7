import Folio.Proofs.Record.Reading

/-!
# Records read back

The record of a tree with objects for metadata reads back as that tree. Each level
is read from the fields that its own shape writes; the levels beneath it come in as
nodes that read back already. No other tree reads back, since reading returns
objects for metadata only.
-/

set_option autoImplicit false

namespace Folio

namespace Members

@[simp] theorem get?_ofList_ite (name : Bytes) (c : Prop) [Decidable c]
    (fields others : List (Bytes × Value)) :
    get? name (ofList (if c then fields else others)) =
      if c then get? name (ofList fields) else get? name (ofList others) :=
  apply_ite (fun fields => get? name (ofList fields)) c fields others

@[simp] theorem get?_headerField (name : Bytes) (records : List Value) :
    get? name (ofList (Node.headerField records)) =
      if utf8 "header" = name then records.head? else none := by
  cases records <;> simp [Node.headerField]

end Members

namespace Node

def members (n : Node) : Members :=
  .ofList <|
    (utf8 "node_type", .str n.kind.name) ::
      (n.shapeFields (n.children.map toRecord) ++ n.attrs.fields)

theorem toRecord_obj (n : Node) : n.toRecord = .obj n.members := n.toRecord_eq

attribute [simp] shape attrs children optionalString optionalInt formulaFields shapeFields
  Attrs.fields members

theorem get?_members_attrs (n : Node) :
    n.members.get? (utf8 "node_type") = some (.str n.kind.name) ∧
      n.members.get? (utf8 "metadata") = some n.attrs.metadata ∧
      n.members.get? (utf8 "source_location") = n.attrs.location.map Location.toRecord := by
  obtain ⟨s, a, cs⟩ := n
  cases s <;> simp

end Node

namespace Record

open Node (toRecord)

def ReadsBack (n : Node) : Prop := (node n.toRecord).result = .ok n

theorem nodes_result {ns : List Node} (h : ∀ n ∈ ns, ReadsBack n) :
    (nodes (ns.map toRecord)).result = .ok ns := by
  induction ns with
  | nil => rfl
  | cons n ns ih =>
    have hn := h n (by simp)
    have hns := ih fun m hm => h m (by simp [hm])
    rw [List.map_cons, nodes, Outcome.result_bind_ok _ hn, Outcome.result_bind_ok _ hns]
    rfl

section
variable {kind : Kind} {field : Bytes} {members : Members}

theorem nodesAt_result {ns : List Node} (hns : ∀ n ∈ ns, ReadsBack n)
    (h : members.get? field = some (.arr (ns.map toRecord))) :
    (nodesAt kind field members).result = .ok ns := by
  rw [nodesAt_eq, h]
  exact nodes_result hns

theorem nodeAt_result {n : Node} (hn : ReadsBack n) (h : members.get? field = some n.toRecord) :
    (nodeAt kind field members).result = .ok n := by
  rw [nodeAt_eq, h]
  exact hn

theorem nodeAt?_result {n : Option Node} (hn : ∀ m ∈ n, ReadsBack m)
    (h : members.get? field = n.map toRecord) : (nodeAt? field members).result = .ok n := by
  cases n with
  | none => rw [nodeAt?_eq, h]; rfl
  | some n =>
    have hmap := Outcome.result_map_ok some (hn n rfl)
    rw [Node.toRecord_obj] at hmap
    rw [nodeAt?_eq, h, Option.map_some, Node.toRecord_obj]
    exact hmap

end

def entryRecord (e : Node × List Node) : Value :=
  .object [(utf8 "term", e.1.toRecord), (utf8 "descriptions", .arr (e.2.map toRecord))]

theorem entries_result {kind : Kind} {es : List (Node × List Node)}
    (h : ∀ e ∈ es, ReadsBack e.1 ∧ ∀ d ∈ e.2, ReadsBack d) :
    (entries kind (es.map entryRecord)).result =
      .ok (es.map fun e => ⟨some e.1, e.2.map some⟩) := by
  induction es with
  | nil => rfl
  | cons e es ih =>
    obtain ⟨hterm, hdescriptions⟩ := h e (by simp)
    have hes := ih fun g hg => h g (by simp [hg])
    rw [List.map_cons, entryRecord, Value.object, entries,
      Outcome.result_bind_ok _ (nodeAt_result hterm (by simp)),
      Outcome.result_bind_ok _ (nodesAt_result hdescriptions (by simp)),
      Outcome.result_bind_ok _ hes]
    rfl

theorem entriesAt_result {kind : Kind} {field : Bytes} {members : Members}
    {es : List (Node × List Node)} (hes : ∀ e ∈ es, ReadsBack e.1 ∧ ∀ d ∈ e.2, ReadsBack d)
    (h : members.get? field = some (.arr (es.map entryRecord))) :
    (entriesAt kind field members).result =
      .ok (es.map fun e => ⟨some e.1, e.2.map some⟩) := by
  rw [entriesAt_eq, h]
  exact entries_result hes

end Record

theorem Node.entryRecords_eq (children : List Node) :
    entryRecords children (children.map toRecord) =
      .arr ((definitions children).map Record.entryRecord) := by
  rw [entryRecords, gather_zip]
  simp [Record.entryRecord, Function.comp_def]

namespace Record

open Node (mk toRecord)

theorem attrs_members {n : Node} (h : n.attrs.Objects) (owner : Bytes) :
    (attrs owner n.members).result = .ok n.attrs :=
  attrs_result h n.get?_members_attrs.2.1 n.get?_members_attrs.2.2

section
variable {s : Shape} {a : Attrs} {cs : List Node} {members : Members} {below : Below}

theorem make_some (ha : a.Objects) (h : s.Takes cs) :
    Node.make s a (cs.map some) = .ok (mk s a cs) :=
  Node.make_eq_ok.2 ⟨cs, rfl, h, congrArg (mk s · cs) ha.normalize⟩

theorem build_result (ha : a.Objects) (h : s.Takes cs) :
    (Node.build s a (cs.map some)).result = .ok (mk s a cs) :=
  Outcome.result_ofExcept_ok (make_some ha h)

theorem build_leaf_result (ha : a.Objects) (h : s.Takes []) :
    (Node.build s a []).result = .ok (mk s a []) :=
  Outcome.result_ofExcept_ok (make_some ha h)

theorem container_result {field : Bytes} (ha : a.Objects) (h : s.Takes cs)
    (hattrs : (attrs s.kind.name members).result = .ok a)
    (hnodes : (below.nodes field).result = .ok cs) :
    (container s field members below).result = .ok (mk s a cs) := by
  rw [container, Outcome.result_bind_ok _ hattrs, Outcome.result_bind_ok _ hnodes]
  exact build_result ha h

theorem literal_result {kind : Kind} {field content : Bytes} {shape : Bytes → Shape}
    (ha : a.Objects) (h : (shape content).Takes [])
    (hattrs : (attrs kind.name members).result = .ok a)
    (hfield : members.get? field = some (.str content)) :
    (literal kind field shape members).result = .ok (mk (shape content) a []) := by
  rw [literal, Outcome.result_bind_ok _ hattrs, Outcome.result_bind_ok _ (string_result hfield)]
  exact build_leaf_result ha h

theorem formula_result {owner : Bytes} {formula : Formula}
    (hcontent : members.get? (utf8 "content") = some (.str formula.content))
    (hdialect : members.get? (utf8 "notation") = some (.str formula.dialect))
    (hreps : members.get? (utf8 "representations") =
      if formula.representations.isEmpty then none
      else some (.obj (formula.representations.map fun r => (r.1, .str r.2)))) :
    (Record.formula owner members).result = .ok formula := by
  rw [Record.formula, Outcome.result_bind_ok _ (representations_result hreps),
    Outcome.result_bind_ok _ (string?_result (s := some formula.dialect) hdialect),
    Outcome.result_bind_ok _ (string_result hcontent)]
  rfl

theorem math_result {kind : Kind} {formula : Formula} {shape : Formula → Shape}
    (ha : a.Objects) (h : (shape formula).Takes [])
    (hattrs : (attrs kind.name members).result = .ok a)
    (hcontent : members.get? (utf8 "content") = some (.str formula.content))
    (hdialect : members.get? (utf8 "notation") = some (.str formula.dialect))
    (hreps : members.get? (utf8 "representations") =
      if formula.representations.isEmpty then none
      else some (.obj (formula.representations.map fun r => (r.1, .str r.2)))) :
    (math kind shape members).result = .ok (mk (shape formula) a []) := by
  rw [math, Outcome.result_bind_ok _ hattrs,
    Outcome.result_bind_ok _ (formula_result hcontent hdialect hreps)]
  exact build_leaf_result ha h

theorem heading_result {level : Int32} (ha : a.Objects)
    (hattrs : (attrs Kind.heading.name members).result = .ok a)
    (hlevel : members.get? (utf8 "level") = some (.int level.toInt))
    (hnodes : (below.nodes (utf8 "content")).result = .ok cs) :
    (heading members below).result = .ok (mk (.heading level) a cs) := by
  rw [heading, Outcome.result_bind_ok _ (integer_result hlevel)]
  by_cases hrange : Node.levelInRange level.toInt = true
  · simp only [hrange, ↓reduceIte]
    rw [Outcome.result_bind_ok _ hattrs, Outcome.result_bind_ok _ hnodes]
    exact Outcome.result_ofExcept_ok (Node.makeHeading_eq_ok.2 ⟨make_some ha trivial, hrange⟩)
  · simp only [hrange, Bool.false_eq_true, ↓reduceIte, Outcome.result_write_bind]
    rw [Outcome.result_bind_ok _ hattrs, Outcome.result_bind_ok _ hnodes]
    simp only [Node.buildAnyHeading, hrange]
    exact build_result ha trivial

theorem codeBlock_result {content : Bytes} {language : Option Bytes} {fence : UInt8}
    {fenceLength : Int32} (ha : a.Objects)
    (hattrs : (attrs Kind.codeBlock.name members).result = .ok a)
    (hcontent : members.get? (utf8 "content") = some (.str content))
    (hlanguage : members.get? (utf8 "language") = language.map .str)
    (hfence : members.get? (utf8 "fence_char") = some (.str [fence]))
    (hlength : members.get? (utf8 "fence_length") = some (.int fenceLength.toInt)) :
    (codeBlock members).result =
      .ok (mk (.codeBlock content language fence fenceLength) a []) := by
  rw [codeBlock, Outcome.result_bind_ok _ (fence_result hfence), Outcome.result_bind_ok _ hattrs,
    Outcome.result_bind_ok _ (integerOr_result hlength),
    Outcome.result_bind_ok _ (string?_result hlanguage),
    Outcome.result_bind_ok _ (string_result hcontent)]
  exact build_leaf_result ha trivial

theorem list_result {ordered tight : Bool} {start : Int32} (ha : a.Objects)
    (h : (Shape.list ordered start tight).Takes cs)
    (hattrs : (attrs Kind.list.name members).result = .ok a)
    (hordered : members.get? (utf8 "ordered") = some (.bool ordered))
    (hstart : members.get? (utf8 "start") = some (.int start.toInt))
    (htight : members.get? (utf8 "tight") = some (.bool tight))
    (hnodes : (below.nodes (utf8 "items")).result = .ok cs) :
    (list members below).result = .ok (mk (.list ordered start tight) a cs) := by
  rw [list, Outcome.result_bind_ok _ hattrs, Outcome.result_bind_ok _ (boolOr_result htight),
    Outcome.result_bind_ok _ (integerOr_result hstart), Outcome.result_bind_ok _ hnodes,
    Outcome.result_bind_ok _ (boolOr_result hordered)]
  exact build_result ha h

theorem table_result {header : Option Node} {alignments : List Alignment} {caption : Option Bytes}
    (hheader : (below.node? (utf8 "header")).result = .ok header) (ha : a.Objects)
    (h : (Shape.table header.isSome alignments caption).Takes (header.toList ++ cs))
    (hattrs : (attrs Kind.table.name members).result = .ok a)
    (halignments : members.get? (utf8 "alignments") =
      if alignments.isEmpty then none else some (.arr (alignments.map fun a => .str a.name)))
    (hcaption : members.get? (utf8 "caption") = caption.map .str)
    (hrows : (below.nodes (utf8 "rows")).result = .ok cs) :
    (table members below).result =
      .ok (mk (.table header.isSome alignments caption) a (header.toList ++ cs)) := by
  rw [table, Outcome.result_bind_ok _ hheader,
    Outcome.result_bind_ok _ (alignments_result halignments), Outcome.result_bind_ok _ hattrs,
    Outcome.result_bind_ok _ (string?_result hcaption), Outcome.result_bind_ok _ hrows]
  apply Outcome.result_ofExcept_ok
  apply Node.makeTable_eq_ok.2
  exact ⟨cs, rfl, h, by rw [ha.normalize]⟩

theorem tableRow_result {isHeader : Bool} (ha : a.Objects) (h : (Shape.tableRow isHeader).Takes cs)
    (hattrs : (attrs Kind.tableRow.name members).result = .ok a)
    (hheader : members.get? (utf8 "is_header") = some (.bool isHeader))
    (hnodes : (below.nodes (utf8 "cells")).result = .ok cs) :
    (tableRow members below).result = .ok (mk (.tableRow isHeader) a cs) := by
  rw [tableRow, Outcome.result_bind_ok _ hattrs, Outcome.result_bind_ok _ (boolOr_result hheader),
    Outcome.result_bind_ok _ hnodes]
  exact build_result ha h

theorem tableCell_result {colspan rowspan : Int32} {alignment : Alignment} (ha : a.Objects)
    (hattrs : (attrs Kind.tableCell.name members).result = .ok a)
    (hcolspan : members.get? (utf8 "colspan") = some (.int colspan.toInt))
    (hrowspan : members.get? (utf8 "rowspan") = some (.int rowspan.toInt))
    (halignment : members.get? (utf8 "alignment") =
      if alignment = .none then none else some (.str alignment.name))
    (hnodes : (below.nodes (utf8 "content")).result = .ok cs) :
    (tableCell members below).result = .ok (mk (.tableCell colspan rowspan alignment) a cs) := by
  rw [tableCell, Outcome.result_bind_ok _ (cellAlignment_result halignment),
    Outcome.result_bind_ok _ hattrs, Outcome.result_bind_ok _ (integerOr_result hrowspan),
    Outcome.result_bind_ok _ (integerOr_result hcolspan), Outcome.result_bind_ok _ hnodes]
  exact build_result ha trivial

theorem definitionList_result {es : List (Node × List Node)}
    (hentries : (below.entries (utf8 "items")).result =
      .ok (es.map fun e => ⟨some e.1, e.2.map some⟩))
    (ha : a.Objects) (hes : ∀ e ∈ es, Node.IsEntry e)
    (hattrs : (attrs Kind.definitionList.name members).result = .ok a) :
    (definitionList members below).result =
      .ok (mk .definitionList a (es.map fun e => e.1 :: e.2).flatten) := by
  rw [definitionList, Outcome.result_bind_ok _ hentries, Outcome.result_bind_ok _ hattrs]
  have hchildren := Node.entryChildren_eq_ok (i := 0).2 ⟨es, rfl, hes, rfl⟩
  apply Outcome.result_ofExcept_ok
  apply Node.makeDefinitionList_eq_ok.2
  exact ⟨_, hchildren, by rw [ha.normalize]⟩

theorem image_result {url alt : Bytes} {title : Option Bytes} {width height : Option Int32}
    (ha : a.Objects) (hattrs : (attrs Kind.image.name members).result = .ok a)
    (hurl : members.get? (utf8 "url") = some (.str url))
    (halt : members.get? (utf8 "alt_text") = some (.str alt))
    (htitle : members.get? (utf8 "title") = title.map .str)
    (hwidth : members.get? (utf8 "width") = width.map fun n => .int n.toInt)
    (hheight : members.get? (utf8 "height") = height.map fun n => .int n.toInt) :
    (image members).result = .ok (mk (.image url alt title width height) a []) := by
  rw [image, Outcome.result_bind_ok _ hattrs, Outcome.result_bind_ok _ (integer?_result hheight),
    Outcome.result_bind_ok _ (integer?_result hwidth),
    Outcome.result_bind_ok _ (string?_result htitle),
    Outcome.result_bind_ok _ (string?_result (s := some alt) halt),
    Outcome.result_bind_ok _ (string_result hurl)]
  exact build_leaf_result ha trivial

theorem listItem_result {status : TaskStatus} (ha : a.Objects)
    (hattrs : (attrs Kind.listItem.name members).result = .ok a)
    (hstatus : members.get? (utf8 "task_status") =
      if status = .none then none else some (.str status.name))
    (hnodes : (below.nodes (utf8 "children")).result = .ok cs) :
    (listItem members below).result = .ok (mk (.listItem status) a cs) := by
  rw [listItem, Outcome.result_bind_ok _ (status_result hstatus)]
  exact container_result ha trivial hattrs hnodes

theorem footnoteDefinition_result {identifier : Bytes} (ha : a.Objects)
    (hattrs : (attrs Kind.footnoteDefinition.name members).result = .ok a)
    (hidentifier : members.get? (utf8 "identifier") = some (.str identifier))
    (hnodes : (below.nodes (utf8 "content")).result = .ok cs) :
    (footnoteDefinition members below).result = .ok (mk (.footnoteDefinition identifier) a cs) := by
  rw [footnoteDefinition, Outcome.result_bind_ok _ hattrs, Outcome.result_bind_ok _ hnodes,
    Outcome.result_bind_ok _ (string_result hidentifier)]
  exact build_result ha trivial

theorem link_result {url : Bytes} {title : Option Bytes} (ha : a.Objects)
    (hattrs : (attrs Kind.link.name members).result = .ok a)
    (hurl : members.get? (utf8 "url") = some (.str url))
    (htitle : members.get? (utf8 "title") = title.map .str)
    (hnodes : (below.nodes (utf8 "content")).result = .ok cs) :
    (link members below).result = .ok (mk (.link url title) a cs) := by
  rw [link, Outcome.result_bind_ok _ hattrs, Outcome.result_bind_ok _ (string?_result htitle),
    Outcome.result_bind_ok _ hnodes, Outcome.result_bind_ok _ (string_result hurl)]
  exact build_result ha trivial

theorem thematicBreak_result (ha : a.Objects)
    (hattrs : (attrs Kind.thematicBreak.name members).result = .ok a) :
    (thematicBreak members).result = .ok (mk .thematicBreak a []) := by
  rw [thematicBreak, Outcome.result_bind_ok _ hattrs]
  exact build_leaf_result ha trivial

theorem lineBreak_result {soft : Bool} (ha : a.Objects)
    (hattrs : (attrs Kind.lineBreak.name members).result = .ok a)
    (hsoft : members.get? (utf8 "soft") = some (.bool soft)) :
    (lineBreak members).result = .ok (mk (.lineBreak soft) a []) := by
  rw [lineBreak, Outcome.result_bind_ok _ hattrs, Outcome.result_bind_ok _ (boolOr_result hsoft)]
  exact build_leaf_result ha trivial

end

/-- How the record of a node reads its fields that hold further records. -/
def belowOf (kind : Kind) (members : Members) : Below :=
  ⟨fun field => nodeAt? field members, fun field => nodesAt kind field members,
    fun field => entriesAt kind field members⟩

section
variable {a : Attrs} {cs : List Node} (ha : a.Objects) (hcs : ∀ c ∈ cs, ReadsBack c)
include ha hcs

theorem table_members {hasHeader : Bool} {alignments : List Alignment} {caption : Option Bytes}
    (htakes : (Shape.table hasHeader alignments caption).Takes cs) :
    (table (mk (.table hasHeader alignments caption) a cs).members
      (belowOf .table (mk (.table hasHeader alignments caption) a cs).members)).result =
      .ok (mk (.table hasHeader alignments caption) a cs) := by
  have hattrs := attrs_members (n := mk (.table hasHeader alignments caption) a cs) ha
  cases hasHeader with
  | false =>
    have hheader : ((belowOf .table (mk (.table false alignments caption) a cs).members).node?
        (utf8 "header")).result = .ok none := nodeAt?_result (by simp) (by simp)
    have hrows : ((belowOf .table (mk (.table false alignments caption) a cs).members).nodes
        (utf8 "rows")).result = .ok cs := nodesAt_result hcs (by simp)
    exact table_result hheader ha htakes (hattrs _) (by simp) (by simp) hrows
  | true =>
    obtain ⟨header, rows, rfl⟩ := List.exists_cons_of_ne_nil (htakes.1 rfl)
    have hback : ∀ m ∈ some header, ReadsBack m := fun m hm =>
      hcs m (by simp [Option.mem_some_iff.1 hm])
    have hheader : ((belowOf .table
        (mk (.table true alignments caption) a (header :: rows)).members).node?
        (utf8 "header")).result = .ok (some header) := nodeAt?_result hback (by simp)
    have hrows : ((belowOf .table
        (mk (.table true alignments caption) a (header :: rows)).members).nodes
        (utf8 "rows")).result = .ok rows :=
      nodesAt_result (fun m hm => hcs m (List.mem_cons_of_mem header hm)) (by simp)
    exact table_result hheader ha htakes (hattrs _) (by simp) (by simp) hrows

theorem definitionList_members (htakes : Shape.definitionList.Takes cs) :
    (definitionList (mk .definitionList a cs).members
      (belowOf .definitionList (mk .definitionList a cs).members)).result =
      .ok (mk .definitionList a cs) := by
  obtain ⟨hloose, hes⟩ := Node.takes_definitions.1 htakes
  have hback : ∀ e ∈ Node.definitions cs, ReadsBack e.1 ∧ ∀ d ∈ e.2, ReadsBack d :=
    fun e he => ⟨hcs e.1 (Node.mem_of_definitions he).1,
      fun d hd => hcs d ((Node.mem_of_definitions he).2 d hd)⟩
  have hentries : ((belowOf .definitionList (mk .definitionList a cs).members).entries
      (utf8 "items")).result = _ := entriesAt_result hback (by simp [Node.entryRecords_eq])
  have hread := definitionList_result hentries ha hes
    (attrs_members (n := mk .definitionList a cs) ha _)
  have hflat : ((Node.definitions cs).map fun e => e.1 :: e.2).flatten = cs :=
    Node.flatten_definitions hloose
  rwa [hflat] at hread

end

theorem assemble_members {n : Node} (hn : n.Checked) (ha : n.attrs.Objects)
    (hcs : ∀ c ∈ n.children, ReadsBack c) :
    (assemble n.kind n.members (belowOf n.kind n.members)).result = .ok n := by
  have hattrs := attrs_members ha
  have hnodes : ∀ {field}, n.members.get? field = some (.arr (n.children.map toRecord)) →
      ((belowOf n.kind n.members).nodes field).result = .ok n.children := nodesAt_result hcs
  obtain ⟨htakes, hleaf, -⟩ := hn
  obtain ⟨s, a, cs⟩ := n
  cases s with
  | document | paragraph | blockQuote | definitionTerm | definitionDescription | emphasis | strong
  | strikethrough | underline | superscript | subscript =>
    exact container_result ha htakes (hattrs _) (hnodes (by simp))
  | htmlBlock | comment | text | code | htmlInline | commentInline | footnoteReference =>
    obtain rfl : cs = [] := hleaf rfl
    exact literal_result ha trivial (hattrs _) (by simp)
  | mathBlock | mathInline =>
    obtain rfl : cs = [] := hleaf rfl
    exact math_result ha trivial (hattrs _) (by simp) (by simp) (by simp)
  | heading => exact heading_result ha (hattrs _) (by simp) (hnodes (by simp))
  | codeBlock =>
    obtain rfl : cs = [] := hleaf rfl
    exact codeBlock_result ha (hattrs _) (by simp) (by simp) (by simp) (by simp)
  | list =>
    exact list_result ha htakes (hattrs _) (by simp) (by simp) (by simp) (hnodes (by simp))
  | listItem => exact listItem_result ha (hattrs _) (by simp) (hnodes (by simp))
  | table => exact table_members ha hcs htakes
  | tableRow => exact tableRow_result ha htakes (hattrs _) (by simp) (hnodes (by simp))
  | tableCell =>
    exact tableCell_result ha (hattrs _) (by simp) (by simp) (by simp) (hnodes (by simp))
  | thematicBreak =>
    obtain rfl : cs = [] := hleaf rfl
    exact thematicBreak_result ha (hattrs _)
  | footnoteDefinition =>
    exact footnoteDefinition_result ha (hattrs _) (by simp) (hnodes (by simp))
  | definitionList => exact definitionList_members ha hcs htakes
  | link => exact link_result ha (hattrs _) (by simp) (by simp) (hnodes (by simp))
  | image =>
    obtain rfl : cs = [] := hleaf rfl
    exact image_result ha (hattrs _) (by simp) (by simp) (by simp) (by simp) (by simp)
  | lineBreak =>
    obtain rfl : cs = [] := hleaf rfl
    exact lineBreak_result ha (hattrs _) (by simp)

theorem node_obj {kind : Kind} {members : Members}
    (h : members.get? (utf8 "node_type") = some (.str kind.name)) :
    node (.obj members) = rejectAs kind (assemble kind members (belowOf kind members)) := by
  simp only [node, h, Kind.ofName?_name]
  rfl

theorem readsBack {n : Node} (h : n.Recordable) : ReadsBack n := by
  induction n using Node.induct with
  | step s a cs ih =>
    obtain ⟨⟨hchecked, hobjects⟩, hbelow⟩ := Node.all_mk.1 h
    have hcs : ∀ c ∈ cs, ReadsBack c := fun c hc => ih c hc (hbelow c hc)
    rw [ReadsBack, Node.toRecord_obj, node_obj (Node.get?_members_attrs _).1]
    exact Outcome.result_recover_ok _ (assemble_members hchecked hobjects hcs)

end Record

namespace Node

/-- A tree that can be built reads back equal from its record, with the same record again,
exactly when the metadata of all its nodes and of all their places are objects. -/
theorem ofRecord_toRecord_iff {n : Node} (h : n.Built) :
    (∃ m, (ofRecord n.toRecord).result = .ok m ∧ beq m n = true ∧ m.toRecord = n.toRecord) ↔
      ∀ m ∈ n.preorder, m.attrs.metadata.isObject = true ∧
        ∀ l ∈ m.attrs.location, l.metadata.isObject = true := by
  constructor
  · rintro ⟨m, hread, heq, -⟩
    obtain rfl := eq_of_beq heq
    have hm := Record.node_yields _ m hread
    exact fun k hk => (hm k hk).2
  · intro hobjects
    have hback := Record.readsBack fun m hm => ⟨h.checked m hm, hobjects m hm⟩
    exact ⟨n, hback, beq_self n, rfl⟩

def deepHeading (note : Value) : Node :=
  mk (.heading 9) {}
    [mk (.table true [.left] (some [99])) { location := some { format := [104], metadata := note } }
      [mk (.tableRow true) {} []]]

theorem deepHeading_built (note : Value) : (deepHeading note).Built := by
  have hrow : All Checked (mk (.tableRow true) {} []) :=
    all_mk.2 ⟨⟨nofun, nofun, nofun⟩, nofun⟩
  have htable (l : Option Location) :
      All Checked (mk (.table true [.left] (some [99])) { location := l }
        [mk (.tableRow true) {} []]) := by
    rw [all_mk]
    constructor
    · exact ⟨⟨nofun, by simp [kind, Shape.kind]⟩, nofun, nofun⟩
    · simpa using hrow
  rw [built_iff, deepHeading, all_mk]
  constructor
  · exact ⟨trivial, nofun, nofun⟩
  · simpa using htable _

theorem deepHeading_reads_back :
    (∃ m, (ofRecord (deepHeading .empty).toRecord).result = .ok m ∧
      beq m (deepHeading .empty) = true ∧ m.toRecord = (deepHeading .empty).toRecord) ∧
    ¬ ∃ m, (ofRecord (deepHeading .null).toRecord).result = .ok m ∧
      beq m (deepHeading .null) = true ∧ m.toRecord = (deepHeading .null).toRecord := by
  constructor
  · exact (ofRecord_toRecord_iff (deepHeading_built _)).2 (by decide)
  · rw [ofRecord_toRecord_iff (deepHeading_built _)]
    decide

end Node
end Folio
