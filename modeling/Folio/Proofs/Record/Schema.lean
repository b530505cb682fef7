import Folio.Proofs.Record.Level

/-!
# The fields of a record

Which fields the reader of a record looks at, by kind: those that must be there, those that may be
left out, and those that hold further records. A field that may be left out counts as left out when
it is null. Reading depends on the members through these fields alone.
-/

set_option autoImplicit false

namespace Folio

def FieldType.admits : FieldType → Value → Bool
  | .string, .str _ | .boolean, .bool _ | .array, .arr _ | .object, .obj _ => true
  | .integer, v => v.integer?.any Record.isNumber
  | _, _ => false

def Members.given? (name : Bytes) (members : Members) : Option Value :=
  (members.get? name).filter fun v => !v.isNull

namespace Record

/-- The fields without which a record has no meaning, and the fence, which may be left out but
must not be null. -/
def strict : Kind → List Bytes
  | .heading => [utf8 "level"]
  | .codeBlock => [utf8 "content", utf8 "fence_char"]
  | .htmlBlock | .comment | .mathBlock | .text | .code | .htmlInline | .commentInline
  | .mathInline => [utf8 "content"]
  | .footnoteDefinition | .footnoteReference => [utf8 "identifier"]
  | .link | .image => [utf8 "url"]
  | _ => []

/-- The fields of a kind that may be left out or null, with the types of their values. -/
def lenient : Kind → List (Bytes × FieldType)
  | .codeBlock => [(utf8 "language", .string), (utf8 "fence_length", .integer)]
  | .list => [(utf8 "ordered", .boolean), (utf8 "start", .integer), (utf8 "tight", .boolean)]
  | .listItem => [(utf8 "task_status", .string)]
  | .table => [(utf8 "caption", .string)]
  | .tableRow => [(utf8 "is_header", .boolean)]
  | .tableCell =>
    [(utf8 "alignment", .string), (utf8 "colspan", .integer), (utf8 "rowspan", .integer)]
  | .mathBlock | .mathInline => [(utf8 "notation", .string), (utf8 "representations", .object)]
  | .link => [(utf8 "title", .string)]
  | .image =>
    [(utf8 "alt_text", .string), (utf8 "title", .string), (utf8 "width", .integer),
      (utf8 "height", .integer)]
  | .lineBreak => [(utf8 "soft", .boolean)]
  | _ => []

def listed : Kind → Option Bytes
  | .document | .blockQuote | .listItem => some (utf8 "children")
  | .heading | .paragraph | .tableCell | .footnoteDefinition | .definitionTerm
  | .definitionDescription | .emphasis | .strong | .link | .strikethrough | .underline
  | .superscript | .subscript => some (utf8 "content")
  | .list => some (utf8 "items")
  | .table => some (utf8 "rows")
  | .tableRow => some (utf8 "cells")
  | _ => none

def optional (kind : Kind) : List (Bytes × FieldType) :=
  lenient kind ++
    (match kind with
      | .codeBlock => [(utf8 "fence_char", .string)]
      | .table => [(utf8 "header", .object), (utf8 "alignments", .array)]
      | _ => []) ++
    [(utf8 "metadata", .object), (utf8 "source_location", .object)]

def optionalAt : List (Bytes × FieldType) :=
  [(utf8 "page", .integer), (utf8 "line", .integer), (utf8 "column", .integer),
    (utf8 "element_id", .string), (utf8 "metadata", .object)]

section
variable (owner field : Bytes) (members : Members)

theorem given?_eq_get? {members : Members} {field : Bytes}
    (h : members.get? field ≠ some .null) : members.given? field = members.get? field := by
  unfold Members.given?
  cases hv : members.get? field with
  | none => rfl
  | some v => cases v <;> simp_all [Value.isNull]

theorem string?_eq :
    string? owner field members =
      match members.given? field with
      | none => pure none
      | some (.str s) => pure (some s)
      | some _ => refuse (.fieldType owner field .string) := by
  unfold string? Members.given?
  cases members.get? field with
  | none => rfl
  | some v => cases v <;> rfl

theorem integer?_eq :
    integer? owner field members =
      match members.given? field with
      | none => pure none
      | some v => some <$> integerValue owner field v := by
  unfold integer? Members.given?
  cases members.get? field with
  | none => rfl
  | some v => cases v <;> rfl

theorem boolOr_eq (fallback : Bool) :
    boolOr fallback owner field members =
      match members.given? field with
      | none => pure fallback
      | some (.bool b) => pure b
      | some _ => refuse (.fieldType owner field .boolean) := by
  unfold boolOr Members.given?
  cases members.get? field with
  | none => rfl
  | some v => cases v <;> rfl

theorem metadata_eq :
    metadata owner members =
      match members.given? (utf8 "metadata") with
      | none => pure .empty
      | some (.obj ms) => pure (.obj ms)
      | some _ => refuse (.fieldType owner (utf8 "metadata") .object) := by
  unfold metadata Members.given?
  cases members.get? (utf8 "metadata") with
  | none => rfl
  | some v => cases v <;> rfl

theorem representations_eq :
    representations owner members =
      match members.given? (utf8 "representations") with
      | none => pure []
      | some (.obj ms) => representationsFrom owner ms
      | some _ => refuse (.fieldType owner (utf8 "representations") .object) := by
  unfold representations Members.given?
  cases members.get? (utf8 "representations") with
  | none => rfl
  | some v => cases v <;> rfl

theorem alignments_eq :
    alignments members =
      match members.given? (utf8 "alignments") with
      | none => pure []
      | some (.arr vs) => .sequence (vs.map columnAlignment)
      | some _ => refuse (.fieldType Kind.table.name (utf8 "alignments") .array) := by
  unfold alignments Members.given?
  cases members.get? (utf8 "alignments") with
  | none => rfl
  | some v => cases v <;> rfl

theorem attrs_eq :
    attrs owner members = metadata owner members >>= fun metadata =>
      match (members.given? (utf8 "source_location")).map location with
      | none => pure { metadata }
      | some x => x >>= fun l => pure { metadata, location := some l } := by
  unfold attrs Members.given?
  cases members.get? (utf8 "source_location") with
  | none => rfl
  | some v => cases v <;> rfl

theorem node?_eq (r : Reader) (kind : Kind) :
    (Below.reading r kind members).node? field =
      match members.given? field with
      | none => pure none
      | some w => some <$> r w := by
  simp only [Below.reading, Members.given?]
  cases members.get? field with
  | none => rfl
  | some v => cases v <;> rfl

end

section
variable {owner field : Bytes} {kind : Kind} {ms ms' : Members}

theorem string_congr (h : ms.get? field = ms'.get? field) :
    string owner field ms = string owner field ms' := by
  rw [string, string, h]

theorem integer_congr (h : ms.get? field = ms'.get? field) :
    integer owner field ms = integer owner field ms' := by
  rw [integer, integer, h]

theorem fence_congr (h : ms.get? (utf8 "fence_char") = ms'.get? (utf8 "fence_char")) :
    fence ms = fence ms' := by
  rw [fence, fence, h]

theorem string?_congr (h : ms.given? field = ms'.given? field) :
    string? owner field ms = string? owner field ms' := by
  rw [string?_eq, string?_eq, h]

theorem integer?_congr (h : ms.given? field = ms'.given? field) :
    integer? owner field ms = integer? owner field ms' := by
  rw [integer?_eq, integer?_eq, h]

theorem integerOr_congr {fallback : Int32} (h : ms.given? field = ms'.given? field) :
    integerOr fallback owner field ms = integerOr fallback owner field ms' := by
  rw [integerOr, integerOr, integer?_congr h]

theorem boolOr_congr {fallback : Bool} (h : ms.given? field = ms'.given? field) :
    boolOr fallback owner field ms = boolOr fallback owner field ms' := by
  rw [boolOr_eq, boolOr_eq, h]

theorem metadata_congr (h : ms.given? (utf8 "metadata") = ms'.given? (utf8 "metadata")) :
    metadata owner ms = metadata owner ms' := by
  rw [metadata_eq, metadata_eq, h]

theorem attrs_congr (hmetadata : ms.given? (utf8 "metadata") = ms'.given? (utf8 "metadata"))
    (hlocation : (ms.given? (utf8 "source_location")).map location =
      (ms'.given? (utf8 "source_location")).map location) :
    attrs owner ms = attrs owner ms' := by
  rw [attrs_eq, attrs_eq, metadata_congr hmetadata, hlocation]

theorem location_congr (hformat : ms.get? (utf8 "format") = ms'.get? (utf8 "format"))
    (hoptional : ∀ f ∈ optionalAt, ms.given? f.1 = ms'.given? f.1) :
    location (.obj ms) = location (.obj ms') := by
  simp only [optionalAt, List.forall_mem_cons] at hoptional
  obtain ⟨hpage, hline, hcolumn, helement, hmetadata, -⟩ := hoptional
  simp only [location, string_congr hformat, integer?_congr hpage, integer?_congr hline,
    integer?_congr hcolumn, string?_congr helement, metadata_congr hmetadata]

/-- Two records of a kind whose fields read alike. -/
structure Agree (kind : Kind) (ms ms' : Members) : Prop where
  strict : ∀ f ∈ strict kind, ms.get? f = ms'.get? f
  lenient : ∀ f ∈ lenient kind, ms.given? f.1 = ms'.given? f.1
  attrs : attrs kind.name ms = attrs kind.name ms'
  listed : ∀ f ∈ listed kind, listAt node kind f ms = listAt node kind f ms'
  alignments : kind = .table → alignments ms = alignments ms'
  header : kind = .table → (Below.reading node kind ms).node? (utf8 "header") =
    (Below.reading node kind ms').node? (utf8 "header")
  entries : kind = .definitionList → (Below.reading node kind ms).entries (utf8 "items") =
    (Below.reading node kind ms').entries (utf8 "items")

/-- Records agree when their fields hold the same, where null is as good as nothing. -/
theorem Agree.of_fields (hstrict : ∀ f ∈ Record.strict kind, ms.get? f = ms'.get? f)
    (hoptional : ∀ f ∈ optional kind, ms.given? f.1 = ms'.given? f.1)
    (hlisted : ∀ f ∈ Record.listed kind, listAt node kind f ms = listAt node kind f ms')
    (hentries : kind = .definitionList → (Below.reading node kind ms).entries (utf8 "items") =
      (Below.reading node kind ms').entries (utf8 "items")) :
    Agree kind ms ms' where
  strict := hstrict
  lenient f hf := hoptional f (by simp [optional, hf])
  attrs := by
    refine attrs_congr (hoptional (utf8 "metadata", .object) (by simp [optional])) ?_
    rw [hoptional (utf8 "source_location", .object) (by simp [optional])]
  listed := hlisted
  alignments := by
    rintro rfl
    rw [alignments_eq, alignments_eq,
      hoptional (utf8 "alignments", .array) (by simp [optional])]
  header := by
    rintro rfl
    rw [node?_eq, node?_eq, hoptional (utf8 "header", .object) (by simp [optional])]
  entries := hentries

theorem Agree.nodes (h : Agree kind ms ms') (hfield : Record.listed kind = some field) :
    (Below.reading node kind ms).nodes field = (Below.reading node kind ms').nodes field :=
  h.listed field hfield

theorem Agree.container {shape : Shape} (h : Agree shape.kind ms ms')
    (hfield : Record.listed shape.kind = some field) :
    Record.container shape field ms (.reading node shape.kind ms) =
      Record.container shape field ms' (.reading node shape.kind ms') := by
  rw [Record.container, Record.container, h.attrs, h.nodes hfield]

theorem Agree.literal {shape : Bytes → Shape} (h : Agree kind ms ms')
    (hfield : field ∈ Record.strict kind) :
    Record.literal kind field shape ms = Record.literal kind field shape ms' := by
  rw [Record.literal, Record.literal, h.attrs, string_congr (h.strict field hfield)]

theorem Agree.math {shape : Formula → Shape} (h : Agree kind ms ms')
    (hcontent : utf8 "content" ∈ Record.strict kind)
    (hlenient : Record.lenient kind =
      [(utf8 "notation", .string), (utf8 "representations", .object)]) :
    Record.math kind shape ms = Record.math kind shape ms' := by
  have hfields := h.lenient
  rw [hlenient] at hfields
  simp only [List.forall_mem_cons] at hfields
  rw [Record.math, Record.math, h.attrs, formula, formula, representations_eq,
    representations_eq, hfields.2.1, string?_congr hfields.1,
    string_congr (h.strict _ hcontent)]

theorem Agree.heading (h : Agree .heading ms ms') :
    Record.heading ms (.reading node .heading ms) =
      Record.heading ms' (.reading node .heading ms') := by
  have hlevel := h.strict (utf8 "level") List.mem_cons_self
  simp only [Record.heading, integer_congr hlevel, h.attrs, h.nodes rfl]

theorem Agree.codeBlock (h : Agree .codeBlock ms ms') :
    Record.codeBlock ms = Record.codeBlock ms' := by
  have hstrict := h.strict
  have hlenient := h.lenient
  simp only [Record.strict, Record.lenient, List.forall_mem_cons] at hstrict hlenient
  obtain ⟨hcontent, hfence, -⟩ := hstrict
  obtain ⟨hlanguage, hlength, -⟩ := hlenient
  simp only [Record.codeBlock, fence_congr hfence, h.attrs, integerOr_congr hlength,
    string?_congr hlanguage, string_congr hcontent]

theorem Agree.list (h : Agree .list ms ms') :
    Record.list ms (.reading node .list ms) = Record.list ms' (.reading node .list ms') := by
  have hlenient := h.lenient
  simp only [Record.lenient, List.forall_mem_cons] at hlenient
  obtain ⟨hordered, hstart, htight, -⟩ := hlenient
  simp only [Record.list, h.attrs, boolOr_congr htight, integerOr_congr hstart, h.nodes rfl,
    boolOr_congr hordered]

theorem Agree.listItem (h : Agree .listItem ms ms') :
    Record.listItem ms (.reading node .listItem ms) =
      Record.listItem ms' (.reading node .listItem ms') := by
  have hcontainer (s : TaskStatus) :
      Record.container (.listItem s) (utf8 "children") ms (.reading node .listItem ms) =
        Record.container (.listItem s) (utf8 "children") ms' (.reading node .listItem ms') :=
    Agree.container h rfl
  have hstatus := h.lenient (utf8 "task_status", .string) List.mem_cons_self
  simp only [Record.listItem, status, string?_congr hstatus, hcontainer]

theorem Agree.table (h : Agree .table ms ms') :
    Record.table ms (.reading node .table ms) = Record.table ms' (.reading node .table ms') := by
  have hcaption := h.lenient (utf8 "caption", .string) List.mem_cons_self
  simp only [Record.table, h.header rfl, h.alignments rfl, h.attrs, string?_congr hcaption,
    h.nodes rfl]

theorem Agree.tableRow (h : Agree .tableRow ms ms') :
    Record.tableRow ms (.reading node .tableRow ms) =
      Record.tableRow ms' (.reading node .tableRow ms') := by
  have hheader := h.lenient (utf8 "is_header", .boolean) List.mem_cons_self
  simp only [Record.tableRow, h.attrs, boolOr_congr hheader, h.nodes rfl]

theorem Agree.tableCell (h : Agree .tableCell ms ms') :
    Record.tableCell ms (.reading node .tableCell ms) =
      Record.tableCell ms' (.reading node .tableCell ms') := by
  have hlenient := h.lenient
  simp only [Record.lenient, List.forall_mem_cons] at hlenient
  obtain ⟨halignment, hcolspan, hrowspan, -⟩ := hlenient
  simp only [Record.tableCell, cellAlignment, string?_congr halignment, h.attrs,
    integerOr_congr hcolspan, integerOr_congr hrowspan, h.nodes rfl]

theorem Agree.footnoteDefinition (h : Agree .footnoteDefinition ms ms') :
    Record.footnoteDefinition ms (.reading node .footnoteDefinition ms) =
      Record.footnoteDefinition ms' (.reading node .footnoteDefinition ms') := by
  have hidentifier := h.strict (utf8 "identifier") List.mem_cons_self
  simp only [Record.footnoteDefinition, h.attrs, h.nodes rfl, string_congr hidentifier]

theorem Agree.definitionList (h : Agree .definitionList ms ms') :
    Record.definitionList ms (.reading node .definitionList ms) =
      Record.definitionList ms' (.reading node .definitionList ms') := by
  simp only [Record.definitionList, h.entries rfl, h.attrs]

theorem Agree.link (h : Agree .link ms ms') :
    Record.link ms (.reading node .link ms) = Record.link ms' (.reading node .link ms') := by
  have hurl := h.strict (utf8 "url") List.mem_cons_self
  have htitle := h.lenient (utf8 "title", .string) List.mem_cons_self
  simp only [Record.link, h.attrs, string?_congr htitle, h.nodes rfl, string_congr hurl]

theorem Agree.image (h : Agree .image ms ms') : Record.image ms = Record.image ms' := by
  have hlenient := h.lenient
  simp only [Record.lenient, List.forall_mem_cons] at hlenient
  obtain ⟨halt, htitle, hwidth, hheight, -⟩ := hlenient
  have hurl := h.strict (utf8 "url") List.mem_cons_self
  simp only [Record.image, h.attrs, integer?_congr hheight, integer?_congr hwidth,
    string?_congr htitle, string?_congr halt, string_congr hurl]

theorem Agree.thematicBreak (h : Agree .thematicBreak ms ms') :
    Record.thematicBreak ms = Record.thematicBreak ms' := by
  rw [Record.thematicBreak, Record.thematicBreak, h.attrs]

theorem Agree.lineBreak (h : Agree .lineBreak ms ms') :
    Record.lineBreak ms = Record.lineBreak ms' := by
  have hsoft := h.lenient (utf8 "soft", .boolean) List.mem_cons_self
  simp only [Record.lineBreak, h.attrs, boolOr_congr hsoft]

theorem Agree.assemble (h : Agree kind ms ms') :
    Record.assemble kind ms (.reading node kind ms) =
      Record.assemble kind ms' (.reading node kind ms') := by
  cases kind with
  | document | paragraph | blockQuote | definitionTerm | definitionDescription | emphasis | strong
  | strikethrough | underline | superscript | subscript => exact Agree.container h rfl
  | htmlBlock | comment | text | code | htmlInline | commentInline | footnoteReference =>
    exact h.literal List.mem_cons_self
  | mathBlock | mathInline => exact h.math List.mem_cons_self rfl
  | heading => exact h.heading
  | codeBlock => exact h.codeBlock
  | list => exact h.list
  | listItem => exact h.listItem
  | table => exact h.table
  | tableRow => exact h.tableRow
  | tableCell => exact h.tableCell
  | footnoteDefinition => exact h.footnoteDefinition
  | definitionList => exact h.definitionList
  | link => exact h.link
  | image => exact h.image
  | thematicBreak => exact h.thematicBreak
  | lineBreak => exact h.lineBreak

theorem Agree.node_eq (h : Agree kind ms ms') (hms : Names ms kind) (hms' : Names ms' kind) :
    node (.obj ms) = node (.obj ms') := by
  rw [node_named hms, node_named hms', h.assemble]

end

end Record
end Folio
