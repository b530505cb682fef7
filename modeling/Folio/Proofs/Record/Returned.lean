import Mathlib.Data.List.Basic
import Folio.Proofs.Record.Schema

/-!
# What reading has found when it returns

Reading a record returns only when each of its fields could be read: those that may be left out
hold a value of their type, if anything, and the records in the others have been read in turn.
-/

set_option autoImplicit false

namespace Folio
namespace Record

def Fits (type : FieldType) (v? : Option Value) : Prop := ∀ v ∈ v?, type.admits v = true

section
variable {owner field : Bytes} {kind : Kind} {ms : Members} {below : Below}

open Outcome (Yields result_bind_eq_ok yields_map yields_pure yields_raise yields_bind yields_after)

theorem fits_none (type : FieldType) : Fits type none := nofun

theorem fits_some {type : FieldType} {v : Value} (h : type.admits v = true) :
    Fits type (some v) := by
  rintro _ ⟨⟩
  exact h

theorem string?_fits :
    (string? owner field ms).Yields fun _ => Fits .string (ms.given? field) := by
  rw [string?_eq]
  generalize ms.given? field = v?
  split
  · exact yields_pure (fits_none _)
  · exact yields_pure (fits_some rfl)
  · exact yields_raise _ _

theorem integerValue_admits {v : Value} :
    (integerValue owner field v).Yields fun _ => FieldType.integer.admits v = true := by
  unfold integerValue
  split
  · next n hn =>
    obtain ⟨hinteger, hnumber⟩ := Option.filter_eq_some_iff.1 hn
    refine yields_pure ?_
    show v.integer?.any isNumber = true
    rw [hinteger]
    exact hnumber
  · exact yields_raise _ _

theorem integer?_fits :
    (integer? owner field ms).Yields fun _ => Fits .integer (ms.given? field) := by
  rw [integer?_eq]
  generalize ms.given? field = v?
  split
  · exact yields_pure (fits_none _)
  · exact yields_map fun a ha => fits_some (integerValue_admits a ha)

theorem integerOr_fits {fallback : Int32} :
    (integerOr fallback owner field ms).Yields fun _ => Fits .integer (ms.given? field) :=
  yields_map integer?_fits

theorem boolOr_fits {fallback : Bool} :
    (boolOr fallback owner field ms).Yields fun _ => Fits .boolean (ms.given? field) := by
  rw [boolOr_eq]
  generalize ms.given? field = v?
  split
  · exact yields_pure (fits_none _)
  · exact yields_pure (fits_some rfl)
  · exact yields_raise _ _

theorem metadata_fits :
    (metadata owner ms).Yields fun _ => Fits .object (ms.given? (utf8 "metadata")) := by
  rw [metadata_eq]
  generalize ms.given? (utf8 "metadata") = v?
  split
  · exact yields_pure (fits_none _)
  · exact yields_pure (fits_some rfl)
  · exact yields_raise _ _

theorem status_fits :
    (status ms).Yields fun _ => Fits .string (ms.given? (utf8 "task_status")) :=
  yields_bind string?_fits fun _ h _ _ => h

theorem cellAlignment_fits :
    (cellAlignment ms).Yields fun _ => Fits .string (ms.given? (utf8 "alignment")) :=
  yields_bind string?_fits fun _ h _ _ => h

theorem alignments_fits :
    (alignments ms).Yields fun _ => Fits .array (ms.given? (utf8 "alignments")) := by
  rw [alignments_eq]
  generalize ms.given? (utf8 "alignments") = v?
  split
  · exact yields_pure (fits_none _)
  · exact fun _ _ => fits_some rfl
  · exact yields_raise _ _

theorem fence_fits : (fence ms).Yields fun _ => Fits .string (ms.get? (utf8 "fence_char")) := by
  unfold fence
  generalize ms.get? (utf8 "fence_char") = v?
  split
  · exact yields_pure (fits_none _)
  · exact yields_pure (fits_some rfl)
  · exact yields_raise _ _
  · exact yields_raise _ _

theorem representationsFrom_texts {reps : Members} :
    (representationsFrom owner reps).Yields fun _ =>
      ∀ rep ∈ reps, FieldType.string.admits rep.2 = true := by
  induction reps with
  | nil => exact yields_pure nofun
  | cons rep reps ih =>
    obtain ⟨dialect, v⟩ := rep
    cases v with
    | str s =>
      refine yields_bind ih fun _ hreps => yields_pure ?_
      exact List.forall_mem_cons.2 ⟨rfl, hreps⟩
    | _ => exact yields_raise _ _

def Texts (v? : Option Value) : Prop :=
  ∀ v ∈ v?, ∃ reps, v = .obj reps ∧ ∀ rep ∈ reps, FieldType.string.admits rep.2 = true

theorem representations_texts :
    (representations owner ms).Yields fun _ => Texts (ms.given? (utf8 "representations")) := by
  rw [representations_eq]
  generalize ms.given? (utf8 "representations") = v?
  split
  · exact yields_pure nofun
  · intro reps hreps v hv
    exact ⟨_, (Option.some.inj hv).symm, representationsFrom_texts reps hreps⟩
  · exact yields_raise _ _

theorem Texts.fits {v? : Option Value} (h : Texts v?) : Fits .object v? := by
  intro v hv
  obtain ⟨reps, rfl, -⟩ := h v hv
  rfl

/-- The fields that are read in a way of their own. -/
def Own : Kind → Members → Below → Prop
  | .codeBlock, ms, _ => Fits .string (ms.get? (utf8 "fence_char"))
  | .table, ms, below => Fits .array (ms.given? (utf8 "alignments")) ∧
      ∃ o, (below.node? (utf8 "header")).result = .ok o
  | .definitionList, _, below => ∃ es, (below.entries (utf8 "items")).result = .ok es
  | .mathBlock, ms, _ | .mathInline, ms, _ => Texts (ms.given? (utf8 "representations"))
  | _, _, _ => True

/-- All fields of a record could be read. -/
structure Returned (kind : Kind) (ms : Members) (below : Below) : Prop where
  attrs : ∃ a, (attrs kind.name ms).result = .ok a
  lenient : (lenient kind).Forall fun f => Fits f.2 (ms.given? f.1)
  listed : (listed kind).elim True fun f => ∃ ns, (below.nodes f).result = .ok ns
  own : Own kind ms below

theorem yields_returned {α : Type} {x : Outcome α} : x.Yields fun _ => ∃ a, x.result = .ok a :=
  fun a ha => ⟨a, ha⟩

theorem container_returned {shape : Shape} (hlisted : Record.listed shape.kind = some field)
    (hlenient : (Record.lenient shape.kind).Forall fun f => Fits f.2 (ms.given? f.1))
    (hown : Own shape.kind ms below) :
    (Record.container shape field ms below).Yields fun _ => Returned shape.kind ms below := by
  refine yields_bind yields_returned fun _ hattrs => ?_
  refine yields_bind yields_returned fun ns hns _ _ => ?_
  refine ⟨hattrs, hlenient, ?_, hown⟩
  rw [hlisted]
  exact hns

theorem formula_fits :
    (formula owner ms).Yields fun _ => Texts (ms.given? (utf8 "representations")) ∧
      Fits .string (ms.given? (utf8 "notation")) := by
  refine yields_bind representations_texts fun _ hreps => ?_
  exact yields_bind string?_fits fun _ hnotation _ _ => ⟨hreps, hnotation⟩

theorem heading_returned :
    (heading ms below).Yields fun _ => Returned .heading ms below := by
  have hbody {f : Attrs → List Node → Outcome Node} :
      (Record.attrs Kind.heading.name ms >>= fun a =>
        below.nodes (utf8 "content") >>= f a).Yields fun _ => Returned .heading ms below := by
    refine yields_bind yields_returned fun _ hattrs => ?_
    refine yields_bind yields_returned fun ns hns _ _ => ?_
    exact ⟨hattrs, trivial, hns, trivial⟩
  refine yields_after fun level => ?_
  split
  · exact hbody
  · exact yields_after fun _ => hbody

theorem codeBlock_returned :
    (codeBlock ms).Yields fun _ => Returned .codeBlock ms below := by
  refine yields_bind fence_fits fun _ hfence => ?_
  refine yields_bind yields_returned fun _ hattrs => ?_
  refine yields_bind integerOr_fits fun _ hlength => ?_
  refine yields_bind string?_fits fun _ hlanguage _ _ => ?_
  exact ⟨hattrs, ⟨hlanguage, hlength⟩, trivial, hfence⟩

theorem list_returned : (list ms below).Yields fun _ => Returned .list ms below := by
  refine yields_bind yields_returned fun _ hattrs => ?_
  refine yields_bind boolOr_fits fun _ htight => ?_
  refine yields_bind integerOr_fits fun _ hstart => ?_
  refine yields_bind yields_returned fun ns hns => ?_
  refine yields_bind boolOr_fits fun _ hordered _ _ => ?_
  exact ⟨hattrs, ⟨hordered, hstart, htight⟩, hns, trivial⟩

theorem listItem_returned :
    (listItem ms below).Yields fun _ => Returned .listItem ms below := by
  refine yields_bind status_fits fun s hstatus => ?_
  exact container_returned rfl hstatus trivial

theorem table_returned : (table ms below).Yields fun _ => Returned .table ms below := by
  refine yields_bind yields_returned fun _ hheader => ?_
  refine yields_bind alignments_fits fun _ halignments => ?_
  refine yields_bind yields_returned fun _ hattrs => ?_
  refine yields_bind string?_fits fun _ hcaption => ?_
  refine yields_bind yields_returned fun ns hns _ _ => ?_
  exact ⟨hattrs, hcaption, hns, halignments, hheader⟩

theorem tableRow_returned :
    (tableRow ms below).Yields fun _ => Returned .tableRow ms below := by
  refine yields_bind yields_returned fun _ hattrs => ?_
  refine yields_bind boolOr_fits fun _ hheader => ?_
  refine yields_bind yields_returned fun ns hns _ _ => ?_
  exact ⟨hattrs, hheader, hns, trivial⟩

theorem tableCell_returned :
    (tableCell ms below).Yields fun _ => Returned .tableCell ms below := by
  refine yields_bind cellAlignment_fits fun _ halignment => ?_
  refine yields_bind yields_returned fun _ hattrs => ?_
  refine yields_bind integerOr_fits fun _ hrowspan => ?_
  refine yields_bind integerOr_fits fun _ hcolspan => ?_
  refine yields_bind yields_returned fun ns hns _ _ => ?_
  exact ⟨hattrs, ⟨halignment, hcolspan, hrowspan⟩, hns, trivial⟩

theorem footnoteDefinition_returned :
    (footnoteDefinition ms below).Yields fun _ => Returned .footnoteDefinition ms below := by
  refine yields_bind yields_returned fun _ hattrs => ?_
  refine yields_bind yields_returned fun ns hns _ _ => ?_
  exact ⟨hattrs, trivial, hns, trivial⟩

theorem definitionList_returned :
    (definitionList ms below).Yields fun _ => Returned .definitionList ms below := by
  refine yields_bind yields_returned fun _ hentries => ?_
  refine yields_bind yields_returned fun _ hattrs _ _ => ?_
  exact ⟨hattrs, trivial, trivial, hentries⟩

theorem link_returned : (link ms below).Yields fun _ => Returned .link ms below := by
  refine yields_bind yields_returned fun _ hattrs => ?_
  refine yields_bind string?_fits fun _ htitle => ?_
  refine yields_bind yields_returned fun ns hns _ _ => ?_
  exact ⟨hattrs, htitle, hns, trivial⟩

theorem image_returned : (image ms).Yields fun _ => Returned .image ms below := by
  refine yields_bind yields_returned fun _ hattrs => ?_
  refine yields_bind integer?_fits fun _ hheight => ?_
  refine yields_bind integer?_fits fun _ hwidth => ?_
  refine yields_bind string?_fits fun _ htitle => ?_
  refine yields_bind string?_fits fun _ halt _ _ => ?_
  exact ⟨hattrs, ⟨halt, htitle, hwidth, hheight⟩, trivial, trivial⟩

theorem lineBreak_returned : (lineBreak ms).Yields fun _ => Returned .lineBreak ms below := by
  refine yields_bind yields_returned fun _ hattrs => ?_
  refine yields_bind boolOr_fits fun _ hsoft _ _ => ?_
  exact ⟨hattrs, hsoft, trivial, trivial⟩

theorem assemble_returned :
    (Record.assemble kind ms below).Yields fun _ => Returned kind ms below := by
  cases kind with
  | document | paragraph | blockQuote | definitionTerm | definitionDescription | emphasis | strong
  | strikethrough | underline | superscript | subscript =>
    exact container_returned rfl trivial trivial
  | htmlBlock | comment | text | code | htmlInline | commentInline | footnoteReference
  | thematicBreak =>
    exact yields_bind yields_returned fun _ hattrs _ _ => ⟨hattrs, trivial, trivial, trivial⟩
  | mathBlock | mathInline =>
    refine yields_bind yields_returned fun _ hattrs => ?_
    refine yields_bind formula_fits fun _ hs _ _ => ?_
    exact ⟨hattrs, ⟨hs.2, hs.1.fits⟩, trivial, hs.1⟩
  | heading => exact heading_returned
  | codeBlock => exact codeBlock_returned
  | list => exact list_returned
  | listItem => exact listItem_returned
  | table => exact table_returned
  | tableRow => exact tableRow_returned
  | tableCell => exact tableCell_returned
  | footnoteDefinition => exact footnoteDefinition_returned
  | definitionList => exact definitionList_returned
  | link => exact link_returned
  | image => exact image_returned
  | lineBreak => exact lineBreak_returned

theorem location_returned :
    (location (.obj ms)).Yields fun _ => ∀ f ∈ optionalAt, Fits f.2 (ms.given? f.1) := by
  refine yields_after fun _ => ?_
  refine yields_bind integer?_fits fun _ hpage => ?_
  refine yields_bind integer?_fits fun _ hline => ?_
  refine yields_bind integer?_fits fun _ hcolumn => ?_
  refine yields_bind string?_fits fun _ helement => ?_
  refine yields_bind metadata_fits fun _ hmetadata _ _ => ?_
  simp [optionalAt, hpage, hline, hcolumn, helement, hmetadata]

theorem attrs_returned :
    (Record.attrs owner ms).Yields fun _ => Fits .object (ms.given? (utf8 "metadata")) ∧
      ∀ v ∈ ms.given? (utf8 "source_location"), ∃ l, (location v).result = .ok l := by
  rw [attrs_eq]
  refine yields_bind metadata_fits fun _ hmetadata => ?_
  generalize ms.given? (utf8 "source_location") = v?
  cases v? with
  | none => exact yields_pure ⟨hmetadata, nofun⟩
  | some v =>
    refine yields_bind yields_returned fun _ hlocation _ _ => ⟨hmetadata, ?_⟩
    rintro _ ⟨⟩
    exact hlocation

theorem node_returned (hms : Names ms kind) :
    (node (.obj ms)).Yields fun _ => Returned kind ms (.reading node kind ms) := by
  rw [node_named hms]
  refine Outcome.yields_recover assemble_returned fun e => ?_
  cases e <;> exact yields_raise _ _

end
end Record
end Folio
