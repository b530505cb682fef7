import Folio.Proofs.Record.Refusal
import Folio.Proofs.Record.Returned

/-!
# Fields that may be left out

A record may stand in a field of another record, at any depth, and a location in a field of a
record. Wherever it stands, the whole reads the same when a field that may be left out is null and
when it is absent, the fence of a code block apart, and the whole is refused when the field holds
a value that is not of its type. The elements of the alignments of a table escape this: what is no
string among them is read like the name of no alignment.
-/

set_option autoImplicit false

namespace Folio
namespace Record

section
variable {field other : Bytes} {v : Value} {ms : Members}

@[simp] theorem get?_insert_self : (ms.insert field v).get? field = some v := by
  rw [Members.get?_insert, if_pos rfl]

theorem get?_insert_ne (h : field ≠ other) : (ms.insert field v).get? other = ms.get? other := by
  rw [Members.get?_insert, if_neg h]

theorem given?_insert_ne (h : field ≠ other) :
    (ms.insert field v).given? other = ms.given? other := by
  rw [Members.given?, get?_insert_ne h, Members.given?]

theorem get?_insert_both {v' : Value} (h : field ≠ other) :
    (ms.insert field v).get? other = (ms.insert field v').get? other := by
  rw [get?_insert_ne h, get?_insert_ne h]

theorem given?_insert_both {v' : Value} (h : field ≠ other) :
    (ms.insert field v).given? other = (ms.insert field v').given? other := by
  rw [given?_insert_ne h, given?_insert_ne h]

theorem given?_insert_self (h : v ≠ .null) : (ms.insert field v).given? field = some v := by
  rw [given?_eq_get?, get?_insert_self]
  simpa using h

theorem given?_insert_null : (ms.insert field .null).given? field = none := by
  simp [Members.given?, Value.isNull]

theorem given?_absent (h : ms.get? field = none) : ms.given? field = none := by
  simp [Members.given?, h]

end

theorem listed_apart {kind : Kind} {field : Bytes} (h : listed kind = some field) :
    field ≠ utf8 "node_type" ∧ field ∉ strict kind ∧ ∀ f ∈ optional kind, field ≠ f.1 := by
  cases kind <;> simp only [listed, Option.some.injEq, reduceCtorEq] at h <;> subst h <;>
    simp [strict, optional, lenient]

theorem optional_apart {kind : Kind} {f : Bytes × FieldType} (h : f ∈ optional kind) :
    f.1 ≠ utf8 "node_type" ∧ (f.1 ∈ strict kind → f.1 = utf8 "fence_char") ∧
      listed kind ≠ some f.1 ∧ (kind = .definitionList → f.1 ≠ utf8 "items") := by
  revert f
  cases kind <;> simp [strict, optional, lenient, listed]

/-- A record with a place for a record in it, as the values that it is for what stands there. -/
inductive Hole : (Members → Value) → Prop
  | top : Hole .obj
  | item {C : Members → Value} {kind : Kind} {outer : Members} {field : Bytes}
      (names : Names outer kind) (list : listed kind = some field) (before after : List Value)
      (inner : Hole C) :
      Hole fun ms => .obj (outer.insert field (.arr (before ++ C ms :: after)))
  | header {C : Members → Value} {outer : Members} (names : Names outer .table) (inner : Hole C) :
      Hole fun ms => .obj (outer.insert (utf8 "header") (C ms))
  | term {C : Members → Value} {outer : Members} (names : Names outer .definitionList)
      (before after : List Value) (pair : Members) (inner : Hole C) :
      Hole fun ms => .obj (outer.insert (utf8 "items")
        (.arr (before ++ .obj (pair.insert (utf8 "term") (C ms)) :: after)))
  | description {C : Members → Value} {outer : Members} (names : Names outer .definitionList)
      (before after : List Value) (pair : Members) (above below : List Value) (inner : Hole C) :
      Hole fun ms => .obj (outer.insert (utf8 "items") (.arr (before ++
        .obj (pair.insert (utf8 "descriptions") (.arr (above ++ C ms :: below))) :: after)))

section
variable {kind : Kind} {field : Bytes} {outer ms ms' : Members} {v v' : Value}
  {C : Members → Value}

theorem Names.insert (h : Names outer kind) (hfield : field ≠ utf8 "node_type") :
    Names (outer.insert field v) kind :=
  (get?_insert_ne hfield).trans h

theorem Hole.ne_null (hC : Hole C) (ms : Members) : C ms ≠ .null := by
  cases hC <;> nofun

theorem Agree.insert (hstrict : field ∉ Record.strict kind)
    (hoptional : ∀ f ∈ optional kind, field ≠ f.1)
    (hlisted : Record.listed kind = some field →
      listAt node kind field (outer.insert field v) =
        listAt node kind field (outer.insert field v'))
    (hentries : kind = .definitionList →
      (Below.reading node kind (outer.insert field v)).entries (utf8 "items") =
        (Below.reading node kind (outer.insert field v')).entries (utf8 "items")) :
    Agree kind (outer.insert field v) (outer.insert field v') := by
  refine .of_fields ?_ ?_ ?_ hentries
  · exact fun f hf => get?_insert_both fun h => hstrict (h ▸ hf)
  · exact fun f hf => given?_insert_both (hoptional f hf)
  · intro f hf
    by_cases h : field = f
    · subst h
      exact hlisted hf
    · rw [listAt, listAt, get?_insert_both h]

theorem items_apart : utf8 "items" ≠ utf8 "node_type" ∧
    utf8 "items" ∉ strict .definitionList ∧
    ∀ f ∈ optional .definitionList, utf8 "items" ≠ f.1 := by
  simp [strict, optional, lenient]

theorem Agree.items (before after : List Value)
    (h : entry node .definitionList v = entry node .definitionList v') :
    Agree .definitionList (outer.insert (utf8 "items") (.arr (before ++ v :: after)))
      (outer.insert (utf8 "items") (.arr (before ++ v' :: after))) := by
  refine .insert items_apart.2.1 items_apart.2.2 nofun fun _ => ?_
  simp [Below.reading, h]

theorem Agree.of_table (hfield : field = utf8 "header" ∨ field = utf8 "alignments")
    (hheader : (Below.reading node .table (outer.insert field v)).node? (utf8 "header") =
      (Below.reading node .table (outer.insert field v')).node? (utf8 "header"))
    (halignments : Record.alignments (outer.insert field v) =
      Record.alignments (outer.insert field v')) :
    Agree .table (outer.insert field v) (outer.insert field v') := by
  have hne {other : Bytes} (h : other ∈ [utf8 "caption", utf8 "metadata",
      utf8 "source_location", utf8 "rows"]) : field ≠ other := by
    rcases hfield with rfl | rfl <;> (rintro rfl; simp at h)
  constructor
  case strict => simp [Record.strict]
  case lenient => exact List.forall_mem_singleton.2 (given?_insert_both (hne (by simp)))
  case attrs =>
    exact attrs_congr (given?_insert_both (hne (by simp)))
      (congrArg (Option.map location) (given?_insert_both (hne (by simp))))
  case listed =>
    rintro _ ⟨⟩
    rw [listAt, listAt, get?_insert_both (hne (by simp))]
  case alignments => exact fun _ => halignments
  case header => exact fun _ => hheader
  case entries =>
    intro h
    cases h

/-- The whole depends on the record in a place only through the reading of that record. -/
theorem Hole.congr (hC : Hole C) (h : node (.obj ms) = node (.obj ms')) :
    node (C ms) = node (C ms') := by
  induction hC with
  | top => exact h
  | item names list before after inner ih =>
    obtain ⟨htype, hstrict, hoptional⟩ := listed_apart list
    refine Agree.node_eq (.insert hstrict hoptional (fun _ => ?_) ?_) (names.insert htype)
      (names.insert htype)
    · simp [listAt, ih]
    · rintro rfl
      cases list
  | @header C outer names inner ih =>
    have hnode (ms : Members) : (outer.insert (utf8 "header") (C ms)).given? (utf8 "header") =
        some (C ms) := given?_insert_self (inner.ne_null ms)
    refine Agree.node_eq (.of_table (.inl rfl) ?_ ?_) (names.insert (by simp))
      (names.insert (by simp))
    · simp only [node?_eq, hnode, ih]
    · rw [alignments_eq, alignments_eq, given?_insert_both (by simp)]
  | term names before after pair inner ih =>
    refine Agree.node_eq (.items before after ?_) (names.insert items_apart.1)
      (names.insert items_apart.1)
    simp [entry, recordAt, listAt, get?_insert_ne, ih]
  | description names before after pair above below inner ih =>
    refine Agree.node_eq (.items before after ?_) (names.insert items_apart.1)
      (names.insert items_apart.1)
    simp [entry, recordAt, listAt, get?_insert_ne, ih]

theorem returned_of_sequence {α : Type} {xs : List (Outcome α)} {x : Outcome α}
    (h : ∃ as, (Outcome.sequence xs).result = .ok as) (hx : x ∈ xs) : ∃ a, x.result = .ok a := by
  rw [← Outcome.failure?_eq_none] at h ⊢
  rw [Outcome.failure?_sequence, List.findSome?_eq_none_iff] at h
  exact h x hx

theorem entry_of_items {before after : List Value}
    (h : Returned .definitionList (outer.insert (utf8 "items") (.arr (before ++ v :: after)))
      (.reading node .definitionList
        (outer.insert (utf8 "items") (.arr (before ++ v :: after))))) :
    ∃ e, (entry node .definitionList v).result = .ok e := by
  have hitems : ∃ es, (Below.entries _ (utf8 "items")).result = .ok es := h.own
  simp only [Below.reading, get?_insert_self] at hitems
  exact returned_of_sequence hitems (by simp)

theorem Hole.returned (hC : Hole C) (h : ∃ n, (node (C ms)).result = .ok n) :
    ∃ n, (node (.obj ms)).result = .ok n := by
  induction hC with
  | top => exact h
  | item names list before after inner ih =>
    obtain ⟨n, hn⟩ := h
    have hlist := (node_returned (names.insert (listed_apart list).1) n hn).listed
    simp only [list, Option.elim_some, Below.reading, listAt, get?_insert_self] at hlist
    exact ih (returned_of_sequence hlist (by simp))
  | @header C outer names inner ih =>
    obtain ⟨n, hn⟩ := h
    have hheader := (node_returned (names.insert (by simp)) n hn).own.2
    simp only [node?_eq, given?_insert_self (inner.ne_null ms)] at hheader
    rw [← Outcome.failure?_eq_none, Outcome.failure?_map, Outcome.failure?_eq_none] at hheader
    exact ih hheader
  | term names before after pair inner ih =>
    obtain ⟨n, hn⟩ := h
    obtain ⟨e, he⟩ := entry_of_items (node_returned (names.insert items_apart.1) n hn)
    obtain ⟨t, ht, -⟩ := Outcome.result_bind_eq_ok.1 he
    simp only [recordAt, get?_insert_self] at ht
    exact ih ⟨t, ht⟩
  | description names before after pair above below inner ih =>
    obtain ⟨n, hn⟩ := h
    obtain ⟨e, he⟩ := entry_of_items (node_returned (names.insert items_apart.1) n hn)
    obtain ⟨t, -, ht⟩ := Outcome.result_bind_eq_ok.1 he
    obtain ⟨ds, hds, -⟩ := Outcome.result_bind_eq_ok.1 ht
    simp only [listAt, get?_insert_self] at hds
    exact ih (returned_of_sequence ⟨ds, hds⟩ (by simp))

end

inductive Owner where
  | node (kind : Kind)
  | location

def Owner.optional : Owner → List (Bytes × FieldType)
  | .node kind => Record.optional kind
  | .location => optionalAt

/-- The members say what they are the fields of; those of a location need not. -/
def Owner.Reads : Owner → Members → Prop
  | .node kind, ms => Names ms kind
  | .location, _ => True

/-- A record with a place in it for the members of an owner. -/
inductive Seat : Owner → (Members → Value) → Prop
  | node {C : Members → Value} (kind : Kind) (inner : Hole C) : Seat (.node kind) C
  | location {C : Members → Value} {kind : Kind} {outer : Members} (names : Names outer kind)
      (inner : Hole C) :
      Seat .location fun ms => C (outer.insert (utf8 "source_location") (.obj ms))

section
variable {owner : Owner} {C : Members → Value} {ms : Members} {f : Bytes × FieldType} {v : Value}

theorem given?_insert_absent {field other : Bytes} (h : ms.get? field = none) :
    (ms.insert field .null).given? other = ms.given? other := by
  by_cases hne : field = other
  · subst hne
    rw [given?_insert_null, given?_absent h]
  · exact given?_insert_ne hne

theorem location_apart (kind : Kind) : utf8 "source_location" ∉ strict kind ∧
    (∀ f ∈ lenient kind, utf8 "source_location" ≠ f.1) ∧
    listed kind ≠ some (utf8 "source_location") := by
  cases kind <;> simp [strict, lenient, listed]

theorem optionalAt_apart (h : f ∈ optionalAt) :
    f.1 ≠ utf8 "format" ∧ f.1 ≠ utf8 "fence_char" := by
  revert f
  simp [optionalAt]

theorem Agree.location {kind : Kind} {outer ms ms' : Members}
    (h : Record.location (.obj ms) = Record.location (.obj ms')) :
    Agree kind (outer.insert (utf8 "source_location") (.obj ms))
      (outer.insert (utf8 "source_location") (.obj ms')) := by
  obtain ⟨hstrict, hlenient, hlisted⟩ := location_apart kind
  have hgiven (ms : Members) : (outer.insert (utf8 "source_location") (.obj ms)).given?
      (utf8 "source_location") = some (.obj ms) := given?_insert_self nofun
  constructor
  case strict => exact fun g hg => get?_insert_both fun h => hstrict (h ▸ hg)
  case lenient => exact fun g hg => given?_insert_both (hlenient g hg)
  case attrs =>
    refine attrs_congr (given?_insert_both (by simp)) ?_
    simp only [hgiven, Option.map_some, h]
  case listed =>
    intro g hg
    have hne : utf8 "source_location" ≠ g := fun h => hlisted (h ▸ hg)
    rw [listAt, listAt, get?_insert_both hne]
  case alignments =>
    intro
    rw [alignments_eq, alignments_eq, given?_insert_both (by simp)]
  case header =>
    intro
    rw [node?_eq, node?_eq, given?_insert_both (by simp)]
  case entries =>
    intro
    simp only [Below.reading]
    rw [get?_insert_both (by simp)]

/-- A field that is absent and the same field set to null read the same. -/
theorem Seat.absent (hC : Seat owner C) (hms : owner.Reads ms) (hf : f ∈ owner.optional)
    (hfence : f.1 ≠ utf8 "fence_char") (habsent : ms.get? f.1 = none) :
    Record.node (C ms) = Record.node (C (ms.insert f.1 .null)) := by
  cases hC with
  | node kind inner =>
    obtain ⟨htype, hstrict, hlisted, hitems⟩ := optional_apart hf
    refine inner.congr (Agree.node_eq (.of_fields ?_ ?_ ?_ ?_) hms (Names.insert hms htype))
    · intro g hg
      have hne : f.1 ≠ g := fun h => hfence (hstrict (h ▸ hg))
      exact (get?_insert_ne hne).symm
    · exact fun g _ => (given?_insert_absent habsent).symm
    · intro g hg
      have hne : f.1 ≠ g := fun h => hlisted (h ▸ hg)
      rw [listAt, listAt, get?_insert_ne hne]
    · intro hkind
      simp only [Below.reading, get?_insert_ne (hitems hkind)]
  | location names inner =>
    have hlocation : Record.location (.obj ms) = Record.location (.obj (ms.insert f.1 .null)) :=
      location_congr (get?_insert_ne (optionalAt_apart hf).1).symm
        fun g _ => (given?_insert_absent habsent).symm
    exact inner.congr
      (Agree.node_eq (.location hlocation) (names.insert (by simp)) (names.insert (by simp)))

theorem Fits.given? {type : FieldType} {field : Bytes} (h : Fits type (ms.get? field)) :
    Fits type (ms.given? field) :=
  fun v hv => h v (Option.mem_filter_iff.1 hv).1

theorem object_of_node {v : Value} (h : ∃ n, (Record.node v).result = .ok n) :
    FieldType.object.admits v = true := by
  cases v with
  | obj ms => rfl
  | _ => exact nomatch h

theorem object_of_location {v : Value} (h : ∃ l, (Record.location v).result = .ok l) :
    FieldType.object.admits v = true := by
  cases v with
  | obj ms => rfl
  | _ => exact nomatch h

theorem Returned.fits {kind : Kind} (h : Returned kind ms (.reading Record.node kind ms))
    (hf : f ∈ Record.optional kind) : Fits f.2 (ms.given? f.1) := by
  obtain ⟨a, ha⟩ := h.attrs
  obtain ⟨hmetadata, hlocation⟩ := attrs_returned a ha
  simp only [Record.optional, List.mem_append, List.mem_cons, List.not_mem_nil, or_false] at hf
  rcases hf with (hf | hf) | rfl | rfl
  · exact List.forall_iff_forall_mem.1 h.lenient f hf
  · split at hf
    · obtain rfl := List.mem_singleton.1 hf
      exact Fits.given? h.own
    · obtain rfl | rfl : f = _ ∨ f = _ := by simpa using hf
      · intro v hv
        have hheader := h.own.2
        rw [node?_eq, Option.mem_def.1 hv, ← Outcome.failure?_eq_none, Outcome.failure?_map,
          Outcome.failure?_eq_none] at hheader
        exact object_of_node hheader
      · exact h.own.1
    · exact absurd hf List.not_mem_nil
  · exact hmetadata
  · exact fun v hv => object_of_location (hlocation v hv)

theorem Seat.fits (hC : Seat owner C) (hms : owner.Reads ms) (hf : f ∈ owner.optional)
    (h : ∃ n, (Record.node (C ms)).result = .ok n) : Fits f.2 (ms.given? f.1) := by
  cases hC with
  | node kind inner =>
    obtain ⟨n, hn⟩ := inner.returned h
    exact (node_returned hms n hn).fits hf
  | @location C kind outer names inner =>
    obtain ⟨n, hn⟩ := inner.returned h
    obtain ⟨a, ha⟩ := (node_returned (names.insert (by simp)) n hn).attrs
    obtain ⟨l, hl⟩ := (attrs_returned a ha).2 (.obj ms) (given?_insert_self nofun)
    exact location_returned l hl f hf

theorem Owner.Reads.insert (hms : owner.Reads ms) (hf : f ∈ owner.optional) :
    owner.Reads (ms.insert f.1 v) := by
  cases owner with
  | node kind => exact Names.insert hms (optional_apart hf).1
  | location => trivial

theorem refused_of_not_returned {v : Value} (h : ¬∃ n, (Record.node v).result = .ok n) :
    ∃ e, (Record.node v).result = .error e ∧ e.code = .serializationError := by
  rw [← Outcome.failure?_eq_none] at h
  obtain ⟨e, he⟩ := Option.ne_none_iff_exists'.1 h
  have hresult := Outcome.failure?_eq_some.1 he
  obtain ⟨fault, rfl, -⟩ := (node_accounted v).of_error hresult
  exact ⟨_, hresult, rfl⟩

theorem Seat.refused (hC : Seat owner C) (hms : owner.Reads ms) (hf : f ∈ owner.optional)
    (hnull : v ≠ .null) (hv : f.2.admits v = false) :
    ∃ e, (Record.node (C (ms.insert f.1 v))).result = .error e ∧ e.code = .serializationError := by
  refine refused_of_not_returned fun h => ?_
  have hfits := hC.fits (hms.insert hf) hf h
  rw [given?_insert_self hnull] at hfits
  exact Bool.false_ne_true (hv.symm.trans (hfits v rfl))

theorem Hole.fence_refused (hC : Hole C) (hms : Names ms .codeBlock) :
    ∃ e, (Record.node (C (ms.insert (utf8 "fence_char") .null))).result = .error e ∧
      e.code = .serializationError := by
  refine refused_of_not_returned fun h => ?_
  obtain ⟨n, hn⟩ := hC.returned h
  have hfence : Fits .string (Members.get? (utf8 "fence_char") _) :=
    (node_returned (Names.insert hms (by simp)) n hn).own
  rw [get?_insert_self] at hfence
  exact Bool.false_ne_true (hfence _ rfl)

theorem Hole.representations_refused {kind : Kind} {reps : Members} {rep : Bytes × Value}
    (hC : Hole C) (hms : Names ms kind) (hkind : kind = .mathBlock ∨ kind = .mathInline)
    (hrep : rep ∈ reps) (hv : FieldType.string.admits rep.2 = false) :
    ∃ e, (Record.node (C (ms.insert (utf8 "representations") (.obj reps)))).result = .error e ∧
      e.code = .serializationError := by
  refine refused_of_not_returned fun h => ?_
  obtain ⟨n, hn⟩ := hC.returned h
  have hown := (node_returned (Names.insert hms (by simp)) n hn).own
  have hgiven : (ms.insert (utf8 "representations") (.obj reps)).given? (utf8 "representations") =
      some (.obj reps) := given?_insert_self nofun
  have htexts : Texts (some (.obj reps)) := by
    rw [← hgiven]
    rcases hkind with rfl | rfl <;> exact hown
  obtain ⟨_, ⟨⟩, hreps⟩ := htexts _ rfl
  exact Bool.false_ne_true (hv.symm.trans (hreps rep hrep))

theorem Hole.alignment_replaced (hC : Hole C) (hms : Names ms .table) (before after : List Value)
    (hv : FieldType.string.admits v = false) :
    Record.node (C (ms.insert (utf8 "alignments") (.arr (before ++ v :: after)))) =
      Record.node (C (ms.insert (utf8 "alignments")
        (.arr (before ++ .str (utf8 "none") :: after)))) := by
  have hcolumn : columnAlignment v = columnAlignment (.str (utf8 "none")) := by
    cases v with
    | str s => exact nomatch hv
    | _ => rfl
  refine hC.congr (Agree.node_eq (.of_table (.inr rfl) ?_ ?_) (hms.insert (by simp))
    (hms.insert (by simp)))
  · rw [node?_eq, node?_eq, given?_insert_both (by simp)]
  · simp [alignments, hcolumn]

theorem owner_of_field (hf : f ∈ owner.optional) :
    (f.1 = utf8 "fence_char" → owner = .node .codeBlock) ∧
      (f.1 = utf8 "alignments" → owner = .node .table) ∧
      (f.1 = utf8 "representations" → owner = .node .mathBlock ∨ owner = .node .mathInline) := by
  revert f
  cases owner with
  | node kind => cases kind <;> simp [Owner.optional, optional, lenient]
  | location => simp [Owner.optional, optionalAt]

theorem Seat.hole {kind : Kind} (hC : Seat (.node kind) C) : Hole C := by
  cases hC
  assumption

end

end Record

section
open Record

/-- The fields that may be left out, of records and of their locations, at any depth. The whole
reads the same with a field absent and with it null, and it is refused with a value that is not of
the type of the field, also among the representations of a formula. There are two exceptions. The
fence of a code block may be absent but must not be null, and what is no text among the alignments
of a table is not refused but replaced by no alignment. -/
theorem Node.ofRecord_optional {owner : Owner} {C : Members → Value} {ms : Members}
    {f : Bytes × FieldType} (hC : Seat owner C) (hms : owner.Reads ms) (hf : f ∈ owner.optional) :
    (f.1 ≠ utf8 "fence_char" → ms.get? f.1 = none →
        Node.ofRecord (C ms) = Node.ofRecord (C (ms.insert f.1 .null))) ∧
      (∀ v, v ≠ .null ∨ f.1 = utf8 "fence_char" → f.2.admits v = false →
        ∃ e, (Node.ofRecord (C (ms.insert f.1 v))).result = .error e ∧
          e.code = .serializationError) ∧
      (f.1 = utf8 "representations" → ∀ reps : Members,
        (∃ rep ∈ reps, FieldType.string.admits rep.2 = false) →
        ∃ e, (Node.ofRecord (C (ms.insert f.1 (.obj reps)))).result = .error e ∧
          e.code = .serializationError) ∧
      (f.1 = utf8 "alignments" → ∀ before after v, FieldType.string.admits v = false →
        Node.ofRecord (C (ms.insert f.1 (.arr (before ++ v :: after)))) =
          Node.ofRecord (C (ms.insert f.1
            (.arr (before ++ .str Alignment.none.name :: after))))) := by
  obtain ⟨field, type⟩ := f
  obtain ⟨hfence, htable, hmath⟩ := owner_of_field hf
  refine ⟨hC.absent hms hf, ?_, ?_, ?_⟩
  · intro v hv hadmits
    by_cases hnull : v = .null
    · obtain rfl : field = utf8 "fence_char" := hv.resolve_left (absurd hnull)
      obtain rfl := hfence rfl
      subst hnull
      exact hC.hole.fence_refused hms
    · exact hC.refused hms hf hnull hadmits
  · rintro rfl reps ⟨rep, hrep, hadmits⟩
    rcases hmath rfl with rfl | rfl
    · exact hC.hole.representations_refused hms (.inl rfl) hrep hadmits
    · exact hC.hole.representations_refused hms (.inr rfl) hrep hadmits
  · rintro rfl before after v hadmits
    obtain rfl := htable rfl
    exact hC.hole.alignment_replaced hms before after hadmits

def Node.blankRecord : Members :=
  [(utf8 "content", .arr []), (utf8 "node_type", .str Kind.paragraph.name)]

def Node.locatedRecord (ms : Members) : Value :=
  .obj (Members.insert (utf8 "children")
    (.arr ([] ++ .obj (Node.blankRecord.insert (utf8 "source_location") (.obj ms)) :: []))
    [(utf8 "node_type", .str Kind.document.name)])

theorem Node.locatedRecord_optional :
    Seat .location Node.locatedRecord ∧ Owner.location.Reads [(utf8 "format", .str (utf8 "md"))] ∧
      (utf8 "page", .integer) ∈ Owner.location.optional ∧
      Node.ofRecord (Node.locatedRecord [(utf8 "format", .str (utf8 "md"))]) =
        Node.ofRecord (Node.locatedRecord
          (Members.insert (utf8 "page") .null [(utf8 "format", .str (utf8 "md"))])) ∧
      ∃ e, (Node.ofRecord (Node.locatedRecord (Members.insert (utf8 "page") (.str (utf8 "7"))
          [(utf8 "format", .str (utf8 "md"))]))).result = .error e ∧
        e.code = .serializationError := by
  have hseat : Seat .location Node.locatedRecord :=
    .location (show Names Node.blankRecord .paragraph from rfl)
      (.item (show Names [(utf8 "node_type", .str Kind.document.name)] .document from rfl) rfl [] []
        .top)
  have hpage : (utf8 "page", .integer) ∈ Owner.location.optional := List.mem_cons_self
  have hreads : Owner.location.Reads [(utf8 "format", .str (utf8 "md"))] := trivial
  obtain ⟨habsent, hrefused, -⟩ := Node.ofRecord_optional hseat hreads hpage
  exact ⟨hseat, hreads, hpage, habsent (by decide) rfl, hrefused _ (.inl nofun) rfl⟩

def Node.unfencedRecord : Members :=
  [(utf8 "content", .str (utf8 "x")), (utf8 "node_type", .str Kind.codeBlock.name)]

def Node.numberedRecord : Members :=
  [(utf8 "alignments", .arr [.int 3]), (utf8 "node_type", .str Kind.table.name),
    (utf8 "rows", .arr [])]

/-- A fence that is null is refused where an absent one is read as a backquote, and a number among
the alignments is taken for no alignment. -/
theorem Node.unfenced_numbered_read :
    (Node.ofRecord (.obj Node.unfencedRecord)).result =
        .ok ⟨.codeBlock (utf8 "x") none 96 3, {}, []⟩ ∧
      (Node.ofRecord (.obj (Node.unfencedRecord.insert (utf8 "fence_char") .null))).result =
        .error (.record (.fieldType Kind.codeBlock.name (utf8 "fence_char") .string)) ∧
      (Node.ofRecord (.obj Node.numberedRecord)).result =
        .ok ⟨.table false [.none] none, {}, []⟩ := by
  refine ⟨?_, ?_, ?_⟩ <;> rfl

end
end Folio
