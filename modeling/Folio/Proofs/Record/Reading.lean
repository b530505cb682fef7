import Folio.Proofs.Record.Level

/-!
# What reading returns

Whatever value a record is, a tree that is read from it has been checked at every
node, and all its metadata are objects.
-/

set_option autoImplicit false

namespace Folio

namespace Record

open Outcome

theorem metadata_yields (owner : Bytes) (members : Members) :
    (metadata owner members).Yields fun v => v.isObject = true := by
  rw [metadata]
  split
  · exact yields_pure rfl
  · exact yields_pure rfl
  · exact yields_pure rfl
  · exact yields_raise _ _

theorem location_yields (v : Value) :
    (location v).Yields fun l => l.metadata.isObject = true := by
  cases v with
  | obj members =>
    -- The format, the name and the three numbers come first and do not matter.
    iterate 5
      refine yields_after ?_
      intro _
    refine yields_bind (metadata_yields _ _) ?_
    intro v hv
    exact yields_pure hv
  | _ => exact yields_raise _ _

theorem attrs_yields (owner : Bytes) (members : Members) :
    (attrs owner members).Yields Attrs.Objects := by
  refine yields_bind (metadata_yields _ _) ?_
  intro v hv
  split
  · exact yields_pure ⟨hv, by simp⟩
  · exact yields_pure ⟨hv, by simp⟩
  · refine yields_bind (location_yields _) ?_
    intro l hl
    apply yields_pure
    exact ⟨hv, by simpa using hl⟩

def EntryRecordable (e : Node.DefinitionEntry) : Prop :=
  (∀ m ∈ e.term, Node.Recordable m) ∧ ∀ m, some m ∈ e.descriptions → Node.Recordable m

structure Below.Yield (below : Below) : Prop where
  node? : ∀ field, (below.node? field).Yields fun n => ∀ m ∈ n, Node.Recordable m
  nodes : ∀ field, (below.nodes field).Yields fun ns => ∀ m ∈ ns, Node.Recordable m
  entries : ∀ field, (below.entries field).Yields fun es => ∀ e ∈ es, EntryRecordable e

section
variable {s : Shape} {a : Attrs} {cs : List Node}

theorem recordable_mk (ha : a.Objects) (htakes : s.Takes cs) (hleaf : s.isLeaf = true → cs = [])
    (hcs : ∀ c ∈ cs, c.Recordable) : (Node.mk s a cs).Recordable :=
  Node.all_mk.2 ⟨⟨⟨htakes, hleaf, ha.ne_null⟩, ha⟩, hcs⟩

theorem make_recordable {n : Node} (ha : a.Objects) (hleaf : s.isLeaf = true → cs = [])
    (hcs : ∀ c ∈ cs, c.Recordable) (h : Node.make s a (cs.map some) = .ok n) : n.Recordable := by
  obtain ⟨ds, hds, htakes, rfl⟩ := Node.make_eq_ok.1 h
  obtain rfl : cs = ds := (List.map_inj_right fun _ _ => Option.some.inj).1 hds
  rw [ha.normalize]
  exact recordable_mk ha htakes hleaf hcs

theorem build_yields (ha : a.Objects) (hleaf : s.isLeaf = true → cs = [])
    (hcs : ∀ c ∈ cs, c.Recordable) : (Node.build s a (cs.map some)).Yields Node.Recordable :=
  yields_ofExcept fun _ h => make_recordable ha hleaf hcs h

theorem build_leaf_yields (ha : a.Objects) : (Node.build s a []).Yields Node.Recordable :=
  yields_ofExcept fun _ h => @make_recordable s a [] _ ha (fun _ => rfl) (by simp) h

theorem buildHeading_yields {level : Int32} (ha : a.Objects) (hcs : ∀ c ∈ cs, c.Recordable) :
    (Node.buildHeading level a (cs.map some)).Yields Node.Recordable :=
  yields_ofExcept fun _ h =>
    make_recordable (s := .heading level) ha nofun hcs (Node.makeHeading_eq_ok.1 h).1

theorem buildAnyHeading_yields {level : Int32} (ha : a.Objects) (hcs : ∀ c ∈ cs, c.Recordable) :
    (Node.buildAnyHeading level a (cs.map some)).Yields Node.Recordable := by
  have h : (Node.build (.heading level) a (cs.map some)).Yields Node.Recordable :=
    build_yields ha nofun hcs
  rw [Node.buildAnyHeading]
  split
  · exact h
  · exact yields_after fun _ => h

theorem buildTable_yields {header : Option Node} {alignments : List Alignment}
    {caption : Option Bytes} (ha : a.Objects) (hheader : ∀ m ∈ header, m.Recordable)
    (hcs : ∀ c ∈ cs, c.Recordable) :
    (Node.buildTable header (cs.map some) alignments caption a).Yields Node.Recordable := by
  apply yields_ofExcept
  intro n h
  obtain ⟨body, hbody, htakes, rfl⟩ := Node.makeTable_eq_ok.1 h
  obtain rfl : cs = body := (List.map_inj_right fun _ _ => Option.some.inj).1 hbody
  rw [ha.normalize]
  apply recordable_mk ha htakes nofun
  intro c hc
  rcases List.mem_append.1 hc with hc | hc
  · exact hheader c (by simpa using hc)
  · exact hcs c hc

theorem buildDefinitionList_yields {es : List Node.DefinitionEntry} (ha : a.Objects)
    (hes : ∀ e ∈ es, EntryRecordable e) :
    (Node.buildDefinitionList es a).Yields Node.Recordable := by
  apply yields_ofExcept
  intro n h
  obtain ⟨children, hchildren, rfl⟩ := Node.makeDefinitionList_eq_ok.1 h
  obtain ⟨entries, rfl, hentries, rfl⟩ := Node.entryChildren_eq_ok.1 hchildren
  rw [ha.normalize]
  apply recordable_mk ha (Node.takes_entries hentries) nofun
  intro c hc
  simp only [List.mem_flatten, List.mem_map] at hc
  obtain ⟨_, ⟨e, he, rfl⟩, hc⟩ := hc
  have hread := hes _ (List.mem_map.2 ⟨e, he, rfl⟩)
  rcases List.mem_cons.1 hc with rfl | hc
  · exact hread.1 _ rfl
  · exact hread.2 c (by simpa using hc)

end

section
variable {members : Members} {below : Below}

theorem after_attrs {owner : Bytes} {f : Attrs → Outcome Node}
    (hf : ∀ a, a.Objects → (f a).Yields Node.Recordable) :
    (attrs owner members >>= f).Yields Node.Recordable :=
  yields_bind (attrs_yields owner members) hf

theorem after_nodes {field : Bytes} {f : List Node → Outcome Node} (h : below.Yield)
    (hf : ∀ cs, (∀ c ∈ cs, Node.Recordable c) → (f cs).Yields Node.Recordable) :
    (below.nodes field >>= f).Yields Node.Recordable :=
  yields_bind (h.nodes field) hf

theorem container_yields (s : Shape) (field : Bytes) (h : below.Yield)
    (hs : s.isLeaf = false) : (container s field members below).Yields Node.Recordable :=
  after_attrs fun _ ha => after_nodes h fun _ hcs =>
    build_yields ha (by simp [hs]) hcs

theorem literal_yields (kind : Kind) (field : Bytes) (shape : Bytes → Shape) :
    (literal kind field shape members).Yields Node.Recordable :=
  after_attrs fun _ ha => yields_after fun _ => build_leaf_yields ha

theorem math_yields (kind : Kind) (shape : Formula → Shape) :
    (math kind shape members).Yields Node.Recordable :=
  after_attrs fun _ ha => yields_after fun _ => build_leaf_yields ha

theorem heading_yields (h : below.Yield) : (heading members below).Yields Node.Recordable := by
  refine yields_after ?_
  intro level
  split
  · refine after_attrs ?_
    intro a ha
    refine after_nodes h ?_
    intro cs hcs
    exact buildHeading_yields ha hcs
  · refine yields_after ?_
    intro _
    refine after_attrs ?_
    intro a ha
    refine after_nodes h ?_
    intro cs hcs
    exact buildAnyHeading_yields ha hcs

theorem codeBlock_yields : (codeBlock members).Yields Node.Recordable :=
  yields_after fun _ => after_attrs fun _ ha => yields_after fun _ =>
    yields_after fun _ => yields_after fun _ => build_leaf_yields ha

theorem list_yields (h : below.Yield) : (list members below).Yields Node.Recordable :=
  after_attrs fun _ ha => yields_after fun _ => yields_after fun _ =>
    after_nodes h fun _ hcs => yields_after fun _ => build_yields ha nofun hcs

theorem listItem_yields (h : below.Yield) : (listItem members below).Yields Node.Recordable :=
  yields_after fun _ => container_yields _ _ h rfl

theorem table_yields (h : below.Yield) : (table members below).Yields Node.Recordable :=
  yields_bind (h.node? _) fun _ hheader => yields_after fun _ =>
    after_attrs fun _ ha => yields_after fun _ =>
      after_nodes h fun _ hcs => buildTable_yields ha hheader hcs

theorem tableRow_yields (h : below.Yield) : (tableRow members below).Yields Node.Recordable :=
  after_attrs fun _ ha => yields_after fun _ =>
    after_nodes h fun _ hcs => build_yields ha nofun hcs

theorem tableCell_yields (h : below.Yield) : (tableCell members below).Yields Node.Recordable :=
  yields_after fun _ => after_attrs fun _ ha => yields_after fun _ =>
    yields_after fun _ => after_nodes h fun _ hcs => build_yields ha nofun hcs

theorem footnoteDefinition_yields (h : below.Yield) :
    (footnoteDefinition members below).Yields Node.Recordable :=
  after_attrs fun _ ha => after_nodes h fun _ hcs =>
    yields_after fun _ => build_yields ha nofun hcs

theorem definitionList_yields (h : below.Yield) :
    (definitionList members below).Yields Node.Recordable :=
  yields_bind (h.entries _) fun _ hes => after_attrs fun _ ha => buildDefinitionList_yields ha hes

theorem link_yields (h : below.Yield) : (link members below).Yields Node.Recordable :=
  after_attrs fun _ ha => yields_after fun _ =>
    after_nodes h fun _ hcs => yields_after fun _ => build_yields ha nofun hcs

theorem image_yields : (image members).Yields Node.Recordable :=
  after_attrs fun _ ha => yields_after fun _ => yields_after fun _ =>
    yields_after fun _ => yields_after fun _ => yields_after fun _ => build_leaf_yields ha

theorem thematicBreak_yields : (thematicBreak members).Yields Node.Recordable :=
  after_attrs fun _ ha => build_leaf_yields ha

theorem lineBreak_yields : (lineBreak members).Yields Node.Recordable :=
  after_attrs fun _ ha => yields_after fun _ => build_leaf_yields ha

theorem assemble_yields (kind : Kind) (h : below.Yield) :
    (assemble kind members below).Yields Node.Recordable := by
  cases kind with
  | document | paragraph | blockQuote | definitionTerm | definitionDescription | emphasis | strong
  | strikethrough | underline | superscript | subscript => exact container_yields _ _ h rfl
  | htmlBlock | comment | text | code | htmlInline | commentInline | footnoteReference =>
    exact literal_yields _ _ _
  | mathBlock | mathInline => exact math_yields _ _
  | heading => exact heading_yields h
  | codeBlock => exact codeBlock_yields
  | list => exact list_yields h
  | listItem => exact listItem_yields h
  | table => exact table_yields h
  | tableRow => exact tableRow_yields h
  | tableCell => exact tableCell_yields h
  | thematicBreak => exact thematicBreak_yields
  | footnoteDefinition => exact footnoteDefinition_yields h
  | definitionList => exact definitionList_yields h
  | link => exact link_yields h
  | image => exact image_yields
  | lineBreak => exact lineBreak_yields

end

theorem rejectAs_yields {kind : Kind} {x : Outcome Node} (h : x.Yields Node.Recordable) :
    (rejectAs kind x).Yields Node.Recordable :=
  yields_recover h fun e => by
    split
    · exact yields_raise _ _
    · exact fun _ h => nomatch h

section
variable {kind : Kind} {members : Members}

theorem listAt_yields (h : ∀ w, Beneath members w → (node w).Yields Node.Recordable)
    (field : Bytes) : (listAt node kind field members).Yields fun ns => ∀ n ∈ ns, n.Recordable := by
  unfold listAt
  split
  · exact yields_raise _ _
  · next ws hws => exact yields_sequence fun w hw => h w (Members.sizeOf_mem_get? hws hw)
  · exact yields_raise _ _

theorem recordAt_yields (h : ∀ w, Beneath members w → (node w).Yields Node.Recordable)
    (field : Bytes) : (recordAt node kind field members).Yields Node.Recordable := by
  unfold recordAt
  split
  · exact yields_raise _ _
  · next w hw => exact h w (Members.sizeOf_get? hw)

theorem entry_yields {v : Value}
    (h : ∀ w, sizeOf w < sizeOf v → (node w).Yields Node.Recordable) :
    (entry node kind v).Yields EntryRecordable := by
  cases v with
  | obj members =>
    have hmembers : ∀ w, Beneath members w → (node w).Yields Node.Recordable :=
      fun w hw => h w (by simp; omega)
    refine yields_bind (recordAt_yields hmembers _) ?_
    intro term hterm
    refine yields_bind (listAt_yields hmembers _) ?_
    intro descriptions hdescriptions
    apply yields_pure
    exact ⟨fun m hm => Option.some.inj hm ▸ hterm, by simpa using hdescriptions⟩
  | _ => exact yields_raise _ _

theorem yield_reading (h : ∀ w, Beneath members w → (node w).Yields Node.Recordable) :
    (Below.reading node kind members).Yield where
  node? field := by
    unfold Below.reading
    dsimp only
    split
    · exact yields_pure (by simp)
    · exact yields_pure (by simp)
    · next w _ hw =>
      apply yields_map
      intro n hn m hm
      exact Option.some.inj hm ▸ h w (Members.sizeOf_get? hw) n hn
  nodes field := listAt_yields h field
  entries field := by
    unfold Below.reading
    dsimp only
    split
    · exact yields_raise _ _
    · next vs hvs =>
      apply yields_sequence
      intro v hv
      exact entry_yields fun w hw => h w (Nat.lt_trans hw (Members.sizeOf_mem_get? hvs hv))
    · exact yields_raise _ _

end

theorem node_yields (v : Value) : (node v).Yields Node.Recordable := by
  induction v using induct with
  | refused v fault own hv =>
    rw [hv]
    exact yields_raise _ _
  | named kind members names ih =>
    rw [node_named names]
    exact rejectAs_yields (assemble_yields kind (yield_reading ih))

end Record
end Folio
