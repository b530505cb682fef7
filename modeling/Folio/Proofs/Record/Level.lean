import Folio.Proofs.Record.Fault
import Folio.Proofs.Record.Field

/-!
# One level of a record

A value is no record of a known kind and refused at once, or it is read from its own fields
and from the records beneath it. The reader of these is a parameter here; with the reader of
records itself in its place, one level is all there is to reading a record.
-/

set_option autoImplicit false

namespace Folio

theorem Members.sizeOf_get? {name : Bytes} {v : Value} {members : Members}
    (h : members.get? name = some v) : sizeOf v < sizeOf members := by
  induction members with
  | nil => simp [get?] at h
  | cons m members ih =>
    obtain ⟨k, u⟩ := m
    rw [get?] at h
    split at h
    · obtain rfl := Option.some.inj h
      simp
      omega
    · have hrest := ih h
      simp
      omega

theorem Members.sizeOf_mem_get? {name : Bytes} {v : Value} {vs : List Value} {members : Members}
    (h : members.get? name = some (.arr vs)) (hv : v ∈ vs) : sizeOf v < sizeOf members := by
  have harr := sizeOf_get? h
  have hmem := List.sizeOf_lt_of_mem hv
  rw [Value.arr.sizeOf_spec] at harr
  omega

theorem Kind.eq_name_of_ofName? {name : Bytes} {kind : Kind} (h : ofName? name = some kind) :
    kind.name = name := by
  have hname := List.find?_some h
  exact eq_of_beq hname

namespace Record

abbrev Reader := Value → Outcome Node

def listAt (r : Reader) (kind : Kind) (field : Bytes) (members : Members) : Outcome (List Node) :=
  match members.get? field with
  | none => refuse (.missing kind.name field)
  | some (.arr ws) => .sequence (ws.map r)
  | some _ => refuse (.fieldType kind.name field .array)

def recordAt (r : Reader) (kind : Kind) (field : Bytes) (members : Members) : Outcome Node :=
  match members.get? field with
  | none => refuse (.missing kind.name field)
  | some w => r w

def entry (r : Reader) (kind : Kind) : Value → Outcome Node.DefinitionEntry
  | .obj members => do
    let term ← recordAt r kind (utf8 "term") members
    let descriptions ← listAt r kind (utf8 "descriptions") members
    return ⟨some term, descriptions.map some⟩
  | _ => refuse .entryNotObject

/-- The fields of a record that hold further records, each of these read with a reader. -/
def Below.reading (r : Reader) (kind : Kind) (members : Members) : Below where
  node? field :=
    match members.get? field with
    | none | some .null => pure none
    | some w => some <$> r w
  nodes field := listAt r kind field members
  entries field :=
    match members.get? field with
    | none => refuse (.missing kind.name field)
    | some (.arr ws) => .sequence (ws.map (entry r kind))
    | some _ => refuse (.fieldType kind.name field .array)

theorem nodes_eq (vs : List Value) : nodes vs = .sequence (vs.map node) := by
  induction vs with
  | nil => rfl
  | cons v vs ih =>
    rw [nodes, ih]
    rfl

theorem listAt_node (kind : Kind) (field : Bytes) (members : Members) :
    listAt node kind field members = nodesAt kind field members := by
  rw [nodesAt_eq, listAt]
  split <;> simp [nodes_eq, *]

theorem recordAt_node (kind : Kind) (field : Bytes) (members : Members) :
    recordAt node kind field members = nodeAt kind field members :=
  (nodeAt_eq kind field members).symm

theorem entries_eq (kind : Kind) (vs : List Value) :
    entries kind vs = .sequence (vs.map (entry node kind)) := by
  induction vs with
  | nil => rfl
  | cons v vs ih =>
    cases v with
    | obj members =>
      rw [entries, ih, ← recordAt_node, ← listAt_node]
      change _ = entry node kind (.obj members) >>= fun e =>
        Outcome.sequence (vs.map (entry node kind)) >>= fun es => pure (e :: es)
      simp only [entry, Outcome.bind_assoc]
      rfl
    | _ => rfl

theorem below_eq (kind : Kind) (members : Members) :
    (⟨fun field => nodeAt? field members, fun field => nodesAt kind field members,
      fun field => entriesAt kind field members⟩ : Below) = .reading node kind members := by
  rw [Below.reading]
  congr
  · funext field
    exact nodeAt?_eq field members
  · funext field
    exact (listAt_node kind field members).symm
  · funext field
    rw [entriesAt_eq]
    split <;> simp [entries_eq, *]

def Names (members : Members) (kind : Kind) : Prop :=
  members.get? (utf8 "node_type") = some (.str kind.name)

theorem node_named {kind : Kind} {members : Members} (h : Names members kind) :
    node (.obj members) =
      rejectAs kind (assemble kind members (.reading node kind members)) := by
  rw [Names] at h
  rw [← below_eq]
  simp only [node, h, Kind.ofName?_name]

theorem node_cases (v : Value) :
    (∃ fault, (Failure.record fault).Own ∧ node v = refuse fault) ∨
      ∃ kind members, v = .obj members ∧ Names members kind := by
  cases v with
  | obj members =>
    unfold node
    split
    · next name hname =>
      split
      · next kind hkind =>
        exact .inr ⟨kind, members, rfl, by rw [Names, Kind.eq_name_of_ofName? hkind, hname]⟩
      · next name _ _ => exact .inl ⟨.unknownKind name, trivial, rfl⟩
    · exact .inl ⟨.noKind, trivial, rfl⟩
  | _ => exact .inl ⟨.notObject, trivial, rfl⟩

/-- What the fields of a record hold, and what is further down, is smaller than its members. -/
abbrev Beneath (members : Members) (w : Value) : Prop := sizeOf w < sizeOf members

/-- To show something of reading any value, show it of a value that is refused at once, and of a
record for which it holds of all that is beneath. -/
theorem induct {P : Value → Prop}
    (refused : ∀ v fault, (Failure.record fault).Own → node v = refuse fault → P v)
    (named : ∀ kind members, Names members kind → (∀ w, Beneath members w → P w) →
      P (.obj members)) (v : Value) : P v := by
  rcases node_cases v with ⟨fault, hown, hv⟩ | ⟨kind, members, rfl, hkind⟩
  · exact refused v fault hown hv
  · exact named kind members hkind fun w hw => induct refused named w
termination_by sizeOf v
decreasing_by
  subst_vars
  rw [Value.obj.sizeOf_spec]
  exact Nat.lt_add_left 1 hw

end Record
end Folio
