import Mathlib.Data.Set.Function
import Folio.Proofs.Record.RoundTrip

/-!
# Records tell trees apart

Metadata that are no object keep a record from being read back, but not from telling which tree
it was written from. Put into an object of its own, in the tree and in its record alike, any
metadata reads back; so no two trees have one record, as long as the places in them have
objects for metadata.
-/

set_option autoImplicit false

namespace Folio

def Value.box (v : Value) : Value := .obj [([], v)]

def Value.unbox : Value → Value
  | .obj [(_, v)] => v
  | v => v

namespace Record

mutual
/-- The record with the metadata of each node put into an object. -/
def boxed : Value → Value
  | .arr vs => .arr (boxedAll vs)
  | .obj members => .obj (boxedMembers members)
  | v => v

def boxedAll : List Value → List Value
  | [] => []
  | v :: vs => boxed v :: boxedAll vs

def boxedMembers : List (Bytes × Value) → List (Bytes × Value)
  | [] => []
  | (k, v) :: rest =>
    (k, if k = utf8 "metadata" then v.box
      else if k = utf8 "source_location" ∨ k = utf8 "representations" then v
      else boxed v) :: boxedMembers rest
end

def boxedField (f : Bytes × Value) : Bytes × Value :=
  (f.1, if f.1 = utf8 "metadata" then f.2.box
    else if f.1 = utf8 "source_location" ∨ f.1 = utf8 "representations" then f.2
    else boxed f.2)

@[simp] theorem boxed_str (s : Bytes) : boxed (.str s) = .str s := rfl

@[simp] theorem boxed_int (n : Int) : boxed (.int n) = .int n := rfl

@[simp] theorem boxed_bool (b : Bool) : boxed (.bool b) = .bool b := rfl

theorem boxedAll_eq_map (vs : List Value) : boxedAll vs = vs.map boxed := by
  induction vs with
  | nil => rfl
  | cons v vs ih => rw [boxedAll, ih, List.map_cons]

@[simp] theorem boxed_arr (vs : List Value) : boxed (.arr vs) = .arr (vs.map boxed) := by
  rw [boxed, boxedAll_eq_map]

theorem boxedMembers_eq_map (members : Members) :
    boxedMembers members = members.map boxedField := by
  induction members with
  | nil => rfl
  | cons m members ih => rw [boxedMembers, ih, List.map_cons, boxedField]

theorem insert_boxedField (f : Bytes × Value) (members : Members) :
    Members.insert f.1 (boxedField f).2 (members.map boxedField) =
      (members.insert f.1 f.2).map boxedField := by
  induction members with
  | nil => rfl
  | cons m members ih =>
    have hkey : (boxedField m).1 = m.1 := rfl
    by_cases hk : m.1 = f.1
    · simp only [List.map_cons, Members.insert, hkey, hk, if_true]
      rfl
    · by_cases hlt : f.1 < m.1
      · simp only [List.map_cons, Members.insert, hkey, hk, hlt, if_true, if_false]
        rfl
      · simp only [List.map_cons, Members.insert, hkey, hk, hlt, if_false, ih]
        rfl

theorem boxed_object (fields : List (Bytes × Value)) :
    boxed (.object fields) = .object (fields.map boxedField) := by
  have hfold (members : Members) :
      (fields.foldl (fun ms f => Members.insert f.1 f.2 ms) members).map boxedField =
        (fields.map boxedField).foldl (fun ms f => Members.insert f.1 f.2 ms)
          (members.map boxedField) := by
    induction fields generalizing members with
    | nil => rfl
    | cons f fields ih =>
      rw [List.foldl_cons, ih, ← insert_boxedField]
      rfl
  rw [Value.object, boxed, boxedMembers_eq_map, Members.ofList_eq, hfold]
  rfl

end Record

namespace Node

def PlacesHoldObjects (n : Node) : Prop :=
  n.All fun m => ∀ l ∈ m.attrs.location, l.metadata.isObject = true

def boxed : Node → Node := fold fun n below =>
  mk n.shape { n.attrs with metadata := n.attrs.metadata.box } below

theorem boxed_mk (s : Shape) (a : Attrs) (cs : List Node) :
    (mk s a cs).boxed = mk s { a with metadata := a.metadata.box } (cs.map boxed) := fold_eq _ _

theorem boxed_kind (n : Node) : n.boxed.kind = n.kind := by
  cases n
  rw [boxed_mk]
  rfl

def unboxed : Node → Node := fold fun n below =>
  mk n.shape { n.attrs with metadata := n.attrs.metadata.unbox } below

theorem unboxed_mk (s : Shape) (a : Attrs) (cs : List Node) :
    (mk s a cs).unboxed = mk s { a with metadata := a.metadata.unbox } (cs.map unboxed) :=
  fold_eq _ _

theorem unboxed_boxed (n : Node) : n.boxed.unboxed = n := by
  induction n using induct with
  | step s a cs ih =>
    have hcs : (cs.map boxed).map unboxed = cs := by
      rw [List.map_map]
      exact (List.map_congr_left ih).trans (List.map_id' cs)
    rw [boxed_mk, unboxed_mk, hcs]
    rfl

theorem boxed_injective : Function.Injective boxed :=
  Function.LeftInverse.injective unboxed_boxed

theorem boxed_recordable {n : Node} (hn : n.All Checked) (hplaces : n.PlacesHoldObjects) :
    n.boxed.Recordable := by
  induction n using induct with
  | step s a cs ih =>
    obtain ⟨⟨htakes, hleaf, -⟩, hbelow⟩ := all_mk.1 hn
    obtain ⟨hplace, hplacesBelow⟩ := all_mk.1 hplaces
    rw [boxed_mk, Recordable, all_mk]
    refine ⟨⟨⟨?_, ?_, nofun⟩, rfl, hplace⟩, ?_⟩
    · exact Shape.Takes.map htakes fun c _ => c.boxed_kind
    · intro hs
      exact List.map_eq_nil_iff.2 (hleaf hs)
    · intro c hc
      obtain ⟨b, hb, rfl⟩ := List.mem_map.1 hc
      exact ih b hb (hbelow b hb) (hplacesBelow b hb)

theorem entryRecords_boxed (cs : List Node) (records : List Value) :
    entryRecords (cs.map boxed) (records.map Record.boxed) =
      Record.boxed (entryRecords cs records) := by
  have hdescription : (fun p : Node × Value => isDescription p.1) ∘ Prod.map boxed Record.boxed =
      fun p => isDescription p.1 := by
    funext p
    simp [isDescription, boxed_kind]
  rw [entryRecords, entryRecords, List.zip_map, gather_map, hdescription]
  simp [Record.boxed_object, Record.boxedField, Function.comp_def]

theorem optional_boxed {α : Type} {f : α → Bytes × Value} (o : Option α)
    (h : ∀ a, Record.boxedField (f a) = f a) :
    (o.map f).toList.map Record.boxedField = (o.map f).toList := by
  cases o <;> simp [h]

theorem shapeFields_boxed (s : Shape) (a b : Attrs) (cs : List Node) (records : List Value) :
    (mk s a (cs.map boxed)).shapeFields (records.map Record.boxed) =
      ((mk s b cs).shapeFields records).map Record.boxedField := by
  cases s with
  | definitionList => simp [Record.boxedField, entryRecords_boxed]
  | table hasHeader alignments caption =>
    cases hasHeader <;> cases records <;>
      simp [Record.boxedField, headerField, optional_boxed, Function.comp_def,
        apply_ite (List.map Record.boxedField)]
  | _ => simp [Record.boxedField, optional_boxed, apply_ite (List.map Record.boxedField)]

theorem toRecord_boxed (n : Node) : n.boxed.toRecord = Record.boxed n.toRecord := by
  induction n using induct with
  | step s a cs ih =>
    have hrecords : (cs.map boxed).map toRecord = (cs.map toRecord).map Record.boxed := by
      rw [List.map_map, List.map_map]
      exact List.map_congr_left ih
    have hfields : ({ a with metadata := a.metadata.box } : Attrs).fields =
        a.fields.map Record.boxedField := by
      simp [Record.boxedField, optional_boxed]
    have hkind (k : Kind) : Record.boxedField (utf8 "node_type", .str k.name) =
        (utf8 "node_type", .str k.name) := by
      simp [Record.boxedField]
    rw [boxed_mk, toRecord_eq, toRecord_eq, recordWith, recordWith, Record.boxed_object,
      List.map_cons, List.map_append, hkind]
    show Value.object (_ :: ((mk s _ _).shapeFields ((cs.map boxed).map toRecord) ++
      Attrs.fields { a with metadata := a.metadata.box })) = _
    rw [hrecords, hfields, shapeFields_boxed s _ a]
    rfl

theorem toRecord_inj {a b : Node} (ha : a.Built) (hb : b.Built) (hap : a.PlacesHoldObjects)
    (hbp : b.PlacesHoldObjects) (h : a.toRecord = b.toRecord) : a = b := by
  have haBack := Record.readsBack (boxed_recordable ha.checked hap)
  have hbBack := Record.readsBack (boxed_recordable hb.checked hbp)
  rw [Record.ReadsBack, toRecord_boxed, h, ← toRecord_boxed, hbBack] at haBack
  exact boxed_injective (Except.ok.inj haBack).symm

/-- Two trees that can be built, with objects for the metadata of their places, are found equal
exactly when their records are the same value. The test is an equivalence and finds no two
different trees equal, and no two such trees share a record. -/
theorem beq_iff_toRecord :
    (∀ a b : Node, a.Built → b.Built → a.PlacesHoldObjects → b.PlacesHoldObjects →
      (beq a b = true ↔ a.toRecord = b.toRecord)) ∧
    (Equivalence fun a b : Node => beq a b = true) ∧
    (∀ a b : Node, beq a b = true ↔ a = b) ∧
    Set.InjOn toRecord {n | n.Built ∧ n.PlacesHoldObjects} := by
  have hbeq (a b : Node) : beq a b = true ↔ a = b := ⟨eq_of_beq, fun h => h ▸ beq_self a⟩
  refine ⟨?_, ?_, hbeq, ?_⟩
  · intro a b ha hb hap hbp
    rw [hbeq]
    exact ⟨congrArg toRecord, toRecord_inj ha hb hap hbp⟩
  · constructor
    · exact beq_self
    · intro a b h
      exact (hbeq b a).2 ((hbeq a b).1 h).symm
    · intro a b c h k
      exact (hbeq a c).2 (((hbeq a b).1 h).trans ((hbeq b c).1 k))
  · rintro a ⟨ha, hap⟩ b ⟨hb, hbp⟩ h
    exact toRecord_inj ha hb hap hbp h

def noted (note : Value) : Node := mk .blockQuote { metadata := note } [deepHeading .empty]

theorem noted_built {note : Value} (h : note ≠ .null) : (noted note).Built := by
  rw [built_iff, noted, all_mk]
  constructor
  · exact ⟨trivial, nofun, h⟩
  · simpa using (deepHeading_built .empty).checked

theorem noted_beq_iff_toRecord :
    beq (noted (.arr [])) (noted (.bool false)) = false ∧
      (noted (.arr [])).toRecord ≠ (noted (.bool false)).toRecord := by
  have hdeep : ∀ m ∈ (deepHeading .empty).preorder, ∀ l ∈ m.attrs.location,
      l.metadata.isObject = true := by decide
  have hplaces (note : Value) : (noted note).PlacesHoldObjects := by
    rw [PlacesHoldObjects, noted, all_mk]
    constructor
    · exact nofun
    · exact List.forall_mem_singleton.2 hdeep
  have hiff := beq_iff_toRecord.1 (noted (.arr [])) (noted (.bool false)) (noted_built nofun)
    (noted_built nofun) (hplaces _) (hplaces _)
  have hne : beq (noted (.arr [])) (noted (.bool false)) = false := by decide
  refine ⟨hne, fun h => ?_⟩
  simp [hiff.2 h] at hne

end Node
end Folio
