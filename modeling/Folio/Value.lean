import Folio.Bytes

/-!
# Dynamic values

The values that metadata and node records are made of. An object keeps its members
in the byte order of their names, and no name twice, as long as it is made by
`insert`. Equality compares kind and value throughout.
-/

set_option autoImplicit false

namespace Folio

inductive Value where
  | null
  | bool (b : Bool)
  | int (n : Int)
  | real (q : Rat)
  | str (s : Bytes)
  | arr (elements : List Value)
  | obj (members : List (Bytes × Value))

abbrev Members := List (Bytes × Value)

namespace Members

def get? (name : Bytes) : Members → Option Value
  | [] => none
  | (k, v) :: rest => if k = name then some v else get? name rest

def insert (name : Bytes) (value : Value) : Members → Members
  | [] => [(name, value)]
  | (k, v) :: rest =>
    if k = name then (name, value) :: rest
    else if name < k then (name, value) :: (k, v) :: rest
    else (k, v) :: insert name value rest

def ofList (fields : List (Bytes × Value)) : Members :=
  fields.foldl (fun members (name, value) => insert name value members) []

theorem get?_insert (name other : Bytes) (value : Value) (members : Members) :
    get? other (insert name value members) =
      if name = other then some value else get? other members := by
  induction members with
  | nil => simp [insert, get?]
  | cons m rest ih =>
    obtain ⟨k, v⟩ := m
    by_cases hk : k = name
    · by_cases ho : name = other <;> simp [insert, get?, hk, ho]
    · by_cases hlt : name < k
      · simp [insert, get?, hk, hlt]
      · by_cases ho : k = other
        · subst ho
          have hne : name ≠ k := fun h => hk h.symm
          simp [insert, get?, hk, hlt, hne]
        · simp [insert, get?, hk, hlt, ho, ih]

end Members

namespace Value

instance : Inhabited Value := ⟨.null⟩

def isNull : Value → Bool
  | .null => true
  | _ => false

def isObject : Value → Bool
  | .obj _ => true
  | _ => false

/-- The integer that a number is; a real number without a fraction is one. -/
def integer? : Value → Option Int
  | .int n => some n
  | .real q => if q.den = 1 then some q.num else none
  | _ => none

/-- An object with the given members; of two values for one name the later one stays. -/
def object (fields : List (Bytes × Value)) : Value := .obj (Members.ofList fields)

def empty : Value := .obj []

mutual
def beq : Value → Value → Bool
  | .null, .null => true
  | .bool a, .bool b => a == b
  | .int a, .int b => a == b
  | .real a, .real b => a == b
  | .str a, .str b => a == b
  | .arr as, .arr bs => beqAll as bs
  | .obj as, .obj bs => beqMembers as bs
  | _, _ => false

def beqAll : List Value → List Value → Bool
  | [], [] => true
  | a :: as, b :: bs => beq a b && beqAll as bs
  | _, _ => false

def beqMembers : List (Bytes × Value) → List (Bytes × Value) → Bool
  | [], [] => true
  | (k, a) :: as, (l, b) :: bs => k == l && beq a b && beqMembers as bs
  | _, _ => false
end

instance : BEq Value := ⟨beq⟩

mutual
theorem eq_of_beq : ∀ {a b : Value}, beq a b = true → a = b
  | .null, .null, _ => rfl
  | .bool _, .bool _, h => by simpa [beq] using h
  | .int _, .int _, h => by simpa [beq] using h
  | .real _, .real _, h => by simpa [beq] using h
  | .str _, .str _, h => by simpa [beq] using h
  | .arr _, .arr _, h => by rw [beq] at h; rw [eq_of_beqAll h]
  | .obj _, .obj _, h => by rw [beq] at h; rw [eq_of_beqMembers h]

theorem eq_of_beqAll : ∀ {as bs : List Value}, beqAll as bs = true → as = bs
  | [], [], _ => rfl
  | a :: as, b :: bs, h => by
    simp only [beqAll, Bool.and_eq_true] at h
    rw [eq_of_beq h.1, eq_of_beqAll h.2]

theorem eq_of_beqMembers :
    ∀ {as bs : List (Bytes × Value)}, beqMembers as bs = true → as = bs
  | [], [], _ => rfl
  | (k, a) :: as, (l, b) :: bs, h => by
    simp only [beqMembers, Bool.and_eq_true, beq_iff_eq] at h
    rw [h.1.1, eq_of_beq h.1.2, eq_of_beqMembers h.2]
end

mutual
theorem beq_self : ∀ a : Value, beq a a = true
  | .null => rfl
  | .bool b => by simp [beq]
  | .int n => by simp [beq]
  | .real q => by simp [beq]
  | .str s => by simp [beq]
  | .arr as => by rw [beq]; exact beqAll_self as
  | .obj as => by rw [beq]; exact beqMembers_self as

theorem beqAll_self : ∀ as : List Value, beqAll as as = true
  | [] => rfl
  | a :: as => by simp [beqAll, beq_self a, beqAll_self as]

theorem beqMembers_self : ∀ as : List (Bytes × Value), beqMembers as as = true
  | [] => rfl
  | (k, a) :: as => by simp [beqMembers, beq_self a, beqMembers_self as]
end

instance : LawfulBEq Value where
  eq_of_beq h := eq_of_beq h
  rfl := beq_self _

instance : DecidableEq Value := fun a b =>
  if h : (a == b) = true then .isTrue (LawfulBEq.eq_of_beq h)
  else .isFalse fun e => h (by rw [e]; exact beq_self b)

end Value
end Folio
