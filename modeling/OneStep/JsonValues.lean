import Mathlib.Algebra.Group.Nat.Defs
import Mathlib.Data.Int.Notation
import Mathlib.Data.List.Basic

/-!
# JSON values

What `json.loads` returns and `json.dumps` takes: integers are unbounded and
apart from floats, which are doubles, and an object keeps its keys in insertion
order, each of them once.
-/
namespace OneStep.JsonValues

structure Double where
  bits : BitVec 64
  deriving DecidableEq, Repr

/-- Neither infinite nor no number. -/
def Double.isFinite (x : Double) : Bool := decide (x.bits.toNat/2^52%2^11 ≠ 2047)

inductive Json where
  | null
  | bool (b : Bool)
  | int (n : ℤ)
  | float (x : Double)
  | str (s : String)
  | arr (items : List Json)
  | obj (fields : List (String × Json))
  deriving Repr

section Induction
variable {P : Json → Prop}

/-- Not made of other values. -/
def Json.Leaf : Json → Prop
  | .arr _ | .obj _ => False
  | _ => True

/-- The cases of an induction over JSON values. -/
structure Json.Cases (P : Json → Prop) : Prop where
  leaf : ∀ j, j.Leaf → P j
  arr : ∀ items, (∀ item ∈ items, P item) → P (.arr items)
  obj : ∀ fields, (∀ field ∈ fields, P field.2) → P (.obj fields)

mutual

theorem Json.Cases.all (h : Json.Cases P) : ∀ j, P j
  | .arr items => h.arr items (h.items items)
  | .obj fields => h.obj fields (h.fields fields)
  | .null => h.leaf _ trivial
  | .bool _ => h.leaf _ trivial
  | .int _ => h.leaf _ trivial
  | .float _ => h.leaf _ trivial
  | .str _ => h.leaf _ trivial

theorem Json.Cases.items (h : Json.Cases P) : ∀ items : List Json, ∀ item ∈ items, P item
  | [],_,hitem => by cases hitem
  | j::items,item,hitem => (List.mem_cons.mp hitem).elim (fun heq => heq ▸ h.all j)
      (h.items items item)

theorem Json.Cases.fields (h : Json.Cases P) :
    ∀ fields : List (String × Json), ∀ field ∈ fields, P field.2
  | [],_,hfield => by cases hfield
  | (_,j)::fields,field,hfield => (List.mem_cons.mp hfield).elim (fun heq => heq ▸ h.all j)
      (h.fields fields field)

end

end Induction

section Decision

mutual

def Json.equal : Json → Json → Bool
  | .null,k => match k with
      | .null => true
      | _ => false
  | .bool a,k => match k with
      | .bool b => a == b
      | _ => false
  | .int m,k => match k with
      | .int n => m == n
      | _ => false
  | .float x,k => match k with
      | .float y => x == y
      | _ => false
  | .str s,k => match k with
      | .str t => s == t
      | _ => false
  | .arr items,k => match k with
      | .arr others => equalItems items others
      | _ => false
  | .obj fields,k => match k with
      | .obj others => equalFields fields others
      | _ => false

def equalItems : List Json → List Json → Bool
  | [],others => others.isEmpty
  | item::items,others => match others with
      | [] => false
      | other::others => Json.equal item other && equalItems items others

def equalFields : List (String × Json) → List (String × Json) → Bool
  | [],others => others.isEmpty
  | (key,item)::fields,others => match others with
      | [] => false
      | (key',other)::others => key == key' && Json.equal item other && equalFields fields others

end

theorem equalItems_iff {items : List Json} (ih : ∀ item ∈ items, ∀ k, Json.equal item k = true ↔ item = k)
    (others : List Json) : equalItems items others = true ↔ items = others := by
  induction items generalizing others with
  | nil => cases others <;> simp [equalItems]
  | cons item items hrest =>
    rw [List.forall_mem_cons] at ih
    cases others with
    | nil => simp [equalItems]
    | cons other others => simp [equalItems,ih.1,hrest ih.2]

theorem equalFields_iff {fields : List (String × Json)}
    (ih : ∀ field ∈ fields, ∀ k, Json.equal field.2 k = true ↔ field.2 = k)
    (others : List (String × Json)) : equalFields fields others = true ↔ fields = others := by
  induction fields generalizing others with
  | nil => cases others <;> simp [equalFields]
  | cons field fields hrest =>
    obtain ⟨key,item⟩ := field
    rw [List.forall_mem_cons] at ih
    cases others with
    | nil => simp [equalFields]
    | cons other others =>
      obtain ⟨key',item'⟩ := other
      simp [equalFields,ih.1,hrest ih.2]

theorem equal_cases : Json.Cases fun j => ∀ k, Json.equal j k = true ↔ j = k where
  leaf j hleaf k := by
    cases j with
    | arr items | obj fields => exact absurd hleaf id
    | _ => cases k <;> simp [Json.equal]
  arr items ih k := by
    cases k with
    | arr others => simp [Json.equal,equalItems_iff ih]
    | _ => simp [Json.equal]
  obj fields ih k := by
    cases k with
    | obj others => simp [Json.equal,equalFields_iff ih]
    | _ => simp [Json.equal]

instance : DecidableEq Json := fun j k => decidable_of_iff _ (equal_cases.all j k)

end Decision

/-- `dict.update` with one item: the key keeps its place. -/
def set (key : String) (value : Json) : List (String × Json) → List (String × Json)
  | [] => [(key,value)]
  | (k,v)::fields => if k = key then (k,value)::fields else (k,v)::set key value fields

end OneStep.JsonValues
