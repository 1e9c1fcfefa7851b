import OneStep.DateTimeText
import OneStep.JsonValues
import OneStep.ScalarTexts
import Mathlib.Data.List.Sort

/-!
# Python values

The values that are captured and submitted. A set lists its elements in the order
it is iterated, and a dictionary its items in the order they were inserted. A
class is known by its module, its qualified name and an identity; what it is, and
what the names resolve to, is told by the loaded modules. Equality is the one of
`==`: numbers are compared across their types, datetimes with an offset by their
instant, sets and dictionaries without order, and the members of an enumeration
by identity. It raises where a signaling `Decimal` meets a number.
-/
namespace OneStep.PythonValues
open DateTimeText JsonValues ScalarTexts

structure ClassRef where
  moduleName : String
  qualname : String
  ident : ℕ := 0
  deriving DecidableEq, Repr

/-- A key of a dictionary: a string, or another one, by the name of its type and its
text. -/
inductive Key where
  | str (s : String)
  | other (typeName text : String)
  deriving DecidableEq, Repr

inductive Value where
  | none
  | bool (b : Bool)
  | int (n : ℤ)
  | float (x : Double)
  | str (s : String)
  | datetime (d : DateTime)
  | uuid (u : UUID)
  | bytes (bytes : List UInt8)
  | decimal (d : Decimal)
  | list (vs : List Value)
  | tuple (vs : List Value)
  | set (vs : List Value)
  | frozenset (vs : List Value)
  | dict (items : List (Key × Value))
  | enum (cls : ClassRef) (name : Option String) (value : Value)
  | namedtuple (cls : ClassRef) (vs : List Value)
  | other (typeName : String)

inductive Exc where
  | valueError (message : String)
  | typeError
  | invalidOperation
  | other
  deriving DecidableEq, Repr

/-- What a class is: an enumeration, which looks members up by name, a named
tuple, or anything else. -/
inductive Definition where
  | enum (members : List (String × String × Value))
  | namedtuple (fields : List String)
  | other

/-- What a module and a qualified name lead to. -/
inductive Resolved where
  | noModule
  | noAttribute
  | notType
  | type (cls : ClassRef)
  deriving DecidableEq, Repr

/-- The loaded modules; calling a class without arguments may give anything. -/
structure Loaded where
  resolve : String → String → Resolved
  definition : ClassRef → Definition
  call : ClassRef → Except Exc Value

section Numbers

inductive Num where
  | rat (q : ℚ)
  | infinity (negative : Bool)
  | nan
  | snan
  deriving DecidableEq

/-- The number a double stands for. -/
def doubleNum (x : Double) : Num :=
  let n := x.bits.toNat
  let negative := decide (2^63 ≤ n)
  let exponent : ℕ := n/2^52%2^11
  let fraction : ℕ := n%2^52
  if exponent = 2047 then (if fraction = 0 then .infinity negative else .nan)
  else
    let significand : ℕ := if exponent = 0 then fraction else fraction+2^52
    let q : ℚ := significand*2^((max 1 exponent : ℕ)-1075 : ℤ)
    .rat (if negative then -q else q)

def decimalNum : Decimal → Num
  | .finite negative coefficient exponent =>
    let q : ℚ := coefficient*10^exponent
    .rat (if negative then -q else q)
  | .infinity negative => .infinity negative
  | .nan _ signaling _ => if signaling then .snan else .nan

def Value.num : Value → Option Num
  | .bool b => some (.rat (if b then 1 else 0))
  | .int n => some (.rat n)
  | .float x => some (doubleNum x)
  | .decimal d => some (decimalNum d)
  | _ => Option.none

/-- Comparing numbers; none when it raises `InvalidOperation`. -/
def numEq : Num → Num → Option Bool
  | .snan,_ | _,.snan => Option.none
  | .rat p,.rat q => some (decide (p = q))
  | .infinity a,.infinity b => some (a == b)
  | _,_ => some false

end Numbers

section Equality

/-- Members of a flag without a name are told apart by their integer. -/
def flagValue : Value → Option ℤ
  | .int n => some n
  | _ => Option.none

mutual

/-- `==`; none when it raises `InvalidOperation`. -/
def pyEq : Value → Value → Option Bool
  | .none,w => some (match w with
      | .none => true
      | _ => false)
  | .str s,w => some (match w with
      | .str t => s == t
      | _ => false)
  | .datetime d,w => some (match w with
      | .datetime e => d.equals e
      | _ => false)
  | .uuid u,w => some (match w with
      | .uuid v => u == v
      | _ => false)
  | .bytes bs,w => some (match w with
      | .bytes cs => bs == cs
      | _ => false)
  | .list vs,w =>
    match w with
    | .list ws => listEq vs ws
    | _ => some false
  | .tuple vs,w =>
    match w with
    | .tuple ws | .namedtuple _ ws => listEq vs ws
    | _ => some false
  | .namedtuple _ vs,w =>
    match w with
    | .tuple ws | .namedtuple _ ws => listEq vs ws
    | _ => some false
  | .set vs,w =>
    match w with
    | .set ws | .frozenset ws => some (vs.length == ws.length && allIn vs ws)
    | _ => some false
  | .frozenset vs,w =>
    match w with
    | .set ws | .frozenset ws => some (vs.length == ws.length && allIn vs ws)
    | _ => some false
  | .dict items,w =>
    match w with
    | .dict others => if items.length = others.length then itemsEq items others else some false
    | _ => some false
  | .enum cls name v,w =>
    match w with
    | .enum cls' name' w => some (decide (cls = cls' ∧ name = name' ∧
        (name = Option.none → flagValue v = flagValue w)))
    | _ => some false
  | .bool b,w => (Value.num w).elim (some false) (numEq (.rat (if b then 1 else 0)))
  | .int n,w => (Value.num w).elim (some false) (numEq (.rat n))
  | .float x,w => (Value.num w).elim (some false) (numEq (doubleNum x))
  | .decimal d,w => (Value.num w).elim (some false) (numEq (decimalNum d))
  | .other _,_ => some false

/-- Sequences of one length are compared up to the first difference. -/
def listEq : List Value → List Value → Option Bool
  | [],ws => some ws.isEmpty
  | v::vs,ws =>
    match ws with
    | [] => some false
    | w::ws =>
      if vs.length = ws.length then
        (pyEq v w).bind fun equal => if equal then listEq vs ws else some false
      else some false

/-- Every element is among the others. -/
def allIn : List Value → List Value → Bool
  | [],_ => true
  | v::vs,ws => (ws.any fun w => pyEq v w == some true) && allIn vs ws

/-- Every item is among the others, up to the first difference. -/
def itemsEq : List (Key × Value) → List (Key × Value) → Option Bool
  | [],_ => some true
  | (k,v)::items,others =>
    match others.lookup k with
    | Option.none => some false
    | some w => (pyEq v w).bind fun equal => if equal then itemsEq items others else some false

end

section Equations
attribute [local simp] pyEq
end Equations

mutual

def hashable : Value → Bool
  | .list _ | .set _ | .dict _ => false
  | .tuple vs => allHashable vs
  | .namedtuple _ vs => allHashable vs
  | .decimal (.nan _ true _) => false
  | _ => true

def allHashable : List Value → Bool
  | [] => true
  | v::vs => hashable v && allHashable vs

end

section Equations
attribute [local simp] hashable
end Equations

/-- The elements of a set, each added unless an equal one is there. -/
def addAll (vs : List Value) : List Value :=
  vs.foldl (fun added v => if added.any fun w => pyEq w v == some true then added else added++[v]) []

/-- `set(items)`; none when an element cannot be hashed. -/
def makeSet (vs : List Value) : Option (List Value) :=
  if allHashable vs then some (addAll vs) else Option.none

end Equality

section Induction

/-- Not made of other values. -/
def Value.Leaf : Value → Prop
  | .list _ | .tuple _ | .set _ | .frozenset _ | .dict _ | .enum _ _ _ | .namedtuple _ _ => False
  | _ => True

variable {P : Value → Prop}

/-- The cases of an induction over values. -/
structure Cases (P : Value → Prop) : Prop where
  leaf : ∀ v, v.Leaf → P v
  list : ∀ vs, (∀ v ∈ vs, P v) → P (.list vs)
  tuple : ∀ vs, (∀ v ∈ vs, P v) → P (.tuple vs)
  set : ∀ vs, (∀ v ∈ vs, P v) → P (.set vs)
  frozenset : ∀ vs, (∀ v ∈ vs, P v) → P (.frozenset vs)
  dict : ∀ items, (∀ item ∈ items, P item.2) → P (.dict items)
  enum : ∀ cls name v, P v → P (.enum cls name v)
  namedtuple : ∀ cls vs, (∀ v ∈ vs, P v) → P (.namedtuple cls vs)

mutual

theorem Cases.all (h : Cases P) : ∀ v, P v
  | .list vs => h.list vs (h.members vs)
  | .tuple vs => h.tuple vs (h.members vs)
  | .set vs => h.set vs (h.members vs)
  | .frozenset vs => h.frozenset vs (h.members vs)
  | .dict items => h.dict items (h.items items)
  | .enum cls name v => h.enum cls name v (h.all v)
  | .namedtuple cls vs => h.namedtuple cls vs (h.members vs)
  | .none => h.leaf _ trivial
  | .bool _ => h.leaf _ trivial
  | .int _ => h.leaf _ trivial
  | .float _ => h.leaf _ trivial
  | .str _ => h.leaf _ trivial
  | .datetime _ => h.leaf _ trivial
  | .uuid _ => h.leaf _ trivial
  | .bytes _ => h.leaf _ trivial
  | .decimal _ => h.leaf _ trivial
  | .other _ => h.leaf _ trivial

theorem Cases.members (h : Cases P) : ∀ vs : List Value, ∀ v ∈ vs, P v
  | [],_,hv => by cases hv
  | u::us,v,hv => (List.mem_cons.mp hv).elim (fun heq => heq ▸ h.all u) (h.members us v)

theorem Cases.items (h : Cases P) : ∀ items : List (Key × Value), ∀ item ∈ items, P item.2
  | [],_,hitem => by cases hitem
  | (_,u)::us,item,hitem => (List.mem_cons.mp hitem).elim (fun heq => heq ▸ h.all u) (h.items us item)

end

end Induction

end OneStep.PythonValues
