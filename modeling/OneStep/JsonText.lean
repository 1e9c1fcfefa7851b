import OneStep.DigitText
import OneStep.JsonValues
import Mathlib.Data.List.Sort
import Mathlib.Data.String.Basic

/-!
# JSON texts

`json.dumps` with sorted keys, without spaces, and with ASCII characters only. How
a float is written is a parameter: the shortest text that reads back to it. A text
carries finite floats and objects whose keys are distinct.
-/
namespace OneStep.JsonText
open DigitText JsonValues

/-- An escape of four hexadecimal digits. -/
def unicodeEscape (n : ℕ) : List Char := '\\':: 'u'::fixed 16 4 n

def escapeChar (c : Char) : List Char :=
  if c = '"' then ['\\','"']
  else if c = '\\' then ['\\','\\']
  else if c.toNat = 10 then ['\\','n']
  else if c.toNat = 13 then ['\\','r']
  else if c.toNat = 9 then ['\\','t']
  else if c.toNat = 12 then ['\\','f']
  else if c.toNat = 8 then ['\\','b']
  else if 32 ≤ c.toNat ∧ c.toNat ≤ 126 then [c]
  else if c.toNat < 65536 then unicodeEscape c.toNat
  else unicodeEscape (55296+(c.toNat-65536)/1024)++unicodeEscape (56320+(c.toNat-65536)%1024)

def quote (s : String) : List Char := '"'::s.toList.flatMap escapeChar++['"']

def intText (n : ℤ) : List Char := (if n < 0 then ['-'] else [])++Nat.toDigits 10 n.natAbs

def separated (texts : List (List Char)) : List Char := [','].intercalate texts

/-- The fields of an object in the order of their keys. -/
def sortFields {α : Type} (fields : List (String × α)) : List (String × α) :=
  fields.insertionSort fun a b => a.1 ≤ b.1

def fieldText (field : String × List Char) : List Char := quote field.1++ ':'::field.2

section Dumps
variable (floatText : Double → List Char)

mutual

def dumps : Json → List Char
  | .null => ['n','u','l','l']
  | .bool b => if b then ['t','r','u','e'] else ['f','a','l','s','e']
  | .int n => intText n
  | .float x => floatText x
  | .str s => quote s
  | .arr items => '['::separated (dumpsAll items)++[']']
  | .obj fields =>
    Char.ofNat 123::separated ((sortFields (dumpsFields fields)).map fieldText)++[Char.ofNat 125]

def dumpsAll : List Json → List (List Char)
  | [] => []
  | item::items => dumps item::dumpsAll items

def dumpsFields : List (String × Json) → List (String × List Char)
  | [] => []
  | (key,item)::fields => (key,dumps item)::dumpsFields fields

end

end Dumps

section Portable

mutual

/-- A JSON text carries it unchanged. -/
def Portable : Json → Prop
  | .float x => x.isFinite = true
  | .arr items => PortableAll items
  | .obj fields => PortableFields fields ∧ (fields.map Prod.fst).Nodup
  | _ => True

def PortableAll : List Json → Prop
  | [] => True
  | item::items => Portable item ∧ PortableAll items

def PortableFields : List (String × Json) → Prop
  | [] => True
  | (_,item)::fields => Portable item ∧ PortableFields fields

end

theorem portableAll_iff {items : List Json} : PortableAll items ↔ ∀ item ∈ items, Portable item := by
  induction items with
  | nil => simp [PortableAll]
  | cons item items ih => rw [PortableAll,ih,List.forall_mem_cons]

theorem portableFields_iff {fields : List (String × Json)} :
    PortableFields fields ↔ ∀ item ∈ fields, Portable item.2 := by
  induction fields with
  | nil => simp [PortableFields]
  | cons item fields ih =>
    obtain ⟨key,value⟩ := item
    rw [PortableFields,ih,List.forall_mem_cons]

end Portable

end OneStep.JsonText
