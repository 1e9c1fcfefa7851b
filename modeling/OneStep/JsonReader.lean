import OneStep.JsonText
import OneStep.ScalarTexts

/-!
# Reading JSON

`json.loads`: the whole text is one value with spaces around it, strings hold no
control characters, and a repeated key keeps its last value. How the text of a
float is read is a parameter. A string with half of a surrogate pair is refused,
since a text here has no such character.
-/
namespace OneStep.JsonReader
open DigitText JsonText JsonValues ScalarTexts

section Spaces

def isBlank (c : Char) : Bool := [32,9,10,13].contains c.toNat

def skip (cs : List Char) : List Char := cs.dropWhile isBlank

theorem skip_of_plain {cs : List Char} (h : ∀ c ∈ cs.head?, isBlank c = false) : skip cs = cs := by
  cases cs with
  | nil => rfl
  | cons c cs => exact List.dropWhile_cons_of_neg (by simp [h c rfl])

end Spaces

section Strings

/-- The character that an escape of one letter stands for. -/
def unescape (c : Char) : Option Char :=
  if c = '"' ∨ c = '\\' ∨ c = '/' then some c
  else if c = 'b' then some (Char.ofNat 8)
  else if c = 'f' then some (Char.ofNat 12)
  else if c = 'n' then some (Char.ofNat 10)
  else if c = 'r' then some (Char.ofNat 13)
  else if c = 't' then some (Char.ofNat 9)
  else none

/-- What follows the letter u of an escape. -/
def readUnicode (cs : List Char) : Option (Char × List Char) :=
  (readFixed 16 4 0 cs).bind fun n =>
    if n.1 < 55296 ∨ 57344 ≤ n.1 then some (Char.ofNat n.1,n.2)
    else if n.1 < 56320 ∧ ['\\','u'].isPrefixOf n.2 then
      (readFixed 16 4 0 (n.2.drop 2)).bind fun low =>
        if 56320 ≤ low.1 ∧ low.1 < 57344 then
          some (Char.ofNat (65536+(n.1-55296)*1024+(low.1-56320)),low.2)
        else none
    else none

/-- The inside of a string and its closing quote; the fuel bounds the characters. -/
def readChars : ℕ → List Char → Option (List Char × List Char)
  | 0,_ => none
  | _+1,[] => none
  | fuel+1,c::cs =>
    if c = '"' then some ([],cs)
    else if c = '\\' then
      match cs with
      | [] => none
      | e::cs =>
        (if e = 'u' then readUnicode cs else (unescape e).map fun d => (d,cs)).bind fun r =>
          (readChars fuel r.2).map fun s => (r.1::s.1,s.2)
    else if c.toNat < 32 then none
    else (readChars fuel cs).map fun s => (c::s.1,s.2)

def readString (cs : List Char) : Option (String × List Char) :=
  (readChars (cs.length+1) cs).map fun s => (String.ofList s.1,s.2)

/-- A character that a string holds as it is. -/
def isPlain (c : Char) : Bool := decide (32 ≤ c.toNat ∧ c.toNat ≤ 126 ∧ c ≠ '"' ∧ c ≠ '\\')

theorem escapeChar_plain {c : Char} (h : isPlain c = true) : escapeChar c = [c] := by
  obtain ⟨hlow,hhigh,hquote,hslash⟩ := of_decide_eq_true h
  unfold escapeChar
  rw [if_neg hquote,if_neg hslash,if_neg (by omega),if_neg (by omega),if_neg (by omega),
    if_neg (by omega),if_neg (by omega),if_pos ⟨hlow,hhigh⟩]

variable {cs : List Char}

theorem quote_plain (h : ∀ c ∈ cs, isPlain c = true) :
    quote (String.ofList cs) = '"'::cs++['"'] := by
  have hflat : cs.flatMap escapeChar = cs := by
    induction cs with
    | nil => rfl
    | cons c cs ih =>
      rw [List.forall_mem_cons] at h
      rw [List.flatMap_cons,escapeChar_plain h.1,ih h.2]
      rfl
  rw [quote,String.toList_ofList,hflat]

theorem readChars_plain (h : ∀ c ∈ cs, isPlain c = true) (rest : List Char) {fuel : ℕ}
    (hfuel : cs.length < fuel) : readChars fuel (cs++ '"'::rest) = some (cs,rest) := by
  induction cs generalizing fuel with
  | nil =>
    cases fuel with
    | zero => omega
    | succ fuel => rfl
  | cons c cs ih =>
    rw [List.forall_mem_cons] at h
    obtain ⟨hlow,hhigh,hquote,hslash⟩ := of_decide_eq_true h.1
    cases fuel with
    | zero => omega
    | succ fuel =>
      rw [List.length_cons] at hfuel
      rw [List.cons_append]
      unfold readChars
      rw [if_neg hquote,if_neg hslash,if_neg (by omega),ih h.2 (by omega)]
      rfl

theorem readString_plain (h : ∀ c ∈ cs, isPlain c = true) (rest : List Char) :
    readString (cs++ '"'::rest) = some (String.ofList cs,rest) := by
  unfold readString
  rw [readChars_plain h rest (by simp)]
  rfl

end Strings

section Numbers
variable (readFloat : List Char → Double)

/-- The digits in front of the point; a zero stands alone. -/
def readWhole : List Char → Option (List Char × List Char)
  | '0'::cs => some (['0'],cs)
  | cs =>
    let ds := cs.takeWhile Char.isDigit
    if ds.isEmpty then none else some (ds,cs.drop ds.length)

def readPoint : List Char → List Char × List Char
  | '.'::cs =>
    let ds := cs.takeWhile Char.isDigit
    if ds.isEmpty then ([],'.'::cs) else ('.'::ds,cs.drop ds.length)
  | cs => ([],cs)

def readPower : List Char → List Char × List Char
  | [] => ([],[])
  | e::cs =>
    if e = 'e' ∨ e = 'E' then
      let sign := cs.take 1 |>.filter fun c => c = '+' ∨ c = '-'
      let ds := (cs.drop sign.length).takeWhile Char.isDigit
      if ds.isEmpty then ([],e::cs)
      else (e::sign++ds,(cs.drop sign.length).drop ds.length)
    else ([],e::cs)

def readNumber (cs : List Char) : Option (Json × List Char) :=
  let negative := ['-'].isPrefixOf cs
  (readWhole (if negative then cs.drop 1 else cs)).map fun whole =>
    let point := readPoint whole.2
    let power := readPower point.2
    let shown := point.1++power.1
    if shown.isEmpty then
      let n : ℤ := Nat.ofDigitChars 10 whole.1 0
      (.int (if negative then -n else n),power.2)
    else
      (.float (readFloat ((if negative then ['-'] else [])++whole.1++shown)),power.2)

end Numbers

section Values
variable (readFloat : List Char → Double)

/-- The constants, with the three that only Python reads. -/
def words : List (List Char × Json) :=
  [(['n','u','l','l'],.null),(['t','r','u','e'],.bool true),(['f','a','l','s','e'],.bool false),
    (['N','a','N'],.float ⟨0x7ff8000000000000⟩),
    (['I','n','f','i','n','i','t','y'],.float ⟨0x7ff0000000000000⟩),
    (['-','I','n','f','i','n','i','t','y'],.float ⟨0xfff0000000000000⟩)]

/-- A constant or a number. -/
def readPlain (cs : List Char) : Option (Json × List Char) :=
  match words.find? fun w => w.1.isPrefixOf cs with
  | some w => some (w.2,cs.drop w.1.length)
  | none => readNumber readFloat cs

mutual

/-- One value and what follows it; the fuel bounds the nesting and the items. -/
def readValue : ℕ → List Char → Option (Json × List Char)
  | 0,_ => none
  | _+1,[] => none
  | fuel+1,c::cs =>
    if c = '"' then (readString cs).map fun s => (.str s.1,s.2)
    else if c = '[' then
      if [']'].isPrefixOf (skip cs) then some (.arr [],(skip cs).drop 1)
      else (readItems fuel (skip cs)).map fun r => (.arr r.1,r.2)
    else if c = Char.ofNat 123 then
      if [Char.ofNat 125].isPrefixOf (skip cs) then some (.obj [],(skip cs).drop 1)
      else (readFields fuel [] (skip cs)).map fun r => (.obj r.1,r.2)
    else readPlain readFloat (c::cs)

def readItems : ℕ → List Char → Option (List Json × List Char)
  | 0,_ => none
  | fuel+1,cs =>
    (readValue fuel cs).bind fun item =>
      match skip item.2 with
      | [] => none
      | c::cs =>
        if c = ',' then (readItems fuel (skip cs)).map fun r => (item.1::r.1,r.2)
        else if c = ']' then some ([item.1],cs)
        else none

/-- The fields that follow those already read. -/
def readFields : ℕ → List (String × Json) → List Char → Option (List (String × Json) × List Char)
  | 0,_,_ => none
  | _+1,_,[] => none
  | fuel+1,fields,q::cs =>
    if q = '"' then
      (readString cs).bind fun key =>
        match skip key.2 with
        | [] => none
        | colon::cs =>
          if colon = ':' then
            (readValue fuel (skip cs)).bind fun item =>
              match skip item.2 with
              | [] => none
              | c::cs =>
                if c = ',' then readFields fuel (set key.1 item.1 fields) (skip cs)
                else if c = Char.ofNat 125 then some (set key.1 item.1 fields,cs)
                else none
          else none
    else none

end

/-- `json.loads` of a text; none when it raises. -/
def loads (cs : List Char) : Option Json :=
  (readValue readFloat (2*cs.length+2) (skip cs)).bind fun r =>
    if (skip r.2).isEmpty then some r.1 else none

end Values

section Objects
variable {readFloat : List Char → Double}

/-- What may follow a field of an object. -/
def Closes (rest : List Char) : Prop := ∃ c cs, rest = c::cs ∧ (c = ',' ∨ c = Char.ofNat 125)

theorem skip_closes {rest : List Char} (h : Closes rest) : skip rest = rest := by
  obtain ⟨c,cs,rfl,hc⟩ := h
  apply skip_of_plain
  intro d hd
  cases hd
  rcases hc with rfl | rfl <;> rfl

/-- The text of a value inside an object. -/
structure Reads (readFloat : List Char → Double) (text : List Char) (j : Json) : Prop where
  tight : ∀ rest, skip (text++rest) = text++rest
  value : ∀ fuel rest, Closes rest → readValue readFloat (fuel+1) (text++rest) = some (j,rest)

theorem reads_string {cs : List Char} (h : ∀ c ∈ cs, isPlain c = true) :
    Reads readFloat ('"'::cs++['"']) (.str (String.ofList cs)) where
  tight rest := rfl
  value fuel rest _ := by
    rw [List.append_assoc,List.cons_append]
    unfold readValue
    rw [if_pos rfl,List.singleton_append,readString_plain h]
    rfl

theorem reads_one : Reads readFloat ['1'] (.int 1) where
  tight rest := rfl
  value fuel rest h := by
    obtain ⟨c,cs,rfl,rfl | rfl⟩ := h <;> rfl

/-- A field whose key and value are read back. -/
structure Field (readFloat : List Char → Double) where
  key : List Char
  text : List Char
  value : Json
  plain : ∀ c ∈ key, isPlain c = true
  reads : Reads readFloat text value

def Field.named (f : Field readFloat) : String × List Char := (String.ofList f.key,f.text)

def Field.item (f : Field readFloat) : String × Json := (String.ofList f.key,f.value)

/-- `json.dumps` of an object without spaces, its fields in their order. -/
def objectText (fields : List (String × List Char)) : List Char :=
  Char.ofNat 123::separated (fields.map fieldText)++[Char.ofNat 125]

variable (f : Field readFloat)

theorem readFields_step (fuel : ℕ) (fields : List (String × Json)) {c : Char}
    (hc : c = ',' ∨ c = Char.ofNat 125) (cs : List Char) :
    readFields readFloat (fuel+2) fields (fieldText f.named++c::cs) =
      if c = ',' then
        readFields readFloat (fuel+1) (set (String.ofList f.key) f.value fields) (skip cs)
      else some (set (String.ofList f.key) f.value fields,cs) := by
  have htext : fieldText f.named++c::cs = '"'::(f.key++ '"':: ':'::(f.text++c::cs)) := by
    unfold fieldText Field.named
    rw [quote_plain f.plain]
    simp
  have hclose : Closes (c::cs) := ⟨c,cs,rfl,hc⟩
  have hcolon : skip (':'::(f.text++c::cs)) = ':'::(f.text++c::cs) := rfl
  rw [htext]
  conv_lhs => unfold readFields
  rw [if_pos rfl,readString_plain f.plain,Option.bind_some]
  dsimp only
  rw [hcolon]
  dsimp only
  rw [if_pos rfl,f.reads.tight,f.reads.value fuel _ hclose,Option.bind_some,skip_closes hclose]
  dsimp only
  rcases hc with rfl | rfl
  · rw [if_pos rfl,if_pos rfl]
  · rw [if_neg (by decide),if_pos rfl,if_neg (by decide)]

/-- The fields of an object, with commas between them. -/
def fieldsText (fields : List (Field readFloat)) : List Char :=
  separated (fields.map fun f => fieldText f.named)

theorem fieldsText_cons (f g : Field readFloat) (more : List (Field readFloat)) :
    fieldsText (f::g::more) = fieldText f.named++ ','::fieldsText (g::more) := by
  simp [fieldsText,separated]

theorem fieldsText_quote (more : List (Field readFloat)) (rest : List Char) :
    ∃ cs, fieldsText (f::more)++rest = '"'::cs := by
  cases more with
  | nil => exact ⟨_,by simp [fieldsText,separated,fieldText,quote]; rfl⟩
  | cons g more => exact ⟨_,by rw [fieldsText_cons]; simp [fieldText,quote]; rfl⟩

theorem skip_fieldsText (more : List (Field readFloat)) (rest : List Char) :
    skip (fieldsText (f::more)++rest) = fieldsText (f::more)++rest := by
  obtain ⟨cs,hcs⟩ := fieldsText_quote f more rest
  rw [hcs]
  rfl

theorem length_fieldsText (more : List (Field readFloat)) :
    more.length ≤ (fieldsText (f::more)).length := by
  induction more generalizing f with
  | nil => exact Nat.zero_le _
  | cons g more ih =>
    have hmore := ih g
    rw [fieldsText_cons,List.length_append,List.length_cons,List.length_cons]
    omega

theorem readFields_all (more : List (Field readFloat)) (fuel : ℕ) (fields : List (String × Json))
    (rest : List Char) :
    readFields readFloat (more.length+fuel+2) fields
      (fieldsText (f::more)++Char.ofNat 125::rest) =
      some (((f::more).map Field.item).foldl (fun fs i => set i.1 i.2 fs) fields,rest) := by
  induction more generalizing f fields with
  | nil =>
    have hone : fieldsText [f] = fieldText f.named := by simp [fieldsText,separated]
    rw [hone,List.length_nil,Nat.zero_add,readFields_step f fuel fields (.inr rfl),
      if_neg (by decide)]
    rfl
  | cons g more ih =>
    have hfuel : (g::more).length+fuel+2 = (more.length+fuel+1)+2 := by
      rw [List.length_cons]
      omega
    rw [fieldsText_cons,List.append_assoc,List.cons_append,hfuel,
      readFields_step f _ fields (.inl rfl),if_pos rfl,skip_fieldsText]
    exact ih g _

theorem loads_objectText (more : List (Field readFloat)) :
    loads readFloat (objectText ((f::more).map Field.named)) =
      some (.obj (((f::more).map Field.item).foldl (fun fs i => set i.1 i.2 fs) [])) := by
  have htext : objectText ((f::more).map Field.named) =
      Char.ofNat 123::(fieldsText (f::more)++[Char.ofNat 125]) := by
    simp [objectText,fieldsText,Function.comp_def]
  have hskip : skip (Char.ofNat 123::(fieldsText (f::more)++[Char.ofNat 125])) =
      Char.ofNat 123::(fieldsText (f::more)++[Char.ofNat 125]) := rfl
  have hlength := length_fieldsText f more
  obtain ⟨cs,hcs⟩ := fieldsText_quote f more [Char.ofNat 125]
  obtain ⟨spare,hspare⟩ : ∃ spare, 2*(Char.ofNat 123::(fieldsText (f::more)++
      [Char.ofNat 125])).length+2 = (more.length+spare+2)+1 := by
    refine ⟨2*(fieldsText (f::more)).length+3-more.length,?_⟩
    rw [List.length_cons,List.length_append,List.length_singleton]
    omega
  have hopen : ¬[Char.ofNat 125].isPrefixOf (fieldsText (f::more)++[Char.ofNat 125]) = true := by
    rw [hcs]
    exact Bool.false_ne_true
  unfold loads
  rw [htext,hskip,hspare]
  unfold readValue
  rw [if_neg (by decide),if_neg (by decide),if_pos rfl,skip_fieldsText,if_neg hopen,
    readFields_all f more spare [] []]
  rfl

end Objects

end OneStep.JsonReader
