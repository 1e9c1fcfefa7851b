import OneStep.ItemLists
import OneStep.JsonText
import OneStep.WireTexts

/-!
# JSON as Python writes it

`json.dumps` over texts of code points, with or without the escapes that keep the
text ASCII, and with or without spaces behind the separators. A value of no JSON
type is written as the text that `str` makes of it. Writing fails for an integer of
more digits than the interpreter turns into a text, and for nesting beyond its
recursion limit.
-/
namespace OneStep.WireJson
open DigitText ItemLists JsonText JsonValues WireTexts

/-- A value that `json.dumps` is given. -/
inductive Data where
  | null
  | bool (b : Bool)
  | int (n : ℤ)
  | float (x : Double)
  | str (t : Text)
  | arr (items : List Data)
  | obj (fields : List (Text × Data))
  /-- Of another type, as `str` shows it; none when that raises. -/
  | other (shown : Option Text)

abbrev Fields := List (Text × Data)

/-- `dict[key] = value`: the key keeps its place. -/
def put (key : Text) (value : Data) : Fields → Fields
  | [] => [(key,value)]
  | (k,v)::fields => if k = key then (k,value)::fields else (k,v)::put key value fields

theorem put_new {key : Text} {fields : Fields} (h : key ∉ fields.map Prod.fst) (value : Data) :
    put key value fields = fields++[(key,value)] := by
  induction fields with
  | nil => rfl
  | cons field fields ih =>
    obtain ⟨k,v⟩ := field
    rw [List.map_cons,List.mem_cons,not_or] at h
    rw [put,if_neg fun heq => h.1 heq.symm,ih h.2]
    rfl

/-- What `json` raises. -/
inductive Fault where
  /-- `json.JSONDecodeError`. -/
  | notJson
  /-- ValueError, for an integer of too many digits. -/
  | manyDigits
  /-- RecursionError. -/
  | tooDeep
  /-- Whatever `str` of a value raises. -/
  | unshown
  deriving DecidableEq, Repr

/-- The settings of the interpreter. -/
structure Limits where
  /-- `sys.get_int_max_str_digits`; none is no limit. -/
  digits : Option ℕ
  /-- How many containers may stand inside each other. -/
  nesting : ℕ

def Limits.tooLong (limits : Limits) (digits : List Char) : Bool :=
  limits.digits.any fun most => decide (most < digits.length)

section Induction
variable {P : Data → Prop}

def Data.Leaf : Data → Prop
  | .arr _ | .obj _ => False
  | _ => True

/-- The cases of an induction over values. -/
structure Data.Cases (P : Data → Prop) : Prop where
  leaf : ∀ v, v.Leaf → P v
  arr : ∀ items, (∀ v ∈ items, P v) → P (.arr items)
  obj : ∀ fields : Fields, (∀ field ∈ fields, P field.2) → P (.obj fields)

mutual

theorem Data.Cases.all (h : Data.Cases P) : ∀ v, P v
  | .arr items => h.arr items (h.items items)
  | .obj fields => h.obj fields (h.fields fields)
  | .null => h.leaf _ trivial
  | .bool _ => h.leaf _ trivial
  | .int _ => h.leaf _ trivial
  | .float _ => h.leaf _ trivial
  | .str _ => h.leaf _ trivial
  | .other _ => h.leaf _ trivial

theorem Data.Cases.items (h : Data.Cases P) : ∀ items : List Data, ∀ v ∈ items, P v
  | [],_,hv => by cases hv
  | w::items,v,hv => (List.mem_cons.mp hv).elim (fun heq => heq ▸ h.all w) (h.items items v)

theorem Data.Cases.fields (h : Data.Cases P) : ∀ fields : Fields, ∀ field ∈ fields, P field.2
  | [],_,hfield => by cases hfield
  | (_,w)::fields,field,hfield => (List.mem_cons.mp hfield).elim (fun heq => heq ▸ h.all w)
      (h.fields fields field)

end

mutual

/-- Every value in it satisfies a condition on its depth and itself. -/
def Data.All (p : ℕ → Data → Prop) (depth : ℕ) : Data → Prop
  | .arr items => p depth (.arr items) ∧ AllItems p (depth+1) items
  | .obj fields => p depth (.obj fields) ∧ AllFields p (depth+1) fields
  | v => p depth v

def AllItems (p : ℕ → Data → Prop) (depth : ℕ) : List Data → Prop
  | [] => True
  | v::items => v.All p depth ∧ AllItems p depth items

def AllFields (p : ℕ → Data → Prop) (depth : ℕ) : Fields → Prop
  | [] => True
  | (_,v)::fields => v.All p depth ∧ AllFields p depth fields

end

theorem allItems_iff {p : ℕ → Data → Prop} {depth : ℕ} {items : List Data} :
    AllItems p depth items ↔ ∀ v ∈ items, v.All p depth := by
  induction items with
  | nil => simp [AllItems]
  | cons v items ih => rw [AllItems,ih,List.forall_mem_cons]

theorem allFields_iff {p : ℕ → Data → Prop} {depth : ℕ} {fields : Fields} :
    AllFields p depth fields ↔ ∀ field ∈ fields, field.2.All p depth := by
  induction fields with
  | nil => simp [AllFields]
  | cons field fields ih =>
    obtain ⟨key,v⟩ := field
    rw [AllFields,ih,List.forall_mem_cons]

end Induction

section Floats

/-- The digits of a number: no zero in front of others. -/
structure Whole (ds : List Char) : Prop where
  digits : ∀ c ∈ ds, c.isDigit = true
  front : ds = ['0'] ∨ ds ≠ [] ∧ ds.head? ≠ some '0'

structure FloatText where
  negative : Bool
  whole : List Char
  point : List Char
  power : Option (Char × List Char)
  isWhole : Whole whole
  pointDigits : ∀ c ∈ point, c.isDigit = true
  powerDigits : ∀ p ∈ power, (p.1 = '+' ∨ p.1 = '-') ∧ p.2 ≠ [] ∧ ∀ c ∈ p.2, c.isDigit = true
  shown : point ≠ [] ∨ power ≠ none

def FloatText.pointText (f : FloatText) : List Char :=
  if f.point.isEmpty then [] else '.'::f.point

def FloatText.powerText (f : FloatText) : List Char :=
  match f.power with
  | none => []
  | some p => 'e'::p.1::p.2

def FloatText.text (f : FloatText) : List Char :=
  (if f.negative then ['-'] else [])++f.whole++f.pointText++f.powerText

/-- `float.__repr__` of the finite floats and `float` of a text, which reads it back. -/
structure Floats where
  repr : Double → FloatText
  read : List Char → Double
  reads : ∀ x, x.isFinite = true → read (repr x).text = x

def positive : Double := ⟨0x7ff0000000000000⟩

def negative : Double := ⟨0xfff0000000000000⟩

def notNumber : Double := ⟨0x7ff8000000000000⟩

/-- `json.dumps` of a float. -/
def Floats.shown (floats : Floats) (x : Double) : List Char :=
  if x.isFinite then (floats.repr x).text
  else if x = positive then ['I','n','f','i','n','i','t','y']
  else if x = negative then ['-','I','n','f','i','n','i','t','y']
  else ['N','a','N']

end Floats

theorem whole_toDigits (n : ℕ) : Whole (Nat.toDigits 10 n) where
  digits _ hc := Nat.isDigit_of_mem_toDigits (by decide) (by decide) hc
  front := by
    rcases Nat.eq_zero_or_pos n with rfl | hpos
    · exact .inl (Nat.toDigits_zero 10)
    · refine .inr ⟨Nat.toDigits_ne_nil,?_⟩
      induction n using Nat.strongRecOn with
      | ind n ih =>
        rcases Nat.lt_or_ge n 10 with h | h
        · rw [Nat.toDigits_of_lt_base h]
          interval_cases n <;> decide
        · rw [Nat.toDigits_of_base_le (by decide) h,
            List.head?_append_of_ne_nil _ Nat.toDigits_ne_nil]
          exact ih (n/10) (Nat.div_lt_self hpos (by decide)) (Nat.div_pos h (by decide))

/-- How a text is laid out. -/
structure Style where
  /-- `ensure_ascii`. -/
  ascii : Bool
  /-- Separators with a space behind them, which are the default. -/
  spaced : Bool

def Style.spaces (style : Style) : Text := if style.spaced then [code ' '] else []

section Dumps
variable (style : Style) (floats : Floats) (limits : Limits)

/-- An escape of four hexadecimal digits. -/
def unicodeEscape (n : ℕ) : Text := code '\\'::code 'u'::text (fixed 16 4 n)

def escape (c : CodePoint) : Text :=
  let n := c.val
  if n = 34 then text ['\\','"']
  else if n = 92 then text ['\\','\\']
  else if n = 10 then text ['\\','n']
  else if n = 13 then text ['\\','r']
  else if n = 9 then text ['\\','t']
  else if n = 12 then text ['\\','f']
  else if n = 8 then text ['\\','b']
  else if n < 32 ∨ style.ascii ∧ 126 < n then
    if n < 65536 then unicodeEscape n
    else unicodeEscape (55296+(n-65536)/1024)++unicodeEscape (56320+(n-65536)%1024)
  else [c]

def quote (t : Text) : Text := code '"'::t.flatMap (escape style)++[code '"']

/-- Texts with a comma between them. -/
def joined : List Text → Text
  | [] => []
  | t::ts => t++ts.flatMap fun u => code ','::style.spaces++u

def fieldText (key value : Text) : Text := quote style key++code ':'::style.spaces++value

mutual

/-- `json.dumps` of a value inside so many containers. -/
def dumps (depth : ℕ) : Data → Except Fault Text
  | .null => .ok (text ['n','u','l','l'])
  | .bool b => .ok (text (if b then ['t','r','u','e'] else ['f','a','l','s','e']))
  | .int n =>
    if limits.tooLong (Nat.toDigits 10 n.natAbs) then .error .manyDigits
    else .ok (text (intText n))
  | .float x => .ok (text (floats.shown x))
  | .str t => .ok (quote style t)
  | .arr items =>
    if depth < limits.nesting then
      (dumpsAll (depth+1) items).map fun ts => code '['::joined style ts++[code ']']
    else .error .tooDeep
  | .obj fields =>
    if depth < limits.nesting then
      (dumpsFields (depth+1) fields).map fun ts => point 123::joined style ts++[point 125]
    else .error .tooDeep
  | .other none => .error .unshown
  | .other (some t) => .ok (quote style t)

def dumpsAll (depth : ℕ) : List Data → Except Fault (List Text)
  | [] => .ok []
  | v::items => (dumps depth v).bind fun t => (dumpsAll depth items).map fun ts => t::ts

def dumpsFields (depth : ℕ) : Fields → Except Fault (List Text)
  | [] => .ok []
  | (key,v)::fields =>
    (dumps depth v).bind fun t =>
      (dumpsFields depth fields).map fun ts => fieldText style key t::ts

end

section Equations
attribute [local simp] Data.All dumps
end Equations

/-- The interpreter lets it be written, whatever is inside. -/
def Fits (depth : ℕ) : Data → Prop
  | .int n => limits.tooLong (Nat.toDigits 10 n.natAbs) = false
  | .arr _ | .obj _ => depth < limits.nesting
  | .other shown => shown.isSome = true
  | _ => True

variable {style floats limits} {depth : ℕ}

theorem map_ok_iff {α β : Type} {x : Except Fault α} {f : α → β} {b : β} :
    x.map f = .ok b ↔ ∃ a, x = .ok a ∧ f a = b := by
  cases x with
  | error e => exact ⟨nofun,fun ⟨_,h,_⟩ => nomatch h⟩
  | ok a =>
    refine ⟨fun h => ⟨a,rfl,Except.ok.inj h⟩,fun ⟨_,h,hb⟩ => ?_⟩
    cases h
    exact congrArg Except.ok hb

theorem bind_ok_iff {α β : Type} {x : Except Fault α} {f : α → Except Fault β} {b : β} :
    x.bind f = .ok b ↔ ∃ a, x = .ok a ∧ f a = .ok b := by
  cases x with
  | error e => exact ⟨nofun,fun ⟨_,h,_⟩ => nomatch h⟩
  | ok a =>
    refine ⟨fun h => ⟨a,rfl,h⟩,fun ⟨_,h,hb⟩ => ?_⟩
    cases h
    exact hb

theorem dumpsAll_ok_iff {items : List Data} {ts : List Text} :
    dumpsAll style floats limits depth items = .ok ts ↔
      List.Forall₂ (fun v t => dumps style floats limits depth v = .ok t) items ts := by
  induction items generalizing ts with
  | nil =>
    rw [dumpsAll,List.forall₂_nil_left_iff]
    exact ⟨fun h => (Except.ok.inj h).symm,fun h => congrArg Except.ok h.symm⟩
  | cons v items ih =>
    rw [dumpsAll,bind_ok_iff,List.forall₂_cons_left_iff]
    simp only [map_ok_iff,ih]
    exact ⟨fun ⟨t,ht,us,hus,heq⟩ => ⟨t,us,ht,hus,heq.symm⟩,
      fun ⟨t,us,ht,hus,heq⟩ => ⟨t,ht,us,hus,heq.symm⟩⟩

theorem dumpsFields_ok_iff {fields : Fields} {ts : List Text} :
    dumpsFields style floats limits depth fields = .ok ts ↔
      List.Forall₂ (fun field t => ∃ u, dumps style floats limits depth field.2 = .ok u ∧
        t = fieldText style field.1 u) fields ts := by
  induction fields generalizing ts with
  | nil =>
    rw [dumpsFields,List.forall₂_nil_left_iff]
    exact ⟨fun h => (Except.ok.inj h).symm,fun h => congrArg Except.ok h.symm⟩
  | cons field fields ih =>
    obtain ⟨key,v⟩ := field
    rw [dumpsFields,bind_ok_iff,List.forall₂_cons_left_iff]
    simp only [map_ok_iff,ih]
    exact ⟨fun ⟨u,hu,us,hus,heq⟩ => ⟨_,us,⟨u,hu,rfl⟩,hus,heq.symm⟩,
      fun ⟨_,us,⟨u,hu,ht⟩,hus,heq⟩ => ⟨u,hu,us,hus,by rw [heq,ht]⟩⟩

theorem exists_forall₂ {α β : Type} {R : α → β → Prop} {as : List α} :
    (∃ bs, List.Forall₂ R as bs) ↔ ∀ a ∈ as, ∃ b, R a b := by
  induction as with
  | nil => exact ⟨fun _ a ha => (List.not_mem_nil ha).elim,fun _ => ⟨[],.nil⟩⟩
  | cons a as ih =>
    rw [List.forall_mem_cons,← ih]
    constructor
    · rintro ⟨bs,h⟩
      cases h with
      | cons hfirst hrest => exact ⟨⟨_,hfirst⟩,_,hrest⟩
    · rintro ⟨⟨b,hb⟩,bs,hbs⟩
      exact ⟨b::bs,.cons hb hbs⟩

theorem dumps_cases : Data.Cases fun v => ∀ depth,
    (∃ t, dumps style floats limits depth v = .ok t) ↔ v.All (Fits limits) depth where
  leaf v hleaf depth := by
    cases v with
    | arr items | obj fields => exact absurd hleaf id
    | int n =>
      rw [dumps,Data.All,Fits]
      split
      · next h => simp [h]
      · next h => simpa using h
      · exact nofun
      · exact nofun
    | other shown => cases shown <;> simp [dumps,Data.All,Fits]
    | _ => simp [dumps,Data.All,Fits]
  arr items ih depth := by
    rw [dumps,Data.All,allItems_iff,Fits]
    by_cases hdepth : depth < limits.nesting
    · rw [if_pos hdepth,and_iff_right hdepth]
      simp only [map_ok_iff]
      rw [exists_comm]
      simp only [exists_and_left,exists_eq',and_true,dumpsAll_ok_iff,exists_forall₂]
      exact forall₂_congr fun v hv => ih v hv _
    · simp [hdepth]
  obj fields ih depth := by
    rw [dumps,Data.All,allFields_iff,Fits]
    by_cases hdepth : depth < limits.nesting
    · rw [if_pos hdepth,and_iff_right hdepth]
      simp only [map_ok_iff]
      rw [exists_comm]
      simp only [exists_and_left,exists_eq',and_true,dumpsFields_ok_iff,exists_forall₂]
      refine forall₂_congr fun field hfield => ?_
      rw [← ih field hfield]
      exact ⟨fun ⟨_,u,hu,_⟩ => ⟨u,hu⟩,fun ⟨u,hu⟩ => ⟨_,u,hu,rfl⟩⟩
    · simp [hdepth]

/-- A value is written if and only if everything in it is. -/
theorem dumps_ok_iff {v : Data} :
    (∃ t, dumps style floats limits depth v = .ok t) ↔ v.All (Fits limits) depth :=
  dumps_cases.all v depth

end Dumps

section Characters
variable {style : Style} {floats : Floats} {limits : Limits}

/-- No control character, and with escapes none beyond ASCII. -/
def Shown (style : Style) (c : CodePoint) : Prop :=
  32 ≤ c.val ∧ (style.ascii = true → c.val < 128)

/-- A character that is shown with escapes or without. -/
def Printed (c : Char) : Prop := 32 ≤ c.toNat ∧ c.toNat < 128

instance (c : Char) : Decidable (Printed c) := inferInstanceAs (Decidable (_ ∧ _))

instance (cs : List Char) : Decidable (∀ c ∈ cs, Printed c) := List.decidableBAll Printed cs

theorem shown_text {cs : List Char} (h : ∀ c ∈ cs, Printed c) : ∀ c ∈ text cs, Shown style c := by
  intro c hc
  obtain ⟨l,hl,rfl⟩ := List.mem_map.mp hc
  exact ⟨(h l hl).1,fun _ => (h l hl).2⟩

theorem printed_digit {c : Char} (h : c.isDigit = true) : Printed c := by
  simp only [Char.isDigit,Bool.and_eq_true,decide_eq_true_eq,ge_iff_le,UInt32.le_iff_toNat_le] at h
  exact ⟨Nat.le_trans (by decide) h.1,Nat.lt_of_le_of_lt h.2 (by decide)⟩

theorem printed_fixed {w n : ℕ} (hn : n < 16^w) : ∀ c ∈ fixed 16 w n, Printed c := by
  intro c hc
  obtain ⟨d,hd,rfl⟩ := mem_fixed hn hc
  interval_cases d <;> decide

theorem shown_unicode {n : ℕ} (hn : n < 65536) : ∀ c ∈ unicodeEscape n, Shown style c := by
  have htext : unicodeEscape n = text ('\\':: 'u'::fixed 16 4 n) := rfl
  rw [htext]
  apply shown_text
  simp only [List.forall_mem_cons]
  exact ⟨by decide,by decide,printed_fixed hn⟩

theorem shown_escape (c : CodePoint) : ∀ d ∈ escape style c, Shown style d := by
  have hbound := c.isLt
  unfold escape
  dsimp only
  split_ifs with h1 h2 h3 h4 h5 h6 h7 h8 h9
  iterate 7 exact shown_text (by decide)
  · exact shown_unicode h9
  · intro d hd
    rcases List.mem_append.mp hd with hd | hd
    · exact shown_unicode (by omega) d hd
    · exact shown_unicode (by omega) d hd
  · intro d hd
    rw [List.mem_singleton.mp hd]
    refine ⟨by omega,fun hascii => ?_⟩
    have hlow : ¬126 < c.val := fun hlow => h8 (.inr ⟨hascii,hlow⟩)
    omega

theorem shown_quote (t : Text) : ∀ c ∈ quote style t, Shown style c := by
  have hmark : Shown style (code '"') := ⟨by decide,fun _ => by decide⟩
  intro c hc
  simp only [quote,List.mem_cons,List.mem_append,List.mem_flatMap,List.not_mem_nil,or_false] at hc
  rcases hc with (rfl | ⟨d,-,hd⟩) | rfl
  · exact hmark
  · exact shown_escape d c hd
  · exact hmark

theorem shown_spaces : ∀ c ∈ style.spaces, Shown style c := by
  unfold Style.spaces
  split
  · exact List.forall_mem_singleton.mpr ⟨by decide,fun _ => by decide⟩
  · exact fun c hc => (List.not_mem_nil hc).elim

theorem shown_joined {ts : List Text} (h : ∀ t ∈ ts, ∀ c ∈ t, Shown style c) :
    ∀ c ∈ joined style ts, Shown style c := by
  intro c hc
  cases ts with
  | nil => cases hc
  | cons t ts =>
    rw [List.forall_mem_cons] at h
    simp only [joined,List.mem_append,List.mem_flatMap,List.mem_cons] at hc
    rcases hc with hc | ⟨u,hu,(rfl | hc) | hc⟩
    · exact h.1 c hc
    · exact ⟨by decide,fun _ => by decide⟩
    · exact shown_spaces c hc
    · exact h.2 u hu c hc

theorem printed_float (f : FloatText) : ∀ c ∈ f.text, Printed c := by
  intro c hc
  simp only [FloatText.text,FloatText.pointText,FloatText.powerText,List.mem_append] at hc
  rcases hc with ((hc | hc) | hc) | hc
  · split at hc
    · rw [List.mem_singleton.mp hc]
      decide
    · cases hc
  · exact printed_digit (f.isWhole.digits c hc)
  · split at hc
    · cases hc
    · rcases List.mem_cons.mp hc with rfl | hc
      · decide
      · exact printed_digit (f.pointDigits c hc)
  · split at hc
    · cases hc
    · next p hp =>
        obtain ⟨hsign,-,hdigits⟩ := f.powerDigits p hp
        rcases List.mem_cons.mp hc with rfl | hc
        · decide
        rcases List.mem_cons.mp hc with rfl | hc
        · rcases hsign with h | h <;> rw [h] <;> decide
        · exact printed_digit (hdigits c hc)

theorem printed_shown (x : Double) : ∀ c ∈ floats.shown x, Printed c := by
  unfold Floats.shown
  split_ifs
  · exact printed_float _
  iterate 3 decide

theorem printed_int (n : ℤ) : ∀ c ∈ intText n, Printed c := by
  intro c hc
  rcases List.mem_append.mp hc with hc | hc
  · split at hc
    · rw [List.mem_singleton.mp hc]
      decide
    · cases hc
  · exact printed_digit (Nat.isDigit_of_mem_toDigits (by decide) (by decide) hc)

theorem shown_cases : Data.Cases fun v => ∀ depth t, dumps style floats limits depth v = .ok t →
    ∀ c ∈ t, Shown style c where
  leaf v hleaf depth t h := by
    cases v with
    | arr items | obj fields => exact absurd hleaf id
    | null =>
      cases h
      exact shown_text (by decide)
    | bool b =>
      cases h
      cases b <;> exact shown_text (by decide)
    | int n =>
      rw [dumps] at h
      split at h
      · cases h
      · cases h
        exact shown_text (printed_int n)
    | float x =>
      cases h
      exact shown_text (printed_shown x)
    | str s =>
      cases h
      exact shown_quote s
    | other shown =>
      cases shown with
      | none => cases h
      | some s =>
        cases h
        exact shown_quote s
  arr items ih depth t h := by
    rw [dumps] at h
    split at h
    · obtain ⟨ts,hts,rfl⟩ := map_ok_iff.mp h
      have hall : ∀ u ∈ ts, ∀ c ∈ u, Shown style c := by
        have hboth := (List.forall₂_and_left items ts).mpr ⟨ih,dumpsAll_ok_iff.mp hts⟩
        intro u hu
        obtain ⟨v,-,hread,hw⟩ := forall₂_right hboth hu
        exact hread _ u hw
      intro c hc
      simp only [List.mem_append,List.mem_cons,List.not_mem_nil,or_false] at hc
      rcases hc with (rfl | hc) | rfl
      · exact ⟨by decide,fun _ => by decide⟩
      · exact shown_joined hall c hc
      · exact ⟨by decide,fun _ => by decide⟩
    · cases h
  obj fields ih depth t h := by
    rw [dumps] at h
    split at h
    · obtain ⟨ts,hts,rfl⟩ := map_ok_iff.mp h
      have hall : ∀ u ∈ ts, ∀ c ∈ u, Shown style c := by
        have hboth := (List.forall₂_and_left fields ts).mpr ⟨ih,dumpsFields_ok_iff.mp hts⟩
        intro u hu c hc
        obtain ⟨field,-,hread,w,hw,rfl⟩ := forall₂_right hboth hu
        simp only [fieldText,List.mem_append,List.mem_cons] at hc
        rcases hc with (hc | rfl | hc) | hc
        · exact shown_quote _ c hc
        · exact ⟨by decide,fun _ => by decide⟩
        · exact shown_spaces c hc
        · exact hread _ w hw c hc
      intro c hc
      simp only [List.mem_append,List.mem_cons,List.not_mem_nil,or_false] at hc
      rcases hc with (rfl | hc) | rfl
      · exact ⟨by decide,fun _ => by decide⟩
      · exact shown_joined hall c hc
      · exact ⟨by decide,fun _ => by decide⟩
    · cases h

theorem shown_dumps {depth : ℕ} {v : Data} {t : Text}
    (h : dumps style floats limits depth v = .ok t) : ∀ c ∈ t, Shown style c :=
  shown_cases.all v depth t h

end Characters

end OneStep.WireJson
