import OneStep.ItemLists
import OneStep.JsonText
import OneStep.UnambiguousTexts

/-!
# Canonical JSON

Sorting the fields of every object gives the canonical form of a value, which is
what its text shows: two portable values have one text exactly when they have one
canonical form. Of the text of a float it is needed that it is a number with a
point or an exponent, and that it tells finite floats apart.
-/
namespace OneStep.CanonicalJson
open DigitText ItemLists JsonText JsonValues UnambiguousTexts

section Strings

/-- The character that an escape of one letter stands for. -/
def unescape (c : Char) : Char :=
  if c = 'n' then Char.ofNat 10
  else if c = 'r' then Char.ofNat 13
  else if c = 't' then Char.ofNat 9
  else if c = 'f' then Char.ofNat 12
  else if c = 'b' then Char.ofNat 8
  else c

/-- The second half of a surrogate pair. -/
def readLow (high : ℕ) : List Char → Option (Char × List Char)
  | '\\':: 'u'::cs => (readFixed 16 4 0 cs).map fun low =>
    (Char.ofNat (65536+(high-55296)*1024+(low.1-56320)),low.2)
  | _ => none

/-- The first character of the inside of a string. -/
def readChar : List Char → Option (Char × List Char)
  | [] => none
  | '\\':: 'u'::cs => (readFixed 16 4 0 cs).bind fun n =>
    if 55296 ≤ n.1 ∧ n.1 < 56320 then readLow n.1 n.2 else some (Char.ofNat n.1,n.2)
  | '\\'::c::cs => some (unescape c,cs)
  | c::cs => some (c,cs)

theorem readFixed_escape {n : ℕ} (hn : n < 65536) (cs : List Char) :
    readFixed 16 4 0 (fixed 16 4 n++cs) = some (n,cs) := by
  rw [readFixed_fixed (by omega) (by omega)]
  simp

theorem readChar_unicode {n : ℕ} (hn : n < 65536) (cs : List Char) :
    readChar (unicodeEscape n++cs) =
      if 55296 ≤ n ∧ n < 56320 then readLow n cs else some (Char.ofNat n,cs) := by
  change readChar ('\\':: 'u'::(fixed 16 4 n++cs)) = _
  rw [readChar,readFixed_escape hn,Option.bind_some]

theorem readChar_plain {c : Char} (hc : c ≠ '\\') (cs : List Char) :
    readChar (c::cs) = some (c,cs) := by
  unfold readChar
  split
  · next h => cases h
  · next h => exact absurd (List.cons.inj h).1 hc
  · next h => exact absurd (List.cons.inj h).1 hc
  · next h =>
      cases h
      rfl

theorem ofNat_of_toNat {c : Char} {n : ℕ} (h : c.toNat = n) : Char.ofNat n = c := by
  rw [← h,Char.ofNat_toNat]

theorem readChar_escapeChar (c : Char) (cs : List Char) :
    readChar (escapeChar c++cs) = some (c,cs) := by
  unfold escapeChar
  split
  · next h =>
      rw [h]
      rfl
  split
  · next h =>
      rw [h]
      rfl
  split
  · next h =>
      rw [← ofNat_of_toNat h]
      rfl
  split
  · next h =>
      rw [← ofNat_of_toNat h]
      rfl
  split
  · next h =>
      rw [← ofNat_of_toNat h]
      rfl
  split
  · next h =>
      rw [← ofNat_of_toNat h]
      rfl
  split
  · next h =>
      rw [← ofNat_of_toNat h]
      rfl
  split
  · next h _ _ _ _ _ _ => exact readChar_plain h cs
  split
  · next h =>
      have hvalid : ¬(55296 ≤ c.toNat ∧ c.toNat < 56320) := by
        rcases c.valid with hlow | hhigh
        · intro hsurrogate
          have hval : c.toNat < 55296 := hlow
          omega
        · intro hsurrogate
          have hval : 57343 < c.toNat := hhigh.1
          omega
      rw [readChar_unicode h,if_neg hvalid,Char.ofNat_toNat]
  · next h =>
      have hmax : c.toNat < 1114112 := by
        rcases c.valid with hlow | hhigh
        · have hval : c.toNat < 55296 := hlow
          omega
        · exact hhigh.2
      have hhigh : 55296 ≤ 55296+(c.toNat-65536)/1024 ∧ 55296+(c.toNat-65536)/1024 < 56320 := by
        omega
      rw [List.append_assoc,readChar_unicode (by omega),if_pos hhigh]
      change readLow _ ('\\':: 'u'::(fixed 16 4 _++cs)) = _
      rw [readLow,readFixed_escape (by omega),Option.map_some]
      have hback : 65536+(55296+(c.toNat-65536)/1024-55296)*1024+
          (56320+(c.toNat-65536)%1024-56320) = c.toNat := by
        omega
      rw [hback,Char.ofNat_toNat]

variable {r s : List Char}

theorem escapeChar_inj {c d : Char} (h : escapeChar c++r = escapeChar d++s) : c = d ∧ r = s := by
  have hc := readChar_escapeChar c r
  rw [h,readChar_escapeChar] at hc
  cases hc
  exact ⟨rfl,rfl⟩

theorem escapeChar_ne_quote (c : Char) (r s : List Char) : escapeChar c++r ≠ '"'::s := by
  intro h
  have hread := readChar_escapeChar c r
  rw [h,readChar_plain (by decide)] at hread
  cases hread
  exact absurd h (by simp [escapeChar])

theorem escaped_inj {cs ds : List Char}
    (h : cs.flatMap escapeChar++ '"'::r = ds.flatMap escapeChar++ '"'::s) : cs = ds ∧ r = s := by
  induction cs generalizing ds with
  | nil =>
    cases ds with
    | nil => exact ⟨rfl,(List.cons.inj h).2⟩
    | cons d ds =>
      rw [List.flatMap_cons,List.append_assoc] at h
      exact absurd h.symm (escapeChar_ne_quote d _ _)
  | cons c cs ih =>
    cases ds with
    | nil =>
      rw [List.flatMap_cons,List.append_assoc] at h
      exact absurd h (escapeChar_ne_quote c _ _)
    | cons d ds =>
      rw [List.flatMap_cons,List.flatMap_cons,List.append_assoc,List.append_assoc] at h
      obtain ⟨hcd,hrest⟩ := escapeChar_inj h
      obtain ⟨hcs,hrs⟩ := ih hrest
      exact ⟨congrArg₂ List.cons hcd hcs,hrs⟩

theorem quote_inj {a b : String} (h : quote a++r = quote b++s) : a = b ∧ r = s := by
  simp only [quote,List.cons_append,List.append_assoc,List.nil_append,List.cons.injEq,
    true_and] at h
  obtain ⟨hab,hrs⟩ := escaped_inj h
  exact ⟨String.toList_inj.mp hab,hrs⟩

end Strings

section Numbers

/-- A character of a number. -/
def isNumeric (c : Char) : Bool := c.isDigit || ['+','-','.','e'].contains c

/-- What is documented of the text of a float. -/
structure FloatTexts (floatText : Double → List Char) : Prop where
  numeric : ∀ x, x.isFinite = true → ∀ c ∈ floatText x, isNumeric c = true
  marked : ∀ x, x.isFinite = true → '.' ∈ floatText x ∨ 'e' ∈ floatText x
  injective : ∀ x y, x.isFinite = true → y.isFinite = true → floatText x = floatText y → x = y

theorem intText_numeric (n : ℤ) : ∀ c ∈ intText n, c.isDigit = true ∨ c = '-' := by
  intro c hc
  rcases List.mem_append.mp hc with hsign | hdigit
  · right
    split at hsign
    · exact List.mem_singleton.mp hsign
    · cases hsign
  · exact .inl (Nat.isDigit_of_mem_toDigits (by decide) (by decide) hdigit)

theorem toDigits_inj {m n : ℕ} (h : Nat.toDigits 10 m = Nat.toDigits 10 n) : m = n := by
  have hm : Nat.ofDigitChars 10 (Nat.toDigits 10 m) 0 = m := Nat.ofDigitChars_ten_toDigits
  rw [h,Nat.ofDigitChars_ten_toDigits] at hm
  exact hm.symm

theorem minus_notMem (n : ℕ) : '-' ∉ Nat.toDigits 10 n := by
  intro h
  have hdigit := Nat.isDigit_of_mem_toDigits (by decide) (by decide) h
  revert hdigit
  decide

theorem intText_inj {m n : ℤ} (h : intText m = intText n) : m = n := by
  unfold intText at h
  split at h
  · next hm =>
      split at h
      · next hn =>
          have hdigits := toDigits_inj (List.cons.inj h).2
          omega
      · next hn =>
          rw [List.nil_append,List.singleton_append] at h
          exact absurd (h ▸ List.mem_cons_self) (minus_notMem n.natAbs)
  · next hm =>
      split at h
      · next hn =>
          rw [List.nil_append,List.singleton_append] at h
          exact absurd (h ▸ List.mem_cons_self) (minus_notMem m.natAbs)
      · next hn =>
          have hdigits := toDigits_inj h
          omega

end Numbers

section Plain
variable (floatText : Double → List Char)

mutual

/-- The text of a value whose fields stand as they are. -/
def plain : Json → List Char
  | .null => ['n','u','l','l']
  | .bool b => if b then ['t','r','u','e'] else ['f','a','l','s','e']
  | .int n => intText n
  | .float x => floatText x
  | .str s => quote s
  | .arr items => '['::separated (plainAll items)++[']']
  | .obj fields =>
    Char.ofNat 123::separated ((plainFields fields).map fieldText)++[Char.ofNat 125]

def plainAll : List Json → List (List Char)
  | [] => []
  | item::items => plain item::plainAll items

def plainFields : List (String × Json) → List (String × List Char)
  | [] => []
  | (key,item)::fields => (key,plain item)::plainFields fields

end

mutual

/-- The value with the fields of its objects sorted. -/
def canon : Json → Json
  | .arr items => .arr (canonAll items)
  | .obj fields => .obj (sortFields (canonFields fields))
  | j => j

def canonAll : List Json → List Json
  | [] => []
  | item::items => canon item::canonAll items

def canonFields : List (String × Json) → List (String × Json)
  | [] => []
  | (key,item)::fields => (key,canon item)::canonFields fields

end

/-- A field with its value changed. -/
def mapValue {α β : Type} (f : α → β) (field : String × α) : String × β := (field.1,f field.2)

variable {floatText} (fields : List (String × Json))

theorem plainAll_eq (items : List Json) : plainAll floatText items = items.map (plain floatText) := by
  induction items with
  | nil => rw [plainAll,List.map_nil]
  | cons item items ih => rw [plainAll,ih,List.map_cons]

theorem plainFields_eq :
    plainFields floatText fields = fields.map (mapValue (plain floatText)) := by
  induction fields with
  | nil => rw [plainFields,List.map_nil]
  | cons field fields ih =>
    obtain ⟨key,item⟩ := field
    rw [plainFields,ih,List.map_cons]
    rfl

theorem dumpsAll_eq (items : List Json) : dumpsAll floatText items = items.map (dumps floatText) := by
  induction items with
  | nil => rw [dumpsAll,List.map_nil]
  | cons item items ih => rw [dumpsAll,ih,List.map_cons]

theorem dumpsFields_eq :
    dumpsFields floatText fields = fields.map (mapValue (dumps floatText)) := by
  induction fields with
  | nil => rw [dumpsFields,List.map_nil]
  | cons field fields ih =>
    obtain ⟨key,item⟩ := field
    rw [dumpsFields,ih,List.map_cons]
    rfl

theorem canonAll_eq (items : List Json) : canonAll items = items.map canon := by
  induction items with
  | nil => rw [canonAll,List.map_nil]
  | cons item items ih => rw [canonAll,ih,List.map_cons]

theorem canonFields_eq : canonFields fields = fields.map (mapValue canon) := by
  induction fields with
  | nil => rw [canonFields,List.map_nil]
  | cons field fields ih =>
    obtain ⟨key,item⟩ := field
    rw [canonFields,ih,List.map_cons]
    rfl

theorem sortFields_map {α β : Type} (f : α → β) (fields : List (String × α)) :
    sortFields (fields.map (mapValue f)) = (sortFields fields).map (mapValue f) := by
  apply (List.map_insertionSort _ _ _ _ _).symm
  intro a _ b _
  exact Iff.rfl

theorem sortFields_perm {α : Type} (fields : List (String × α)) : (sortFields fields).Perm fields :=
  List.perm_insertionSort _ _

theorem dumps_cases : Json.Cases fun j => dumps floatText j = plain floatText (canon j) where
  leaf j hleaf := by
    cases j with
    | arr items | obj fields => exact absurd hleaf id
    | null | bool b | int n | float x | str s => simp only [canon,dumps,plain]
  arr items ih := by
    rw [canon,dumps,plain,dumpsAll_eq,plainAll_eq,canonAll_eq,List.map_map,
      List.map_congr_left ih]
    rfl
  obj fields ih := by
    have hfields : fields.map (mapValue (dumps floatText)) =
        (fields.map (mapValue canon)).map (mapValue (plain floatText)) := by
      rw [List.map_map]
      apply List.map_congr_left
      intro field hfield
      exact congrArg (Prod.mk field.1) (ih field hfield)
    rw [canon,dumps,plain,dumpsFields_eq,plainFields_eq,canonFields_eq,hfields,sortFields_map]

end Plain

section Separable
variable {floatText : Double → List Char} {j : Json} {k : Json}

/-- The code of a character, but all of a number are alike. -/
def leading (c : Char) : ℕ := if isNumeric c then 0 else c.toNat

/-- What the text of a value begins with. -/
def opening : Json → ℕ
  | .null => 110
  | .bool b => if b then 116 else 102
  | .int _ | .float _ => 0
  | .str _ => 34
  | .arr _ => 91
  | .obj _ => 123

theorem intText_all (n : ℤ) : ∀ c ∈ intText n, isNumeric c = true := by
  intro c hc
  rcases intText_numeric n c hc with hdigit | rfl
  · unfold isNumeric
    rw [hdigit,Bool.true_or]
  · decide

theorem numeric_opening {cs : List Char} (hne : cs ≠ []) (hcs : ∀ c ∈ cs, isNumeric c = true) :
    ∃ c ds, cs = c::ds ∧ leading c = 0 := by
  cases cs with
  | nil => exact absurd rfl hne
  | cons c ds => exact ⟨c,ds,rfl,if_pos (hcs c List.mem_cons_self)⟩

theorem floatText_ne_nil (htexts : FloatTexts floatText) {x : Double} (hx : x.isFinite = true) :
    floatText x ≠ [] := by
  rcases htexts.marked x hx with hpoint | hexponent
  · exact List.ne_nil_of_mem hpoint
  · exact List.ne_nil_of_mem hexponent

theorem intText_ne_nil (n : ℤ) : intText n ≠ [] := by
  intro h
  exact Nat.toDigits_ne_nil (List.append_eq_nil_iff.mp h).2

theorem plain_opening (htexts : FloatTexts floatText) (hj : Portable j) :
    ∃ c cs, plain floatText j = c::cs ∧ leading c = opening j := by
  cases j with
  | null => exact ⟨_,_,rfl,rfl⟩
  | bool b =>
    cases b with
    | true => exact ⟨_,_,rfl,rfl⟩
    | false => exact ⟨_,_,rfl,rfl⟩
  | int n => exact numeric_opening (intText_ne_nil n) (intText_all n)
  | float x =>
    rw [Portable] at hj
    exact numeric_opening (floatText_ne_nil htexts hj) (htexts.numeric x hj)
  | str s => exact ⟨_,_,rfl,rfl⟩
  | arr items => exact ⟨_,_,rfl,rfl⟩
  | obj fields => exact ⟨_,_,rfl,rfl⟩

theorem opening_eq (htexts : FloatTexts floatText) (hj : Portable j) (hk : Portable k)
    {r s : List Char} (h : plain floatText j++r = plain floatText k++s) :
    opening j = opening k := by
  obtain ⟨c,cs,hcs,hc⟩ := plain_opening htexts hj
  obtain ⟨d,ds,hds,hd⟩ := plain_opening htexts hk
  rw [hcs,hds] at h
  rw [← hc,← hd,(List.cons.inj h).1]

theorem int_ne_float (htexts : FloatTexts floatText) {n : ℤ} {x : Double}
    (hx : x.isFinite = true) : intText n ≠ floatText x := by
  intro h
  have hmark : ∀ c ∈ floatText x, c.isDigit = true ∨ c = '-' := h ▸ intText_numeric n
  rcases htexts.marked x hx with hpoint | hexponent
  · exact absurd (hmark _ hpoint) (by decide)
  · exact absurd (hmark _ hexponent) (by decide)

theorem numbers_separable (htexts : FloatTexts floatText) (hj : Portable j) (hk : Portable k)
    (hopenJ : opening j = 0) (hopenK : opening k = 0) :
    Separable isNumeric (plain floatText) j k := by
  have hnumber : ∀ {i : Json}, Portable i → opening i = 0 →
      (∃ n, i = .int n) ∨ ∃ x, i = .float x ∧ x.isFinite = true := by
    intro i hi hopen
    cases i with
    | int n => exact .inl ⟨n,rfl⟩
    | float x =>
      rw [Portable] at hi
      exact .inr ⟨x,rfl,hi⟩
    | bool b =>
      cases b with
      | true => simp [opening] at hopen
      | false => simp [opening] at hopen
    | null | str s | arr items | obj fields => simp [opening] at hopen
  intro r s hr hs heq
  rcases hnumber hj hopenJ with ⟨m,rfl⟩ | ⟨x,rfl,hx⟩
  · rcases hnumber hk hopenK with ⟨n,rfl⟩ | ⟨y,rfl,hy⟩
    · obtain ⟨htext,hrs⟩ := run_eq (intText_all m) (intText_all n) hr hs heq
      exact ⟨congrArg Json.int (intText_inj htext),hrs⟩
    · obtain ⟨htext,-⟩ := run_eq (intText_all m) (htexts.numeric y hy) hr hs heq
      exact absurd htext (int_ne_float htexts hy)
  · rcases hnumber hk hopenK with ⟨n,rfl⟩ | ⟨y,rfl,hy⟩
    · obtain ⟨htext,-⟩ := run_eq (htexts.numeric x hx) (intText_all n) hr hs heq
      exact absurd htext.symm (int_ne_float htexts hx)
    · obtain ⟨htext,hrs⟩ := run_eq (htexts.numeric x hx) (htexts.numeric y hy) hr hs heq
      exact ⟨congrArg Json.float (htexts.injective x y hx hy htext),hrs⟩

/-- The text of a field of an object. -/
def fieldPlain (floatText : Double → List Char) (field : String × Json) : List Char :=
  fieldText (mapValue (plain floatText) field)

theorem field_separable {a b : String × Json}
    (h : Separable isNumeric (plain floatText) a.2 b.2) :
    Separable isNumeric (fieldPlain floatText) a b := by
  intro r s hr hs heq
  simp only [fieldPlain,fieldText,mapValue,List.append_assoc,List.cons_append] at heq
  obtain ⟨hkey,hrest⟩ := quote_inj heq
  obtain ⟨hvalue,hrs⟩ := h r s hr hs (List.cons.inj hrest).2
  exact ⟨Prod.ext hkey hvalue,hrs⟩

theorem fieldsPlain (fields : List (String × Json)) :
    (plainFields floatText fields).map fieldText = fields.map (fieldPlain floatText) := by
  rw [plainFields_eq,List.map_map]
  rfl

theorem plain_ne (htexts : FloatTexts floatText) (hj : Portable j) {c : Char}
    (hc : isNumeric c = false) (hopen : c.toNat = 93) (r s : List Char) :
    plain floatText j++r ≠ c::s := by
  intro h
  obtain ⟨d,ds,hds,hd⟩ := plain_opening htexts hj
  rw [hds,List.cons_append,List.cons.injEq] at h
  rw [h.1,leading,if_neg (by simp [hc]),hopen] at hd
  cases j with
  | bool b => cases b <;> simp [opening] at hd
  | _ => simp [opening] at hd

theorem plain_cases (htexts : FloatTexts floatText) : Json.Cases fun j => ∀ k, Portable j →
    Portable k → Separable isNumeric (plain floatText) j k where
  leaf j hleaf k hj hk r s hr hs heq := by
    have hopen := opening_eq htexts hj hk heq
    cases j with
    | arr items | obj fields => exact absurd hleaf id
    | int n => exact numbers_separable htexts hj hk rfl hopen.symm r s hr hs heq
    | float x => exact numbers_separable htexts hj hk rfl hopen.symm r s hr hs heq
    | str a =>
      cases k with
      | str b =>
        obtain ⟨hab,hrs⟩ := quote_inj heq
        exact ⟨congrArg Json.str hab,hrs⟩
      | bool b => cases b <;> simp [opening] at hopen
      | null | int n | float x | arr items | obj fields => simp [opening] at hopen
    | null =>
      cases k with
      | null => exact ⟨rfl,List.append_cancel_left heq⟩
      | bool b => cases b <;> simp [opening] at hopen
      | str b | int n | float x | arr items | obj fields => simp [opening] at hopen
    | bool b =>
      have hbool : k = .bool b := by
        cases k with
        | bool c => cases b <;> cases c <;> first | rfl | simp [opening] at hopen
        | null | str c | int n | float x | arr items | obj fields =>
          cases b <;> simp [opening] at hopen
      subst hbool
      exact ⟨rfl,List.append_cancel_left heq⟩
  arr items ih k hj hk r s hr hs heq := by
    have hopen := opening_eq htexts hj hk heq
    cases k with
    | arr others =>
      rw [Portable,portableAll_iff] at hj hk
      simp only [plain,plainAll_eq,List.cons_append,List.append_assoc,List.nil_append,
        List.cons.injEq,true_and] at heq
      obtain ⟨hitems,hrs⟩ := separated_eq (by decide) (by decide) (by decide)
        (fun a ha => plain_ne htexts (hj a ha) (by decide) (by decide))
        (fun b hb => plain_ne htexts (hk b hb) (by decide) (by decide))
        (fun a ha b hb => ih a ha b (hj a ha) (hk b hb)) heq
      exact ⟨congrArg Json.arr hitems,hrs⟩
    | bool b => cases b <;> simp [opening] at hopen
    | null | str b | int n | float x | obj fields => simp [opening] at hopen
  obj fields ih k hj hk r s hr hs heq := by
    have hopen := opening_eq htexts hj hk heq
    cases k with
    | obj others =>
      rw [Portable,portableFields_iff] at hj hk
      simp only [plain,fieldsPlain,List.cons_append,List.append_assoc,List.nil_append,
        List.cons.injEq,true_and] at heq
      have hopening : ∀ a : String × Json, ∀ r s,
          fieldPlain floatText a++r ≠ Char.ofNat 125::s := by
        intro a r s h
        have hquote := (List.cons.inj h).1
        revert hquote
        decide
      obtain ⟨hfields,hrs⟩ := separated_eq (by decide) (by decide) (by decide)
        (fun a _ => hopening a) (fun b _ => hopening b)
        (fun a ha b hb => field_separable (ih a ha b.2 (hj.1 a ha) (hk.1 b hb))) heq
      exact ⟨congrArg Json.obj hfields,hrs⟩
    | bool b => cases b <;> simp [opening] at hopen
    | null | str b | int n | float x | arr items => simp [opening] at hopen

theorem portable_canon : Json.Cases fun j => Portable j → Portable (canon j) where
  leaf j hleaf hj := by
    cases j with
    | arr items | obj fields => exact absurd hleaf id
    | null | bool b | int n | float x | str s => simpa only [canon] using hj
  arr items ih hj := by
    rw [Portable,portableAll_iff] at hj
    rw [canon,Portable,portableAll_iff,canonAll_eq]
    intro item hitem
    obtain ⟨item,hmem,rfl⟩ := List.mem_map.mp hitem
    exact ih item hmem (hj item hmem)
  obj fields ih hj := by
    rw [Portable,portableFields_iff] at hj
    rw [canon,Portable,portableFields_iff,canonFields_eq]
    have hperm := sortFields_perm (fields.map (mapValue canon))
    constructor
    · intro field hfield
      obtain ⟨field,hmem,rfl⟩ := List.mem_map.mp (hperm.subset hfield)
      exact ih field hmem (hj.1 field hmem)
    · rw [(hperm.map Prod.fst).nodup_iff,List.map_map]
      exact hj.2

theorem plain_inj (htexts : FloatTexts floatText) (hj : Portable j) (hk : Portable k)
    (h : plain floatText j = plain floatText k) : j = k := by
  have hstops : Stops isNumeric [] := by
    intro c hc
    cases hc
  exact ((plain_cases htexts).all j k hj hk [] [] hstops hstops (by rw [h])).1

theorem dumps_eq_iff (htexts : FloatTexts floatText) (hj : Portable j) (hk : Portable k) :
    dumps floatText j = dumps floatText k ↔ canon j = canon k := by
  rw [dumps_cases.all j,dumps_cases.all k]
  exact ⟨plain_inj htexts (portable_canon.all j hj) (portable_canon.all k hk),congrArg _⟩

theorem sortFields_unique {α : Type} {fields others : List (String × α)}
    (hperm : fields.Perm others) (hnodup : (fields.map Prod.fst).Nodup) :
    sortFields fields = sortFields others := by
  apply sorted_unique Prod.fst
  · exact (sortFields_perm fields).trans (hperm.trans (sortFields_perm others).symm)
  · exact pairwise_sorted Prod.fst fields
  · exact pairwise_sorted Prod.fst others
  · intro a ha b hb hkey
    obtain ⟨k,x⟩ := a
    obtain ⟨k',y⟩ := b
    cases hkey
    have hx := lookup_of_mem hnodup ((sortFields_perm fields).subset ha)
    have hy := lookup_of_mem hnodup (hperm.symm.subset ((sortFields_perm others).subset hb))
    rw [hx] at hy
    cases hy
    rfl

end Separable

end OneStep.CanonicalJson
