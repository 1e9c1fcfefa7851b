import OneStep.DigitText

/-!
# Texts of UUIDs, bytes and decimals

How Python writes these values and reads them: `str` and the constructor of
`UUID`, `base64.b64encode` and `b64decode` with validation, and `str` and the
constructor of `Decimal`. Texts are lists of characters; digits are the ASCII
ones. Reading gives back what was written.
-/
namespace OneStep.ScalarTexts
open DigitText

section Spaces

/-- `str.isspace`. -/
def isSpace (c : Char) : Bool :=
  let n := c.toNat
  decide ((9 ≤ n ∧ n ≤ 13) ∨ (28 ≤ n ∧ n ≤ 32) ∨ n = 133 ∨ n = 160 ∨ n = 5760 ∨
    (8192 ≤ n ∧ n ≤ 8202) ∨ n = 8232 ∨ n = 8233 ∨ n = 8239 ∨ n = 8287 ∨ n = 12288)

/-- `str.strip` of the characters that a test picks. -/
def strip (p : Char → Bool) (cs : List Char) : List Char :=
  ((cs.dropWhile p).reverse.dropWhile p).reverse

theorem strip_of_none {p : Char → Bool} {cs : List Char} (h : ∀ c ∈ cs, p c = false) :
    strip p cs = cs := by
  have hkeep : ∀ l : List Char, (∀ c ∈ l, p c = false) → l.dropWhile p = l := by
    intro l hl
    cases l with
    | nil => rfl
    | cons c l => rw [List.dropWhile_cons_of_neg (by simp [hl c List.mem_cons_self])]
  unfold strip
  rw [hkeep cs h,hkeep cs.reverse (fun c hc => h c (List.mem_reverse.mp hc)),List.reverse_reverse]

theorem dropWhile_of_head {p : Char → Bool} {cs : List Char} (h : ∀ c ∈ cs.head?, p c = false) :
    cs.dropWhile p = cs := by
  cases cs with
  | nil => rfl
  | cons c cs => exact List.dropWhile_cons_of_neg (by simp [h c rfl])

theorem head_dropWhile (p : Char → Bool) (cs : List Char) :
    ∀ c ∈ (cs.dropWhile p).head?, p c = false := by
  intro c hc
  have hnot := List.head?_dropWhile_not p cs
  rw [hc] at hnot
  simpa using hnot

theorem strip_strip (p : Char → Bool) (cs : List Char) : strip p (strip p cs) = strip p cs := by
  have hfront : (strip p cs).dropWhile p = strip p cs := by
    refine dropWhile_of_head ?_
    have hprefix : strip p cs <+: cs.dropWhile p := by
      have hsuffix := List.dropWhile_suffix p (l := (cs.dropWhile p).reverse)
      rw [← List.reverse_prefix,List.reverse_reverse] at hsuffix
      exact hsuffix
    intro c hc
    cases hs : strip p cs with
    | nil =>
      rw [hs] at hc
      cases hc
    | cons d rest =>
      rw [hs] at hc hprefix
      obtain ⟨post,hpost⟩ := hprefix
      cases hc
      exact head_dropWhile p cs c (by rw [← hpost]; rfl)
  have hback : (strip p cs).reverse.dropWhile p = (strip p cs).reverse := by
    refine dropWhile_of_head ?_
    unfold strip
    rw [List.reverse_reverse]
    exact head_dropWhile p _
  rw [strip,hfront,hback,List.reverse_reverse]

end Spaces

section Uuid

abbrev UUID := BitVec 128

/-- `str(uuid)`. -/
def uuidText (u : UUID) : List Char :=
  let hex := fixed 16 32 u.toNat
  hex.take 8++ '-'::(hex.drop 8).take 4++ '-'::(hex.drop 12).take 4++ '-'::(hex.drop 16).take 4++
    '-'::hex.drop 20

/-- `str.replace` of a text by nothing; the count bounds the replacements. -/
def removeAll (pattern : List Char) : ℕ → List Char → List Char
  | 0,cs => cs
  | _+1,[] => []
  | n+1,c::cs =>
    if pattern.isPrefixOf (c::cs) then removeAll pattern n ((c::cs).drop pattern.length)
    else c::removeAll pattern n cs

/-- The digits of `int(text, 16)`, with single underscores between them. -/
def hexDigits : Bool → ℕ → List Char → Option ℕ
  | afterDigit,n,[] => if afterDigit then some n else none
  | afterDigit,n,c::cs =>
    if c = '_' then (if afterDigit then hexDigits false n cs else none)
    else (digitValue 16 c).bind fun d => hexDigits true (n*16+d) cs

def isPrefixed (cs : List Char) : Bool :=
  ['0','x'].isPrefixOf cs || ['0','X'].isPrefixOf cs

/-- `int(text, 16)` of a text without a minus sign. -/
def hexInt (cs : List Char) : Option ℕ :=
  let cs := strip isSpace cs
  let cs := if ['+'].isPrefixOf cs then cs.drop 1 else cs
  if isPrefixed cs then
    hexDigits false 0 (if ['_'].isPrefixOf (cs.drop 2) then cs.drop 3 else cs.drop 2)
  else hexDigits false 0 cs

def isBrace (c : Char) : Bool := decide (c.toNat = 123 ∨ c.toNat = 125)

/-- `UUID(text)`; none when it raises `ValueError`. -/
def readUuid (cs : List Char) : Option UUID :=
  let cs := removeAll ['u','r','n',':'] cs.length cs
  let cs := removeAll ['u','u','i','d',':'] cs.length cs
  let hex := (strip isBrace cs).filter fun c => c != '-'
  if hex.length = 32 then (hexInt hex).map fun n => BitVec.ofNat 128 n else none

theorem removeAll_absent {p : Char} {pattern : List Char} {cs : List Char} (h : p ∉ cs) (n : ℕ) :
    removeAll (p::pattern) n cs = cs := by
  induction cs generalizing n with
  | nil =>
    cases n with
    | zero => rfl
    | succ n => rfl
  | cons c cs ih =>
    cases n with
    | zero => rfl
    | succ n =>
      have hne : p ≠ c := fun heq => h (heq ▸ List.mem_cons_self)
      have hrest := ih (fun hmem => h (List.mem_cons_of_mem _ hmem)) n
      have hno : (p::pattern).isPrefixOf (c::cs) = false := by
        rw [List.isPrefixOf_cons_cons]
        simp [hne]
      rw [removeAll,hno,if_neg Bool.false_ne_true,hrest]

theorem hexDigits_fixed {w n : ℕ} (hn : n < 16^w) (hw : 0 < w) (m : ℕ) (after : Bool) :
    hexDigits after m (fixed 16 w n) = some (m*16^w+n) := by
  induction w generalizing n m after with
  | zero => omega
  | succ w ih =>
    have hpos : 0 < 16^w := Nat.pow_pos (by decide)
    have hdigit : n/16^w < 16 := by
      apply Nat.div_lt_of_lt_mul
      rw [pow_succ] at hn
      exact hn
    have hsplit := Nat.div_add_mod n (16^w)
    rw [fixed,hexDigits,if_neg (digitChar_ne hdigit (by decide)),
      digitValue_digitChar (by decide) hdigit,Option.bind_some]
    rcases Nat.eq_zero_or_pos w with rfl | hw'
    · rw [fixed,hexDigits,if_pos rfl]
      congr 1
      omega
    · rw [ih (Nat.mod_lt n hpos) hw']
      congr 1
      rw [pow_succ]
      nlinarith

theorem digitChar_plain {d : ℕ} (hd : d < 16) :
    isSpace (Nat.digitChar d) = false ∧ isBrace (Nat.digitChar d) = false ∧
      Nat.digitChar d ≠ 'u' ∧ Nat.digitChar d ≠ 'x' ∧ Nat.digitChar d ≠ 'X' := by
  interval_cases d <;> decide

theorem isPrefixed_fixed {w n : ℕ} (hn : n < 16^w) : isPrefixed (fixed 16 w n) = false := by
  have hsecond : ∀ cs : List Char, (∀ c ∈ cs, c ≠ 'x' ∧ c ≠ 'X') → isPrefixed cs = false := by
    intro cs hcs
    match cs with
    | [] => rfl
    | [c] => simp [isPrefixed,List.isPrefixOf]
    | c::d::cs =>
      obtain ⟨hx,hX⟩ := hcs d (by simp)
      simp [isPrefixed,List.isPrefixOf_cons_cons,Ne.symm hx,Ne.symm hX]
  apply hsecond
  intro c hc
  obtain ⟨d,hd,rfl⟩ := mem_fixed hn hc
  exact (digitChar_plain hd).2.2.2

theorem hexInt_fixed {n : ℕ} (hn : n < 16^32) : hexInt (fixed 16 32 n) = some n := by
  have hspaces : strip isSpace (fixed 16 32 n) = fixed 16 32 n := by
    apply strip_of_none
    intro c hc
    obtain ⟨d,hd,rfl⟩ := mem_fixed hn hc
    exact (digitChar_plain hd).1
  have hplus : ['+'].isPrefixOf (fixed 16 32 n) = false := by
    rw [fixed,List.isPrefixOf_cons_cons]
    simp
  unfold hexInt
  dsimp only
  rw [hspaces,hplus,if_neg Bool.false_ne_true,isPrefixed_fixed hn,if_neg Bool.false_ne_true,
    hexDigits_fixed hn (by decide),Nat.zero_mul,Nat.zero_add]

theorem uuidText_chars {u : UUID} {c : Char} (hc : c ∈ uuidText u) :
    c = '-' ∨ c ∈ fixed 16 32 u.toNat := by
  unfold uuidText at hc
  simp only [List.mem_append,List.mem_cons] at hc
  rcases hc with (((hc | hc | hc) | hc | hc) | hc | hc) | hc | hc
  · exact .inr (List.mem_of_mem_take hc)
  · exact .inl hc
  · exact .inr (List.mem_of_mem_drop (List.mem_of_mem_take hc))
  · exact .inl hc
  · exact .inr (List.mem_of_mem_drop (List.mem_of_mem_take hc))
  · exact .inl hc
  · exact .inr (List.mem_of_mem_drop (List.mem_of_mem_take hc))
  · exact .inl hc
  · exact .inr (List.mem_of_mem_drop hc)

theorem uuidText_filter (u : UUID) :
    (uuidText u).filter (fun c => c != '-') = fixed 16 32 u.toNat := by
  have hbound : u.toNat < 16^32 := u.isLt
  have hkeep : ∀ l : List Char, (∀ c ∈ l, c ∈ fixed 16 32 u.toNat) →
      l.filter (fun c => c != '-') = l := by
    intro l hl
    apply List.filter_eq_self.mpr
    intro c hc
    simp [fixed_ne (by decide) hbound (hl c hc) (d := '-') (by decide)]
  unfold uuidText
  simp only [List.filter_append,List.filter_cons,bne_self_eq_false,Bool.false_eq_true,if_false]
  rw [hkeep _ fun c hc => List.mem_of_mem_take hc,
    hkeep _ fun c hc => List.mem_of_mem_drop (List.mem_of_mem_take hc),
    hkeep _ fun c hc => List.mem_of_mem_drop (List.mem_of_mem_take hc),
    hkeep _ fun c hc => List.mem_of_mem_drop (List.mem_of_mem_take hc),
    hkeep _ fun c hc => List.mem_of_mem_drop hc]
  have hlist : ∀ l : List Char, l.take 8++(l.drop 8).take 4++(l.drop 12).take 4++(l.drop 16).take 4++
      l.drop 20 = l := by
    intro l
    rw [List.append_assoc,List.append_assoc,List.append_assoc,
      show l.drop 20 = (l.drop 16).drop 4 by rw [List.drop_drop],List.take_append_drop,
      show l.drop 16 = (l.drop 12).drop 4 by rw [List.drop_drop],List.take_append_drop,
      show l.drop 12 = (l.drop 8).drop 4 by rw [List.drop_drop],List.take_append_drop,
      List.take_append_drop]
  exact hlist _

theorem readUuid_uuidText (u : UUID) : readUuid (uuidText u) = some u := by
  have hbound : u.toNat < 16^32 := u.isLt
  have hplain : ∀ c ∈ uuidText u, isBrace c = false ∧ c ≠ 'u' := by
    intro c hc
    rcases uuidText_chars hc with rfl | hc
    · decide
    · obtain ⟨d,hd,rfl⟩ := mem_fixed hbound hc
      exact ⟨(digitChar_plain hd).2.1,(digitChar_plain hd).2.2.1⟩
  have hu : 'u' ∉ uuidText u := fun hmem => (hplain 'u' hmem).2 rfl
  unfold readUuid
  dsimp only
  rw [removeAll_absent hu,removeAll_absent hu,strip_of_none fun c hc => (hplain c hc).1,
    uuidText_filter,length_fixed,if_pos rfl,hexInt_fixed hbound,Option.map_some]
  congr 1
  exact BitVec.ofNat_toNat 128 u

end Uuid

section Base64

/-- The alphabet of base64. -/
def sextetChar (n : ℕ) : Char :=
  if n < 26 then Char.ofNat (65+n)
  else if n < 52 then Char.ofNat (71+n)
  else if n < 62 then Char.ofNat (n-4)
  else if n = 62 then '+'
  else '/'

def sextet (c : Char) : Option ℕ :=
  if 'A' ≤ c ∧ c ≤ 'Z' then some (c.toNat-65)
  else if 'a' ≤ c ∧ c ≤ 'z' then some (c.toNat-71)
  else if '0' ≤ c ∧ c ≤ '9' then some (c.toNat+4)
  else if c = '+' then some 62
  else if c = '/' then some 63
  else none

/-- `base64.b64encode`. -/
def b64encode : List UInt8 → List Char
  | [] => []
  | [a] => [sextetChar (a.toNat/4),sextetChar (a.toNat%4*16),'=','=']
  | [a,b] =>
    [sextetChar (a.toNat/4),sextetChar (a.toNat%4*16+b.toNat/16),sextetChar (b.toNat%16*4),'=']
  | a::b::c::bytes =>
    sextetChar (a.toNat/4)::sextetChar (a.toNat%4*16+b.toNat/16)::
      sextetChar (b.toNat%16*4+c.toNat/64)::sextetChar (c.toNat%64)::b64encode bytes

/-- `base64.b64decode` with validation; none when it raises `ValueError`. -/
def b64decode : List Char → Option (List UInt8)
  | [] => some []
  | w::x::y::z::cs =>
    if z = '=' then
      if cs.isEmpty then
        if y = '=' then
          (sextet w).bind fun w => (sextet x).map fun x => [UInt8.ofNat (w*4+x/16)]
        else (sextet w).bind fun w => (sextet x).bind fun x => (sextet y).map fun y =>
          [UInt8.ofNat (w*4+x/16),UInt8.ofNat (x%16*16+y/4)]
      else none
    else (sextet w).bind fun w => (sextet x).bind fun x => (sextet y).bind fun y =>
      (sextet z).bind fun z => (b64decode cs).map fun bytes =>
        UInt8.ofNat (w*4+x/16)::UInt8.ofNat (x%16*16+y/4)::UInt8.ofNat (y%4*64+z)::bytes
  | _ => none

theorem sextet_sextetChar {n : ℕ} (hn : n < 64) :
    sextet (sextetChar n) = some n ∧ sextetChar n ≠ '=' := by
  interval_cases n <;> decide

theorem byte_eq {a : UInt8} {n : ℕ} (hn : n = a.toNat) : UInt8.ofNat n = a := by
  rw [hn]
  exact UInt8.ofNat_toNat

theorem b64decode_b64encode (bytes : List UInt8) : b64decode (b64encode bytes) = some bytes := by
  have hbyte : ∀ a : UInt8, a.toNat < 256 := fun a => a.toNat_lt
  induction bytes using b64encode.induct with
  | case1 => rfl
  | case2 a =>
    have ha := hbyte a
    rw [b64encode,b64decode,if_pos rfl,List.isEmpty_nil,if_pos rfl,if_pos rfl,
      (sextet_sextetChar (show a.toNat/4 < 64 by omega)).1,Option.bind_some,
      (sextet_sextetChar (show a.toNat%4*16 < 64 by omega)).1,Option.map_some,
      byte_eq (a := a) (by omega)]
  | case3 a b =>
    have ha := hbyte a
    have hb := hbyte b
    have hy := sextet_sextetChar (show b.toNat%16*4 < 64 by omega)
    rw [b64encode,b64decode,if_pos rfl,List.isEmpty_nil,if_pos rfl,if_neg hy.2,
      (sextet_sextetChar (show a.toNat/4 < 64 by omega)).1,Option.bind_some,
      (sextet_sextetChar (show a.toNat%4*16+b.toNat/16 < 64 by omega)).1,Option.bind_some,hy.1,
      Option.map_some,byte_eq (a := a) (by omega),byte_eq (a := b) (by omega)]
  | case4 a b c bytes ih =>
    have ha := hbyte a
    have hb := hbyte b
    have hc := hbyte c
    have hz := sextet_sextetChar (show c.toNat%64 < 64 by omega)
    rw [b64encode,b64decode,if_neg hz.2,
      (sextet_sextetChar (show a.toNat/4 < 64 by omega)).1,Option.bind_some,
      (sextet_sextetChar (show a.toNat%4*16+b.toNat/16 < 64 by omega)).1,Option.bind_some,
      (sextet_sextetChar (show b.toNat%16*4+c.toNat/64 < 64 by omega)).1,Option.bind_some,hz.1,
      Option.bind_some,ih,Option.map_some,byte_eq (a := a) (by omega),
      byte_eq (a := b) (by omega),byte_eq (a := c) (by omega)]

end Base64

section Decimal

/-- A `Decimal`; a payload of zero stands for none. -/
inductive Decimal where
  | finite (negative : Bool) (coefficient : ℕ) (exponent : ℤ)
  | infinity (negative : Bool)
  | nan (negative signaling : Bool) (payload : ℕ)
  deriving DecidableEq, Repr

def digits (n : ℕ) : List Char := Nat.toDigits 10 n

def signText (negative : Bool) : List Char := if negative then ['-'] else []

/-- A number with its sign, as `%+d` writes it. -/
def signedText (e : ℤ) : List Char := (if e < 0 then '-' else '+')::digits e.natAbs

/-- Where the point stands among the digits, counted from the left. -/
def dotPlace (length exponent : ℤ) : ℤ :=
  if exponent ≤ 0 ∧ -6 < exponent+length then exponent+length else 1

/-- `str` of the absolute value of a finite number. -/
def finiteText (coefficient : ℕ) (exponent : ℤ) : List Char :=
  let ds := digits coefficient
  let leftDigits := exponent+ds.length
  let dot := dotPlace ds.length exponent
  (if dot ≤ 0 then '0':: '.'::List.replicate (-dot).toNat '0'++ds
    else if ds.length ≤ dot then ds++List.replicate (dot-ds.length).toNat '0'
    else ds.take dot.toNat++ '.'::ds.drop dot.toNat)++
    if leftDigits = dot then [] else 'E'::signedText (leftDigits-dot)

def decimalText : Decimal → List Char
  | .finite negative coefficient exponent => signText negative++finiteText coefficient exponent
  | .infinity negative => signText negative++['I','n','f','i','n','i','t','y']
  | .nan negative signaling payload =>
    signText negative++(if signaling then ['s'] else [])++['N','a','N']++
      if payload = 0 then [] else digits payload

/-- Digits to the end. -/
def readAll (cs : List Char) : Option ℕ :=
  if cs.all Char.isDigit then some (Nat.ofDigitChars 10 cs 0) else none

def readExponent : List Char → Option ℤ
  | [] => some 0
  | e::cs =>
    if e = 'e' ∨ e = 'E' then
      let negative := ['-'].isPrefixOf cs
      let cs := if negative || ['+'].isPrefixOf cs then cs.drop 1 else cs
      if cs.isEmpty then none
      else (readAll cs).map fun n => if negative then -(n : ℤ) else n
    else none

/-- The digits, point and exponent of a finite number. -/
def readFinite (negative : Bool) (cs : List Char) : Option Decimal :=
  let whole := cs.takeWhile Char.isDigit
  let rest := cs.dropWhile Char.isDigit
  let pointed := ['.'].isPrefixOf rest
  let part := if pointed then (rest.drop 1).takeWhile Char.isDigit else []
  let rest := if pointed then (rest.drop 1).dropWhile Char.isDigit else rest
  if whole.isEmpty ∧ part.isEmpty then none
  else (readExponent rest).map fun e =>
    .finite negative (Nat.ofDigitChars 10 (whole++part) 0) (e-part.length)

/-- A number, an infinity or no number, behind its sign. -/
def readUnsigned (negative : Bool) (cs : List Char) : Option Decimal :=
  let lower := cs.map Char.toLower
  if lower = ['i','n','f'] ∨ lower = ['i','n','f','i','n','i','t','y'] then some (.infinity negative)
  else if ['n','a','n'].isPrefixOf lower then
    (readAll (cs.drop 3)).map fun payload => .nan negative false payload
  else if ['s','n','a','n'].isPrefixOf lower then
    (readAll (cs.drop 4)).map fun payload => .nan negative true payload
  else readFinite negative cs

/-- `Decimal(text)`; none when it raises `InvalidOperation`. -/
def readDecimal (cs : List Char) : Option Decimal :=
  let cs := (strip isSpace cs).filter fun c => c != '_'
  let negative := ['-'].isPrefixOf cs
  readUnsigned negative (if negative || ['+'].isPrefixOf cs then cs.drop 1 else cs)

variable {c : Char} {ds : List Char}

theorem isDigit_of_mem_digits {n : ℕ} (hc : c ∈ digits n) : c.isDigit = true :=
  Nat.isDigit_of_mem_toDigits (by decide) (by decide) hc

theorem readAll_digits (n : ℕ) : readAll (digits n) = some n := by
  have hall : (digits n).all Char.isDigit = true := by
    apply List.all_eq_true.mpr
    intro c hc
    exact isDigit_of_mem_digits hc
  unfold readAll
  rw [if_pos hall]
  unfold digits
  rw [Nat.ofDigitChars_ten_toDigits]

theorem digits_ne_nil (n : ℕ) : digits n ≠ [] := Nat.toDigits_ne_nil

theorem isDigit_spec (hc : c.isDigit = true) : 48 ≤ c.toNat ∧ c.toNat ≤ 57 := by
  unfold Char.isDigit at hc
  simp only [Bool.and_eq_true,decide_eq_true_eq] at hc
  exact hc

theorem isDigit_ne {d : Char} (hc : c.isDigit = true) (hd : d.isDigit = false) : c ≠ d := by
  intro heq
  rw [heq,hd] at hc
  cases hc

theorem isDigit_plain (hc : c.isDigit = true) : isSpace c = false := by
  obtain ⟨hlow,hhigh⟩ := isDigit_spec hc
  unfold isSpace
  simp only [decide_eq_false_iff_not]
  omega

theorem readExponent_signedText (e : ℤ) : readExponent ('E'::signedText e) = some e := by
  obtain ⟨d,ds,hds⟩ := List.exists_cons_of_ne_nil (digits_ne_nil e.natAbs)
  have hempty : (digits e.natAbs).isEmpty = false := by
    rw [hds]
    rfl
  have hread := readAll_digits e.natAbs
  unfold signedText readExponent
  by_cases hneg : e < 0
  · have habs : -|e| = e := by rw [abs_of_neg hneg,neg_neg]
    simpa [hneg,List.isPrefixOf,hempty,hread] using habs
  · have hle : 0 ≤ e := by omega
    simpa [hneg,List.isPrefixOf,hempty,hread] using hle

theorem digits_apart (rest : List Char) (hds : ∀ c ∈ ds, c.isDigit = true)
    (hrest : ∀ c ∈ rest.head?, c.isDigit = false) :
    (ds++rest).takeWhile Char.isDigit = ds ∧ (ds++rest).dropWhile Char.isDigit = rest := by
  have hstart : rest.takeWhile Char.isDigit = [] ∧ rest.dropWhile Char.isDigit = rest := by
    cases rest with
    | nil => exact ⟨rfl,rfl⟩
    | cons c rest =>
      have hc : ¬c.isDigit = true := by simp [hrest c rfl]
      exact ⟨List.takeWhile_cons_of_neg hc,List.dropWhile_cons_of_neg hc⟩
  constructor
  · rw [List.takeWhile_append_of_pos hds,hstart.1,List.append_nil]
  · rw [List.dropWhile_append_of_pos hds,hstart.2]

/-- What follows the digits of a number: nothing, or its exponent. -/
def exponentText (shown : Bool) (e : ℤ) : List Char := if shown then 'E'::signedText e else []

theorem readExponent_exponentText {shown : Bool} {e : ℤ} (h : shown = false → e = 0) :
    readExponent (exponentText shown e) = some e := by
  cases shown with
  | true => exact readExponent_signedText e
  | false =>
    rw [h rfl]
    rfl

theorem exponentText_head (shown : Bool) (e : ℤ) :
    ∀ c ∈ (exponentText shown e).head?, c.isDigit = false := by
  cases shown with
  | true =>
    intro c hc
    cases hc
    rfl
  | false =>
    intro c hc
    cases hc

theorem readFinite_whole (negative shown : Bool) (e : ℤ) (hds : ∀ c ∈ ds, c.isDigit = true)
    (hne : ds ≠ []) (h : shown = false → e = 0) :
    readFinite negative (ds++exponentText shown e) =
      some (.finite negative (Nat.ofDigitChars 10 ds 0) e) := by
  obtain ⟨htake,hdrop⟩ := digits_apart _ hds (exponentText_head shown e)
  have hpoint : ['.'].isPrefixOf (exponentText shown e) = false := by
    cases shown <;> rfl
  have hempty : ds.isEmpty = false := by
    rw [List.isEmpty_eq_false_iff]
    exact hne
  unfold readFinite
  simp only [htake,hdrop,hpoint,hempty,Bool.false_eq_true,if_false,false_and,
    readExponent_exponentText h,Option.map_some,List.append_nil,List.length_nil,Nat.cast_zero,
    Int.sub_zero]

theorem readFinite_point (negative shown : Bool) (e : ℤ) {part : List Char}
    (hds : ∀ c ∈ ds, c.isDigit = true) (hpart : ∀ c ∈ part, c.isDigit = true) (hne : ds ≠ [])
    (h : shown = false → e = 0) :
    readFinite negative (ds++ '.'::(part++exponentText shown e)) =
      some (.finite negative (Nat.ofDigitChars 10 (ds++part) 0) (e-part.length)) := by
  obtain ⟨htake,hdrop⟩ := digits_apart ('.'::(part++exponentText shown e)) hds
    (by intro c hc; cases hc; rfl)
  obtain ⟨htake',hdrop'⟩ := digits_apart _ hpart (exponentText_head shown e)
  have hempty : ds.isEmpty = false := by
    rw [List.isEmpty_eq_false_iff]
    exact hne
  have hpoint : ['.'].isPrefixOf ('.'::(part++exponentText shown e)) = true := by
    simp [List.isPrefixOf]
  unfold readFinite
  simp only [htake,hdrop,hpoint,if_true,List.drop_succ_cons,List.drop_zero,htake',hdrop',hempty,
    Bool.false_eq_true,if_false,false_and,readExponent_exponentText h,Option.map_some]

theorem isDigit_of_mem_zeros {k : ℕ} (hc : c ∈ List.replicate k '0') : c.isDigit = true := by
  rw [List.eq_of_mem_replicate hc]
  rfl

theorem readFinite_finiteText (negative : Bool) (coefficient : ℕ) (exponent : ℤ) :
    readFinite negative (finiteText coefficient exponent) =
      some (.finite negative coefficient exponent) := by
  have hvalue : Nat.ofDigitChars 10 (digits coefficient) 0 = coefficient :=
    Nat.ofDigitChars_ten_toDigits
  have hdigits : ∀ c ∈ digits coefficient, c.isDigit = true := fun c hc => isDigit_of_mem_digits hc
  have hne := digits_ne_nil coefficient
  have hpos : 0 < (digits coefficient).length := List.length_pos_of_ne_nil hne
  unfold finiteText
  dsimp only
  have htail : ∀ l d : ℤ, (if l = d then [] else 'E'::signedText (l-d)) =
      exponentText (decide (l ≠ d)) (l-d) := by
    intro l d
    unfold exponentText
    by_cases heq : l = d <;> simp [heq]
  have hhidden : ∀ l d : ℤ, decide (l ≠ d) = false → l-d = 0 := by
    intro l d hl
    simp only [ne_eq,decide_not,Bool.not_eq_false',decide_eq_true_eq] at hl
    omega
  rw [htail]
  by_cases hdot : dotPlace (digits coefficient).length exponent ≤ 0
  · have hplace : dotPlace (digits coefficient).length exponent =
        exponent+(digits coefficient).length := by
      unfold dotPlace at hdot ⊢
      split at hdot
      · next hplain => rw [if_pos hplain]
      · omega
    have hpart : ∀ c ∈ List.replicate (-dotPlace (digits coefficient).length exponent).toNat '0'++
        digits coefficient, c.isDigit = true := by
      intro c hc
      rcases List.mem_append.mp hc with hc | hc
      · exact isDigit_of_mem_zeros hc
      · exact hdigits c hc
    have hzero : ∀ c ∈ ['0'], c.isDigit = true := by simp
    have hread := readFinite_point negative _ _ hzero hpart (List.cons_ne_nil '0' [])
      (hhidden (exponent+(digits coefficient).length) (dotPlace (digits coefficient).length exponent))
    have hcoefficient : Nat.ofDigitChars 10
        (['0']++(List.replicate (-dotPlace (digits coefficient).length exponent).toNat '0'++
          digits coefficient)) 0 = coefficient := by
      rw [Nat.ofDigitChars_append,Nat.ofDigitChars_append,Nat.ofDigitChars_replicate_zero]
      simpa [Nat.ofDigitChars_cons] using hvalue
    rw [if_pos hdot]
    rw [hcoefficient] at hread
    simp only [List.append_assoc,List.cons_append,List.nil_append] at hread ⊢
    rw [hread]
    congr 2
    rw [List.length_append,List.length_replicate]
    omega
  · rw [if_neg hdot]
    by_cases hlong : ((digits coefficient).length : ℤ) ≤ dotPlace (digits coefficient).length exponent
    · have hplace : dotPlace (digits coefficient).length exponent = (digits coefficient).length := by
        unfold dotPlace at hlong ⊢
        split at hlong
        · next hplain =>
            rw [if_pos hplain]
            omega
        · next hplain =>
            rw [if_neg hplain]
            omega
      rw [if_pos hlong,hplace,Int.sub_self,Int.toNat_zero,List.replicate_zero,List.append_nil,
        readFinite_whole negative _ _ hdigits hne (hhidden _ _),hvalue]
      congr 2
      omega
    · rw [if_neg hlong]
      have hcut : (dotPlace (digits coefficient).length exponent).toNat < (digits coefficient).length := by
        omega
      have hhead : (digits coefficient).take
          (dotPlace (digits coefficient).length exponent).toNat ≠ [] := by
        intro hnil
        have hlen := congrArg List.length hnil
        rw [List.length_take,List.length_nil] at hlen
        omega
      have hpart : ∀ c ∈ (digits coefficient).drop
          (dotPlace (digits coefficient).length exponent).toNat, c.isDigit = true :=
        fun c hc => hdigits c (List.mem_of_mem_drop hc)
      have hread := readFinite_point negative _ _
        (fun c hc => hdigits c (List.mem_of_mem_take hc)) hpart hhead
        (hhidden (exponent+(digits coefficient).length)
          (dotPlace (digits coefficient).length exponent))
      rw [List.append_assoc,List.cons_append,hread,List.take_append_drop,hvalue]
      congr 2
      rw [List.length_drop]
      omega

theorem readDecimal_signText (negative : Bool) {body : List Char}
    (hplain : ∀ c ∈ body, isSpace c = false ∧ c ≠ '_')
    (hminus : ['-'].isPrefixOf body = false) (hplus : ['+'].isPrefixOf body = false) :
    readDecimal (signText negative++body) = readUnsigned negative body := by
  have hclean : ∀ c ∈ signText negative++body, isSpace c = false ∧ c ≠ '_' := by
    intro c hc
    rcases List.mem_append.mp hc with hc | hc
    · cases negative with
      | false => cases hc
      | true =>
        rw [List.mem_singleton.mp hc]
        decide
    · exact hplain c hc
  have hkept : (signText negative++body).filter (fun c => c != '_') = signText negative++body := by
    apply List.filter_eq_self.mpr
    intro c hc
    simp [(hclean c hc).2]
  unfold readDecimal
  dsimp only
  rw [strip_of_none fun c hc => (hclean c hc).1,hkept]
  cases negative with
  | false => simp [signText,hminus,hplus]
  | true => simp [signText,List.isPrefixOf]

theorem finiteText_head (coefficient : ℕ) (exponent : ℤ) :
    ∃ c cs, finiteText coefficient exponent = c::cs ∧ c.isDigit = true := by
  obtain ⟨d,ds,hds⟩ := List.exists_cons_of_ne_nil (digits_ne_nil coefficient)
  have hd : d.isDigit = true := isDigit_of_mem_digits (hds ▸ List.mem_cons_self)
  unfold finiteText
  dsimp only
  split
  · exact ⟨'0',_,rfl,rfl⟩
  · next hdot =>
      split
      · rw [hds]
        exact ⟨d,_,rfl,hd⟩
      · rw [hds]
        obtain ⟨k,hk⟩ : ∃ k, (dotPlace ((d::ds).length : ℤ) exponent).toNat = k+1 := by
          refine ⟨(dotPlace ((d::ds).length : ℤ) exponent).toNat-1,?_⟩
          rw [hds] at hdot
          omega
        rw [hk,List.take_succ_cons]
        exact ⟨d,_,rfl,hd⟩

theorem finiteText_chars {coefficient : ℕ} {exponent : ℤ}
    (hc : c ∈ finiteText coefficient exponent) : c.isDigit = true ∨ c ∈ ['.','E','+','-'] := by
  have hsigned : ∀ e : ℤ, c ∈ 'E'::signedText e → c.isDigit = true ∨ c ∈ ['.','E','+','-'] := by
    intro e he
    rcases List.mem_cons.mp he with rfl | he
    · exact .inr (by decide)
    · unfold signedText at he
      rcases List.mem_cons.mp he with rfl | he
      · refine .inr ?_
        split <;> decide
      · exact .inl (isDigit_of_mem_digits he)
  unfold finiteText at hc
  dsimp only at hc
  rcases List.mem_append.mp hc with hc | hc
  · split at hc
    · simp only [List.cons_append,List.mem_cons,List.mem_append] at hc
      rcases hc with rfl | rfl | hc | hc
      · exact .inl rfl
      · exact .inr (by decide)
      · exact .inl (isDigit_of_mem_zeros hc)
      · exact .inl (isDigit_of_mem_digits hc)
    · split at hc
      · rcases List.mem_append.mp hc with hc | hc
        · exact .inl (isDigit_of_mem_digits hc)
        · exact .inl (isDigit_of_mem_zeros hc)
      · rcases List.mem_append.mp hc with hc | hc
        · exact .inl (isDigit_of_mem_digits (List.mem_of_mem_take hc))
        · rcases List.mem_cons.mp hc with rfl | hc
          · exact .inr (by decide)
          · exact .inl (isDigit_of_mem_digits (List.mem_of_mem_drop hc))
  · split at hc
    · cases hc
    · exact hsigned _ hc

theorem plain_of_digits (h : c.isDigit = true ∨ c ∈ ['.','E','+','-']) :
    isSpace c = false ∧ c ≠ '_' := by
  rcases h with h | h
  · exact ⟨isDigit_plain h,isDigit_ne h rfl⟩
  · simp only [List.mem_cons,List.not_mem_nil,or_false] at h
    rcases h with rfl | rfl | rfl | rfl <;> decide

theorem readUnsigned_digit {negative : Bool} {cs : List Char} (hc : c.isDigit = true) :
    readUnsigned negative (c::cs) = readFinite negative (c::cs) := by
  have hlower : c.toLower.isDigit = true := by
    obtain ⟨hlow,hhigh⟩ := isDigit_spec hc
    have hsame : c.toLower = c := by
      unfold Char.toLower
      rw [dif_neg]
      intro hupper
      have hletter : 65 ≤ c.toNat := UInt32.le_iff_toNat_le.mp hupper.1
      omega
    rw [hsame]
    exact hc
  have hi := isDigit_ne hlower (d := 'i') rfl
  have hn := isDigit_ne hlower (d := 'n') rfl
  have hs := isDigit_ne hlower (d := 's') rfl
  unfold readUnsigned
  simp [hi,Ne.symm hn,Ne.symm hs,List.isPrefixOf]

theorem readDecimal_decimalText (d : Decimal) : readDecimal (decimalText d) = some d := by
  cases d with
  | finite negative coefficient exponent =>
    obtain ⟨c,cs,hcons,hc⟩ := finiteText_head coefficient exponent
    have hplain : ∀ c ∈ finiteText coefficient exponent, isSpace c = false ∧ c ≠ '_' :=
      fun c hc => plain_of_digits (finiteText_chars hc)
    have hminus : ['-'].isPrefixOf (finiteText coefficient exponent) = false := by
      rw [hcons,List.isPrefixOf_cons_cons]
      simp [Ne.symm (isDigit_ne hc (d := '-') rfl)]
    have hplus : ['+'].isPrefixOf (finiteText coefficient exponent) = false := by
      rw [hcons,List.isPrefixOf_cons_cons]
      simp [Ne.symm (isDigit_ne hc (d := '+') rfl)]
    rw [decimalText,readDecimal_signText negative hplain hminus hplus,hcons,readUnsigned_digit hc,
      ← hcons,readFinite_finiteText]
  | infinity negative =>
    rw [decimalText,readDecimal_signText negative (by simp [isSpace]) rfl rfl]
    rfl
  | nan negative signaling payload =>
    have hread : readAll (if payload = 0 then [] else digits payload) = some payload := by
      by_cases hzero : payload = 0
      · rw [if_pos hzero,hzero]
        rfl
      · rw [if_neg hzero,readAll_digits]
    have hpayload : ∀ c ∈ (if payload = 0 then [] else digits payload), isSpace c = false ∧ c ≠ '_' := by
      intro c hc
      split at hc
      · cases hc
      · exact plain_of_digits (.inl (isDigit_of_mem_digits hc))
    rw [decimalText,List.append_assoc,List.append_assoc]
    generalize (if payload = 0 then [] else digits payload) = ds at hread hpayload
    have hname : ∀ c ∈ ['N','a','N'], isSpace c = false ∧ c ≠ '_' := by simp [isSpace]
    have hplain : ∀ c ∈ (if signaling then ['s'] else [])++(['N','a','N']++ds),
        isSpace c = false ∧ c ≠ '_' := by
      intro c hc
      rcases List.mem_append.mp hc with hc | hc
      · cases signaling with
        | false => cases hc
        | true =>
          rw [List.mem_singleton.mp hc]
          decide
      · rcases List.mem_append.mp hc with hc | hc
        · exact hname c hc
        · exact hpayload c hc
    cases signaling with
    | false =>
      rw [readDecimal_signText negative hplain rfl rfl]
      simp [readUnsigned,List.isPrefixOf,hread]
    | true =>
      rw [readDecimal_signText negative hplain rfl rfl]
      simp [readUnsigned,List.isPrefixOf,hread]

end Decimal

end OneStep.ScalarTexts
