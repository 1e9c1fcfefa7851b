import OneStep.WireJson

/-!
# JSON as Python reads it

`json.loads` goes over the text once. What it still waits for is a state: the
containers that are open, with what has been read of them, and the word, number or
string that it is in. The first character that no state allows decides what is
raised. What `json.dumps` writes is read back.
-/
namespace OneStep.WireScanner
open DigitText JsonValues WireTexts WireJson
open JsonText (intText)

/-- A container that is open around a value. -/
inductive Frame where
  | items (before : List Data)
  | fields (before : Fields) (key : Text)

/-- Where a number is; `real` says that a fraction has been read. -/
inductive Phase where
  | whole
  | dot
  | fraction
  | exponent (real : Bool)
  | sign (real : Bool)
  | power

structure Number where
  text : Text
  digits : Text
  phase : Phase

/-- Where a string is: a character is next, an escape, or its hexadecimal digits. -/
inductive Escape where
  | plain
  | slash
  | unicode (left n : ℕ)

/-- A string so far, apart from the first half of a pair that an escape wrote. -/
structure Chars where
  read : Text
  high : Option CodePoint

inductive State where
  | value (fs : List Frame)
  /-- Behind the bracket of a list. -/
  | opened (fs : List Frame)
  /-- Behind an item. -/
  | item (before : List Data) (fs : List Frame)
  | key (first : Bool) (before : Fields) (fs : List Frame)
  | colon (before : Fields) (key : Text) (fs : List Frame)
  /-- Behind a field. -/
  | field (before : Fields) (fs : List Frame)
  /-- In a string, which is a key of these fields or else a value. -/
  | chars (target : Option Fields) (s : Chars) (e : Escape) (fs : List Frame)
  | word (rest : Text) (v : Data) (fs : List Frame)
  | number (n : Number) (fs : List Frame)
  | done (v : Data)

section Scanning
variable (floats : Floats) (limits : Limits)

def isBlank (c : CodePoint) : Bool := [32,9,10,13].contains c.val

def isDigit (c : CodePoint) : Bool := decide (48 ≤ c.val ∧ c.val < 58)

def isE (c : CodePoint) : Bool := c = code 'e' ∨ c = code 'E'

def isSign (c : CodePoint) : Bool := c = code '+' ∨ c = code '-'

def Number.grow (n : Number) (c : CodePoint) (phase : Phase) : Number :=
  {n with text := n.text++[c],phase := phase}

/-- A number with one more character; none when it has ended. -/
def Number.next (n : Number) (c : CodePoint) : Option Number :=
  match n.phase with
  | .whole =>
    if isDigit c then
      if n.digits = [code '0'] then none
      else some {n.grow c .whole with digits := n.digits++[c]}
    else if n.digits = [] then none
    else if c = code '.' then some (n.grow c .dot)
    else if isE c then some (n.grow c (.exponent false))
    else none
  | .dot => if isDigit c then some (n.grow c .fraction) else none
  | .fraction =>
    if isDigit c then some (n.grow c .fraction)
    else if isE c then some (n.grow c (.exponent true))
    else none
  | .exponent real =>
    if isDigit c then some (n.grow c .power)
    else if isSign c then some (n.grow c (.sign real))
    else none
  | .sign _ => if isDigit c then some (n.grow c .power) else none
  | .power => if isDigit c then some (n.grow c .power) else none

def Number.int (n : Number) : Except Fault Data :=
  if n.digits = [] then .error .notJson
  else if limits.tooLong (letters n.digits) then .error .manyDigits
  else
    let m : ℤ := Nat.ofDigitChars 10 (letters n.digits) 0
    .ok (.int (if n.text.head? = some (code '-') then -m else m))

/-- What a number is; a part of one that is no part of a number is behind an integer. -/
def Number.value (n : Number) : Except Fault Data :=
  match n.phase with
  | .whole => n.int limits
  | .fraction | .power => .ok (.float (floats.read (letters n.text)))
  | .dot | .exponent false | .sign false => (n.int limits).bind fun _ => .error .notJson
  | .exponent true | .sign true => .error .notJson

def Chars.all (s : Chars) : Text := s.read++s.high.toList

def Chars.add (s : Chars) (c : CodePoint) : Chars := ⟨s.all++[c],none⟩

/-- A character that an escape of hexadecimal digits wrote. -/
def Chars.escaped (s : Chars) (c : CodePoint) : Chars :=
  match s.high with
  | some h =>
    if isLow c then ⟨s.read++[point (join h.val c.val)],none⟩
    else if isHigh c then ⟨s.all,some c⟩
    else s.add c
  | none => if isHigh c then ⟨s.all,some c⟩ else s.add c

/-- The character that an escape of one letter stands for. -/
def unescape (c : CodePoint) : Option CodePoint :=
  if c = code '"' ∨ c = code '\\' ∨ c = code '/' then some c
  else if c = code 'b' then some 8
  else if c = code 'f' then some 12
  else if c = code 'n' then some 10
  else if c = code 'r' then some 13
  else if c = code 't' then some 9
  else none

/-- Behind a value. -/
def finish (v : Data) : List Frame → State
  | [] => .done v
  | .items before::fs => .item (before++[v]) fs
  | .fields before key::fs => .field (put key v before) fs

/-- Behind the closing quote of a string. -/
def closing (target : Option Fields) (t : Text) (fs : List Frame) : State :=
  match target with
  | none => finish (.str t) fs
  | some before => .colon before t fs

def stepChars (target : Option Fields) (s : Chars) (fs : List Frame) :
    Escape → CodePoint → Except Fault State
  | .plain,c =>
    if c = code '"' then .ok (closing target s.all fs)
    else if c = code '\\' then .ok (.chars target s .slash fs)
    else if c.val < 32 then .error .notJson
    else .ok (.chars target (s.add c) .plain fs)
  | .slash,c =>
    if c = code 'u' then .ok (.chars target s (.unicode 3 0) fs)
    else
      match unescape c with
      | none => .error .notJson
      | some d => .ok (.chars target (s.add d) .plain fs)
  | .unicode left n,c =>
    match digitValue 16 (Char.ofNat c.val) with
    | none => .error .notJson
    | some d =>
      match left with
      | 0 => .ok (.chars target (s.escaped (point (n*16+d))) .plain fs)
      | left+1 => .ok (.chars target s (.unicode left (n*16+d)) fs)

def openChars (target : Option Fields) (fs : List Frame) : State :=
  .chars target ⟨[],none⟩ .plain fs

/-- The first character of a value. -/
def start (fs : List Frame) (c : CodePoint) : Except Fault State :=
  if c = code '"' then .ok (openChars none fs)
  else if c = code '[' then
    if fs.length < limits.nesting then .ok (.opened fs) else .error .tooDeep
  else if c = point 123 then
    if fs.length < limits.nesting then .ok (.key true [] fs) else .error .tooDeep
  else if c = code 'n' then .ok (.word (text ['u','l','l']) .null fs)
  else if c = code 't' then .ok (.word (text ['r','u','e']) (.bool true) fs)
  else if c = code 'f' then .ok (.word (text ['a','l','s','e']) (.bool false) fs)
  else if c = code 'N' then .ok (.word (text ['a','N']) (.float notNumber) fs)
  else if c = code 'I' then
    .ok (.word (text ['n','f','i','n','i','t','y']) (.float positive) fs)
  else if c = code '-' then .ok (.number ⟨[c],[],.whole⟩ fs)
  else if isDigit c then .ok (.number ⟨[c],[c],.whole⟩ fs)
  else .error .notJson

/-- A character behind a value. -/
def after (c : CodePoint) : State → Except Fault State
  | .item before fs =>
    if isBlank c then .ok (.item before fs)
    else if c = code ',' then .ok (.value (.items before::fs))
    else if c = code ']' then .ok (finish (.arr before) fs)
    else .error .notJson
  | .field before fs =>
    if isBlank c then .ok (.field before fs)
    else if c = code ',' then .ok (.key false before fs)
    else if c = point 125 then .ok (finish (.obj before) fs)
    else .error .notJson
  | .done v => if isBlank c then .ok (.done v) else .error .notJson
  | _ => .error .notJson

def step : State → CodePoint → Except Fault State
  | .value fs,c => if isBlank c then .ok (.value fs) else start limits fs c
  | .opened fs,c =>
    if isBlank c then .ok (.opened fs)
    else if c = code ']' then .ok (finish (.arr []) fs)
    else start limits (.items []::fs) c
  | .key first before fs,c =>
    if isBlank c then .ok (.key first before fs)
    else if c = code '"' then .ok (openChars (some before) fs)
    else if first ∧ c = point 125 then .ok (finish (.obj before) fs)
    else .error .notJson
  | .colon before key fs,c =>
    if isBlank c then .ok (.colon before key fs)
    else if c = code ':' then .ok (.value (.fields before key::fs))
    else .error .notJson
  | .chars target s e fs,c => stepChars target s fs e c
  | .word [] _ _,_ => .error .notJson
  | .word (d::rest) v fs,c =>
    if c = d then .ok (if rest.isEmpty then finish v fs else .word rest v fs)
    else .error .notJson
  | .number n fs,c =>
    if n.text = [code '-'] ∧ c = code 'I' then
      .ok (.word (text ['n','f','i','n','i','t','y']) (.float negative) fs)
    else
      match n.next c with
      | some n => .ok (.number n fs)
      | none => (n.value floats limits).bind fun v => after c (finish v fs)
  | .item before fs,c => after c (.item before fs)
  | .field before fs,c => after c (.field before fs)
  | .done v,c => after c (.done v)

def ending : State → Except Fault Data
  | .done v => .ok v
  | .number n fs =>
    (n.value floats limits).bind fun v => if fs.isEmpty then .ok v else .error .notJson
  | _ => .error .notJson

def scan (s : State) : Text → Except Fault Data
  | [] => ending floats limits s
  | c::cs => (step floats limits s c).bind fun s => scan s cs

/-- `json.loads` of a text. -/
def loads (t : Text) : Except Fault Data :=
  if t.head? = some 65279 then .error .notJson else scan floats limits (.value []) t

end Scanning

section Strings
variable {floats : Floats} {limits : Limits} {style : Style} {target : Option Fields}

/-- No first half of a pair stands in front of a second one. -/
def Paired (t : Text) : Prop := t.IsChain fun c d => ¬(isHigh c = true ∧ isLow d = true)

theorem scan_hex (target : Option Fields) (s : Chars) (fs : List Frame) (rest : Text) (w m n : ℕ)
    (hn : n < 16^(w+1)) :
    scan floats limits (.chars target s (.unicode w m) fs) (text (fixed 16 (w+1) n)++rest) =
      scan floats limits (.chars target (s.escaped (point (m*16^(w+1)+n))) .plain fs) rest := by
  induction w generalizing m n with
  | zero =>
    have hdigit : n/16^0 < 16 := by simpa using hn
    have hn' : n < 16 := by simpa using hn
    have hletter : Char.ofNat (code (Nat.digitChar n)).val = Nat.digitChar n :=
      Char.ofNat_toNat _
    rw [fixed,fixed,pow_zero,Nat.div_one,text_cons,text_nil,List.singleton_append,
      scan,step,stepChars,hletter,digitValue_digitChar le_rfl hn']
    simp only [zero_add,pow_one]
    rfl
  | succ w ih =>
    have hdigit : n/16^(w+1) < 16 := Nat.div_lt_of_lt_mul (by rw [pow_succ] at hn; omega)
    have hletter : Char.ofNat (code (Nat.digitChar (n/16^(w+1)))).val =
        Nat.digitChar (n/16^(w+1)) := Char.ofNat_toNat _
    have hvalue : (m*16+n/16^(w+1))*16^(w+1)+n%16^(w+1) = m*16^(w+1+1)+n := by
      have hsplit := Nat.div_add_mod n (16^(w+1))
      rw [pow_succ 16 (w+1)]
      linarith
    rw [fixed,text_cons,List.cons_append,scan,step,stepChars,hletter,
      digitValue_digitChar le_rfl hdigit]
    refine (ih (m*16+n/16^(w+1)) (n%16^(w+1)) (Nat.mod_lt n (by positivity))).trans ?_
    rw [hvalue]

theorem scan_unicode (target : Option Fields) (s : Chars) (fs : List Frame) (rest : Text) {n : ℕ}
    (hn : n < 65536) :
    scan floats limits (.chars target s .plain fs) (unicodeEscape n++rest) =
      scan floats limits (.chars target (s.escaped (point n)) .plain fs) rest := by
  have hhex := @scan_hex floats limits target s fs rest 3 0 n hn
  rw [Nat.zero_mul,Nat.zero_add] at hhex
  exact hhex

theorem escaped_all {s : Chars} {c : CodePoint}
    (h : ∀ d ∈ s.high, ¬(isHigh d = true ∧ isLow c = true)) (hhigh : ∀ d ∈ s.high, isHigh d = true) :
    (s.escaped c).all = s.all++[c] ∧ ∀ d ∈ (s.escaped c).high, d = c ∧ isHigh d = true := by
  have hlone : (if isHigh c then (⟨s.all,some c⟩ : Chars) else s.add c).all = s.all++[c] ∧
      ∀ d ∈ (if isHigh c then (⟨s.all,some c⟩ : Chars) else s.add c).high, d = c ∧ isHigh d = true := by
    split
    · next hc =>
        refine ⟨rfl,fun d hd => ?_⟩
        cases hd
        exact ⟨rfl,hc⟩
    · exact ⟨List.append_nil _,fun d hd => nomatch hd⟩
  unfold Chars.escaped
  split
  · next k hk =>
      rw [if_neg fun hlow => h k hk ⟨hhigh k hk,hlow⟩]
      exact hlone
  · exact hlone

/-- Both halves of a pair stand for one character. -/
theorem escaped_pair {s : Chars} {c : CodePoint} (hc : 65536 ≤ c.val) :
    ((s.escaped (point (55296+(c.val-65536)/1024))).escaped
      (point (56320+(c.val-65536)%1024))) = s.add c := by
  have hbound := c.isLt
  have hfirst : (point (55296+(c.val-65536)/1024)).val = 55296+(c.val-65536)/1024 :=
    val_point (by omega)
  have hsecond : (point (56320+(c.val-65536)%1024)).val = 56320+(c.val-65536)%1024 :=
    val_point (by omega)
  have hhigh : isHigh (point (55296+(c.val-65536)/1024)) = true :=
    decide_eq_true (by rw [hfirst]; omega)
  have hnot : isLow (point (55296+(c.val-65536)/1024)) = false :=
    decide_eq_false (by rw [hfirst]; omega)
  have hlow : isLow (point (56320+(c.val-65536)%1024)) = true :=
    decide_eq_true (by rw [hsecond]; omega)
  have hjoin : point (join (55296+(c.val-65536)/1024) (56320+(c.val-65536)%1024)) = c := by
    have hsame : join (55296+(c.val-65536)/1024) (56320+(c.val-65536)%1024) = c.val := by
      unfold join
      omega
    rw [hsame,point_val]
  have hopen : s.escaped (point (55296+(c.val-65536)/1024)) =
      ⟨s.all,some (point (55296+(c.val-65536)/1024))⟩ := by
    unfold Chars.escaped
    split <;> simp [hhigh,hnot]
  rw [hopen]
  unfold Chars.escaped
  dsimp only
  rw [if_pos hlow,hfirst,hsecond,hjoin]
  rfl

theorem scan_plain {s : Chars} {fs : List Frame} {c : CodePoint} {rest : Text} (hlow : 32 ≤ c.val)
    (hquote : c.val ≠ 34) (hslash : c.val ≠ 92) :
    scan floats limits (.chars target s .plain fs) (c::rest) =
      scan floats limits (.chars target (s.add c) .plain fs) rest := by
  have hquote' : ¬c = code '"' := fun heq => hquote (congrArg Fin.val heq)
  have hslash' : ¬c = code '\\' := fun heq => hslash (congrArg Fin.val heq)
  rw [scan,step,stepChars,if_neg hquote',if_neg hslash',if_neg (by omega)]
  rfl

theorem scan_letter {s : Chars} {fs : List Frame} {l : Char} {c : CodePoint} {rest : Text}
    (hl : l ≠ 'u') (hc : unescape (code l) = some c) :
    scan floats limits (.chars target s .plain fs) (text ['\\',l]++rest) =
      scan floats limits (.chars target (s.add c) .plain fs) rest := by
  have hu : ¬code l = code 'u' := by
    intro heq
    have hval := congrArg Fin.val heq
    exact hl (Char.toNat_inj.mp hval)
  have hslash : step floats limits (.chars target s .plain fs) (code '\\') =
      .ok (.chars target s .slash fs) := rfl
  have hletter : step floats limits (.chars target s .slash fs) (code l) =
      .ok (.chars target (s.add c) .plain fs) := by
    rw [step,stepChars,if_neg hu,hc]
  rw [text_cons,text_cons,text_nil,List.cons_append,List.cons_append,
    List.nil_append,scan,hslash,Except.bind,scan,hletter]
  rfl

theorem scan_escape {s : Chars} {fs : List Frame} {c : CodePoint}
    (h : ∀ d ∈ s.high, ¬(isHigh d = true ∧ isLow c = true))
    (hhigh : ∀ d ∈ s.high, isHigh d = true) :
    ∃ s' : Chars, s'.all = s.all++[c] ∧ (∀ d ∈ s'.high, d = c ∧ isHigh d = true) ∧
      ∀ rest, scan floats limits (.chars target s .plain fs) (escape style c++rest) =
        scan floats limits (.chars target s' .plain fs) rest := by
  have hadd : (s.add c).all = s.all++[c] ∧ ∀ d ∈ (s.add c).high, d = c ∧ isHigh d = true :=
    ⟨List.append_nil _,fun d hd => nomatch hd⟩
  have hspecial : ∀ {n l}, c.val = n → l ≠ 'u' → unescape (code l) = some (point n) →
      ∃ s' : Chars, s'.all = s.all++[c] ∧ (∀ d ∈ s'.high, d = c ∧ isHigh d = true) ∧
        ∀ rest, scan floats limits (.chars target s .plain fs) (text ['\\',l]++rest) =
          scan floats limits (.chars target s' .plain fs) rest := by
    intro n l hn hl hc
    rw [← hn,point_val] at hc
    exact ⟨s.add c,hadd.1,hadd.2,fun rest => scan_letter hl hc⟩
  unfold escape
  dsimp only
  split
  · next hn => exact hspecial hn (by decide) rfl
  split
  · next hn => exact hspecial hn (by decide) rfl
  split
  · next hn => exact hspecial hn (by decide) rfl
  split
  · next hn => exact hspecial hn (by decide) rfl
  split
  · next hn => exact hspecial hn (by decide) rfl
  split
  · next hn => exact hspecial hn (by decide) rfl
  split
  · next hn => exact hspecial hn (by decide) rfl
  split
  · split
    · next hsmall =>
        obtain ⟨hall,hlast⟩ := escaped_all h hhigh
        refine ⟨s.escaped c,hall,hlast,fun rest => ?_⟩
        rw [scan_unicode _ _ _ _ hsmall,point_val]
    · next hlarge =>
        refine ⟨s.add c,hadd.1,hadd.2,fun rest => ?_⟩
        have hbound := c.isLt
        rw [List.append_assoc,scan_unicode _ _ _ _ (by omega),scan_unicode _ _ _ _ (by omega),
          escaped_pair (by omega)]
  · exact ⟨s.add c,hadd.1,hadd.2,fun rest => scan_plain (by omega) (by omega) (by omega)⟩

theorem scan_chars {fs : List Frame} {t : Text} {s : Chars} (hpaired : Paired (s.high.toList++t))
    (hhigh : ∀ d ∈ s.high, isHigh d = true) (rest : Text) :
    scan floats limits (.chars target s .plain fs) (t.flatMap (escape style)++code '"'::rest) =
      scan floats limits (closing target (s.all++t) fs) rest := by
  induction t generalizing s with
  | nil =>
    rw [List.append_nil]
    rfl
  | cons c t ih =>
    have hfirst : ∀ d ∈ s.high, ¬(isHigh d = true ∧ isLow c = true) := by
      intro d hd
      rw [Option.mem_def.mp hd] at hpaired
      exact (List.isChain_cons_cons.mp hpaired).1
    have htail : Paired (c::t) := List.IsChain.right_of_append hpaired
    obtain ⟨s',hall,hlast,hscan⟩ := @scan_escape floats limits style target s fs c hfirst hhigh
    have hnext : Paired (s'.high.toList++t) := by
      cases hs : s'.high with
      | none => exact List.IsChain.tail htail
      | some d =>
        rw [(hlast d hs).1]
        exact htail
    rw [List.flatMap_cons,List.append_assoc,hscan,
      ih hnext fun d hd => (hlast d hd).2,hall,List.append_assoc]
    rfl

theorem scan_quote {fs : List Frame} {t : Text} (hpaired : Paired t) (rest : Text) :
    scan floats limits (openChars target fs) (t.flatMap (escape style)++code '"'::rest) =
      scan floats limits (closing target t fs) rest :=
  @scan_chars floats limits style target fs t ⟨[],none⟩ hpaired (fun _ hd => nomatch hd) rest

end Strings

section Numbers
variable {floats : Floats} {limits : Limits} {c : CodePoint} {n : Number} {ds : List Char}

/-- What may follow a value inside a container. -/
def Ends (rest : Text) : Prop :=
  ∀ c ∈ rest.head?, c = code ',' ∨ c = code ']' ∨ c = point 125

theorem isDigit_code {c : Char} (h : c.isDigit = true) : isDigit (code c) = true := by
  simp only [Char.isDigit,Bool.and_eq_true,decide_eq_true_eq,ge_iff_le,UInt32.le_iff_toNat_le] at h
  have hval : (code c).val = c.val.toNat := rfl
  refine decide_eq_true ?_
  rw [hval]
  exact ⟨h.1,Nat.lt_succ_of_le h.2⟩

theorem isDigit_ne {d : CodePoint} (hc : isDigit c = true) (hd : isDigit d = false) : c ≠ d := by
  intro heq
  rw [heq,hd] at hc
  cases hc

theorem scan_next {m : Number} (hnext : n.next c = some m) (hc : c ≠ code 'I') (fs : List Frame)
    (rest : Text) :
    scan floats limits (.number n fs) (c::rest) = scan floats limits (.number m fs) rest := by
  rw [scan,step,if_neg fun h => hc h.2,hnext]
  rfl

theorem scan_digits {phase : Phase} (hphase : phase = .fraction ∨ phase = .power)
    (hds : ∀ c ∈ ds, c.isDigit = true) (t digits : Text) (fs : List Frame) (rest : Text) :
    scan floats limits (.number ⟨t,digits,phase⟩ fs) (text ds++rest) =
      scan floats limits (.number ⟨t++text ds,digits,phase⟩ fs) rest := by
  induction ds generalizing t with
  | nil =>
    rw [text_nil,List.append_nil]
    rfl
  | cons c ds ih =>
    rw [List.forall_mem_cons] at hds
    have hdigit := isDigit_code hds.1
    have hnext : Number.next ⟨t,digits,phase⟩ (code c) = some ⟨t++[code c],digits,phase⟩ := by
      rcases hphase with rfl | rfl <;> exact if_pos hdigit
    rw [text_cons,List.cons_append,scan_next hnext (isDigit_ne hdigit rfl)]
    refine (ih hds.2 _).trans ?_
    rw [List.append_assoc]
    rfl

theorem scan_whole (hds : ∀ c ∈ ds, c.isDigit = true) (t : Text) {digits : List Char}
    (hdigits : digits ≠ [] ∧ digits.head? ≠ some '0') (fs : List Frame) (rest : Text) :
    scan floats limits (.number ⟨t,text digits,.whole⟩ fs) (text ds++rest) =
      scan floats limits (.number ⟨t++text ds,text (digits++ds),.whole⟩ fs) rest := by
  induction ds generalizing t digits with
  | nil =>
    rw [List.append_nil,text_nil,List.append_nil]
    rfl
  | cons c ds ih =>
    rw [List.forall_mem_cons] at hds
    have hdigit := isDigit_code hds.1
    have hzero : text digits ≠ [code '0'] := by
      intro heq
      have hletters := congrArg letters heq
      rw [letters_text] at hletters
      exact hdigits.2 (by rw [hletters]; rfl)
    have hnext : Number.next ⟨t,text digits,.whole⟩ (code c) =
        some ⟨t++[code c],text (digits++[c]),.whole⟩ := by
      unfold Number.next
      dsimp only
      rw [if_pos hdigit,if_neg hzero,text_append]
      rfl
    have hmore : digits++[c] ≠ [] ∧ (digits++[c]).head? ≠ some '0' :=
      ⟨by simp,by rw [List.head?_append_of_ne_nil _ hdigits.1]; exact hdigits.2⟩
    rw [text_cons,List.cons_append,scan_next hnext (isDigit_ne hdigit rfl)]
    refine (ih hds.2 _ hmore).trans ?_
    rw [List.append_assoc,List.append_assoc]
    rfl

def signText (minus : Bool) : List Char := if minus then ['-'] else []

theorem start_digit (hc : isDigit c = true) (fs : List Frame) :
    isBlank c = false ∧ c ≠ code ']' ∧ start limits fs c = .ok (.number ⟨[c],[c],.whole⟩ fs) := by
  have hrange := of_decide_eq_true hc
  refine ⟨?_,isDigit_ne hc rfl,?_⟩
  · simp only [isBlank,List.contains_eq_mem,decide_eq_false_iff_not,List.mem_cons,
      List.not_mem_nil,or_false]
    omega
  · unfold start
    rw [if_neg (isDigit_ne hc rfl),if_neg (isDigit_ne hc rfl),if_neg (isDigit_ne hc rfl),
      if_neg (isDigit_ne hc rfl),if_neg (isDigit_ne hc rfl),if_neg (isDigit_ne hc rfl),
      if_neg (isDigit_ne hc rfl),if_neg (isDigit_ne hc rfl),if_neg (isDigit_ne hc rfl),if_pos hc]

theorem step_start {fs : List Frame} (hc : isBlank c = false) :
    step floats limits (.value fs) c = start limits fs c := by
  rw [step,if_neg (by rw [hc]; exact Bool.false_ne_true)]

theorem scan_front (h : Whole ds) (minus : Bool) (fs : List Frame) (rest : Text) :
    scan floats limits (.value fs) (text (signText minus++ds)++rest) =
      scan floats limits (.number ⟨text (signText minus++ds),text ds,.whole⟩ fs) rest := by
  obtain ⟨c,cs,rfl⟩ : ∃ c cs, ds = c::cs := by
    rcases h.front with rfl | ⟨hne,-⟩
    · exact ⟨_,_,rfl⟩
    · exact List.exists_cons_of_ne_nil hne
  have hdigits := List.forall_mem_cons.mp h.digits
  have hdigit := isDigit_code hdigits.1
  obtain ⟨hblank,-,hstart⟩ := @start_digit limits _ hdigit fs
  have htail : ∀ t : Text, scan floats limits (.number ⟨t,text [c],.whole⟩ fs) (text cs++rest) =
      scan floats limits (.number ⟨t++text cs,text (c::cs),.whole⟩ fs) rest := by
    intro t
    rcases h.front with hzero | ⟨-,hhead⟩
    · cases hzero
      rw [text_nil,List.append_nil]
      rfl
    · exact @scan_whole floats limits cs hdigits.2 t [c] ⟨by simp,hhead⟩ fs rest
  cases minus with
  | false =>
    have hfirst : scan floats limits (.value fs) (text (signText false++c::cs)++rest) =
        scan floats limits (.number ⟨[code c],text [c],.whole⟩ fs) (text cs++rest) := by
      rw [signText,if_neg Bool.false_ne_true,List.nil_append,text_cons,List.cons_append,
        scan,step_start hblank,hstart]
      rfl
    rw [hfirst,htail]
    rfl
  | true =>
    have hnext : Number.next ⟨[code '-'],[],.whole⟩ (code c) =
        some ⟨[code '-',code c],text [c],.whole⟩ := by
      unfold Number.next
      dsimp only
      rw [if_pos hdigit,if_neg (by simp)]
      rfl
    have hfirst : scan floats limits (.value fs) (text (signText true++c::cs)++rest) =
        scan floats limits (.number ⟨[code '-'],[],.whole⟩ fs) (code c::(text cs++rest)) := rfl
    rw [hfirst,scan_next hnext (isDigit_ne hdigit rfl),htail]
    rfl

theorem value_whole (h : Whole ds) (minus : Bool) :
    Number.value floats limits ⟨text (signText minus++ds),text ds,.whole⟩ =
      if limits.tooLong ds then .error .manyDigits
      else .ok (.int (if minus then -(Nat.ofDigitChars 10 ds 0) else Nat.ofDigitChars 10 ds 0)) := by
  obtain ⟨c,cs,rfl⟩ : ∃ c cs, ds = c::cs := by
    rcases h.front with rfl | ⟨hne,-⟩
    · exact ⟨_,_,rfl⟩
    · exact List.exists_cons_of_ne_nil hne
  have hdigit := isDigit_code (h.digits c List.mem_cons_self)
  have hminus : (text (signText minus++c::cs)).head? = some (code '-') ↔ minus = true := by
    cases minus with
    | true => exact iff_of_true rfl rfl
    | false => exact iff_of_false (fun heq => isDigit_ne hdigit rfl (Option.some.inj heq)) nofun
  unfold Number.value Number.int
  dsimp only
  rw [if_neg (by simp [text]),letters_text]
  simp only [hminus]

/-- A number ends where a value ends. -/
theorem scan_ends {v : Data} (hvalue : n.value floats limits = .ok v)
    (hends : ∀ c, c = code ',' ∨ c = code ']' ∨ c = point 125 → n.next c = none)
    (fs : List Frame) {rest : Text} (hrest : Ends rest) :
    scan floats limits (.number n fs) rest = scan floats limits (finish v fs) rest := by
  cases rest with
  | nil =>
    rw [scan,scan,ending,hvalue]
    rcases fs with _ | ⟨⟨⟩ | ⟨⟩,fs⟩ <;> rfl
  | cons c rest =>
    have hc := hrest c rfl
    have hafter : ∀ s : State, (∃ w, s = .done w) ∨ (∃ b gs, s = .item b gs) ∨
        (∃ b gs, s = .field b gs) → step floats limits s c = after c s := by
      rintro s (⟨w,rfl⟩ | ⟨b,gs,rfl⟩ | ⟨b,gs,rfl⟩) <;> rfl
    have hfinish : step floats limits (finish v fs) c = after c (finish v fs) := by
      apply hafter
      rcases fs with _ | ⟨⟨b⟩ | ⟨b,k⟩,fs⟩
      · exact .inl ⟨v,rfl⟩
      · exact .inr (.inl ⟨_,_,rfl⟩)
      · exact .inr (.inr ⟨_,_,rfl⟩)
    have hinf : c ≠ code 'I' := by
      rcases hc with rfl | rfl | rfl <;> decide
    rw [scan,scan,step,if_neg fun h => hinf h.2,hends c hc,hvalue,hfinish]
    rfl

theorem next_ends (hphase : n.phase = .whole ∨ n.phase = .fraction ∨ n.phase = .power)
    (c : CodePoint) (hc : c = code ',' ∨ c = code ']' ∨ c = point 125) : n.next c = none := by
  obtain ⟨t,digits,phase⟩ := n
  dsimp only at hphase
  unfold Number.next
  rcases hphase with rfl | rfl | rfl
  · rcases hc with rfl | rfl | rfl <;> exact ite_self none
  · rcases hc with rfl | rfl | rfl <;> rfl
  · rcases hc with rfl | rfl | rfl <;> rfl

theorem scan_point (hds : ∀ c ∈ ds, c.isDigit = true) (hne : ds ≠ []) (t : Text) {digits : Text}
    (hdigits : digits ≠ []) (fs : List Frame) (rest : Text) :
    scan floats limits (.number ⟨t,digits,.whole⟩ fs) (text ('.'::ds)++rest) =
      scan floats limits (.number ⟨t++text ('.'::ds),digits,.fraction⟩ fs) rest := by
  obtain ⟨c,ds,rfl⟩ := List.exists_cons_of_ne_nil hne
  rw [List.forall_mem_cons] at hds
  have hdigit := isDigit_code hds.1
  have hdot : Number.next ⟨t,digits,.whole⟩ (code '.') = some ⟨t++[code '.'],digits,.dot⟩ := by
    unfold Number.next
    dsimp only
    rw [if_neg (by decide),if_neg hdigits,if_pos rfl]
    rfl
  have hfirst : Number.next ⟨t++[code '.'],digits,.dot⟩ (code c) =
      some ⟨t++[code '.']++[code c],digits,.fraction⟩ := if_pos hdigit
  rw [text_cons,text_cons,List.cons_append,scan_next hdot (by decide),List.cons_append,
    scan_next hfirst (isDigit_ne hdigit rfl),scan_digits (.inl rfl) hds.2]
  simp only [List.append_assoc,List.cons_append,List.nil_append]

theorem scan_power {sign : Char} (hsign : sign = '+' ∨ sign = '-')
    (hds : ∀ c ∈ ds, c.isDigit = true) (hne : ds ≠ []) (t : Text) {digits : Text}
    (hdigits : digits ≠ []) {phase : Phase} (hphase : phase = .whole ∨ phase = .fraction)
    (fs : List Frame) (rest : Text) :
    scan floats limits (.number ⟨t,digits,phase⟩ fs) (text ('e'::sign::ds)++rest) =
      scan floats limits (.number ⟨t++text ('e'::sign::ds),digits,.power⟩ fs) rest := by
  obtain ⟨c,ds,rfl⟩ := List.exists_cons_of_ne_nil hne
  rw [List.forall_mem_cons] at hds
  have hdigit := isDigit_code hds.1
  obtain ⟨real,he⟩ : ∃ real, Number.next ⟨t,digits,phase⟩ (code 'e') =
      some ⟨t++[code 'e'],digits,.exponent real⟩ := by
    rcases hphase with rfl | rfl
    · refine ⟨false,?_⟩
      unfold Number.next
      dsimp only
      rw [if_neg (by decide),if_neg hdigits,if_neg (by decide)]
      rfl
    · exact ⟨true,rfl⟩
  have hplus : Number.next ⟨t++[code 'e'],digits,.exponent real⟩ (code sign) =
      some ⟨t++[code 'e']++[code sign],digits,.sign real⟩ := by
    rcases hsign with rfl | rfl <;> rfl
  have hfirst : Number.next ⟨t++[code 'e']++[code sign],digits,.sign real⟩ (code c) =
      some ⟨t++[code 'e']++[code sign]++[code c],digits,.power⟩ := if_pos hdigit
  have hinf : code sign ≠ code 'I' := by
    rcases hsign with rfl | rfl <;> decide
  rw [text_cons,text_cons,text_cons,List.cons_append,scan_next he (by decide),List.cons_append,
    scan_next hplus hinf,List.cons_append,scan_next hfirst (isDigit_ne hdigit rfl),
    scan_digits (.inr rfl) hds.2]
  simp only [List.append_assoc,List.cons_append,List.nil_append]

theorem scan_float (f : FloatText) (fs : List Frame) {rest : Text} (hrest : Ends rest) :
    scan floats limits (.value fs) (text f.text++rest) =
      scan floats limits (finish (.float (floats.read f.text)) fs) rest := by
  have hwhole : text f.whole ≠ [] := by
    intro heq
    have hnil : f.whole = [] := List.map_eq_nil_iff.mp heq
    rcases f.isWhole.front with h | h
    · rw [h] at hnil
      cases hnil
    · exact h.1 hnil
  obtain ⟨phase,hphase,hpoint⟩ : ∃ phase, (phase = .whole ∧ f.point = [] ∨ phase = .fraction) ∧
      ∀ rest, scan floats limits (.number ⟨text (signText f.negative++f.whole),text f.whole,.whole⟩ fs)
        (text f.pointText++rest) =
        scan floats limits (.number ⟨text (signText f.negative++f.whole++f.pointText),
          text f.whole,phase⟩ fs) rest := by
    unfold FloatText.pointText
    by_cases hp : f.point = []
    · refine ⟨.whole,.inl ⟨rfl,hp⟩,fun rest => ?_⟩
      rw [hp,List.isEmpty_nil,if_pos rfl,List.append_nil]
      rfl
    · refine ⟨.fraction,.inr rfl,fun rest => ?_⟩
      rw [if_neg (by simpa using hp),scan_point f.pointDigits hp _ hwhole,← text_append]
  obtain ⟨phase',hphase',hpower⟩ : ∃ phase', (phase' = .fraction ∨ phase' = .power) ∧
      ∀ rest, scan floats limits (.number ⟨text (signText f.negative++f.whole++f.pointText),
          text f.whole,phase⟩ fs) (text f.powerText++rest) =
        scan floats limits (.number ⟨text f.text,text f.whole,phase'⟩ fs) rest := by
    have htext : f.text = signText f.negative++f.whole++f.pointText++f.powerText := rfl
    rw [htext]
    unfold FloatText.powerText
    cases hp : f.power with
    | none =>
      refine ⟨.fraction,.inl rfl,fun rest => ?_⟩
      have hfraction : phase = .fraction := by
        rcases hphase with ⟨-,hnil⟩ | h
        · exact absurd hp (f.shown.resolve_left (not_not_intro hnil))
        · exact h
      rw [hfraction,List.append_nil]
      rfl
    | some p =>
      obtain ⟨hsign,hne,hdigits⟩ := f.powerDigits p hp
      refine ⟨.power,.inr rfl,fun rest => ?_⟩
      dsimp only
      rw [scan_power hsign hdigits hne _ hwhole (hphase.imp_left And.left),← text_append]
  have htext : text f.text++rest = text (signText f.negative++f.whole)++
      (text f.pointText++(text f.powerText++rest)) := by
    have hsplit : f.text = signText f.negative++f.whole++f.pointText++f.powerText := rfl
    rw [hsplit,text_append,text_append,List.append_assoc,List.append_assoc]
  have hvalue : Number.value floats limits ⟨text f.text,text f.whole,phase'⟩ =
      .ok (.float (floats.read f.text)) := by
    rcases hphase' with rfl | rfl <;> simp [Number.value]
  rw [htext,scan_front f.isWhole,hpoint,hpower]
  exact scan_ends hvalue (next_ends (.inr hphase')) fs hrest

end Numbers

section RoundTrip
variable {style : Style} {floats : Floats} {limits : Limits} {v : Data} {depth : ℕ} {t : Text}

/-- A text that holds one value, inside so many containers. -/
structure Reads (floats : Floats) (limits : Limits) (t : Text) (v : Data) (depth : ℕ) : Prop where
  front : ∃ c cs, t = c::cs ∧ isBlank c = false ∧ c ≠ code ']' ∧ c.val < 128
  value : ∀ fs rest, fs.length = depth → Ends rest →
    scan floats limits (.value fs) (t++rest) = scan floats limits (finish v fs) rest

theorem scan_word {w : Text} (hw : w ≠ []) (v : Data) (fs : List Frame) (rest : Text) :
    scan floats limits (.word w v fs) (w++rest) = scan floats limits (finish v fs) rest := by
  induction w with
  | nil => exact absurd rfl hw
  | cons c w ih =>
    rw [List.cons_append,scan,step,if_pos rfl]
    cases w with
    | nil => rfl
    | cons d w => exact ih (List.cons_ne_nil d w)

theorem reads_word {c : CodePoint} {w : Text} (hfront : isBlank c = false ∧ c ≠ code ']' ∧ c.val < 128)
    (hstart : ∀ fs, start limits fs c = .ok (.word w v fs)) (hw : w ≠ []) :
    Reads floats limits (c::w) v depth where
  front := ⟨c,w,rfl,hfront⟩
  value fs rest _ _ := by
    rw [List.cons_append,scan,step_start hfront.1,hstart]
    exact scan_word hw v fs rest

theorem reads_quote (h : Paired t) (depth : ℕ) :
    Reads floats limits (quote style t) (.str t) depth where
  front := ⟨_,_,rfl,rfl,by decide,by decide⟩
  value fs rest _ _ := by
    have hfirst : scan floats limits (.value fs) (quote style t++rest) =
        scan floats limits (openChars none fs) (t.flatMap (escape style)++code '"'::rest) := by
      have htext : quote style t++rest =
          code '"'::(t.flatMap (escape style)++code '"'::rest) := by
        simp [quote]
      rw [htext]
      rfl
    rw [hfirst,scan_quote h]
    rfl

theorem front_number {ds : List Char} (h : Whole ds) (minus : Bool) (more : Text) :
    ∃ c cs, text (signText minus++ds)++more = c::cs ∧ isBlank c = false ∧ c ≠ code ']' ∧
      c.val < 128 := by
  cases minus with
  | true => exact ⟨_,_,rfl,rfl,by decide,by decide⟩
  | false =>
    obtain ⟨c,cs,rfl⟩ : ∃ c cs, ds = c::cs := by
      rcases h.front with rfl | ⟨hne,-⟩
      · exact ⟨_,_,rfl⟩
      · exact List.exists_cons_of_ne_nil hne
    have hdigit := isDigit_code (h.digits c List.mem_cons_self)
    obtain ⟨hblank,hclose,-⟩ := @start_digit ⟨none,0⟩ _ hdigit []
    exact ⟨_,_,rfl,hblank,hclose,Nat.lt_trans (of_decide_eq_true hdigit).2 (by decide)⟩

theorem reads_int {n : ℤ} (h : limits.tooLong (Nat.toDigits 10 n.natAbs) = false) (depth : ℕ) :
    Reads floats limits (text (intText n)) (.int n) depth where
  front := by
    have htext : text (intText n) =
        text (signText (decide (n < 0))++Nat.toDigits 10 n.natAbs)++[] := by
      rw [List.append_nil]
      unfold intText signText
      simp only [decide_eq_true_eq]
    rw [htext]
    exact front_number (whole_toDigits _) _ _
  value fs rest _ hrest := by
    have htext : intText n = signText (decide (n < 0))++Nat.toDigits 10 n.natAbs := by
      unfold intText signText
      simp only [decide_eq_true_eq]
    have hvalue := @value_whole floats limits _ (whole_toDigits n.natAbs)
      (decide (n < 0))
    have hsame : (if decide (n < 0) = true then -((n.natAbs : ℕ) : ℤ) else (n.natAbs : ℕ)) = n := by
      simp only [decide_eq_true_eq]
      split <;> omega
    rw [h,if_neg Bool.false_ne_true,Nat.ofDigitChars_ten_toDigits,hsame] at hvalue
    rw [htext,scan_front (whole_toDigits _)]
    exact scan_ends hvalue (next_ends (.inl rfl)) fs hrest

theorem reads_float {x : Double} (h : x.isFinite = true) (depth : ℕ) :
    Reads floats limits (text (floats.shown x)) (.float x) depth where
  front := by
    have htext : text (floats.shown x) = text (signText (floats.repr x).negative++
        (floats.repr x).whole)++text ((floats.repr x).pointText++(floats.repr x).powerText) := by
      rw [← text_append]
      unfold Floats.shown FloatText.text
      rw [if_pos h,List.append_assoc]
      rfl
    rw [htext]
    exact front_number (floats.repr x).isWhole _ _
  value fs rest _ hrest := by
    unfold Floats.shown
    rw [if_pos h,scan_float _ _ hrest,floats.reads x h]

theorem scan_spaces (fs : List Frame) (t : Text) :
    scan floats limits (.value fs) (style.spaces++t) = scan floats limits (.value fs) t := by
  unfold Style.spaces
  cases style.spaced <;> rfl

theorem ends_more (ts : List Text) {c : CodePoint} (hc : c = code ']' ∨ c = point 125)
    (rest : Text) : Ends ((ts.flatMap fun u => code ','::style.spaces++u)++c::rest) := by
  intro d hd
  cases ts with
  | nil =>
    cases hd
    exact .inr hc
  | cons t ts =>
    cases hd
    exact .inl rfl

variable {ts : List Text} {fs : List Frame}

theorem scan_items {vs : List Data}
    (h : List.Forall₂ (fun v t => Reads floats limits t v (fs.length+1)) vs ts) (before : List Data)
    (rest : Text) :
    scan floats limits (.item before fs)
      ((ts.flatMap fun u => code ','::style.spaces++u)++code ']'::rest) =
      scan floats limits (finish (.arr (before++vs)) fs) rest := by
  induction h generalizing before with
  | nil =>
    rw [List.append_nil]
    rfl
  | @cons v t vs ts hv hvs ih =>
    have htext : ((t::ts).flatMap fun u => code ','::style.spaces++u)++code ']'::rest =
        code ','::(style.spaces++(t++((ts.flatMap fun u => code ','::style.spaces++u)++
          code ']'::rest))) := by
      simp
    have hcomma : scan floats limits (.item before fs) (code ','::(style.spaces++(t++((ts.flatMap
        fun u => code ','::style.spaces++u)++code ']'::rest)))) =
        scan floats limits (.value (.items before::fs)) (style.spaces++(t++((ts.flatMap
          fun u => code ','::style.spaces++u)++code ']'::rest))) := rfl
    rw [htext,hcomma,scan_spaces,hv.value _ _ rfl (ends_more ts (.inl rfl) rest),finish,ih,
      List.append_assoc]
    rfl

theorem scan_opened (h : Reads floats limits t v depth) (fs : List Frame) (rest : Text) :
    scan floats limits (.opened fs) (t++rest) =
      scan floats limits (.value (.items []::fs)) (t++rest) := by
  obtain ⟨c,cs,rfl,hblank,hclose,-⟩ := h.front
  rw [List.cons_append,scan,scan,step_start hblank,step,if_neg (by rw [hblank]; exact nofun),
    if_neg hclose]

theorem reads_arr {vs : List Data} (hdepth : depth < limits.nesting)
    (h : List.Forall₂ (fun v t => Reads floats limits t v (depth+1)) vs ts) :
    Reads floats limits (code '['::joined style ts++[code ']']) (.arr vs) depth where
  front := ⟨_,_,rfl,rfl,by decide,by decide⟩
  value fs rest hlen _ := by
    have hopen : ∀ more, scan floats limits (.value fs) (code '['::more) =
        scan floats limits (.opened fs) more := by
      intro more
      have hstart : start limits fs (code '[') = .ok (.opened fs) := by
        unfold start
        rw [if_neg (by decide),if_pos rfl,if_pos (by rw [hlen]; exact hdepth)]
      rw [scan,step_start rfl,hstart]
      rfl
    cases h with
    | nil =>
      refine (hopen _).trans ?_
      rfl
    | @cons v t vs ts hv hvs =>
      have htext : code '['::joined style (t::ts)++[code ']']++rest = code '['::(t++
          ((ts.flatMap fun u => code ','::style.spaces++u)++code ']'::rest)) := by
        simp [joined]
      rw [htext,hopen,scan_opened hv,
        hv.value _ _ (by rw [List.length_cons,hlen]) (ends_more ts (.inl rfl) rest),finish]
      exact scan_items (hlen ▸ hvs) [v] rest

theorem scan_field {key : Text} (hkey : Paired key) (h : Reads floats limits t v (fs.length+1))
    (first : Bool) (before : Fields) {rest : Text} (hrest : Ends rest) :
    scan floats limits (.key first before fs) (fieldText style key t++rest) =
      scan floats limits (.field (put key v before) fs) rest := by
  have htext : fieldText style key t++rest = code '"'::(key.flatMap (escape style)++code '"'::
      (code ':'::(style.spaces++(t++rest)))) := by
    simp [fieldText,quote]
  have hquote : ∀ more, scan floats limits (.key first before fs) (code '"'::more) =
      scan floats limits (openChars (some before) fs) more := fun more => rfl
  have hcolon : ∀ more, scan floats limits (.colon before key fs) (code ':'::more) =
      scan floats limits (.value (.fields before key::fs)) more := fun more => rfl
  rw [htext,hquote,scan_quote hkey,closing,hcolon,scan_spaces,h.value _ _ rfl hrest,finish]

theorem scan_fields {fields : Fields}
    (h : List.Forall₂ (fun field t => ∃ u, Reads floats limits u field.2 (fs.length+1) ∧
      t = fieldText style field.1 u) fields ts) (hkeys : ∀ field ∈ fields, Paired field.1)
    {before : Fields} (hnodup : ((before++fields).map Prod.fst).Nodup) (rest : Text) :
    scan floats limits (.field before fs)
      ((ts.flatMap fun u => code ','::style.spaces++u)++point 125::rest) =
      scan floats limits (finish (.obj (before++fields)) fs) rest := by
  induction h generalizing before with
  | nil =>
    rw [List.append_nil]
    rfl
  | @cons field t fields ts hv hvs ih =>
    obtain ⟨u,hu,rfl⟩ := hv
    rw [List.forall_mem_cons] at hkeys
    have htext : ((fieldText style field.1 u::ts).flatMap fun u => code ','::style.spaces++u)++
        point 125::rest = code ','::(style.spaces++(fieldText style field.1 u++((ts.flatMap
          fun u => code ','::style.spaces++u)++point 125::rest))) := by
      simp
    have hcomma : ∀ more, scan floats limits (.field before fs) (code ','::(style.spaces++more)) =
        scan floats limits (.key false before fs) more := by
      intro more
      unfold Style.spaces
      cases style.spaced <;> rfl
    have hnew : field.1 ∉ before.map Prod.fst := by
      rw [List.map_append,List.map_cons] at hnodup
      intro hmem
      exact (List.nodup_append'.mp hnodup).2.2 hmem List.mem_cons_self
    have hsplit : before++field::fields = before++[(field.1,field.2)]++fields := by simp
    rw [hsplit] at hnodup
    rw [htext,hcomma,scan_field hkeys.1 hu false before (ends_more ts (.inr rfl) rest),
      put_new hnew,ih hkeys.2 hnodup,hsplit]

theorem reads_obj {fields : Fields} (hdepth : depth < limits.nesting)
    (h : List.Forall₂ (fun field t => ∃ u, Reads floats limits u field.2 (depth+1) ∧
      t = fieldText style field.1 u) fields ts) (hkeys : ∀ field ∈ fields, Paired field.1)
    (hnodup : (fields.map Prod.fst).Nodup) :
    Reads floats limits (point 123::joined style ts++[point 125]) (.obj fields) depth where
  front := ⟨_,_,rfl,rfl,by decide,by decide⟩
  value fs rest hlen _ := by
    have hopen : ∀ more, scan floats limits (.value fs) (point 123::more) =
        scan floats limits (.key true [] fs) more := by
      intro more
      have hstart : start limits fs (point 123) = .ok (.key true [] fs) := by
        unfold start
        rw [if_neg (by decide),if_neg (by decide),if_pos rfl,if_pos (by rw [hlen]; exact hdepth)]
      rw [scan,step_start rfl,hstart]
      rfl
    cases h with
    | nil =>
      refine (hopen _).trans ?_
      rfl
    | @cons field t fields ts hv hvs =>
      obtain ⟨u,hu,rfl⟩ := hv
      rw [List.forall_mem_cons] at hkeys
      have htext : point 123::joined style (fieldText style field.1 u::ts)++[point 125]++rest =
          point 123::(fieldText style field.1 u++
            ((ts.flatMap fun u => code ','::style.spaces++u)++point 125::rest)) := by
        simp [joined]
      rw [← hlen] at hu hvs
      rw [htext,hopen,scan_field hkeys.1 hu true [] (ends_more ts (.inr rfl) rest),put]
      exact scan_fields hvs hkeys.2 hnodup rest

/-- JSON carries it: finite floats, whole characters, and keys that are distinct. -/
def Carried (_ : ℕ) : Data → Prop
  | .float x => x.isFinite = true
  | .str t => Paired t
  | .obj fields => (fields.map Prod.fst).Nodup ∧ ∀ field ∈ fields, Paired field.1
  | .other _ => False
  | _ => True

theorem reads_cases : Data.Cases fun v => ∀ depth t, dumps style floats limits depth v = .ok t →
    v.All Carried depth → Reads floats limits t v depth where
  leaf v hleaf depth t h hcarried := by
    cases v with
    | arr items | obj fields => exact absurd hleaf id
    | null =>
      rw [dumps] at h
      cases h
      exact reads_word ⟨rfl,by decide,by decide⟩ (fun fs => rfl) nofun
    | bool b =>
      rw [dumps] at h
      cases h
      cases b <;> exact reads_word ⟨rfl,by decide,by decide⟩ (fun fs => rfl) nofun
    | int n =>
      rw [dumps] at h
      split at h
      · cases h
      · next hfits =>
          cases h
          exact reads_int (Bool.eq_false_iff.mpr hfits) depth
    | float x =>
      rw [dumps] at h
      rw [Data.All,Carried] at hcarried
      · cases h
        exact reads_float hcarried depth
      all_goals exact nofun
    | str s =>
      rw [dumps] at h
      rw [Data.All,Carried] at hcarried
      · cases h
        exact reads_quote hcarried depth
      all_goals exact nofun
    | other shown =>
      rw [Data.All,Carried] at hcarried
      · exact hcarried.elim
      all_goals exact nofun
  arr items ih depth t h hcarried := by
    rw [dumps] at h
    rw [Data.All,allItems_iff] at hcarried
    split at h
    · next hdepth =>
        obtain ⟨ts,hts,rfl⟩ := map_ok_iff.mp h
        have hboth := (List.forall₂_and_left items ts).mpr
          ⟨fun v hv => And.intro (ih v hv (depth+1)) (hcarried.2 v hv),dumpsAll_ok_iff.mp hts⟩
        exact reads_arr hdepth (hboth.imp fun v u h => h.1.1 u h.2 h.1.2)
    · cases h
  obj fields ih depth t h hcarried := by
    rw [dumps] at h
    rw [Data.All,allFields_iff,Carried] at hcarried
    split at h
    · next hdepth =>
        obtain ⟨ts,hts,rfl⟩ := map_ok_iff.mp h
        have hboth := (List.forall₂_and_left fields ts).mpr
          ⟨fun field hfield => And.intro (ih field hfield (depth+1)) (hcarried.2 field hfield),
            dumpsFields_ok_iff.mp hts⟩
        refine reads_obj hdepth (hboth.imp fun field u h => ?_) hcarried.1.2 hcarried.1.1
        obtain ⟨⟨hread,hall⟩,w,hw,hu⟩ := h
        exact ⟨w,hread w hw hall,hu⟩
    · cases h

/-- What is written of a value that JSON carries is read as this value. -/
theorem loads_dumps (h : dumps style floats limits 0 v = .ok t) (hcarried : v.All Carried 0) :
    loads floats limits t = .ok v := by
  have hreads := reads_cases.all v 0 t h hcarried
  obtain ⟨c,cs,ht,-,-,hlow⟩ := hreads.front
  have hmark : t.head? ≠ some 65279 := by
    rw [ht]
    intro heq
    cases heq
    exact absurd hlow (by decide)
  have hvalue := hreads.value [] [] rfl fun d hd => nomatch hd
  rw [List.append_nil] at hvalue
  rw [loads,if_neg hmark,hvalue]
  rfl

end RoundTrip

end OneStep.WireScanner
