import OneStep.WireScanner

/-!
# Envelopes on the wire

A message is the JSON of its body, its metadata and its attempts. The decoder takes
whatever a broker hands over: bytes, a text or an object. What is no JSON, and what
is no object with a body, becomes the body of a new envelope.
-/
namespace OneStep.EnvelopeCodec
open DigitText JsonValues WireTexts WireJson WireScanner

/-- A bool is an int, also for `isinstance`. -/
inductive Attempts where
  | int (n : ℤ)
  | bool (b : Bool)
  deriving DecidableEq, Repr

structure Envelope where
  body : Data
  metadata : Fields := []
  attempts : Attempts := .int 0

/-- What a broker hands over. -/
inductive Raw where
  | bytes (bytes : List UInt8)
  | str (t : Text)
  | dict (parsed : Fields)

inductive Raised where
  /-- UnicodeEncodeError. -/
  | unencodable
  /-- UnicodeDecodeError. -/
  | undecodable
  | json (fault : Fault)
  deriving DecidableEq, Repr

def bodyKey : Text := text ['b','o','d','y']

def metaKey : Text := text ['m','e','t','a']

def attemptsKey : Text := text ['a','t','t','e','m','p','t','s']

def Attempts.data : Attempts → Data
  | .int n => .int n
  | .bool b => .bool b

def payload (envelope : Envelope) : Fields :=
  [(bodyKey,envelope.body),(metaKey,.obj envelope.metadata),(attemptsKey,envelope.attempts.data)]

/-- The style of `json.dumps` without arguments. -/
def defaultStyle : Style := ⟨true,true⟩

section Codec
variable (floats : Floats) (limits : Limits)

def encodeEnvelope (envelope : Envelope) : Except Raised (List UInt8) :=
  match dumps defaultStyle floats limits 0 (.obj (payload envelope)) with
  | .error fault => .error (.json fault)
  | .ok t =>
    match encodeUtf8 t with
    | none => .error .unencodable
    | some bytes => .ok bytes

def asDict : Option Data → Fields
  | some (.obj fields) => fields
  | _ => []

def asInt : Option Data → Attempts
  | some (.int n) => .int n
  | some (.bool b) => .bool b
  | _ => .int 0

/-- `decode_envelope` behind the parsing. -/
def envelopeOf : Data → Envelope
  | .obj parsed =>
    match parsed.lookup bodyKey with
    | none => {body := .obj parsed}
    | some body =>
      {body := body
       metadata := asDict (parsed.lookup metaKey)
       attempts := asInt (parsed.lookup attemptsKey)}
  | parsed => {body := parsed}

def decodeText (t : Text) : Except Raised Envelope :=
  match loads floats limits t with
  | .ok parsed => .ok (envelopeOf parsed)
  | .error .notJson => .ok {body := .str t}
  | .error fault => .error (.json fault)

def decodeEnvelope : Raw → Except Raised Envelope
  | .bytes bytes =>
    match decodeUtf8 bytes with
    | none => .error .undecodable
    | some t => decodeText floats limits t
  | .str t => decodeText floats limits t
  | .dict parsed => .ok (envelopeOf (.obj parsed))

end Codec

section RoundTrip
variable {floats : Floats} {limits : Limits} {e : Envelope}

/-- A message that JSON carries. -/
structure Envelope.IsJson (e : Envelope) : Prop where
  body : e.body.All Carried 1
  metadata : (Data.obj e.metadata).All Carried 1
  attempts : ∃ n : ℕ, e.attempts = .int n

theorem envelopeOf_payload (e : Envelope) : envelopeOf (.obj (payload e)) = e := by
  obtain ⟨body,metadata,attempts⟩ := e
  have hbody : (payload ⟨body,metadata,attempts⟩).lookup bodyKey = some body := rfl
  have hmeta : (payload ⟨body,metadata,attempts⟩).lookup metaKey = some (.obj metadata) := rfl
  have hattempts : (payload ⟨body,metadata,attempts⟩).lookup attemptsKey = some attempts.data := rfl
  unfold envelopeOf
  dsimp only
  rw [hbody,hmeta,hattempts]
  cases attempts <;> rfl

theorem payload_carried (h : e.IsJson) : (Data.obj (payload e)).All Carried 0 := by
  obtain ⟨n,hn⟩ := h.attempts
  have hpaired : Paired bodyKey ∧ Paired metaKey ∧ Paired attemptsKey := by
    unfold Paired
    decide
  have hattempts : e.attempts.data.All Carried 1 := by
    rw [hn]
    simp [Attempts.data,Data.All,Carried]
  rw [Data.All,allFields_iff]
  refine ⟨⟨(by decide : [bodyKey,metaKey,attemptsKey].Nodup),?_⟩,?_⟩
  · simp only [payload,List.forall_mem_cons]
    exact ⟨hpaired.1,hpaired.2.1,hpaired.2.2,List.forall_mem_nil _⟩
  · simp only [payload,List.forall_mem_cons]
    exact ⟨h.body,h.metadata,hattempts,List.forall_mem_nil _⟩

theorem encode_decode {t : Text}
    (h : dumps defaultStyle floats limits 0 (.obj (payload e)) = .ok t) :
    ∃ bytes, encodeEnvelope floats limits e = .ok bytes ∧
      decodeEnvelope floats limits (.bytes bytes) = decodeText floats limits t := by
  obtain ⟨bytes,hencode,hdecode⟩ := utf8_ascii fun c hc => (shown_dumps h c hc).2 rfl
  refine ⟨bytes,?_,?_⟩
  · rw [encodeEnvelope,h]
    dsimp only
    rw [hencode]
  · rw [decodeEnvelope,hdecode]

/-- A message comes back if and only if it could be written. -/
theorem round_trip (he : e.IsJson) :
    ((encodeEnvelope floats limits e).bind fun bytes =>
        decodeEnvelope floats limits (.bytes bytes)) = .ok e ↔
      (Data.obj (payload e)).All (Fits limits) 0 := by
  rw [← @dumps_ok_iff defaultStyle floats]
  constructor
  · intro h
    cases hdumps : dumps defaultStyle floats limits 0 (.obj (payload e)) with
    | ok t => exact ⟨t,rfl⟩
    | error fault =>
      rw [encodeEnvelope,hdumps] at h
      cases h
  · rintro ⟨t,ht⟩
    obtain ⟨bytes,hencode,hdecode⟩ := encode_decode ht
    rw [hencode,Except.bind,hdecode,decodeText,loads_dumps ht (payload_carried he)]
    exact congrArg Except.ok (envelopeOf_payload e)

end RoundTrip

section Foreign
variable {floats : Floats} {limits : Limits}

/-- An object with a body counts its attempts by no boolean and no negative number. -/
def WellCounted : Data → Prop
  | .obj parsed => parsed.lookup bodyKey ≠ none → ∀ a, parsed.lookup attemptsKey = some a →
      (∀ b, a ≠ .bool b) ∧ ∀ n : ℤ, a = .int n → 0 ≤ n
  | _ => True

/-- Reading it raises no other error than the one that is caught, and what is read is
counted well. -/
def Tame (read : Except Fault Data) : Prop :=
  read = .error .notJson ∨ ∃ v, read = .ok v ∧ WellCounted v

theorem asInt_nonneg {a : Option Data} : (∃ n : ℕ, asInt a = .int n) ↔
    ∀ d, a = some d → (∀ b, d ≠ .bool b) ∧ ∀ n : ℤ, d = .int n → 0 ≤ n := by
  constructor
  · rintro ⟨n,hn⟩ d rfl
    constructor
    · rintro b rfl
      cases hn
    · rintro m rfl
      rw [asInt] at hn
      cases hn
      exact Int.natCast_nonneg n
  · intro h
    match a with
    | some (.int n) =>
      obtain ⟨m,hm⟩ := Int.eq_ofNat_of_zero_le ((h _ rfl).2 n rfl)
      exact ⟨m,congrArg Attempts.int hm⟩
    | some (.bool b) => exact absurd rfl ((h _ rfl).1 b)
    | none | some .null | some (.float _) | some (.str _) | some (.arr _) | some (.obj _)
    | some (.other _) => exact ⟨0,rfl⟩

theorem attempts_nonneg {v : Data} :
    (∃ n : ℕ, (envelopeOf v).attempts = .int n) ↔ WellCounted v := by
  cases v with
  | obj parsed =>
    rw [envelopeOf,WellCounted]
    cases parsed.lookup bodyKey with
    | none => exact iff_of_true ⟨0,rfl⟩ fun h => absurd rfl h
    | some body => simpa using asInt_nonneg
  | _ => exact iff_of_true ⟨0,rfl⟩ trivial

/-- A text becomes an envelope with a number of attempts if and only if it is read
without another error and counted well. -/
theorem text_total {t : Text} : (∃ e, decodeText floats limits t = .ok e ∧
    ∃ n : ℕ, e.attempts = .int n) ↔ Tame (loads floats limits t) := by
  unfold decodeText Tame
  cases loads floats limits t with
  | ok v =>
    refine ⟨fun ⟨e,he,hn⟩ => .inr ⟨v,rfl,attempts_nonneg.mp ?_⟩,fun h => ?_⟩
    · rw [Except.ok.inj he]
      exact hn
    · obtain h | ⟨w,hw,hcounted⟩ := h
      · cases h
      · cases hw
        exact ⟨_,rfl,attempts_nonneg.mpr hcounted⟩
  | error fault =>
    cases fault with
    | notJson => exact iff_of_true ⟨_,rfl,0,rfl⟩ (.inl rfl)
    | _ => exact iff_of_false (fun ⟨_,he,_⟩ => nomatch he) (by simp)

theorem bytes_total {bytes : List UInt8} :
    (∃ e, decodeEnvelope floats limits (.bytes bytes) = .ok e ∧ ∃ n : ℕ, e.attempts = .int n) ↔
      ∃ t, decodeUtf8 bytes = some t ∧ Tame (loads floats limits t) := by
  rw [decodeEnvelope]
  cases decodeUtf8 bytes with
  | none => simp
  | some t => simpa using text_total

theorem lookup_size {key : Text} {fields : Fields} {v : Data} (h : fields.lookup key = some v) :
    sizeOf v < sizeOf fields := by
  induction fields with
  | nil => cases h
  | cons field fields ih =>
    obtain ⟨k,w⟩ := field
    rw [List.lookup_cons] at h
    split at h
    · cases h
      simp only [List.cons.sizeOf_spec,Prod.mk.sizeOf_spec]
      omega
    · have hless := ih h
      simp only [List.cons.sizeOf_spec]
      omega

theorem whole_kept (o : Fields) :
    envelopeOf (.obj o) = {body := .obj o} ↔ o.lookup bodyKey = none := by
  rw [envelopeOf]
  cases hbody : o.lookup bodyKey with
  | none => exact iff_of_true rfl rfl
  | some body =>
    refine iff_of_false (fun heq => ?_) nofun
    have hsame : body = .obj o := congrArg Envelope.body heq
    have hless := lookup_size hbody
    rw [hsame,Data.obj.sizeOf_spec] at hless
    omega

/-- The object that is handed over, as it is or as JSON. -/
def Carries (floats : Floats) (limits : Limits) (o : Fields) : Raw → Prop
  | .bytes bytes => ∃ t, decodeUtf8 bytes = some t ∧ loads floats limits t = .ok (.obj o)
  | .str t => loads floats limits t = .ok (.obj o)
  | .dict parsed => parsed = o

theorem decode_carried {o : Fields} {raw : Raw} (h : Carries floats limits o raw) :
    decodeEnvelope floats limits raw = .ok (envelopeOf (.obj o)) := by
  cases raw with
  | bytes bytes =>
    obtain ⟨t,ht,hread⟩ := h
    rw [decodeEnvelope,ht]
    dsimp only
    rw [decodeText,hread]
  | str t =>
    rw [Carries] at h
    rw [decodeEnvelope,decodeText,h]
  | dict parsed =>
    rw [Carries] at h
    rw [decodeEnvelope,h]

end Foreign

/-- A message comes back if and only if the interpreter lets it be written; bytes
become an envelope with a number of attempts if and only if they are UTF-8, raise no
error of `json.loads` that is not caught, and carry no object with a body that is
counted by a boolean or a negative number; and an object is kept whole if and only if
it has no body. -/
theorem wire_format_iff (floats : Floats) (limits : Limits) :
    (∀ e : Envelope, e.IsJson →
      (((encodeEnvelope floats limits e).bind fun bytes =>
          decodeEnvelope floats limits (.bytes bytes)) = .ok e ↔
        (Data.obj (payload e)).All (Fits limits) 0)) ∧
    (∀ bytes, (∃ e, decodeEnvelope floats limits (.bytes bytes) = .ok e ∧
        ∃ n : ℕ, e.attempts = .int n) ↔
      ∃ t, decodeUtf8 bytes = some t ∧ Tame (loads floats limits t)) ∧
    ∀ o raw, Carries floats limits o raw →
      (decodeEnvelope floats limits raw = .ok {body := .obj o} ↔ o.lookup bodyKey = none) := by
  refine ⟨fun e he => round_trip he,fun bytes => bytes_total,fun o raw h => ?_⟩
  rw [decode_carried h,← whole_kept]
  exact ⟨Except.ok.inj,congrArg Except.ok⟩

section Samples

/-- Floats that are written as their bits. -/
def bitsText (x : Double) : FloatText where
  negative := false
  whole := Nat.toDigits 10 x.bits.toNat
  point := ['0']
  power := none
  isWhole := whole_toDigits _
  pointDigits := List.forall_mem_singleton.mpr rfl
  powerDigits := nofun
  shown := .inl (by decide)

def bits : Floats where
  repr := bitsText
  read cs := ⟨BitVec.ofNat 64 (Nat.ofDigitChars 10 (cs.takeWhile Char.isDigit) 0)⟩
  reads x _ := by
    have htext : (bitsText x).text = Nat.toDigits 10 x.bits.toNat++['.','0'] := by
      simp [FloatText.text,FloatText.pointText,FloatText.powerText,bitsText]
    have hdigits : (Nat.toDigits 10 x.bits.toNat++['.','0']).takeWhile Char.isDigit =
        Nat.toDigits 10 x.bits.toNat := by
      rw [List.takeWhile_append_of_pos fun c hc =>
        Nat.isDigit_of_mem_toDigits (by decide) (by decide) hc]
      simp
    rw [htext,hdigits,Nat.ofDigitChars_ten_toDigits,BitVec.ofNat_toNat,BitVec.setWidth_eq]

def usual : Limits := ⟨some 4300,1000⟩

/-- A message that has been tried twice. -/
def order : Envelope :=
  {body := .arr [.str (text ['a']),.null],metadata := [(text ['k'],.bool true)],attempts := .int 2}

/-- The message is decoded as it was. -/
theorem order_returns : ((encodeEnvelope bits usual order).bind fun bytes =>
    decodeEnvelope bits usual (.bytes bytes)) = .ok order := by
  have hpaired : Paired (text ['a']) ∧ Paired (text ['k']) := by
    unfold Paired
    decide
  refine ((wire_format_iff bits usual).1 order ⟨?_,?_,2,rfl⟩).mpr ?_
  · simp [order,Data.All,AllItems,Carried,hpaired.1]
  · simp [order,Data.All,AllFields,Carried,hpaired.2]
  · simp [order,payload,Data.All,AllItems,AllFields,Fits,Attempts.data,usual,Limits.tooLong,
      Nat.toDigits_of_lt_base]

/-- A byte that is no UTF-8 raises; a boolean is taken as the attempts; and an object
with a body loses its other members. -/
theorem foreign_lost :
    decodeEnvelope bits usual (.bytes [255]) = .error .undecodable ∧
    decodeEnvelope bits usual (.dict [(bodyKey,.int 1),(attemptsKey,.bool true)]) =
      .ok ⟨.int 1,[],.bool true⟩ ∧
    ¬(∀ o : Fields, (∀ b m (n : ℕ), o ≠ [(bodyKey,b),(metaKey,.obj m),(attemptsKey,.int n)]) →
      decodeEnvelope bits usual (.dict o) = .ok {body := .obj o}) := by
  refine ⟨rfl,rfl,fun h => ?_⟩
  have hkept := h [(bodyKey,.int 1),(text ['x'],.int 2)] fun b m n heq => by cases heq
  have hbody := congrArg (fun r => r.map Envelope.body) hkept
  cases hbody

end Samples

end OneStep.EnvelopeCodec
