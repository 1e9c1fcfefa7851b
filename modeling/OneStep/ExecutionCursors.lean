import OneStep.CalendarDays
import OneStep.ExecutionBackend
import OneStep.JsonReader

/-!
# Cursors of execution pages

A cursor is the creation time and the id of the last execution of a page, as JSON
in base64 without its padding. Decoding accepts what encoding wrote and nothing
else: it encodes what it read again and compares.
-/
namespace OneStep.ExecutionCursors
open CalendarDays DateTimeText DigitText ExecutionBackend JsonReader JsonText JsonValues

abbrev Uuid := ScalarTexts.UUID

section Base64

/-- The alphabet of `base64.urlsafe_b64encode`. -/
def urlChar (c : Char) : Char := if c = '+' then '-' else if c = '/' then '_' else c

/-- The alphabet back, as `altchars` asks. -/
def standardChar (c : Char) : Char := if c = '-' then '+' else if c = '_' then '/' else c

/-- `rstrip("=")`. -/
def unpad (cs : List Char) : List Char := (cs.reverse.dropWhile fun c => c = '=').reverse

/-- `"=" * (-len(cursor) % 4)` behind the cursor. -/
def pad (cs : List Char) : List Char := cs++List.replicate ((4-cs.length%4)%4) '='

theorem unpad_replicate {body : List Char} (h : ∀ c ∈ body, c ≠ '=') (k : ℕ) :
    unpad (body++List.replicate k '=') = body := by
  unfold unpad
  have hpads : ∀ c ∈ List.replicate k '=', decide (c = '=') = true := by
    intro c hc
    rw [List.eq_of_mem_replicate hc]
    rfl
  have hkeep : (body.reverse.dropWhile fun c => decide (c = '=')) = body.reverse := by
    cases hb : body.reverse with
    | nil => rfl
    | cons c cs =>
      have hc : c ∈ body := by
        rw [← List.mem_reverse,hb]
        exact List.mem_cons_self
      exact List.dropWhile_cons_of_neg (by simpa using h c hc)
  rw [List.reverse_append,List.reverse_replicate,List.dropWhile_append_of_pos hpads,hkeep,
    List.reverse_reverse]

/-- A character of the standard alphabet. -/
def Sextet (c : Char) : Prop := ∃ n < 64, c = ScalarTexts.sextetChar n

theorem sextet_char {c : Char} (h : Sextet c) : c ≠ '=' ∧ urlChar c ≠ '=' ∧
    standardChar (urlChar c) = c ∧ ScalarTexts.isSpace (urlChar c) = false := by
  obtain ⟨n,hn,rfl⟩ := h
  interval_cases n <;> decide

variable (bytes : List UInt8)

theorem b64encode_body : ∃ body, (∀ c ∈ body, Sextet c) ∧
    body.length = (bytes.length*4+2)/3 ∧ ScalarTexts.b64encode bytes = pad body := by
  have hbyte : ∀ a : UInt8, a.toNat < 256 := fun a => a.toNat_lt
  induction bytes using ScalarTexts.b64encode.induct with
  | case1 => exact ⟨[],by simp,rfl,rfl⟩
  | case2 a =>
    have ha := hbyte a
    refine ⟨[_,_],?_,by simp,rfl⟩
    simp only [List.forall_mem_cons,List.not_mem_nil,false_implies,implies_true,and_true]
    exact ⟨⟨_,by omega,rfl⟩,⟨_,by omega,rfl⟩⟩
  | case3 a b =>
    have ha := hbyte a
    have hb := hbyte b
    refine ⟨[_,_,_],?_,by simp,rfl⟩
    simp only [List.forall_mem_cons,List.not_mem_nil,false_implies,implies_true,and_true]
    exact ⟨⟨_,by omega,rfl⟩,⟨_,by omega,rfl⟩,⟨_,by omega,rfl⟩⟩
  | case4 a b c bytes ih =>
    have ha := hbyte a
    have hb := hbyte b
    have hc := hbyte c
    obtain ⟨body,hbody,hlength,htext⟩ := ih
    refine ⟨ScalarTexts.sextetChar (a.toNat/4)::
      ScalarTexts.sextetChar (a.toNat%4*16+b.toNat/16)::
      ScalarTexts.sextetChar (b.toNat%16*4+c.toNat/64)::
      ScalarTexts.sextetChar (c.toNat%64)::body,?_,?_,?_⟩
    · simp only [List.forall_mem_cons]
      exact ⟨⟨_,by omega,rfl⟩,⟨_,by omega,rfl⟩,⟨_,by omega,rfl⟩,⟨_,by omega,rfl⟩,hbody⟩
    · simp only [List.length_cons,hlength]
      omega
    · rw [ScalarTexts.b64encode,htext]
      unfold pad
      simp only [List.length_cons,List.cons_append]
      congr 6
      omega

/-- `base64.urlsafe_b64encode` without the padding. -/
def encodeBytes (bytes : List UInt8) : List Char :=
  unpad ((ScalarTexts.b64encode bytes).map urlChar)

/-- `base64.b64decode` of the padded text, with the two characters of the other alphabet. -/
def decodeBytes (cs : List Char) : Option (List UInt8) :=
  ScalarTexts.b64decode ((pad cs).map standardChar)

theorem encodeBytes_body : ∃ body, (∀ c ∈ body, Sextet c) ∧
    body.length = (bytes.length*4+2)/3 ∧ encodeBytes bytes = body.map urlChar ∧
      ScalarTexts.b64encode bytes = pad body := by
  obtain ⟨body,hbody,hlength,htext⟩ := b64encode_body bytes
  refine ⟨body,hbody,hlength,?_,htext⟩
  have hurl : ∀ c ∈ body.map urlChar, c ≠ '=' := by
    intro c hc
    obtain ⟨d,hd,rfl⟩ := List.mem_map.mp hc
    exact (sextet_char (hbody d hd)).2.1
  unfold encodeBytes
  rw [htext,pad,List.map_append,List.map_replicate]
  exact unpad_replicate hurl _

theorem decodeBytes_encodeBytes : decodeBytes (encodeBytes bytes) = some bytes := by
  obtain ⟨body,hbody,-,hencode,htext⟩ := encodeBytes_body bytes
  have hback : (body.map urlChar).map standardChar = body := by
    rw [List.map_map]
    conv_rhs => rw [← List.map_id body]
    apply List.map_congr_left
    intro c hc
    exact (sextet_char (hbody c hc)).2.2.1
  have hpads : (pad (body.map urlChar)).map standardChar = pad body := by
    unfold pad
    rw [List.map_append,hback,List.map_replicate,List.length_map]
    rfl
  unfold decodeBytes
  rw [hencode,hpads,← htext]
  exact ScalarTexts.b64decode_b64encode bytes

end Base64

section Cursors
variable (readFloat : List Char → Double)

/-- `datetime.astimezone(timezone.utc)`; none when it raises. -/
def astimezone (d : DateTime) : Option DateTime :=
  if d.offset = some 0 then some d else (instant d).bind utc

/-- `_encode_cursor`. -/
def encodeCursor (createdAt : DateTime) (id : Uuid) : List Char :=
  encodeBytes ((objectText [("v",intText 1),
    ("created_at",quote (String.ofList (isoformat createdAt))),
    ("id",quote (String.ofList (ScalarTexts.uuidText id)))]).flatMap String.utf8EncodeChar)

def invalidCursor : BackendError := .valueError "invalid execution cursor"

def unknownVersion : BackendError := .valueError "unknown cursor version"

/-- A value, or the error that every failure of decoding ends as. -/
def orInvalid {α : Type} : Option α → Except BackendError α
  | some a => .ok a
  | none => .error invalidCursor

def ensure (p : Prop) [Decidable p] (e : BackendError) : Except BackendError Unit :=
  if p then .ok () else .error e

/-- The JSON value behind the base64 of a cursor. -/
def loadCursor (cursor : List Char) : Option Json :=
  (decodeBytes cursor).bind fun bytes =>
    bytes.toByteArray.utf8Decode?.bind fun text => loads readFloat text.toList

/-- The keys `v`, `created_at` and `id`, and no others. -/
def cursorKeys (fields : List (String × Json)) : Bool :=
  fields.all (fun f => ["v","created_at","id"].contains f.1) &&
    ["v","created_at","id"].all fun key => (fields.map Prod.fst).contains key

def asObject : Json → Option (List (String × Json))
  | .obj fields => some fields
  | _ => none

def asInt : Json → Option ℤ
  | .int n => some n
  | _ => none

def asText : Json → Option (List Char)
  | .str s => some s.toList
  | _ => none

/-- `_decode_cursor`. -/
def decodeCursor (cursor : List Char) : Except BackendError (DateTime × Uuid) := do
  ensure (cursor.length ≤ 1024 ∧ ¬cursor.any ScalarTexts.isSpace) invalidCursor
  let raw ← orInvalid ((loadCursor readFloat cursor).bind asObject)
  ensure (cursorKeys raw) invalidCursor
  let v ← orInvalid ((raw.lookup "v").bind asInt)
  ensure (v = 1) unknownVersion
  let createdText ← orInvalid ((raw.lookup "created_at").bind asText)
  let idText ← orInvalid ((raw.lookup "id").bind asText)
  let d ← orInvalid (fromisoformat createdText)
  let createdAt ← orInvalid (astimezone d)
  let id ← orInvalid (ScalarTexts.readUuid idText)
  ensure (cursor = encodeCursor createdAt id) invalidCursor
  return (createdAt,id)

variable {readFloat} {d : DateTime}

theorem ok_of_bind {α β : Type} {x : Except BackendError α} {f : α → Except BackendError β} {b : β}
    (h : x >>= f = .ok b) : ∃ a, x = .ok a ∧ f a = .ok b := by
  cases x with
  | error e => cases h
  | ok a => exact ⟨a,rfl,h⟩

theorem ok_of_ensure {p : Prop} [Decidable p] {e : BackendError} {a : Unit}
    (h : ensure p e = .ok a) : p := by
  by_contra hp
  rw [ensure,if_neg hp] at h
  cases h

theorem bind_ensure {α : Type} {p : Prop} [Decidable p] {e : BackendError}
    {f : Unit → Except BackendError α} (h : p) : ensure p e >>= f = f () := by
  rw [ensure,if_pos h]
  rfl

theorem bind_orInvalid {α β : Type} {o : Option α} {a : α} {f : α → Except BackendError β}
    (h : o = some a) : orInvalid o >>= f = f a := by
  rw [h]
  rfl

theorem encodeCursor_of_decodeCursor {cursor : List Char} {u : Uuid}
    (h : decodeCursor readFloat cursor = .ok (d,u)) : cursor = encodeCursor d u := by
  unfold decodeCursor at h
  obtain ⟨_,-,h⟩ := ok_of_bind h
  obtain ⟨raw,-,h⟩ := ok_of_bind h
  obtain ⟨_,-,h⟩ := ok_of_bind h
  obtain ⟨v,-,h⟩ := ok_of_bind h
  obtain ⟨_,-,h⟩ := ok_of_bind h
  obtain ⟨createdText,-,h⟩ := ok_of_bind h
  obtain ⟨idText,-,h⟩ := ok_of_bind h
  obtain ⟨e,-,h⟩ := ok_of_bind h
  obtain ⟨createdAt,-,h⟩ := ok_of_bind h
  obtain ⟨id,-,h⟩ := ok_of_bind h
  obtain ⟨_,hsame,h⟩ := ok_of_bind h
  cases h
  exact ok_of_ensure hsame

theorem fixed_plain {b w n : ℕ} (hb : b ≤ 16) (hn : n < b^w) :
    ∀ c ∈ fixed b w n, isPlain c = true := by
  intro c hc
  obtain ⟨d,hd,rfl⟩ := mem_fixed hn hc
  have hd16 : d < 16 := by omega
  interval_cases d <;> decide

theorem two_plain {n : ℕ} (hn : n < 100) : ∀ c ∈ two n, isPlain c = true :=
  fixed_plain (by decide) hn

theorem fraction_plain {us : ℕ} (hus : us < second) : ∀ c ∈ fraction us, isPlain c = true := by
  intro c hc
  unfold fraction at hc
  split at hc
  · cases hc
  · rcases List.mem_cons.mp hc with rfl | hc
    · rfl
    · exact fixed_plain (by decide) (show us < 10^6 from hus) c hc

theorem isoformat_plain (hd : d.offset = some 0) : ∀ c ∈ isoformat d, isPlain c = true := by
  obtain ⟨-,hyear,-,hmonth,-,hday⟩ := d.dated
  obtain ⟨hhour,hminute,hsecond,hus⟩ := d.timed
  have hdays : d.day < 100 := by
    have hmax : daysInMonth d.year d.month ≤ 31 := by
      unfold daysInMonth
      split_ifs <;> omega
    omega
  have hzero : ∀ c ∈ offsetText 0, isPlain c = true := List.all_eq_true.mp (by decide)
  unfold isoformat
  rw [hd,Option.elim_some]
  simp only [List.append_assoc,List.cons_append,List.forall_mem_append,List.forall_mem_cons]
  exact ⟨fixed_plain (by decide) (show d.year < 10^4 by omega),rfl,two_plain (by omega),rfl,
    two_plain hdays,rfl,two_plain (by omega),rfl,two_plain (by omega),rfl,two_plain (by omega),
    fraction_plain hus,hzero⟩

theorem uuidText_plain (u : Uuid) : ∀ c ∈ ScalarTexts.uuidText u, isPlain c = true := by
  intro c hc
  rcases ScalarTexts.uuidText_chars hc with rfl | hc
  · rfl
  · exact fixed_plain (by decide) (show u.toNat < 16^32 from u.isLt) c hc

theorem length_isoformat (hd : d.offset = some 0) : (isoformat d).length ≤ 32 := by
  have hoffset : (offsetText 0).length = 6 := rfl
  have hfraction := length_fraction d.microsecond
  unfold isoformat
  rw [hd,Option.elim_some]
  simp only [List.length_append,List.length_cons,length_fixed,length_two,hoffset]
  split at hfraction <;> omega

theorem length_uuidText (u : Uuid) : (ScalarTexts.uuidText u).length = 36 := by
  unfold ScalarTexts.uuidText
  simp [length_fixed]

def cursorFields {d : DateTime} (hd : d.offset = some 0) (u : Uuid) : List (Field readFloat) :=
  [⟨['v'],['1'],.int 1,List.all_eq_true.mp (by decide),reads_one⟩,
    ⟨"created_at".toList,_,_,List.all_eq_true.mp (by decide),reads_string (isoformat_plain hd)⟩,
    ⟨"id".toList,_,_,List.all_eq_true.mp (by decide),reads_string (uuidText_plain u)⟩]

def cursorText (d : DateTime) (u : Uuid) : List Char :=
  objectText [("v",intText 1),("created_at",quote (String.ofList (isoformat d))),
    ("id",quote (String.ofList (ScalarTexts.uuidText u)))]

theorem loads_cursorText (hd : d.offset = some 0) (u : Uuid) :
    loads readFloat (cursorText d u) = some (.obj [("v",.int 1),
      ("created_at",.str (String.ofList (isoformat d))),
      ("id",.str (String.ofList (ScalarTexts.uuidText u)))]) := by
  have hnamed : cursorText d u = objectText ((cursorFields hd u).map (@Field.named readFloat)) := by
    unfold cursorText
    rw [quote_plain (isoformat_plain hd),quote_plain (uuidText_plain u)]
    rfl
  rw [hnamed]
  unfold cursorFields
  rw [loads_objectText]
  rfl

theorem length_cursorText (hd : d.offset = some 0) (u : Uuid) : (cursorText d u).length ≤ 120 := by
  have hcreated := length_isoformat hd
  have hid := length_uuidText u
  have hkeys : quote "v" = ['"','v','"'] ∧ (quote "created_at").length = 12 ∧
      (quote "id").length = 4 := by decide
  have hone : intText 1 = ['1'] := by decide
  unfold cursorText objectText separated fieldText
  rw [quote_plain (isoformat_plain hd),quote_plain (uuidText_plain u)]
  simp only [List.map_cons,List.map_nil,List.intercalate_cons_cons,List.intercalate_singleton,
    List.length_append,List.length_cons,List.length_nil,hkeys,hone]
  omega

theorem loadCursor_encodeCursor (hd : d.offset = some 0) (u : Uuid) :
    loadCursor readFloat (encodeCursor d u) = some (.obj [("v",.int 1),
      ("created_at",.str (String.ofList (isoformat d))),
      ("id",.str (String.ofList (ScalarTexts.uuidText u)))]) := by
  have hutf8 : (((cursorText d u).flatMap String.utf8EncodeChar).toByteArray).utf8Decode? =
      some (cursorText d u).toArray := List.utf8Decode?_utf8Encode
  unfold loadCursor encodeCursor
  rw [decodeBytes_encodeBytes,Option.bind_some]
  change ((((cursorText d u).flatMap String.utf8EncodeChar).toByteArray).utf8Decode?.bind fun text =>
    loads readFloat text.toList) = _
  rw [hutf8,Option.bind_some,List.toList_toArray]
  exact loads_cursorText hd u

theorem length_utf8 (cs : List Char) : (cs.flatMap String.utf8EncodeChar).length ≤ 4*cs.length := by
  induction cs with
  | nil => exact le_rfl
  | cons c cs ih =>
    have hc : (String.utf8EncodeChar c).length ≤ 4 := by
      rw [String.length_utf8EncodeChar]
      exact Char.utf8Size_le_four c
    rw [List.flatMap_cons,List.length_append,List.length_cons]
    omega

theorem encodeCursor_shape (hd : d.offset = some 0) (u : Uuid) :
    (encodeCursor d u).length ≤ 1024 ∧ ¬(encodeCursor d u).any ScalarTexts.isSpace = true := by
  obtain ⟨body,hbody,hlength,hencode,-⟩ :=
    encodeBytes_body ((cursorText d u).flatMap String.utf8EncodeChar)
  have htext := length_cursorText hd u
  have hbytes := length_utf8 (cursorText d u)
  have hcursor : encodeCursor d u = body.map urlChar := hencode
  rw [hcursor]
  constructor
  · rw [List.length_map]
    omega
  · rw [List.any_eq_true]
    rintro ⟨c,hc,hspace⟩
    obtain ⟨a,ha,rfl⟩ := List.mem_map.mp hc
    rw [(sextet_char (hbody a ha)).2.2.2] at hspace
    cases hspace

theorem decodeCursor_encodeCursor (hd : d.offset = some 0) (u : Uuid) :
    decodeCursor readFloat (encodeCursor d u) = .ok ({d with fold := false},u) := by
  have hutc : astimezone {d with fold := false} = some {d with fold := false} := if_pos hd
  have hraw := @loadCursor_encodeCursor readFloat d hd u
  generalize hfields : [("v",Json.int 1),("created_at",.str (String.ofList (isoformat d))),
    ("id",.str (String.ofList (ScalarTexts.uuidText u)))] = fields at hraw
  have hkeys : cursorKeys fields = true := by
    rw [← hfields]
    simp [cursorKeys]
  have hv : (fields.lookup "v").bind asInt = some 1 := by
    rw [← hfields]
    rfl
  have hcreated : (fields.lookup "created_at").bind asText = some (isoformat d) := by
    rw [← hfields]
    simp [List.lookup_cons,asText]
  have hid : (fields.lookup "id").bind asText = some (ScalarTexts.uuidText u) := by
    rw [← hfields]
    simp [List.lookup_cons,asText]
  have hobject : (loadCursor readFloat (encodeCursor d u)).bind asObject = some fields := by
    rw [hraw]
    rfl
  unfold decodeCursor
  rw [bind_ensure (encodeCursor_shape hd u),bind_orInvalid hobject,bind_ensure hkeys,
    bind_orInvalid hv,bind_ensure rfl,bind_orInvalid hcreated,bind_orInvalid hid,
    bind_orInvalid (fromisoformat_isoformat d),bind_orInvalid hutc,
    bind_orInvalid (ScalarTexts.readUuid_uuidText u)]
  exact bind_ensure rfl

end Cursors

end OneStep.ExecutionCursors
