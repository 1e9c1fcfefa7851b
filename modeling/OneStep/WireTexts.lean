import OneStep.DigitText

/-!
# Texts and bytes

A text is a sequence of code points, the halves of surrogate pairs among them.
UTF-8 has no bytes for such a half, and reading it is strict: no character has a
second spelling, and what is no character is refused.
-/
namespace OneStep.WireTexts
open DigitText

abbrev CodePoint := Fin 1114112

instance nonzero : NeZero 1114112 := ⟨by decide⟩

abbrev Text := List CodePoint

/-- The code point of a character. -/
def code (c : Char) : CodePoint := ⟨c.toNat,by
  rcases c.valid with h | h
  · exact Nat.lt_trans h (by decide)
  · exact h.2⟩

def text (cs : List Char) : Text := cs.map code

theorem text_nil : text [] = [] := rfl

theorem text_cons (c : Char) (cs : List Char) : text (c::cs) = code c::text cs := rfl

/-- The characters of a text, where it has them. -/
def letters (t : Text) : List Char := t.map fun c => Char.ofNat c.val

@[simp] theorem letters_text (cs : List Char) : letters (text cs) = cs := by
  unfold letters text
  rw [List.map_map]
  exact (List.map_congr_left fun c _ => Char.ofNat_toNat c).trans (List.map_id cs)

theorem text_append (cs ds : List Char) : text (cs++ds) = text cs++text ds := List.map_append

def isHigh (c : CodePoint) : Bool := decide (55296 ≤ c.val ∧ c.val < 56320)

def isLow (c : CodePoint) : Bool := decide (56320 ≤ c.val ∧ c.val < 57344)

/-- The code point that two halves stand for. -/
def join (high low : ℕ) : ℕ := 65536+(high-55296)*1024+(low-56320)

/-- A number as a code point; those too large are none. -/
def point (n : ℕ) : CodePoint := Fin.ofNat 1114112 n

theorem point_val (c : CodePoint) : point c.val = c := Fin.ofNat_val_eq_self c

theorem val_point {n : ℕ} (h : n < 1114112) : (point n).val = n := Nat.mod_eq_of_lt h

section Encoding

def byte (n : ℕ) : UInt8 := UInt8.ofNat n

/-- The bytes of a code point; a half of a pair has none. -/
def encodePoint (c : CodePoint) : Option (List UInt8) :=
  let n := c.val
  if n < 128 then some [byte n]
  else if n < 2048 then some [byte (192+n/64),byte (128+n%64)]
  else if 55296 ≤ n ∧ n < 57344 then none
  else if n < 65536 then some [byte (224+n/4096),byte (128+n/64%64),byte (128+n%64)]
  else some [byte (240+n/262144),byte (128+n/4096%64),byte (128+n/64%64),byte (128+n%64)]

/-- `str.encode("utf-8")`; none is UnicodeEncodeError. -/
def encodeUtf8 : Text → Option (List UInt8)
  | [] => some []
  | c::cs => (encodePoint c).bind fun bytes => (encodeUtf8 cs).map fun rest => bytes++rest

/-- A byte that continues a character. -/
def isTail (b : UInt8) : Bool := decide (128 ≤ b.toNat ∧ b.toNat < 192)

/-- `bytes.decode("utf-8")`; none is UnicodeDecodeError. -/
def decodeUtf8 : List UInt8 → Option Text
  | [] => some []
  | a::rest =>
    if a.toNat < 128 then (decodeUtf8 rest).map fun t => point a.toNat::t
    else
      match rest with
      | [] => none
      | b::rest =>
        if 194 ≤ a.toNat ∧ a.toNat < 224 then
          if isTail b then
            (decodeUtf8 rest).map fun t => point (a.toNat%32*64+b.toNat%64)::t
          else none
        else
          match rest with
          | [] => none
          | c::rest =>
            if 224 ≤ a.toNat ∧ a.toNat < 240 then
              let n := (a.toNat%16*64+b.toNat%64)*64+c.toNat%64
              if isTail b ∧ isTail c ∧ 2048 ≤ n ∧ ¬(55296 ≤ n ∧ n < 57344) then
                (decodeUtf8 rest).map fun t => point n::t
              else none
            else
              match rest with
              | [] => none
              | d::rest =>
                let n := ((a.toNat%8*64+b.toNat%64)*64+c.toNat%64)*64+d.toNat%64
                if 240 ≤ a.toNat ∧ a.toNat < 245 ∧ isTail b ∧ isTail c ∧ isTail d ∧
                    65536 ≤ n ∧ n < 1114112 then
                  (decodeUtf8 rest).map fun t => point n::t
                else none

theorem byte_toNat {n : ℕ} (h : n < 256) : (byte n).toNat = n := by
  unfold byte
  rw [UInt8.toNat_ofNat']
  omega

theorem encodePoint_ascii {c : CodePoint} (h : c.val < 128) :
    encodePoint c = some [byte c.val] := if_pos h

theorem utf8_ascii {t : Text} (h : ∀ c ∈ t, c.val < 128) :
    ∃ bytes, encodeUtf8 t = some bytes ∧ decodeUtf8 bytes = some t := by
  induction t with
  | nil => exact ⟨[],rfl,rfl⟩
  | cons c t ih =>
    rw [List.forall_mem_cons] at h
    obtain ⟨bytes,hwrite,hread⟩ := ih h.2
    refine ⟨byte c.val::bytes,?_,?_⟩
    · rw [encodeUtf8,encodePoint_ascii h.1,Option.bind_some,hwrite]
      rfl
    · have hbyte : (byte c.val).toNat = c.val := byte_toNat (by omega)
      unfold decodeUtf8
      rw [hbyte,if_pos h.1,hread,point_val]
      rfl

theorem mem_encodePoint {c : CodePoint} {bytes : List UInt8} (h : encodePoint c = some bytes)
    {b : UInt8} (hb : b ∈ bytes) (hlow : b.toNat < 128) : c.val = b.toNat := by
  unfold encodePoint at h
  dsimp only at h
  have hbound := c.isLt
  split_ifs at h with h1 h2 h3 h4 <;> cases h <;>
    simp only [List.mem_cons,List.not_mem_nil,or_false] at hb
  · rw [hb,byte_toNat (by omega)]
  · rcases hb with rfl | rfl <;> rw [byte_toNat (by omega)] at hlow <;> omega
  · rcases hb with rfl | rfl | rfl <;> rw [byte_toNat (by omega)] at hlow <;> omega
  · rcases hb with rfl | rfl | rfl | rfl <;> rw [byte_toNat (by omega)] at hlow <;> omega

theorem mem_encodeUtf8 {t : Text} {bytes : List UInt8} (h : encodeUtf8 t = some bytes)
    {b : UInt8} (hb : b ∈ bytes) (hlow : b.toNat < 128) : ∃ c ∈ t, c.val = b.toNat := by
  induction t generalizing bytes with
  | nil =>
    cases h
    cases hb
  | cons c t ih =>
    rw [encodeUtf8,Option.bind_eq_some_iff] at h
    obtain ⟨first,hfirst,h⟩ := h
    obtain ⟨rest,hrest,rfl⟩ := Option.map_eq_some_iff.mp h
    rcases List.mem_append.mp hb with hb | hb
    · exact ⟨c,List.mem_cons_self,mem_encodePoint hfirst hb hlow⟩
    · obtain ⟨d,hd,hval⟩ := ih hrest hb
      exact ⟨d,List.mem_cons_of_mem c hd,hval⟩

end Encoding

end OneStep.WireTexts
