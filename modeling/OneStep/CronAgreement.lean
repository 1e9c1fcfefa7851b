import OneStep.CronFields
import OneStep.ItemLists

/-!
# Where the two readings of a cron expression agree

The control plane reads the parts of a field up to the first one that is no range, and
takes this one for its number, without a step. It knows no names, and no Sunday but the
one that is zero. So it agrees with the runtime on an expression whose fields are written
in digits, with ranges before a number. Where no number is in two parts of a field, no
range ends in seven and a single field decides the date, it agrees on no other one.
-/
namespace OneStep.CronAgreement
open CronFields DateTimeText ItemLists

section Said

def isRange : Part → Bool
  | .range _ => true
  | _ => false

/-- A number is in one of the ranges that are first, or is the number behind them. -/
def saidIn (parts : List Part) (v : ℤ) : Bool :=
  (parts.takeWhile isRange).any (fun part => match part with
    | .range s => s.contains v
    | _ => false) || (parts.dropWhile isRange).head? == some (.number v)

def plainParts (setting : Setting) (field : List Char) : List Part :=
  (chunks (lower field)).map (readPart setting.minimum setting.maximum)

/-- What a field says of a number. -/
def said (setting : Setting) (field : List Char) (v : ℤ) : Bool := saidIn (plainParts setting field) v

theorem saidIn_range (s : Span) (parts : List Part) (v : ℤ) :
    saidIn (.range s::parts) v = (s.contains v || saidIn parts v) := by
  have hrange : isRange (.range s) = true := rfl
  rw [saidIn,List.takeWhile_cons_of_pos hrange,List.dropWhile_cons_of_pos hrange,List.any_cons,
    Bool.or_assoc]
  rfl

theorem saidIn_number (n : ℤ) (parts : List Part) (v : ℤ) :
    saidIn (.number n::parts) v = (n == v) := by
  have hrange : ¬isRange (.number n) = true := by simp [isRange]
  rw [saidIn,List.takeWhile_cons_of_neg hrange,List.dropWhile_cons_of_neg hrange,
    Bool.eq_iff_iff]
  simp

theorem saidIn_unread (parts : List Part) (v : ℤ) : saidIn (.unread::parts) v = false := by
  have hrange : ¬isRange .unread = true := by simp [isRange]
  rw [saidIn,List.takeWhile_cons_of_neg hrange,List.dropWhile_cons_of_neg hrange]
  simp

theorem partsMatch_eq {minimum maximum v : ℤ} {parts : List (List Char)}
    (h : ∀ part ∈ parts, part ≠ []) :
    partsMatch minimum maximum v parts = saidIn (parts.map (readPart minimum maximum)) v := by
  induction parts with
  | nil => rfl
  | cons part parts ih =>
    rw [List.forall_mem_cons] at h
    rw [partsMatch,if_neg h.1,List.map_cons]
    cases readPart minimum maximum part with
    | unread => exact (saidIn_unread _ v).symm
    | number n => exact (saidIn_number n _ v).symm
    | range s =>
      rw [saidIn_range,← ih h.2]
      cases hcontains : s.contains v with
      | true => simp [hcontains]
      | false => simp [hcontains]

end Said

section Lower

theorem toLower_toNat (c : Char) :
    c.toLower.toNat = if 65 ≤ c.toNat ∧ c.toNat ≤ 90 then c.toNat+32 else c.toNat := by
  unfold Char.toLower Char.toNat
  have hval : ∀ n : UInt32, (n ≥ 'A'.val ∧ n ≤ 'Z'.val) ↔ (65 ≤ n.toNat ∧ n.toNat ≤ 90) := by
    intro n
    rw [ge_iff_le,UInt32.le_iff_toNat_le,UInt32.le_iff_toNat_le]
    rfl
  by_cases h : 65 ≤ c.val.toNat ∧ c.val.toNat ≤ 90
  · rw [dif_pos ((hval _).mpr h),if_pos h]
    have hshift : ('a'.val - 'A'.val : UInt32).toNat = 32 := by decide
    rw [UInt32.toNat_add,hshift]
    omega
  · rw [dif_neg (fun hc => h ((hval _).mp hc)),if_neg h]

/-- A character that only itself is lowered to. -/
def Caseless (c : Char) : Prop := ¬(65 ≤ c.toNat ∧ c.toNat ≤ 90) ∧ ¬(97 ≤ c.toNat ∧ c.toNat ≤ 122)

instance (c : Char) : Decidable (Caseless c) :=
  inferInstanceAs (Decidable (¬(65 ≤ c.toNat ∧ c.toNat ≤ 90) ∧ ¬(97 ≤ c.toNat ∧ c.toNat ≤ 122)))

theorem toLower_eq {c d : Char} (hc : Caseless c) : d.toLower = c ↔ d = c := by
  obtain ⟨hupper,hlower⟩ := hc
  rw [← Char.toNat_inj,← Char.toNat_inj,toLower_toNat]
  split <;> omega

theorem caseless_comma : Caseless ',' := by decide

theorem caseless_slash : Caseless '/' := by decide

theorem caseless_dash : Caseless '-' := by decide

theorem caseless_star : Caseless '*' := by decide

variable {text : List Char}

theorem lower_star : lower text = ['*'] ↔ text = ['*'] := by
  unfold lower
  cases text with
  | nil => simp
  | cons c cs =>
    cases cs with
    | nil => simp [toLower_eq caseless_star]
    | cons d ds => simp

theorem lower_nil : lower text = [] ↔ text = [] := by simp [lower]

theorem mem_lower {c : Char} (hc : Caseless c) : c ∈ lower text ↔ c ∈ text := by
  unfold lower
  rw [List.mem_map]
  constructor
  · rintro ⟨d,hd,heq⟩
    rwa [(toLower_eq hc).mp heq] at hd
  · intro hmem
    exact ⟨c,hmem,(toLower_eq hc).mpr rfl⟩

theorem cut_lower {c : Char} (hc : Caseless c) (text : List Char) :
    cut c (lower text) = (lower (cut c text).1,lower (cut c text).2) := by
  have hne : (fun d => d != c) ∘ Char.toLower = fun d => d != c := by
    funext d
    rw [Function.comp,Bool.eq_iff_iff,bne_iff_ne,bne_iff_ne,ne_eq,ne_eq,toLower_eq hc]
  unfold cut lower
  rw [List.takeWhile_map,List.dropWhile_map,hne,List.map_drop]

theorem chunks_lower (text : List Char) : chunks (lower text) = (chunks text).map lower := by
  unfold chunks lower
  induction text with
  | nil => rfl
  | cons c cs ih =>
    have hcomma : (c.toLower == ',') = (c == ',') := by
      rw [Bool.eq_iff_iff,beq_iff_eq,beq_iff_eq,toLower_eq caseless_comma]
    rw [List.map_cons,pieces,pieces,hcomma,ih]
    cases hc : c == ',' with
    | true => rfl
    | false =>
      cases pieces (· == ',') cs with
      | nil => rfl
      | cons piece rest => rfl

theorem letter_digitOf {n : ℕ} (h : 65 ≤ n ∧ n ≤ 122) :
    (zeros.find? fun z => decide (z ≤ n ∧ n < z+10)) = none := by
  obtain ⟨hlow,hhigh⟩ := h
  interval_cases n <;> rfl

theorem digitOf_toLower (c : Char) : digitOf c.toLower = digitOf c := by
  unfold digitOf
  rw [toLower_toNat]
  by_cases h : 65 ≤ c.toNat ∧ c.toNat ≤ 90
  · rw [if_pos h,letter_digitOf (by omega),letter_digitOf (by omega)]
    rfl
  · rw [if_neg h]

theorem readDigits_lower (after : Bool) (n : ℕ) (text : List Char) :
    readDigits after n (lower text) = readDigits after n text := by
  unfold lower
  induction text generalizing after n with
  | nil => rfl
  | cons c cs ih =>
    have hmark : c.toLower = '_' ↔ c = '_' := toLower_eq (by decide)
    rw [List.map_cons,readDigits,readDigits,digitOf_toLower]
    simp only [hmark,ih]

theorem readInt_lower (text : List Char) : readInt (lower text) = readInt text := by
  cases text with
  | nil => rfl
  | cons c cs =>
    have hminus : c.toLower = '-' ↔ c = '-' := toLower_eq (by decide)
    have hplus : c.toLower = '+' ↔ c = '+' := toLower_eq (by decide)
    have htail := readDigits_lower false 0 cs
    have hall := readDigits_lower false 0 (c::cs)
    unfold lower at htail hall ⊢
    rw [List.map_cons] at hall ⊢
    simp only [readInt,hminus,hplus,htail,hall]

theorem baseAndStep_lower (part : List Char) : baseAndStep (lower part) =
    (lower (baseAndStep part).1,(baseAndStep part).2) := by
  unfold baseAndStep
  by_cases h : '/' ∈ part
  · rw [if_pos h,if_pos ((mem_lower caseless_slash).mpr h),cut_lower caseless_slash,readInt_lower]
  · rw [if_neg h,if_neg fun hmem => h ((mem_lower caseless_slash).mp hmem)]

theorem readPart_lower (minimum maximum : ℤ) (part : List Char) :
    readPart minimum maximum (lower part) = readPart minimum maximum part := by
  unfold readPart
  rw [baseAndStep_lower]
  simp only [lower_star,mem_lower caseless_dash,cut_lower caseless_dash,readInt_lower]

theorem plainParts_eq (setting : Setting) (field : List Char) :
    plainParts setting field = (chunks field).map (readPart setting.minimum setting.maximum) := by
  unfold plainParts
  rw [chunks_lower,List.map_map]
  exact List.map_congr_left fun part _ => readPart_lower _ _ part

end Lower

section Fields
variable {setting : Setting} {field : List Char} {f : CronField} {step : ℤ}

theorem cronField_ok (h : cronField setting field = some f) :
    f.any = (field == ['*']) ∧
      List.Forall₂ (fun chunk s => parseChunk setting chunk = some s) (chunks field) f.values := by
  obtain ⟨values,hvalues,rfl⟩ := Option.map_eq_some_iff.mp h
  exact ⟨rfl,mapM_some hvalues⟩

theorem chunk_ne_nil (h : cronField setting field = some f) : ∀ chunk ∈ chunks field, chunk ≠ [] := by
  intro chunk hmem hnil
  obtain ⟨s,-,hs⟩ := forall₂_left (cronField_ok h).2 hmem
  rw [hnil,parseChunk,if_pos rfl] at hs
  cases hs

theorem star_parts : plainParts setting ['*'] = [.range ⟨setting.minimum,setting.maximum,1⟩] := rfl

theorem cronFieldMatches_eq (h : cronField setting field = some f) {v : ℤ}
    (hv : setting.minimum ≤ v ∧ v ≤ setting.maximum) :
    cronFieldMatches field v setting.minimum setting.maximum = said setting field v := by
  unfold cronFieldMatches
  by_cases hstar : lower field = ['*']
  · rw [if_pos hstar]
    have hfield := lower_star.mp hstar
    subst hfield
    rw [said,star_parts,saidIn_range]
    simp [Span.contains,hv.1,hv.2]
  · rw [if_neg hstar,partsMatch_eq,said,plainParts]
    intro part hpart
    rw [chunks_lower] at hpart
    obtain ⟨chunk,hchunk,rfl⟩ := List.mem_map.mp hpart
    exact fun hnil => chunk_ne_nil h chunk hchunk (lower_nil.mp hnil)

variable {s : Span}

theorem contains_first (h : s.first ≤ s.last) : s.contains s.first = true := by
  simp [Span.contains,h]

/-- How a chunk that is accepted is written. -/
inductive Shape (setting : Setting) (chunk : List Char) : Span → Prop
  | star {step : ℤ} : baseAndStep chunk = (['*'],some step) → 0 < step →
      Shape setting chunk ⟨setting.minimum,setting.maximum,step⟩
  | range {base : List Char} {first last step : ℤ} : baseAndStep chunk = (base,some step) →
      base ≠ ['*'] → '-' ∈ base → parseValue setting (cut '-' base).1 = some first →
      parseValue setting (cut '-' base).2 = some last → first ≤ last → 0 < step →
        Shape setting chunk ⟨first,last,step⟩
  | number {base : List Char} {first last step : ℤ} : baseAndStep chunk = (base,some step) →
      base ≠ ['*'] → '-' ∉ base → parseValue setting base = some first → first ≤ last →
      (if '/' ∈ chunk then last = setting.maximum else last = first) → 0 < step →
        Shape setting chunk ⟨first,last,step⟩

theorem span_some {first last : ℤ} (h : span first last step = some s) :
    s = ⟨first,last,step⟩ ∧ first ≤ last := by
  unfold span at h
  split at h
  · cases h
  · next hle =>
      cases h
      exact ⟨rfl,not_lt.mp hle⟩

theorem shape_range {chunk base : List Char} (hparse : parseRange setting base step = some s)
    (hbase : baseAndStep chunk = (base,some step)) (hstar : base ≠ ['*']) (hdash : '-' ∈ base)
    (hstep : 0 < step) : Shape setting chunk s := by
  obtain ⟨first,hfirst,h⟩ := Option.bind_eq_some_iff.mp hparse
  obtain ⟨last,hlast,h⟩ := Option.bind_eq_some_iff.mp h
  obtain ⟨rfl,hle⟩ := span_some h
  exact .range hbase hstar hdash hfirst hlast hle hstep

theorem parseChunk_shape {chunk : List Char} (h : parseChunk setting chunk = some s) :
    Shape setting chunk s := by
  unfold parseChunk at h
  split at h
  · cases h
  · split at h
    · next hstar =>
        cases h
        exact .star (by rw [hstar]; rfl) one_pos
    · next hstar =>
        split at h
        · next hslash =>
            obtain ⟨step,hstep,h⟩ := Option.bind_eq_some_iff.mp h
            split at h
            · cases h
            · next hpositive =>
                have hbase : baseAndStep chunk = ((cut '/' chunk).1,some step) := by
                  rw [baseAndStep,if_pos hslash,hstep,Option.filter_some,
                    if_pos (decide_eq_true (not_le.mp hpositive))]
                split at h
                · next hall =>
                    obtain ⟨rfl,-⟩ := span_some h
                    exact .star (by rw [hbase,hall]) (not_le.mp hpositive)
                · next hall =>
                    split at h
                    · next hdash => exact shape_range h hbase hall hdash (not_le.mp hpositive)
                    · next hdash =>
                        obtain ⟨first,hfirst,h⟩ := Option.bind_eq_some_iff.mp h
                        obtain ⟨rfl,hle⟩ := span_some h
                        exact .number hbase hall hdash hfirst hle (by rw [if_pos hslash])
                          (not_le.mp hpositive)
        · next hslash =>
            have hbase : baseAndStep chunk = (chunk,some 1) := by
              rw [baseAndStep,if_neg hslash]
            split at h
            · next hdash => exact shape_range h hbase hstar hdash one_pos
            · next hdash =>
                obtain ⟨value,hvalue,rfl⟩ := Option.map_eq_some_iff.mp h
                exact .number hbase hstar hdash hvalue le_rfl (by rw [if_neg hslash]) one_pos

/-- What the settings of a schedule have in common: no name reads as a number. -/
structure Spelled (setting : Setting) : Prop where
  ordered : setting.minimum ≤ setting.maximum
  sunday : setting.sundayAsZero = true → setting.minimum = 0 ∧ setting.maximum = 6
  names : ∀ p ∈ setting.names, readInt p.1 = none

instance (setting : Setting) : Decidable (Spelled setting) :=
  decidable_of_iff (setting.minimum ≤ setting.maximum ∧
    (setting.sundayAsZero = true → setting.minimum = 0 ∧ setting.maximum = 6) ∧
    ∀ p ∈ setting.names, readInt p.1 = none)
    ⟨fun h => ⟨h.1,h.2.1,h.2.2⟩,fun h => ⟨h.ordered,h.sunday,h.names⟩⟩

/-- A value is the number that `int` reads, but for a seven that is Sunday. -/
theorem parseValue_reads (hspelled : Spelled setting) {text : List Char} {v : ℤ}
    (h : parseValue setting text = some v) : (setting.minimum ≤ v ∧ v ≤ setting.maximum) ∧
      ∀ n, readInt text = some n → n = v ∨ (setting.sundayAsZero = true ∧ n = 7 ∧ v = 0) := by
  unfold parseValue at h
  obtain ⟨parsed,hparsed,h⟩ := Option.bind_eq_some_iff.mp h
  dsimp only at h
  generalize hvalue : (if setting.sundayAsZero = true ∧ parsed = 7 then 0 else parsed) = value at h
  split at h
  · cases h
  · next hbounds =>
      cases h
      rw [not_or,not_lt,not_lt] at hbounds
      refine ⟨hbounds,fun n hn => ?_⟩
      have hname : setting.names.lookup (lower text) = none := by
        rw [List.lookup_eq_none_iff]
        intro p hp
        have hread := hspelled.names p hp
        rw [bne_iff_ne]
        intro heq
        rw [← heq,readInt_lower,hn] at hread
        cases hread
      rw [hname,Option.none_or,hn] at hparsed
      cases hparsed
      split at hvalue
      · next hseven => exact .inr ⟨hseven.1,hseven.2,hvalue.symm⟩
      · exact .inl hvalue

theorem first_between (hspelled : Spelled setting) {chunk : List Char}
    (h : Shape setting chunk s) :
    setting.minimum ≤ s.first ∧ s.first ≤ setting.maximum ∧ s.contains s.first = true := by
  cases h with
  | star => exact ⟨le_rfl,hspelled.ordered,contains_first hspelled.ordered⟩
  | range _ _ _ hfirst _ hle =>
    obtain ⟨⟨hmin,hmax⟩,-⟩ := parseValue_reads hspelled hfirst
    exact ⟨hmin,hmax,contains_first hle⟩
  | number _ _ _ hfirst hle =>
    obtain ⟨⟨hmin,hmax⟩,-⟩ := parseValue_reads hspelled hfirst
    exact ⟨hmin,hmax,contains_first hle⟩

theorem parseValue_plain (hnames : setting.names = []) (hsunday : setting.sundayAsZero = false)
    {text : List Char} {v : ℤ} (h : parseValue setting text = some v) : readInt text = some v := by
  unfold parseValue at h
  rw [hnames,hsunday] at h
  obtain ⟨parsed,hparsed,h⟩ := Option.bind_eq_some_iff.mp h
  simp only [Bool.false_eq_true,false_and,if_false] at h
  split at h
  · cases h
  · cases h
    exact hparsed

theorem pieces_ne_nil (separates : Char → Bool) (text : List Char) : pieces separates text ≠ [] := by
  cases text with
  | nil => simp [pieces]
  | cons c cs =>
    rw [pieces]
    split
    · simp
    · split <;> simp

end Fields

section Literal
variable (setting : Setting)

/-- A number in digits; no name, and no seven for a Sunday. -/
def numeral (text : List Char) : Bool := (readInt text).any fun n => decide (n ≤ setting.maximum)

/-- A star or a range in digits, with a step or without. -/
def rangePart (chunk : List Char) : Bool :=
  let base := (baseAndStep chunk).1
  base == ['*'] ||
    (decide ('-' ∈ base) && numeral setting (cut '-' base).1 && numeral setting (cut '-' base).2)

/-- The step leads out of the field. -/
def leadsOut (base : List Char) (step : Option ℤ) : Bool :=
  (readInt base).any fun a => step.any fun n => decide (setting.maximum < a+n)

/-- A number in digits, without a step that leads to another number of the field. -/
def numberPart (chunk : List Char) : Bool :=
  let base := (baseAndStep chunk).1
  !decide ('-' ∈ base) && numeral setting base &&
    (!decide ('/' ∈ chunk) || leadsOut setting base (baseAndStep chunk).2)

/-- Every part is a range, but the last may be a number. -/
def literal : List (List Char) → Bool
  | [] => true
  | chunk::chunks =>
    (rangePart setting chunk && literal chunks) || (chunks.isEmpty && numberPart setting chunk)

/-- A range of weekdays that ends with a seven. -/
def wraps (chunk : List Char) : Bool :=
  let base := (baseAndStep chunk).1
  setting.sundayAsZero && decide ('-' ∈ base) && readInt (cut '-' base).2 == some 7

/-- No number of the field is in both. -/
def Apart (s t : Span) : Prop :=
  ∀ v, setting.minimum ≤ v → v ≤ setting.maximum → s.contains v = true → t.contains v = false

end Literal

section Parts
variable {setting : Setting} {chunk text : List Char} {s : Span} {v : ℤ}

theorem numeral_reads (hspelled : Spelled setting) (h : parseValue setting text = some v) :
    numeral setting text = true ↔ readInt text = some v := by
  obtain ⟨⟨-,hmax⟩,hread⟩ := parseValue_reads hspelled h
  unfold numeral
  cases hn : readInt text with
  | none => simp
  | some n =>
    rw [Option.any_some,decide_eq_true_eq,Option.some_inj]
    rcases hread n hn with rfl | ⟨hsunday,rfl,rfl⟩
    · exact ⟨fun _ => rfl,fun _ => hmax⟩
    · have hsix := (hspelled.sunday hsunday).2
      omega

theorem range_read (hspelled : Spelled setting) (hshape : Shape setting chunk s)
    (h : rangePart setting chunk = true) :
    readPart setting.minimum setting.maximum chunk = .range s := by
  unfold rangePart at h
  cases hshape with
  | star hbase => simp only [readPart,hbase,if_pos]
  | range hbase hstar hdash hfirst hlast =>
    rw [hbase] at h
    simp only [beq_eq_false_iff_ne.mpr hstar,hdash,decide_true,Bool.false_or,Bool.true_and,
      Bool.and_eq_true,numeral_reads hspelled hfirst,numeral_reads hspelled hlast] at h
    simp only [readPart,hbase,if_neg hstar,if_pos hdash,h.1,h.2]
  | number hbase hstar hdash =>
    rw [hbase] at h
    simp [beq_eq_false_iff_ne.mpr hstar,hdash] at h

theorem number_read (hspelled : Spelled setting) (hshape : Shape setting chunk s)
    (h : numberPart setting chunk = true) :
    ∃ a, readPart setting.minimum setting.maximum chunk = .number a ∧
      ∀ v, v ≤ setting.maximum → s.contains v = (a == v) := by
  unfold numberPart at h
  cases hshape with
  | star hbase =>
    rw [hbase] at h
    simp [numeral,readInt,readDigits,digitOf,zeros] at h
  | range hbase hstar hdash =>
    rw [hbase] at h
    simp [hdash] at h
  | @number base first last step hbase hstar hdash hfirst hle hlast hstep =>
    rw [hbase] at h
    simp only [hdash,decide_false,Bool.not_false,Bool.true_and,Bool.and_eq_true,
      numeral_reads hspelled hfirst] at h
    obtain ⟨hread,hout⟩ := h
    refine ⟨first,?_,fun v hv => ?_⟩
    · simp only [readPart,hbase,if_neg hstar,if_neg hdash,hread,Option.elim_some]
    · rw [Bool.eq_iff_iff,beq_iff_eq]
      constructor
      · intro hcontains
        obtain ⟨hlow,hhigh,hmod⟩ := of_decide_eq_true hcontains
        dsimp only at hlow hhigh hmod
        by_cases hslash : '/' ∈ chunk
        · rw [leadsOut,hread,Option.any_some,Option.any_some] at hout
          have hlong : setting.maximum < first+step := by simpa [hslash] using hout
          rw [Int.emod_eq_of_lt (by omega) (by omega)] at hmod
          omega
        · rw [if_neg hslash] at hlast
          omega
      · rintro rfl
        exact contains_first hle

/-- A number is all that a chunk says of the field. -/
theorem numberPart_of (hspelled : Spelled setting) (hshape : Shape setting chunk s) {n : ℤ}
    (hread : readPart setting.minimum setting.maximum chunk = .number n)
    (hall : ∀ v, setting.minimum ≤ v → v ≤ setting.maximum → s.contains v = true → v = n) :
    numberPart setting chunk = true := by
  obtain ⟨hmin,hmax,hcontains⟩ := first_between hspelled hshape
  have hfirstN := hall _ hmin hmax hcontains
  cases hshape with
  | star hbase => simp [readPart,hbase] at hread
  | @range base first last step hbase hstar hdash =>
    simp only [readPart,hbase,if_neg hstar,if_pos hdash] at hread
    split at hread <;> cases hread
  | @number base first last step hbase hstar hdash hfirst hle hlast hstep =>
    simp only [readPart,hbase,if_neg hstar,if_neg hdash] at hread
    cases hint : readInt base with
    | none =>
      rw [hint] at hread
      cases hread
    | some m =>
      rw [hint] at hread
      cases hread
      rw [← hfirstN] at hint
      have hnumeral := (numeral_reads hspelled hfirst).mpr hint
      unfold numberPart
      simp only [hbase,hdash,hnumeral,decide_false,Bool.not_false,Bool.true_and]
      by_cases hslash : '/' ∈ chunk
      · rw [if_pos hslash] at hlast
        rw [leadsOut,hint,Option.any_some,Option.any_some]
        have hlong : setting.maximum < first+step := by
          by_contra hshort
          dsimp only at hmin hfirstN
          have hstepIn := hall (first+step) (by omega) (by omega)
            (decide_eq_true ⟨by dsimp only; omega,by dsimp only; omega,by simp⟩)
          omega
        simpa [hslash] using hlong
      · simp [hslash]

/-- What the control plane may make of a chunk that does not end in seven. -/
theorem readPart_cases (hspelled : Spelled setting) (hshape : Shape setting chunk s)
    (hopen : wraps setting chunk = false) :
    (rangePart setting chunk = true ∧ readPart setting.minimum setting.maximum chunk = .range s) ∨
    (∃ r, readPart setting.minimum setting.maximum chunk = .range r ∧
      ∀ v, v ≤ setting.maximum → r.contains v = false) ∨
    readPart setting.minimum setting.maximum chunk = .unread ∨
    ∃ n, readPart setting.minimum setting.maximum chunk = .number n ∧
      (n ≤ setting.maximum → n = s.first) := by
  cases hrange : rangePart setting chunk with
  | true => exact .inl ⟨rfl,range_read hspelled hshape hrange⟩
  | false =>
    unfold rangePart at hrange
    cases hshape with
    | star hbase => simp [hbase] at hrange
    | @range base first last step hbase hstar hdash hfirst hlast hle hstep =>
      rw [hbase] at hrange
      rw [wraps,hbase] at hopen
      simp only [readPart,hbase,if_neg hstar,if_pos hdash]
      cases hreadFirst : readInt (cut '-' base).1 with
      | none => exact .inr (.inr (.inl rfl))
      | some m =>
        cases hreadLast : readInt (cut '-' base).2 with
        | none => exact .inr (.inr (.inl rfl))
        | some n =>
          right
          left
          refine ⟨_,rfl,fun v hv => ?_⟩
          have hlastN : n = last := by
            rcases (parseValue_reads hspelled hlast).2 n hreadLast with heq | ⟨hsunday,hseven,-⟩
            · exact heq
            · simp [hsunday,hdash,hreadLast,hseven] at hopen
          rcases (parseValue_reads hspelled hfirst).2 m hreadFirst with heq | ⟨hsunday,hseven,-⟩
          · have hboth := (numeral_reads hspelled hfirst).mpr (by rw [hreadFirst,heq])
            have hboth' := (numeral_reads hspelled hlast).mpr (by rw [hreadLast,hlastN])
            simp [hdash,hboth,hboth'] at hrange
          · have hsix := (hspelled.sunday hsunday).2
            rw [Span.contains,decide_eq_false_iff_not]
            dsimp only
            omega
    | @number base first last step hbase hstar hdash hfirst hle hlast hstep =>
      right
      right
      simp only [readPart,hbase,if_neg hstar,if_neg hdash]
      cases hread : readInt base with
      | none => exact .inl rfl
      | some n =>
        refine .inr ⟨n,rfl,fun hn => ?_⟩
        rcases (parseValue_reads hspelled hfirst).2 n hread with heq | ⟨hsunday,hseven,-⟩
        · exact heq
        · have hsix := (hspelled.sunday hsunday).2
          omega

end Parts

section Lists
variable {setting : Setting} {parsed : List (List Char)} {values : List Span}

theorem literal_said (hspelled : Spelled setting)
    (hall : List.Forall₂ (fun chunk s => parseChunk setting chunk = some s) parsed values)
    (h : literal setting parsed = true) {v : ℤ} (hv : v ≤ setting.maximum) :
    saidIn (parsed.map (readPart setting.minimum setting.maximum)) v =
      values.any fun s => s.contains v := by
  induction hall with
  | nil => rfl
  | @cons chunk s parsed values hparse hall ih =>
    have hshape := parseChunk_shape hparse
    rw [literal,Bool.or_eq_true,Bool.and_eq_true,Bool.and_eq_true] at h
    rw [List.map_cons,List.any_cons]
    rcases h with ⟨hrange,hrest⟩ | ⟨hlast,hnumber⟩
    · rw [range_read hspelled hshape hrange,saidIn_range,ih hrest]
    · obtain ⟨a,hread,hcontains⟩ := number_read hspelled hshape hnumber
      rw [List.isEmpty_iff] at hlast
      subst hlast
      cases hall
      rw [hread,saidIn_number,hcontains v hv,List.any_nil,Bool.or_false]

/-- The control plane says no number that is not scheduled. -/
theorem said_scheduled (hspelled : Spelled setting)
    (hall : List.Forall₂ (fun chunk s => parseChunk setting chunk = some s) parsed values)
    (hopen : ∀ chunk ∈ parsed, wraps setting chunk = false) {v : ℤ} (hv : v ≤ setting.maximum)
    (h : saidIn (parsed.map (readPart setting.minimum setting.maximum)) v = true) :
    (values.any fun s => s.contains v) = true := by
  induction hall with
  | nil => exact h
  | @cons chunk s parsed values hparse hall ih =>
    have hshape := parseChunk_shape hparse
    rw [List.forall_mem_cons] at hopen
    rw [List.any_cons,Bool.or_eq_true]
    rw [List.map_cons] at h
    rcases readPart_cases hspelled hshape hopen.1 with ⟨-,hread⟩ | ⟨r,hread,hnone⟩ | hread |
      ⟨n,hread,hfirst⟩
    · rw [hread,saidIn_range,Bool.or_eq_true] at h
      exact h.imp_right (ih hopen.2)
    · rw [hread,saidIn_range,hnone v hv,Bool.false_or] at h
      exact .inr (ih hopen.2 h)
    · rw [hread,saidIn_unread] at h
      cases h
    · rw [hread,saidIn_number,beq_iff_eq] at h
      subst h
      rw [hfirst hv]
      exact .inl (first_between hspelled hshape).2.2

theorem literal_of_said (hspelled : Spelled setting)
    (hall : List.Forall₂ (fun chunk s => parseChunk setting chunk = some s) parsed values)
    (hopen : ∀ chunk ∈ parsed, wraps setting chunk = false) (hapart : values.Pairwise (Apart setting))
    (h : ∀ v, setting.minimum ≤ v → v ≤ setting.maximum →
      saidIn (parsed.map (readPart setting.minimum setting.maximum)) v =
        values.any fun s => s.contains v) : literal setting parsed = true := by
  induction hall with
  | nil => rfl
  | @cons chunk s parsed values hparse hall ih =>
    have hshape := parseChunk_shape hparse
    obtain ⟨hmin,hmax,hcontains⟩ := first_between hspelled hshape
    have hfirst := h s.first hmin hmax
    rw [List.forall_mem_cons] at hopen
    rw [List.pairwise_cons] at hapart
    -- a number of this chunk is in no later one, and so is not said there
    have hlater : ∀ v, setting.minimum ≤ v → v ≤ setting.maximum → s.contains v = true →
        (values.any fun t => t.contains v) = false := by
      intro v hlow hhigh hin
      rw [List.any_eq_false]
      intro t ht
      simp [hapart.1 t ht v hlow hhigh hin]
    have hsilent : ∀ v, setting.minimum ≤ v → v ≤ setting.maximum → s.contains v = true →
        saidIn (parsed.map (readPart setting.minimum setting.maximum)) v = false := by
      intro v hlow hhigh hin
      rw [← Bool.not_eq_true]
      intro hsaid
      have hscheduled := said_scheduled hspelled hall hopen.2 hhigh hsaid
      rw [hlater v hlow hhigh hin] at hscheduled
      cases hscheduled
    rw [List.map_cons,List.any_cons,hcontains,Bool.true_or] at hfirst
    rw [literal,Bool.or_eq_true,Bool.and_eq_true,Bool.and_eq_true]
    rcases readPart_cases hspelled hshape hopen.1 with ⟨hrange,hread⟩ | ⟨r,hread,hnone⟩ | hread |
      ⟨n,hread,hn⟩
    · refine .inl ⟨hrange,ih hopen.2 hapart.2 fun v hlow hhigh => ?_⟩
      have hv := h v hlow hhigh
      rw [List.map_cons,List.any_cons,hread,saidIn_range] at hv
      cases hin : s.contains v with
      | true => rw [hsilent v hlow hhigh hin,hlater v hlow hhigh hin]
      | false => simpa [hin] using hv
    · rw [hread,saidIn_range,hnone _ hmax,hsilent _ hmin hmax hcontains] at hfirst
      cases hfirst
    · rw [hread,saidIn_unread] at hfirst
      cases hfirst
    · have hsaid : ∀ v, setting.minimum ≤ v → v ≤ setting.maximum →
          (s.contains v || values.any fun t => t.contains v) = true → v = n := by
        intro v hlow hhigh hin
        have hv := h v hlow hhigh
        rw [List.map_cons,List.any_cons,hread,saidIn_number,hin,beq_iff_eq] at hv
        exact hv.symm
      have hnumber := numberPart_of hspelled hshape hread fun v hlow hhigh hin =>
        hsaid v hlow hhigh (by rw [hin,Bool.true_or])
      refine .inr ⟨?_,hnumber⟩
      -- the first number of a next chunk would be the same number
      cases hall with
      | nil => rfl
      | @cons next t rest ts hparse' _ =>
        obtain ⟨hlow,hhigh,hin⟩ := first_between hspelled (parseChunk_shape hparse')
        have hnext : t.first = n := hsaid _ hlow hhigh (by simp [hin])
        have hsame : s.first = n := hsaid _ hmin hmax (by rw [hcontains,Bool.true_or])
        have hboth := hapart.1 t List.mem_cons_self s.first hmin hmax hcontains
        rw [hsame,← hnext,hin] at hboth
        cases hboth

end Lists

section Agreement
variable {setting : Setting} {field : List Char} {f : CronField}

/-- The numbers of a field are said exactly when they are scheduled. -/
def Agree (setting : Setting) (field : List Char) (f : CronField) : Prop :=
  ∀ v, setting.minimum ≤ v → v ≤ setting.maximum → f.matches v = said setting field v

theorem agree_of_literal (hspelled : Spelled setting) (h : cronField setting field = some f)
    (hliteral : literal setting (chunks field) = true) : Agree setting field f := by
  intro v _ hv
  rw [said,plainParts_eq,literal_said hspelled (cronField_ok h).2 hliteral hv]
  rfl

/-- The parts of a field have no number in common, and no range ends in seven. -/
structure Separate (setting : Setting) (field : List Char) (f : CronField) : Prop where
  apart : f.values.Pairwise (Apart setting)
  unwrapped : ∀ chunk ∈ chunks field, wraps setting chunk = false

theorem literal_of_agree (hspelled : Spelled setting) (h : cronField setting field = some f)
    (hseparate : Separate setting field f) (hagree : Agree setting field f) :
    literal setting (chunks field) = true := by
  apply literal_of_said hspelled (cronField_ok h).2 hseparate.unwrapped hseparate.apart
  intro v hlow hhigh
  rw [← plainParts_eq]
  exact (hagree v hlow hhigh).symm

theorem first_chunk (h : cronField setting field = some f) : ∃ chunk rest s,
    chunks field = chunk::rest ∧ Shape setting chunk s ∧
      ∀ v, s.contains v = true → f.matches v = true := by
  have hall := (cronField_ok h).2
  cases hchunks : chunks field with
  | nil => exact absurd hchunks (pieces_ne_nil _ _)
  | cons chunk rest =>
    rw [hchunks] at hall
    cases hvalues : f.values with
    | nil =>
      rw [hvalues] at hall
      cases hall
    | cons s values =>
      rw [hvalues] at hall
      cases hall with
      | cons hhead _ =>
        refine ⟨chunk,rest,s,rfl,parseChunk_shape hhead,fun v hv => ?_⟩
        rw [CronField.matches,hvalues,List.any_cons,hv,Bool.true_or]

theorem scheduled_number (hspelled : Spelled setting) (h : cronField setting field = some f) :
    ∃ v, setting.minimum ≤ v ∧ v ≤ setting.maximum ∧ f.matches v = true := by
  obtain ⟨chunk,rest,s,-,hshape,hmatches⟩ := first_chunk h
  obtain ⟨hmin,hmax,hcontains⟩ := first_between hspelled hshape
  exact ⟨s.first,hmin,hmax,hmatches _ hcontains⟩

/-- Without names the first number of a field is in both readings of it. -/
theorem shared_field (hspelled : Spelled setting) (hnames : setting.names = [])
    (hsunday : setting.sundayAsZero = false) (h : cronField setting field = some f) :
    ∃ v, setting.minimum ≤ v ∧ v ≤ setting.maximum ∧ f.matches v = true ∧
      said setting field v = true := by
  obtain ⟨chunk,rest,s,hchunks,hshape,hmatches⟩ := first_chunk h
  obtain ⟨hmin,hmax,hcontains⟩ := first_between hspelled hshape
  refine ⟨s.first,hmin,hmax,hmatches _ hcontains,?_⟩
  rw [said,plainParts_eq,hchunks,List.map_cons]
  cases hshape with
  | star hbase =>
    simp only [readPart,hbase,if_pos]
    rw [saidIn_range,hcontains,Bool.true_or]
  | range hbase hstar hdash hfirst hlast hle =>
    simp only [readPart,hbase,if_neg hstar,if_pos hdash,parseValue_plain hnames hsunday hfirst,
      parseValue_plain hnames hsunday hlast]
    rw [saidIn_range,hcontains,Bool.true_or]
  | number hbase hstar hdash hfirst =>
    simp only [readPart,hbase,if_neg hstar,if_neg hdash,parseValue_plain hnames hsunday hfirst,
      Option.elim_some]
    rw [saidIn_number,beq_self_eq_true]

end Agreement

section Schedules
variable {expression minute hour dayOfMonth month dayOfWeek : List Char} {s : CronSchedule}

/-- How the two day fields are joined. -/
def onDay (domAny dowAny dom dow : Bool) : Bool :=
  if domAny && dowAny then true
  else if domAny then dow
  else if dowAny then dom
  else dom || dow

def CronSchedule.dated (s : CronSchedule) (dt : DateTime) : Bool :=
  s.month.matches dt.month && onDay s.dayOfMonth.any s.dayOfWeek.any
    (s.dayOfMonth.matches dt.day) (s.dayOfWeek.matches (cronWeekday dt))

/-- The three fields say the date. -/
def saidDate (dayOfMonth month dayOfWeek : List Char) (dt : DateTime) : Bool :=
  said months month dt.month && onDay (dayOfMonth == ['*']) (dayOfWeek == ['*'])
    (said daysOfMonth dayOfMonth dt.day) (said daysOfWeek dayOfWeek (cronWeekday dt))

/-- The fields of a schedule that was accepted. -/
structure Accepted (minute hour dayOfMonth month dayOfWeek : List Char) (s : CronSchedule) :
    Prop where
  minute : cronField minutes minute = some s.minute
  hour : cronField hours hour = some s.hour
  dayOfMonth : cronField daysOfMonth dayOfMonth = some s.dayOfMonth
  month : cronField months month = some s.month
  dayOfWeek : cronField daysOfWeek dayOfWeek = some s.dayOfWeek

theorem accepted (hwords : words expression = [minute,hour,dayOfMonth,month,dayOfWeek])
    (haccepted : cronSchedule expression = some s) :
    Accepted minute hour dayOfMonth month dayOfWeek s := by
  unfold cronSchedule fieldsOf at haccepted
  rw [hwords] at haccepted
  obtain ⟨f₁,h₁,h⟩ := Option.bind_eq_some_iff.mp haccepted
  obtain ⟨f₂,h₂,h⟩ := Option.bind_eq_some_iff.mp h
  obtain ⟨f₃,h₃,h⟩ := Option.bind_eq_some_iff.mp h
  obtain ⟨f₄,h₄,h⟩ := Option.bind_eq_some_iff.mp h
  obtain ⟨f₅,h₅,h⟩ := Option.bind_eq_some_iff.mp h
  cases h
  exact ⟨h₁,h₂,h₃,h₄,h₅⟩

/-- The dates of the schedule are those that are said, and if there is one, so are its
hours and its minutes. -/
structure Heard (minute hour dayOfMonth month dayOfWeek : List Char) (s : CronSchedule) : Prop where
  dates : ∀ dt, CronSchedule.dated s dt = saidDate dayOfMonth month dayOfWeek dt
  hours : (∃ dt, CronSchedule.dated s dt = true) → Agree hours hour s.hour
  minutes : (∃ dt, CronSchedule.dated s dt = true) → Agree minutes minute s.minute

variable (dt : DateTime)

theorem day_bounds : (1 : ℤ) ≤ dt.day ∧ (dt.day : ℤ) ≤ 31 := by
  obtain ⟨-,-,-,-,hlow,hhigh⟩ := dt.dated
  have hmax := daysInMonth_le dt.year dt.month
  omega

theorem weekday_bounds : 0 ≤ cronWeekday dt ∧ cronWeekday dt ≤ 6 := by
  unfold cronWeekday
  omega

theorem matches_eq (s : CronSchedule) (timezone : ℤ → DateTime) (instant : ℤ) :
    s.matches timezone instant = (s.minute.matches (timezone instant).minute &&
      s.hour.matches (timezone instant).hour && CronSchedule.dated s (timezone instant)) := by
  simp only [CronFields.CronSchedule.matches,CronSchedule.dated,onDay]
  cases s.minute.matches (timezone instant).minute with
  | false => rfl
  | true =>
    cases s.hour.matches (timezone instant).hour with
    | false => rfl
    | true =>
      cases s.month.matches (timezone instant).month with
      | false => rfl
      | true => rfl

theorem cronMatches_eq (hwords : words expression = [minute,hour,dayOfMonth,month,dayOfWeek])
    (h : Accepted minute hour dayOfMonth month dayOfWeek s) (dt : DateTime) :
    cronMatches dt expression = (said minutes minute dt.minute && said hours hour dt.hour &&
      saidDate dayOfMonth month dayOfWeek dt) := by
  obtain ⟨hhour,hminute,-,-⟩ := dt.timed
  obtain ⟨-,-,hlow,hhigh,-,-⟩ := dt.dated
  have hm : cronFieldMatches minute dt.minute 0 59 = said minutes minute dt.minute :=
    cronFieldMatches_eq h.minute ⟨by simp [minutes],by simp [minutes]; omega⟩
  have hh : cronFieldMatches hour dt.hour 0 23 = said hours hour dt.hour :=
    cronFieldMatches_eq h.hour ⟨by simp [hours],by simp [hours]; omega⟩
  have hd : cronFieldMatches dayOfMonth dt.day 1 31 = said daysOfMonth dayOfMonth dt.day :=
    cronFieldMatches_eq h.dayOfMonth (day_bounds dt)
  have hmonth : cronFieldMatches month dt.month 1 12 = said months month dt.month :=
    cronFieldMatches_eq h.month ⟨by simp [months]; omega,by simp [months]; omega⟩
  have hw : cronFieldMatches dayOfWeek (cronWeekday dt) 0 6 =
      said daysOfWeek dayOfWeek (cronWeekday dt) :=
    cronFieldMatches_eq h.dayOfWeek (weekday_bounds dt)
  unfold cronMatches saidDate onDay
  rw [hwords]
  simp only [hm,hh,hd,hmonth,hw,Bool.and_assoc]

/-- The same date at another time. -/
def atTime (dt : DateTime) (hour minute : ℕ) (h : hour < 24 ∧ minute < 60) : DateTime :=
  {dt with hour := hour, minute := minute, timed := ⟨h.1,h.2,dt.timed.2.2⟩}

theorem dated_atTime {hour minute : ℕ} (h : hour < 24 ∧ minute < 60) :
    CronSchedule.dated s (atTime dt hour minute h) = CronSchedule.dated s dt := rfl

theorem saidDate_atTime {hour minute : ℕ} (h : hour < 24 ∧ minute < 60) :
    saidDate dayOfMonth month dayOfWeek (atTime dt hour minute h) =
      saidDate dayOfMonth month dayOfWeek dt := rfl

/-- The two readings agree at this reading of the clock. -/
def AgreeAt (expression : List Char) (s : CronSchedule) (dt : DateTime) : Prop :=
  cronMatches dt expression = s.matches (fun _ => dt) 0

theorem agreeAt_of_heard (hwords : words expression = [minute,hour,dayOfMonth,month,dayOfWeek])
    (h : Accepted minute hour dayOfMonth month dayOfWeek s)
    (hheard : Heard minute hour dayOfMonth month dayOfWeek s) (dt : DateTime) :
    AgreeAt expression s dt := by
  unfold AgreeAt
  rw [cronMatches_eq hwords h,matches_eq,← hheard.dates dt]
  cases hdated : CronSchedule.dated s dt with
  | false => simp
  | true =>
    obtain ⟨hhour,hminute,-,-⟩ := dt.timed
    have hminutes := hheard.minutes ⟨dt,hdated⟩ dt.minute (by simp [minutes])
      (by simp [minutes]; omega)
    have hhours := hheard.hours ⟨dt,hdated⟩ dt.hour (by simp [hours]) (by simp [hours]; omega)
    rw [hminutes,hhours]

theorem shared_time (h : Accepted minute hour dayOfMonth month dayOfWeek s) :
    ∃ (hr min : ℕ) (_ : hr < 24 ∧ min < 60), s.hour.matches hr = true ∧
      said hours hour hr = true ∧ s.minute.matches min = true ∧ said minutes minute min = true := by
  obtain ⟨a,ha,ha',hhour,hsaid⟩ := shared_field (by decide) rfl rfl h.hour
  obtain ⟨b,hb,hb',hminute,hsaid'⟩ := shared_field (by decide) rfl rfl h.minute
  have hhours : a < 24 := Int.lt_of_le_of_lt ha' (by decide)
  have hminutes : b < 60 := Int.lt_of_le_of_lt hb' (by decide)
  have hnonneg : 0 ≤ a := ha
  have hnonneg' : 0 ≤ b := hb
  obtain ⟨m,rfl⟩ := Int.eq_ofNat_of_zero_le hnonneg
  obtain ⟨n,rfl⟩ := Int.eq_ofNat_of_zero_le hnonneg'
  exact ⟨m,n,⟨by exact_mod_cast hhours,by exact_mod_cast hminutes⟩,hhour,hsaid,hminute,hsaid'⟩

theorem heard_of_agreeAt (hwords : words expression = [minute,hour,dayOfMonth,month,dayOfWeek])
    (h : Accepted minute hour dayOfMonth month dayOfWeek s)
    (hagree : ∀ dt, AgreeAt expression s dt) : Heard minute hour dayOfMonth month dayOfWeek s := by
  obtain ⟨m,n,htime,hhour,hsaid,hminute,hsaid'⟩ := shared_time h
  have hboth : ∀ dt, (said minutes minute dt.minute && said hours hour dt.hour &&
      saidDate dayOfMonth month dayOfWeek dt) = (s.minute.matches dt.minute &&
        s.hour.matches dt.hour && CronSchedule.dated s dt) := by
    intro dt
    have hdt := hagree dt
    rwa [AgreeAt,cronMatches_eq hwords h,matches_eq] at hdt
  have hdates : ∀ dt, CronSchedule.dated s dt = saidDate dayOfMonth month dayOfWeek dt := by
    intro dt
    have hdt := hboth (atTime dt m n htime)
    rw [dated_atTime,saidDate_atTime] at hdt
    simp only [atTime,hhour,hsaid,hminute,hsaid',Bool.true_and] at hdt
    exact hdt.symm
  refine ⟨hdates,?_,?_⟩
  · rintro ⟨dt,hdated⟩ v hlow hhigh
    have hnonneg : 0 ≤ v := hlow
    have hbound : v < 24 := Int.lt_of_le_of_lt hhigh (by decide)
    obtain ⟨k,rfl⟩ := Int.eq_ofNat_of_zero_le hnonneg
    have hdt := hboth (atTime dt k n ⟨by exact_mod_cast hbound,htime.2⟩)
    rw [dated_atTime,saidDate_atTime,← hdates,hdated] at hdt
    simp only [atTime,hminute,hsaid',Bool.true_and,Bool.and_true] at hdt
    exact hdt.symm
  · rintro ⟨dt,hdated⟩ v hlow hhigh
    have hnonneg : 0 ≤ v := hlow
    have hbound : v < 60 := Int.lt_of_le_of_lt hhigh (by decide)
    obtain ⟨k,rfl⟩ := Int.eq_ofNat_of_zero_le hnonneg
    have hdt := hboth (atTime dt m k ⟨htime.1,by exact_mod_cast hbound⟩)
    rw [dated_atTime,saidDate_atTime,← hdates,hdated] at hdt
    simp only [atTime,hhour,hsaid,Bool.and_true] at hdt
    exact hdt.symm

/-- Every field is written in digits, with ranges before a number. -/
structure Literal (minute hour dayOfMonth month dayOfWeek : List Char) : Prop where
  minute : literal minutes (chunks minute) = true
  hour : literal hours (chunks hour) = true
  dayOfMonth : literal daysOfMonth (chunks dayOfMonth) = true
  month : literal months (chunks month) = true
  dayOfWeek : literal daysOfWeek (chunks dayOfWeek) = true

/-- At most one of the fields for dates is no star. -/
def OneDateField (dayOfMonth month dayOfWeek : List Char) : Prop :=
  (dayOfMonth = ['*'] ∧ month = ['*']) ∨ (dayOfMonth = ['*'] ∧ dayOfWeek = ['*']) ∨
    (month = ['*'] ∧ dayOfWeek = ['*'])

/-- No part of a field repeats or wraps, and one of the date fields decides the date. -/
structure Plain (minute hour dayOfMonth month dayOfWeek : List Char) (s : CronSchedule) : Prop where
  date : OneDateField dayOfMonth month dayOfWeek
  minute : Separate minutes minute s.minute
  hour : Separate hours hour s.hour
  dayOfMonth : Separate daysOfMonth dayOfMonth s.dayOfMonth
  month : Separate months month s.month
  dayOfWeek : Separate daysOfWeek dayOfWeek s.dayOfWeek

theorem settings_spelled : Spelled minutes ∧ Spelled hours ∧ Spelled daysOfMonth ∧ Spelled months ∧
    Spelled daysOfWeek := by decide

theorem heard_of_fields (h : Accepted minute hour dayOfMonth month dayOfWeek s)
    (hminute : Agree minutes minute s.minute) (hhour : Agree hours hour s.hour)
    (hday : Agree daysOfMonth dayOfMonth s.dayOfMonth) (hmonth : Agree months month s.month)
    (hweek : Agree daysOfWeek dayOfWeek s.dayOfWeek) :
    Heard minute hour dayOfMonth month dayOfWeek s where
  dates dt := by
    obtain ⟨-,-,hlow,hhigh,-,-⟩ := dt.dated
    unfold CronSchedule.dated saidDate
    rw [hmonth dt.month (by simp [months]; omega) (by simp [months]; omega),
      hday dt.day (day_bounds dt).1 (day_bounds dt).2,
      hweek (cronWeekday dt) (weekday_bounds dt).1 (weekday_bounds dt).2,
      (cronField_ok h.dayOfMonth).1,(cronField_ok h.dayOfWeek).1]
  hours _ := hhour
  minutes _ := hminute

theorem heard_of_literal (h : Accepted minute hour dayOfMonth month dayOfWeek s)
    (hliteral : Literal minute hour dayOfMonth month dayOfWeek) :
    Heard minute hour dayOfMonth month dayOfWeek s := by
  obtain ⟨hm,hh,hd,hmonth,hw⟩ := settings_spelled
  exact heard_of_fields h (agree_of_literal hm h.minute hliteral.minute)
    (agree_of_literal hh h.hour hliteral.hour)
    (agree_of_literal hd h.dayOfMonth hliteral.dayOfMonth)
    (agree_of_literal hmonth h.month hliteral.month)
    (agree_of_literal hw h.dayOfWeek hliteral.dayOfWeek)

section Dates

/-- A midnight of a year that begins on a Sunday. -/
def midnight (month day : ℕ) (h : (1 ≤ month ∧ month ≤ 12) ∧ 1 ≤ day ∧ day ≤ daysInMonth 2023 month) :
    DateTime where
  year := 2023
  month := month
  day := day
  hour := 0
  minute := 0
  second := 0
  microsecond := 0
  offset := some 0
  dated := ⟨by decide,by decide,h.1.1,h.1.2,h.2.1,h.2.2⟩
  timed := midnight_timed
  bounded := utc_bounded

theorem midnight_weekday {n : ℕ} (hn : n ≤ 6) (h : (1 ≤ 1 ∧ 1 ≤ 12) ∧ 1 ≤ n+1 ∧
    n+1 ≤ daysInMonth 2023 1) : cronWeekday (midnight 1 (n+1) h) = n := by
  have hyear : daysBeforeYear 2023 = 738520 := by decide
  have hmonth : daysBeforeMonth 2023 1 = 0 := rfl
  simp only [cronWeekday,midnight,hyear,hmonth]
  omega

theorem month_begins {month : ℕ} (h : 1 ≤ month ∧ month ≤ 12) : 1 ≤ daysInMonth 2023 month := by
  obtain ⟨hlow,hhigh⟩ := h
  interval_cases month <;> decide

theorem star_said (setting : Setting) {v : ℤ} (h : setting.minimum ≤ v ∧ v ≤ setting.maximum) :
    said setting ['*'] v = true := by
  rw [said,star_parts,saidIn_range]
  simp [Span.contains,h.1,h.2]

theorem star_literal (setting : Setting) : literal setting (chunks ['*']) = true := by
  have hchunks : chunks ['*'] = [['*']] := by decide
  have hbase : baseAndStep ['*'] = (['*'],some 1) := by decide
  rw [hchunks]
  simp [literal,rangePart,hbase]

variable {setting : Setting} {field : List Char} {f : CronField}

theorem star_matches (hspelled : Spelled setting) (h : cronField setting ['*'] = some f) {v : ℤ}
    (hv : setting.minimum ≤ v ∧ v ≤ setting.maximum) : f.matches v = true := by
  rw [agree_of_literal hspelled h (star_literal setting) v hv.1 hv.2]
  exact star_said setting hv

theorem any_false (h : cronField setting field = some f) (hfield : field ≠ ['*']) :
    f.any = false ∧ (field == ['*']) = false := by
  have hne : (field == ['*']) = false := beq_eq_false_iff_ne.mpr hfield
  exact ⟨(cronField_ok h).1.trans hne,hne⟩

theorem any_true (h : cronField setting ['*'] = some f) : f.any = true := (cronField_ok h).1

theorem onDates_dayOfWeek (h : Accepted minute hour ['*'] ['*'] dayOfWeek s)
    (hfield : dayOfWeek ≠ ['*']) {v : ℤ} (hlow : 0 ≤ v) (hhigh : v ≤ 6) :
    ∃ dt, CronSchedule.dated s dt = s.dayOfWeek.matches v ∧
      saidDate ['*'] ['*'] dayOfWeek dt = said daysOfWeek dayOfWeek v := by
  obtain ⟨n,rfl⟩ := Int.eq_ofNat_of_zero_le hlow
  have hn : n ≤ 6 := by exact_mod_cast hhigh
  have hdate : (1 ≤ 1 ∧ 1 ≤ 12) ∧ 1 ≤ n+1 ∧ n+1 ≤ daysInMonth 2023 1 := by
    refine ⟨by decide,by omega,?_⟩
    exact le_trans (by omega) (by decide : 7 ≤ daysInMonth 2023 1)
  obtain ⟨hany,hne⟩ := any_false h.dayOfWeek hfield
  refine ⟨midnight 1 (n+1) hdate,?_⟩
  rw [CronSchedule.dated,saidDate,midnight_weekday hn,any_true h.dayOfMonth,hany,hne]
  dsimp only [midnight]
  rw [star_matches (by decide) h.month ⟨by decide,by decide⟩,
    star_said months ⟨by decide,by decide⟩]
  simp [onDay]

theorem onDates_dayOfMonth (h : Accepted minute hour dayOfMonth ['*'] ['*'] s)
    (hfield : dayOfMonth ≠ ['*']) {v : ℤ} (hlow : 1 ≤ v) (hhigh : v ≤ 31) :
    ∃ dt, CronSchedule.dated s dt = s.dayOfMonth.matches v ∧
      saidDate dayOfMonth ['*'] ['*'] dt = said daysOfMonth dayOfMonth v := by
  obtain ⟨n,rfl⟩ := Int.eq_ofNat_of_zero_le (le_trans (by decide) hlow)
  have hdate : (1 ≤ 1 ∧ 1 ≤ 12) ∧ 1 ≤ n ∧ n ≤ daysInMonth 2023 1 := by
    refine ⟨by decide,by exact_mod_cast hlow,?_⟩
    exact le_trans (by exact_mod_cast hhigh) (by decide : 31 ≤ daysInMonth 2023 1)
  obtain ⟨hany,hne⟩ := any_false h.dayOfMonth hfield
  refine ⟨midnight 1 n hdate,?_⟩
  rw [CronSchedule.dated,saidDate,any_true h.dayOfWeek,hany,hne]
  dsimp only [midnight]
  rw [star_matches (by decide) h.month ⟨by decide,by decide⟩,
    star_said months ⟨by decide,by decide⟩]
  simp [onDay]

theorem onDates_month (h : Accepted minute hour ['*'] month ['*'] s) {v : ℤ} (hlow : 1 ≤ v)
    (hhigh : v ≤ 12) : ∃ dt, CronSchedule.dated s dt = s.month.matches v ∧
      saidDate ['*'] month ['*'] dt = said months month v := by
  obtain ⟨n,rfl⟩ := Int.eq_ofNat_of_zero_le (le_trans (by decide) hlow)
  have hmonth : 1 ≤ n ∧ n ≤ 12 := ⟨by exact_mod_cast hlow,by exact_mod_cast hhigh⟩
  refine ⟨midnight n 1 ⟨hmonth,le_rfl,month_begins hmonth⟩,?_⟩
  rw [CronSchedule.dated,saidDate,any_true h.dayOfMonth,any_true h.dayOfWeek]
  dsimp only [midnight]
  simp [onDay]

theorem literal_date (hspelled : Spelled setting) (h : cronField setting field = some f)
    (hseparate : Separate setting field f)
    (hdates : ∀ dt, CronSchedule.dated s dt = saidDate dayOfMonth month dayOfWeek dt)
    (hon : ∀ v, setting.minimum ≤ v → v ≤ setting.maximum →
      ∃ dt, CronSchedule.dated s dt = f.matches v ∧
        saidDate dayOfMonth month dayOfWeek dt = said setting field v) :
    literal setting (chunks field) = true ∧ ∃ dt, CronSchedule.dated s dt = true := by
  constructor
  · apply literal_of_agree hspelled h hseparate
    intro v hlow hhigh
    obtain ⟨dt,hdated,hsaid⟩ := hon v hlow hhigh
    rw [← hdated,← hsaid,hdates dt]
  · obtain ⟨v,hlow,hhigh,hmatches⟩ := scheduled_number hspelled h
    obtain ⟨dt,hdated,-⟩ := hon v hlow hhigh
    exact ⟨dt,hdated.trans hmatches⟩

theorem literal_month (h : Accepted minute hour ['*'] month ['*'] s)
    (hplain : Plain minute hour ['*'] month ['*'] s)
    (hdates : ∀ dt, CronSchedule.dated s dt = saidDate ['*'] month ['*'] dt) :
    (literal daysOfMonth (chunks ['*']) = true ∧ literal months (chunks month) = true ∧
      literal daysOfWeek (chunks ['*']) = true) ∧ ∃ dt, CronSchedule.dated s dt = true := by
  obtain ⟨hliteral,hsome⟩ := literal_date (by decide) h.month hplain.month hdates
    fun v hlow hhigh => onDates_month h hlow hhigh
  exact ⟨⟨star_literal _,hliteral,star_literal _⟩,hsome⟩

theorem literal_dates (h : Accepted minute hour dayOfMonth month dayOfWeek s)
    (hplain : Plain minute hour dayOfMonth month dayOfWeek s)
    (hdates : ∀ dt, CronSchedule.dated s dt = saidDate dayOfMonth month dayOfWeek dt) :
    (literal daysOfMonth (chunks dayOfMonth) = true ∧ literal months (chunks month) = true ∧
      literal daysOfWeek (chunks dayOfWeek) = true) ∧ ∃ dt, CronSchedule.dated s dt = true := by
  rcases hplain.date with ⟨rfl,rfl⟩ | ⟨rfl,rfl⟩ | ⟨rfl,rfl⟩
  · by_cases hstar : dayOfWeek = ['*']
    · subst hstar
      exact literal_month h hplain hdates
    · obtain ⟨hliteral,hsome⟩ := literal_date (by decide) h.dayOfWeek hplain.dayOfWeek hdates
        fun v hlow hhigh => onDates_dayOfWeek h hstar hlow hhigh
      exact ⟨⟨star_literal _,star_literal _,hliteral⟩,hsome⟩
  · exact literal_month h hplain hdates
  · by_cases hstar : dayOfMonth = ['*']
    · subst hstar
      exact literal_month h hplain hdates
    · obtain ⟨hliteral,hsome⟩ := literal_date (by decide) h.dayOfMonth hplain.dayOfMonth hdates
        fun v hlow hhigh => onDates_dayOfMonth h hstar hlow hhigh
      exact ⟨⟨hliteral,star_literal _,star_literal _⟩,hsome⟩

end Dates

theorem expectedCronSlots_matched {reading : ℤ → DateTime} {asUtc : ℤ → ℤ} {now candidate slot : ℤ}
    {n scanned : ℕ} (h : slot ∈ expectedCronSlots expression reading asUtc now n candidate scanned) :
    ∃ w, slot = asUtc w ∧ cronMatches (reading w) expression = true := by
  induction n generalizing candidate scanned with
  | zero => cases h
  | succ n ih =>
    rw [expectedCronSlots] at h
    split at h
    · cases h
    · split at h
      · cases h
      · split at h
        · next hmatches =>
            rcases List.mem_cons.mp h with rfl | h
            · exact ⟨candidate,rfl,hmatches⟩
            · exact ih h
        · exact ih h

end Schedules

section Example

/-- Every quarter of an hour, at work. -/
def officeHours : List Char := "*/15 9-17 * * 1-5".toList

def officeSchedule : CronSchedule where
  minute := ⟨false,[⟨0,59,15⟩]⟩
  hour := ⟨false,[⟨9,17,1⟩]⟩
  dayOfMonth := ⟨true,[⟨1,31,1⟩]⟩
  month := ⟨true,[⟨1,12,1⟩]⟩
  dayOfWeek := ⟨false,[⟨1,5,1⟩]⟩

theorem officeHours_plain : Plain "*/15".toList "9-17".toList "*".toList "*".toList "1-5".toList
    officeSchedule where
  date := .inl ⟨rfl,rfl⟩
  minute := ⟨List.pairwise_singleton _ _,by decide⟩
  hour := ⟨List.pairwise_singleton _ _,by decide⟩
  dayOfMonth := ⟨List.pairwise_singleton _ _,by decide⟩
  month := ⟨List.pairwise_singleton _ _,by decide⟩
  dayOfWeek := ⟨List.pairwise_singleton _ _,by decide⟩

end Example

end OneStep.CronAgreement
