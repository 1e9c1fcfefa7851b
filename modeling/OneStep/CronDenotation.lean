import OneStep.CronAgreement
import Mathlib.Data.List.TakeWhile

/-!
# What a cron field denotes

A chunk of a field is a star, a number, a range or one of these with a step, in numbers as
they are written: a name, or what `int` reads. It denotes numbers of its span, those of
weekdays up to seven. A number with a minus sign is no chunk, since the sign reads as a
range.
-/
namespace OneStep.CronDenotation
open CronFields CronAgreement DateTimeText ItemLists

section Grammar

inductive Form where
  | star
  | value (a : ℤ)
  | range (a b : ℤ)
  | starStep (s : ℤ)
  | fromStep (a s : ℤ)
  | rangeStep (a b s : ℤ)
  deriving DecidableEq

variable (setting : Setting)

/-- The number that a text is written for. -/
def number (text : List Char) : Option ℤ := (setting.names.lookup (lower text)).or (readInt text)

/-- The largest number that may be written: seven is another Sunday. -/
def top : ℤ := if setting.sundayAsZero then 7 else setting.maximum

def Written (text : List Char) (a : ℤ) : Prop :=
  number setting text = some a ∧ setting.minimum ≤ a ∧ a ≤ top setting

def Steps (text : List Char) (s : ℤ) : Prop := readInt text = some s ∧ 0 < s

/-- The chunks of a field and what they say. -/
inductive Reads : List Char → Form → Prop
  | star : Reads ['*'] .star
  | value {text : List Char} {a : ℤ} : '-' ∉ text → Written setting text a → Reads text (.value a)
  | range {first last : List Char} {a b : ℤ} : '-' ∉ first → Written setting first a →
      Written setting last b → a ≤ b → Reads (first++ '-'::last) (.range a b)
  | starStep {step : List Char} {s : ℤ} : Steps step s → Reads ('*':: '/'::step) (.starStep s)
  | fromStep {text step : List Char} {a s : ℤ} : '-' ∉ text → Written setting text a →
      Steps step s → Reads (text++ '/'::step) (.fromStep a s)
  | rangeStep {first last step : List Char} {a b s : ℤ} : '-' ∉ first → Written setting first a →
      Written setting last b → a ≤ b → Steps step s →
        Reads ((first++ '-'::last)++ '/'::step) (.rangeStep a b s)

/-- The numbers as they are written; a step goes on to the end of the field. -/
def Form.span : Form → Span
  | .star => ⟨setting.minimum,setting.maximum,1⟩
  | .value a => ⟨a,a,1⟩
  | .range a b => ⟨a,b,1⟩
  | .starStep s => ⟨setting.minimum,setting.maximum,s⟩
  | .fromStep a s => ⟨a,max a setting.maximum,s⟩
  | .rangeStep a b s => ⟨a,b,s⟩

/-- Weekdays are taken modulo seven. -/
def norm (n : ℤ) : ℤ := if setting.sundayAsZero then n%7 else n

def Form.Denotes (form : Form) (v : ℤ) : Prop :=
  ∃ n, (form.span setting).contains n = true ∧ norm setting n = v

/-- A seven that ends or begins a range of weekdays, or begins a step. -/
def usesSeven (chunk : List Char) : Bool :=
  let base := if '/' ∈ chunk then (cut '/' chunk).1 else chunk
  setting.sundayAsZero &&
    if '-' ∈ base then
      number setting (cut '-' base).1 == some 7 || number setting (cut '-' base).2 == some 7
    else decide ('/' ∈ chunk) && number setting base == some 7

/-- What the settings of a schedule have in common. -/
structure Regular : Prop where
  ordered : setting.minimum ≤ setting.maximum
  sunday : setting.sundayAsZero = true → setting.minimum = 0 ∧ setting.maximum = 6
  named : ∀ p ∈ setting.names, '/' ∉ p.1 ∧ '*' ∉ p.1 ∧ p.1 ≠ []

instance : Decidable (Regular setting) :=
  decidable_of_iff (setting.minimum ≤ setting.maximum ∧
    (setting.sundayAsZero = true → setting.minimum = 0 ∧ setting.maximum = 6) ∧
    ∀ p ∈ setting.names, '/' ∉ p.1 ∧ '*' ∉ p.1 ∧ p.1 ≠ [])
    ⟨fun h => ⟨h.1,h.2.1,h.2.2⟩,fun h => ⟨h.ordered,h.sunday,h.named⟩⟩

def settings : List Setting := [minutes,hours,daysOfMonth,months,daysOfWeek]

theorem settings_regular : ∀ setting ∈ settings, Regular setting := by decide

end Grammar

section Texts

theorem cut_join {c : Char} {text : List Char} (h : c ∈ text) :
    text = (cut c text).1++c::(cut c text).2 ∧ c ∉ (cut c text).1 := by
  constructor
  · have hsplit := List.takeWhile_append_dropWhile (p := (· != c)) (l := text)
    cases hdrop : text.dropWhile (· != c) with
    | nil =>
      rw [List.dropWhile_eq_nil_iff] at hdrop
      have hc := hdrop c h
      simp at hc
    | cons d rest =>
      have hhead := List.head?_dropWhile_not (· != c) text
      rw [hdrop] at hhead
      have hd : d = c := by simpa using hhead
      rw [hdrop,hd] at hsplit
      rw [cut,hdrop]
      exact hsplit.symm
  · intro hin
    have hc := List.mem_takeWhile_imp hin
    simp at hc

theorem cut_append {c : Char} {front back : List Char} (h : c ∉ front) :
    cut c (front++c::back) = (front,back) := by
  have hall : ∀ d ∈ front, (d != c) = true := fun d hd => by
    simpa using fun heq : d = c => h (heq ▸ hd)
  unfold cut
  rw [List.takeWhile_append_of_pos hall,List.dropWhile_append_of_pos hall]
  simp

theorem readDigits_digit {after : Bool} {n m : ℕ} {text : List Char}
    (h : readDigits after n text = some m) :
    ∀ c ∈ text, c = '_' ∨ (digitOf c).isSome = true := by
  induction text generalizing after n with
  | nil => exact fun c hc => (by cases hc)
  | cons d text ih =>
    rw [readDigits] at h
    intro c hc
    split at h
    · next hd =>
        split at h
        · rcases List.mem_cons.mp hc with rfl | hc
          · exact .inl hd
          · exact ih h c hc
        · cases h
    · obtain ⟨k,hk,hrest⟩ := Option.bind_eq_some_iff.mp h
      rcases List.mem_cons.mp hc with rfl | hc
      · exact .inr (by rw [hk]; rfl)
      · exact ih hrest c hc

theorem readInt_plain {text : List Char} {n : ℤ} (h : readInt text = some n) :
    '/' ∉ text ∧ '*' ∉ text := by
  have hdigits : ∀ {cs : List Char} {m : ℕ}, readDigits false 0 cs = some m →
      '/' ∉ cs ∧ '*' ∉ cs := by
    intro cs m hcs
    constructor
    · intro hin
      rcases readDigits_digit hcs _ hin with heq | hsome
      · cases heq
      · revert hsome
        decide
    · intro hin
      rcases readDigits_digit hcs _ hin with heq | hsome
      · cases heq
      · revert hsome
        decide
  cases text with
  | nil => cases h
  | cons c cs =>
    simp only [readInt] at h
    split at h
    · next hc =>
        obtain ⟨m,hm,-⟩ := Option.map_eq_some_iff.mp h
        obtain ⟨k,hm,-⟩ := Option.bind_eq_some_iff.mp hm
        obtain ⟨hslash,hstar⟩ := hdigits hm
        subst hc
        exact ⟨by simpa using hslash,by simpa using hstar⟩
    · split at h
      · next hc =>
          obtain ⟨m,hm,-⟩ := Option.map_eq_some_iff.mp h
          obtain ⟨k,hm,-⟩ := Option.bind_eq_some_iff.mp hm
          obtain ⟨hslash,hstar⟩ := hdigits hm
          subst hc
          exact ⟨by simpa using hslash,by simpa using hstar⟩
      · obtain ⟨m,hm,-⟩ := Option.map_eq_some_iff.mp h
        obtain ⟨k,hm,-⟩ := Option.bind_eq_some_iff.mp hm
        exact hdigits hm

variable {setting : Setting} {text : List Char} {a : ℤ}

theorem number_plain (hregular : Regular setting) (h : number setting text = some a) :
    '/' ∉ text ∧ '*' ∉ text ∧ text ≠ [] := by
  unfold number at h
  cases hname : setting.names.lookup (lower text) with
  | none =>
    rw [hname] at h
    obtain ⟨hslash,hstar⟩ := readInt_plain h
    refine ⟨hslash,hstar,fun hnil => ?_⟩
    rw [hnil] at h
    cases h
  | some n =>
    obtain ⟨l₁,l₂,heq,-⟩ := List.lookup_eq_some_iff.mp hname
    obtain ⟨hslash,hstar,hnil⟩ := hregular.named (lower text,n) (by rw [heq]; simp)
    exact ⟨fun hin => hslash ((mem_lower caseless_slash).mpr hin),
      fun hin => hstar ((mem_lower caseless_star).mpr hin),fun heq => hnil (lower_nil.mpr heq)⟩

end Texts

section Values
variable {setting : Setting} {text : List Char} {a v : ℤ}

theorem norm_id (hregular : Regular setting) {n : ℤ} (h : setting.minimum ≤ n ∧ n ≤ setting.maximum) :
    norm setting n = n := by
  unfold norm
  split
  · next hsunday =>
      obtain ⟨hmin,hmax⟩ := hregular.sunday hsunday
      omega
  · rfl

theorem written_parses (hregular : Regular setting) (h : Written setting text a) :
    parseValue setting text = some (norm setting a) := by
  obtain ⟨hnumber,hmin,hmax⟩ := h
  unfold parseValue
  change (number setting text).bind _ = _
  rw [hnumber,Option.bind_some]
  unfold norm
  unfold top at hmax
  cases hsunday : setting.sundayAsZero with
  | false =>
    rw [hsunday,if_neg Bool.false_ne_true] at hmax
    simp only [Bool.false_eq_true,false_and,if_false]
    rw [if_neg (by omega)]
  | true =>
    obtain ⟨hlow,hhigh⟩ := hregular.sunday hsunday
    rw [hsunday,if_pos rfl] at hmax
    simp only [true_and,if_true]
    by_cases hseven : a = 7
    · rw [if_pos hseven,if_neg (by omega),hseven]
      rfl
    · rw [if_neg hseven,if_neg (by omega)]
      congr 1
      omega

theorem parses_written (hregular : Regular setting) (h : parseValue setting text = some v) :
    ∃ a, Written setting text a ∧ norm setting a = v := by
  unfold parseValue at h
  change (number setting text).bind _ = _ at h
  obtain ⟨a,hnumber,h⟩ := Option.bind_eq_some_iff.mp h
  dsimp only at h
  refine ⟨a,?_⟩
  have hparse : Written setting text a := by
    refine ⟨hnumber,?_⟩
    unfold top
    cases hsunday : setting.sundayAsZero with
    | false =>
      simp only [hsunday,Bool.false_eq_true,false_and,if_false] at h ⊢
      split at h
      · cases h
      · omega
    | true =>
      obtain ⟨hlow,hhigh⟩ := hregular.sunday hsunday
      simp only [hsunday,true_and,if_true] at h ⊢
      by_cases hseven : a = 7
      · omega
      · rw [if_neg hseven] at h
        split at h
        · cases h
        · omega
  have hnorm := written_parses hregular hparse
  unfold parseValue at hnorm
  change (number setting text).bind _ = _ at hnorm
  rw [hnumber,Option.bind_some] at hnorm
  dsimp only at hnorm
  rw [h] at hnorm
  exact ⟨hparse,(Option.some.inj hnorm).symm⟩

theorem written_below (hregular : Regular setting) (h : Written setting text a)
    (hseven : setting.sundayAsZero = true → number setting text ≠ some 7) :
    norm setting a = a ∧ setting.minimum ≤ a ∧ a ≤ setting.maximum := by
  obtain ⟨hnumber,hmin,hmax⟩ := h
  have hbounds : a ≤ setting.maximum := by
    unfold top at hmax
    split at hmax
    · next hsunday =>
        have hne := hseven hsunday
        rw [hnumber,ne_eq,Option.some_inj] at hne
        have hhigh := (hregular.sunday hsunday).2
        omega
    · exact hmax
  exact ⟨norm_id hregular ⟨hmin,hbounds⟩,hmin,hbounds⟩

end Values

section Chunks
variable {setting : Setting} {chunk : List Char} {form : Form} {s : Span} {first last : List Char}

theorem denotes_span (hregular : Regular setting) {first last step : ℤ}
    (hspan : form.span setting = ⟨first,last,step⟩) (hfirst : setting.minimum ≤ first)
    (hlast : last ≤ setting.maximum) (v : ℤ) :
    (Span.mk first last step).contains v = true ↔ form.Denotes setting v := by
  have hid : ∀ n, (Span.mk first last step).contains n = true → norm setting n = n := by
    intro n hn
    simp only [Span.contains,decide_eq_true_eq] at hn
    exact norm_id hregular ⟨hfirst.trans hn.1,hn.2.1.trans hlast⟩
  unfold Form.Denotes
  rw [hspan]
  constructor
  · exact fun hv => ⟨v,hv,hid v hv⟩
  · rintro ⟨n,hn,rfl⟩
    rw [hid n hn]
    exact hn

theorem span_ok {first last : ℤ} (step : ℤ) (h : first ≤ last) :
    span first last step = some ⟨first,last,step⟩ := if_neg (not_lt.mpr h)

theorem range_plain (hregular : Regular setting) {a b : ℤ} (hfirst : Written setting first a)
    (hlast : Written setting last b) : '/' ∉ first++ '-'::last ∧ first++ '-'::last ≠ ['*'] := by
  obtain ⟨hslash,hstar,-⟩ := number_plain hregular hfirst.1
  obtain ⟨hslash',hstar',-⟩ := number_plain hregular hlast.1
  refine ⟨by simp [hslash,hslash'],fun heq => ?_⟩
  have hdash : '-' ∈ first++ '-'::last := by simp
  rw [heq] at hdash
  simp at hdash

theorem range_parses (hregular : Regular setting) {a b : ℤ} (step : ℤ) (hdash : '-' ∉ first)
    (hfirst : Written setting first a) (hlast : Written setting last b) (hle : a ≤ b)
    (hseven : setting.sundayAsZero = true → number setting first ≠ some 7 ∧ number setting last ≠ some 7) :
    parseRange setting (first++ '-'::last) step = some ⟨a,b,step⟩ ∧ setting.minimum ≤ a ∧
      b ≤ setting.maximum := by
  obtain ⟨hnorm,hmin,-⟩ := written_below hregular hfirst fun h => (hseven h).1
  obtain ⟨hnorm',-,hmax⟩ := written_below hregular hlast fun h => (hseven h).2
  refine ⟨?_,hmin,hmax⟩
  unfold parseRange
  rw [cut_append hdash,written_parses hregular hfirst,Option.bind_some,written_parses hregular hlast,
    Option.bind_some,hnorm,hnorm',span_ok step hle]

theorem range_below (hdash : '-' ∉ first)
    (hbase : (if '/' ∈ chunk then (cut '/' chunk).1 else chunk) = first++ '-'::last)
    (h : usesSeven setting chunk = false) :
    setting.sundayAsZero = true → number setting first ≠ some 7 ∧ number setting last ≠ some 7 := by
  intro hsunday
  unfold usesSeven at h
  rw [hbase,hsunday,Bool.true_and,if_pos (by simp),cut_append hdash] at h
  simpa using h

theorem step_below {text : List Char} (hdash : '-' ∉ text)
    (hbase : (if '/' ∈ chunk then (cut '/' chunk).1 else chunk) = text) (hslash : '/' ∈ chunk)
    (h : usesSeven setting chunk = false) :
    setting.sundayAsZero = true → number setting text ≠ some 7 := by
  intro hsunday
  unfold usesSeven at h
  rw [hbase,hsunday,Bool.true_and,if_neg hdash] at h
  simpa [hslash] using h

theorem step_parses (setting : Setting) {base step : List Char} {s : ℤ} (hslash : '/' ∉ base) (hstep : Steps step s) :
    parseChunk setting (base++ '/'::step) =
      if base = ['*'] then span setting.minimum setting.maximum s
      else if '-' ∈ base then parseRange setting base s
      else (parseValue setting base).bind fun first => span first setting.maximum s := by
  have hne : base++ '/'::step ≠ ['*'] := by
    intro heq
    have hin : '/' ∈ base++ '/'::step := by simp
    rw [heq] at hin
    simp at hin
  unfold parseChunk
  rw [if_neg (by simp),if_neg hne,if_pos (by simp)]
  simp only [cut_append hslash]
  rw [hstep.1,Option.bind_some,if_neg (not_le.mpr hstep.2)]

theorem reads_parses (hregular : Regular setting) (hseven : usesSeven setting chunk = false)
    (h : Reads setting chunk form) :
    ∃ s, parseChunk setting chunk = some s ∧ ∀ v, s.contains v = true ↔ form.Denotes setting v := by
  cases h with
  | star =>
    refine ⟨⟨setting.minimum,setting.maximum,1⟩,?_,denotes_span hregular rfl le_rfl le_rfl⟩
    rw [parseChunk,if_neg (by simp),if_pos rfl]
  | @value text a hdash hwritten =>
    obtain ⟨hslash,hstar,hnil⟩ := number_plain hregular hwritten.1
    have hne : chunk ≠ ['*'] := fun heq => hstar (by rw [heq]; simp)
    refine ⟨⟨norm setting a,norm setting a,1⟩,?_,fun v => ?_⟩
    · rw [parseChunk,if_neg hnil,if_neg hne,if_neg hslash,if_neg hdash,
        written_parses hregular hwritten]
      rfl
    · constructor
      · intro hv
        simp only [Span.contains,decide_eq_true_eq] at hv
        exact ⟨a,by simp [Form.span,Span.contains],by omega⟩
      · rintro ⟨n,hn,rfl⟩
        have hbounds := of_decide_eq_true hn
        have heq : n = a := le_antisymm hbounds.2.1 hbounds.1
        rw [heq]
        simp [Span.contains]
  | @range first last a b hdash hfirst hlast hle =>
    obtain ⟨hslash,hne⟩ := range_plain hregular hfirst hlast
    obtain ⟨hparse,hmin,hmax⟩ := range_parses hregular 1 hdash hfirst hlast hle
      (range_below hdash (if_neg hslash) hseven)
    refine ⟨⟨a,b,1⟩,?_,denotes_span hregular rfl hmin hmax⟩
    rw [parseChunk,if_neg (by simp),if_neg hne,if_neg hslash,if_pos (by simp),hparse]
  | @starStep step s hstep =>
    refine ⟨⟨setting.minimum,setting.maximum,s⟩,?_,denotes_span hregular rfl le_rfl le_rfl⟩
    have hparse := step_parses setting (by simp : '/' ∉ ['*']) hstep
    rw [if_pos rfl,span_ok s hregular.ordered] at hparse
    exact hparse
  | @fromStep text step a s hdash hwritten hstep =>
    obtain ⟨hslash,hstar,-⟩ := number_plain hregular hwritten.1
    have hne : text ≠ ['*'] := fun heq => hstar (by rw [heq]; simp)
    have hbase : (if '/' ∈ text++ '/'::step then (cut '/' (text++ '/'::step)).1
        else text++ '/'::step) = text := by
      rw [if_pos (by simp),cut_append hslash]
    obtain ⟨hnorm,hmin,hmax⟩ := written_below hregular hwritten
      (step_below hdash hbase (by simp) hseven)
    refine ⟨⟨a,setting.maximum,s⟩,?_,denotes_span hregular ?_ hmin le_rfl⟩
    · rw [step_parses setting hslash hstep,if_neg hne,if_neg hdash,written_parses hregular hwritten,
        Option.bind_some,hnorm,span_ok s hmax]
    · rw [Form.span,max_eq_right hmax]
  | @rangeStep first last step a b s hdash hfirst hlast hle hstep =>
    obtain ⟨hslash,hne⟩ := range_plain hregular hfirst hlast
    have hbase : (if '/' ∈ (first++ '-'::last)++ '/'::step then
        (cut '/' ((first++ '-'::last)++ '/'::step)).1 else (first++ '-'::last)++ '/'::step) =
        first++ '-'::last := by
      rw [if_pos (by simp),cut_append hslash]
    obtain ⟨hparse,hmin,hmax⟩ := range_parses hregular s hdash hfirst hlast hle
      (range_below hdash hbase hseven)
    refine ⟨⟨a,b,s⟩,?_,denotes_span hregular rfl hmin hmax⟩
    rw [step_parses setting hslash hstep,if_neg hne,if_pos (by simp),hparse]

theorem parses_range (hregular : Regular setting) {text : List Char} {step : ℤ} (hdash : '-' ∈ text)
    (hseven : setting.sundayAsZero = true → number setting (cut '-' text).1 ≠ some 7 ∧
      number setting (cut '-' text).2 ≠ some 7)
    (h : parseRange setting text step = some s) :
    ∃ first last a b, text = first++ '-'::last ∧ '-' ∉ first ∧ Written setting first a ∧
      Written setting last b ∧ a ≤ b := by
  obtain ⟨htext,hfront⟩ := cut_join hdash
  obtain ⟨v,hv,h⟩ := Option.bind_eq_some_iff.mp h
  obtain ⟨w,hw,h⟩ := Option.bind_eq_some_iff.mp h
  obtain ⟨a,hfirst,ha⟩ := parses_written hregular hv
  obtain ⟨b,hlast,hb⟩ := parses_written hregular hw
  have hle := (span_some h).2
  rw [← ha,← hb,(written_below hregular hfirst fun hs => (hseven hs).1).1,
    (written_below hregular hlast fun hs => (hseven hs).2).1] at hle
  exact ⟨_,_,a,b,htext,hfront,hfirst,hlast,hle⟩

theorem parses_reads (hregular : Regular setting) (hseven : usesSeven setting chunk = false)
    (h : parseChunk setting chunk = some s) : ∃ form, Reads setting chunk form := by
  unfold parseChunk at h
  split at h
  · cases h
  split at h
  · next hstar =>
      subst hstar
      exact ⟨.star,.star⟩
  split at h
  · next hslash =>
      obtain ⟨htext,hfront⟩ := cut_join hslash
      dsimp only at h
      obtain ⟨step,hstep,hbase⟩ := Option.bind_eq_some_iff.mp h
      clear h
      unfold usesSeven at hseven
      rw [if_pos hslash] at hseven
      generalize (cut '/' chunk).1 = base at *
      generalize (cut '/' chunk).2 = tail at *
      split at hbase
      · cases hbase
      · next hpositive =>
          have hsteps : Steps tail step := ⟨hstep,not_le.mp hpositive⟩
          split at hbase
          · next hall =>
              rw [htext,hall]
              exact ⟨_,.starStep hsteps⟩
          split at hbase
          · next hdash =>
              obtain ⟨first,last,a,b,rfl,hfirst,hwritten,hwritten',hle⟩ :=
                parses_range hregular hdash (fun hs => by
                  rw [hs,Bool.true_and,if_pos hdash] at hseven
                  simpa using hseven) hbase
              rw [htext]
              exact ⟨_,.rangeStep hfirst hwritten hwritten' hle hsteps⟩
          · next hdash =>
              obtain ⟨v,hv,-⟩ := Option.bind_eq_some_iff.mp hbase
              obtain ⟨a,hwritten,-⟩ := parses_written hregular hv
              rw [htext]
              exact ⟨_,.fromStep hdash hwritten hsteps⟩
  · next hslash =>
      split at h
      · next hdash =>
          unfold usesSeven at hseven
          rw [if_neg hslash] at hseven
          obtain ⟨first,last,a,b,htext,hfirst,hwritten,hwritten',hle⟩ :=
            parses_range hregular hdash (fun hs => by
              rw [hs,Bool.true_and,if_pos hdash] at hseven
              simpa using hseven) h
          rw [htext]
          exact ⟨_,.range hfirst hwritten hwritten' hle⟩
      · next hdash =>
          obtain ⟨v,hv,-⟩ := Option.map_eq_some_iff.mp h
          obtain ⟨a,hwritten,-⟩ := parses_written hregular hv
          exact ⟨_,.value hdash hwritten⟩

end Chunks

section Denotation

/-- The fields that are accepted are the lists of chunks that can be read. -/
def Accepts (setting : Setting) (field : List Char) : Prop :=
  (cronField setting field).isSome = true ↔ ∀ chunk ∈ chunks field, ∃ form, Reads setting chunk form

/-- The values of a field are those that its chunks denote. -/
def DenotesUnion (setting : Setting) (field : List Char) : Prop :=
  ∀ f, cronField setting field = some f → ∀ v, f.matches v = true ↔
    ∃ chunk ∈ chunks field, ∃ form, Reads setting chunk form ∧ form.Denotes setting v

def Timed (s : CronSchedule) (dt : DateTime) : Prop :=
  s.minute.matches dt.minute = true ∧ s.hour.matches dt.hour = true ∧ s.month.matches dt.month = true

/-- Both day fields are to match when they count together, else one of them. -/
structure Combines (together : Prop) (s : CronSchedule) (dt : DateTime) : Prop where
  both : together → (s.matches (fun _ => dt) 0 = true ↔ Timed s dt ∧
    s.dayOfMonth.matches dt.day = true ∧ s.dayOfWeek.matches (cronWeekday dt) = true)
  either : ¬together → (s.matches (fun _ => dt) 0 = true ↔ Timed s dt ∧
    (s.dayOfMonth.matches dt.day = true ∨ s.dayOfWeek.matches (cronWeekday dt) = true))

def Covers (setting : Setting) (f : CronField) : Prop :=
  ∀ v, setting.minimum ≤ v → v ≤ setting.maximum → f.matches v = true

theorem mapM_isSome {α β : Type} {f : α → Option β} {l : List α} (h : ∀ a ∈ l, ∃ b, f a = some b) :
    ∃ bs, l.mapM f = some bs := by
  induction l with
  | nil => exact ⟨[],rfl⟩
  | cons a l ih =>
    obtain ⟨b,hb⟩ := h a List.mem_cons_self
    obtain ⟨bs,hbs⟩ := ih fun a' ha' => h a' (List.mem_cons_of_mem _ ha')
    exact ⟨b::bs,by rw [List.mapM_cons,hb,hbs]; rfl⟩

variable {setting : Setting} {field : List Char}

theorem field_denotes (hregular : Regular setting)
    (hseven : ∀ chunk ∈ chunks field, usesSeven setting chunk = false) :
    Accepts setting field ∧ DenotesUnion setting field := by
  refine ⟨⟨fun h chunk hchunk => ?_,fun h => ?_⟩,fun f hf v => ?_⟩
  · obtain ⟨f,hf⟩ := Option.isSome_iff_exists.mp h
    obtain ⟨s,-,hs⟩ := forall₂_left (cronField_ok hf).2 hchunk
    exact parses_reads hregular (hseven chunk hchunk) hs
  · obtain ⟨values,hvalues⟩ := mapM_isSome (f := parseChunk setting) fun chunk hchunk => by
      obtain ⟨form,hform⟩ := h chunk hchunk
      obtain ⟨s,hs,-⟩ := reads_parses hregular (hseven chunk hchunk) hform
      exact ⟨s,hs⟩
    rw [cronField,hvalues]
    rfl
  · have hall := (cronField_ok hf).2
    rw [CronField.matches,List.any_eq_true]
    constructor
    · rintro ⟨s,hs,hv⟩
      obtain ⟨chunk,hchunk,hparse⟩ := forall₂_right hall hs
      obtain ⟨form,hform⟩ := parses_reads hregular (hseven chunk hchunk) hparse
      obtain ⟨s',hparse',hdenotes⟩ := reads_parses hregular (hseven chunk hchunk) hform
      rw [hparse] at hparse'
      cases hparse'
      exact ⟨chunk,hchunk,form,hform,(hdenotes v).mp hv⟩
    · rintro ⟨chunk,hchunk,form,hform,hv⟩
      obtain ⟨s,hs,hparse⟩ := forall₂_left hall hchunk
      obtain ⟨s',hparse',hdenotes⟩ := reads_parses hregular (hseven chunk hchunk) hform
      rw [hparse] at hparse'
      cases hparse'
      exact ⟨s,hs,(hdenotes v).mpr hv⟩

variable {expression minute hour dayOfMonth month dayOfWeek : List Char} {s : CronSchedule}

theorem fields_accepted (hfields : fieldsOf expression = [minute,hour,dayOfMonth,month,dayOfWeek])
    (h : cronSchedule expression = some s) : Accepted minute hour dayOfMonth month dayOfWeek s := by
  unfold cronSchedule at h
  rw [hfields] at h
  obtain ⟨f₁,h₁,h⟩ := Option.bind_eq_some_iff.mp h
  obtain ⟨f₂,h₂,h⟩ := Option.bind_eq_some_iff.mp h
  obtain ⟨f₃,h₃,h⟩ := Option.bind_eq_some_iff.mp h
  obtain ⟨f₄,h₄,h⟩ := Option.bind_eq_some_iff.mp h
  obtain ⟨f₅,h₅,h⟩ := Option.bind_eq_some_iff.mp h
  cases h
  exact ⟨h₁,h₂,h₃,h₄,h₅⟩

theorem star_covers {f : CronField} (h : cronField setting field = some f) (hstar : field = ['*']) :
    f.any = true ∧ Covers setting f := by
  subst hstar
  have hfield : cronField setting ['*'] = some ⟨true,[⟨setting.minimum,setting.maximum,1⟩]⟩ := rfl
  rw [hfield] at h
  cases h
  exact ⟨rfl,fun v hlow hhigh => by simp [CronField.matches,Span.contains,hlow,hhigh]⟩

theorem days_combine (h : Accepted minute hour dayOfMonth month dayOfWeek s) (dt : DateTime) :
    Combines (dayOfMonth = ['*'] ∨ dayOfWeek = ['*']) s dt := by
  have hday := (cronField_ok h.dayOfMonth).1
  have hweek := (cronField_ok h.dayOfWeek).1
  have hmatches := matches_eq s (fun _ => dt) 0
  rw [CronAgreement.CronSchedule.dated] at hmatches
  have hdom : dayOfMonth = ['*'] → s.dayOfMonth.matches dt.day = true := fun hstar =>
    (star_covers h.dayOfMonth hstar).2 dt.day (day_bounds dt).1 (day_bounds dt).2
  have hdow : dayOfWeek = ['*'] → s.dayOfWeek.matches (cronWeekday dt) = true := fun hstar =>
    (star_covers h.dayOfWeek hstar).2 _ (weekday_bounds dt).1 (weekday_bounds dt).2
  constructor
  · intro htogether
    rw [hmatches]
    simp only [Bool.and_eq_true,Timed,and_assoc]
    refine and_congr_right fun _ => and_congr_right fun _ => and_congr_right fun _ => ?_
    by_cases hstar : dayOfMonth = ['*']
    · rw [(star_covers h.dayOfMonth hstar).1,hdom hstar]
      cases hany : s.dayOfWeek.any with
      | true =>
        rw [hany] at hweek
        have hdow' := hdow (by simpa using hweek.symm)
        simp [onDay,hdow']
      | false => simp [onDay]
    · have hstar' := htogether.resolve_left hstar
      have hany : s.dayOfMonth.any = false := by
        rw [hday]
        simpa using hstar
      rw [(star_covers h.dayOfWeek hstar').1,hdow hstar',hany]
      simp [onDay]
  · intro hapart
    rw [not_or] at hapart
    have hany : s.dayOfMonth.any = false := by
      rw [hday]
      simpa using hapart.1
    have hany' : s.dayOfWeek.any = false := by
      rw [hweek]
      simpa using hapart.2
    rw [hmatches,hany,hany']
    simp [onDay,Timed,and_assoc]

/-- What fields denote where no seven is in a range or a step of weekdays, and how the day
fields are combined: together when one of them is written as a star. -/
theorem cron_denotation :
    (∀ setting ∈ settings, ∀ field, (∀ chunk ∈ chunks field, usesSeven setting chunk = false) →
      Accepts setting field ∧ DenotesUnion setting field) ∧
    ∀ expression minute hour dayOfMonth month dayOfWeek s,
      fieldsOf expression = [minute,hour,dayOfMonth,month,dayOfWeek] →
      cronSchedule expression = some s →
        ∀ dt, Combines (dayOfMonth = ['*'] ∨ dayOfWeek = ['*']) s dt :=
  ⟨fun setting hsetting _ hseven => field_denotes (settings_regular setting hsetting) hseven,
    fun _ _ _ _ _ _ _ hfields h dt => days_combine (fields_accepted hfields h) dt⟩

/-- The last Sunday of July 2026. -/
def sunday : DateTime where
  year := 2026
  month := 7
  day := 26
  hour := 0
  minute := 0
  second := 0
  microsecond := 0
  dated := by decide
  timed := by decide
  bounded := by decide

/-- Working days and Sunday, and a schedule of the first of a month or a Monday. -/
theorem cron_denotation_sunday : Accepts daysOfWeek "mon-fri,7".toList ∧
    (∀ f, cronField daysOfWeek "mon-fri,7".toList = some f → f.matches 0 = true) ∧
    ∃ s, cronSchedule "0 0 1 * mon".toList = some s ∧ Combines False s sunday := by
  obtain ⟨haccepts,hdenotes⟩ := cron_denotation.1 daysOfWeek (by simp [settings]) "mon-fri,7".toList (by decide)
  refine ⟨haccepts,fun f hf => (hdenotes f hf 0).mpr ?_,_,rfl,?_⟩
  · exact ⟨['7'],by decide,.value 7,.value (by decide) ⟨by decide,by decide,by decide⟩,7,by decide,rfl⟩
  · have hcombines := cron_denotation.2 "0 0 1 * mon".toList ['0'] ['0'] ['1'] ['*'] "mon".toList _
      (by decide) rfl sunday
    exact ⟨False.elim,fun _ => hcombines.either (by decide)⟩

/-- Friday to Sunday is refused, Sunday to Sunday is one day, and a range that covers the
month is combined as one that does not. -/
theorem sunday_denotation :
    (cronField daysOfWeek "5-7".toList = none ∧ Reads daysOfWeek "5-7".toList (.range 5 7)) ∧
    (∃ f, cronField daysOfWeek "0-7".toList = some f ∧ f.matches 1 = false ∧
      Reads daysOfWeek "0-7".toList (.range 0 7) ∧ (Form.range 0 7).Denotes daysOfWeek 1) ∧
    (∃ s, cronSchedule "0 0 1-31 * 1".toList = some s ∧ Covers daysOfMonth s.dayOfMonth ∧
      s.matches (fun _ => sunday) 0 = true ∧ s.dayOfWeek.matches (cronWeekday sunday) = false) ∧
    ¬((∀ setting ∈ settings, ∀ field, Accepts setting field ∧ DenotesUnion setting field) ∧
      ∀ expression s, cronSchedule expression = some s → ∀ dt,
        Combines (Covers daysOfMonth s.dayOfMonth ∨ Covers daysOfWeek s.dayOfWeek) s dt) := by
  have hreads : ∀ a b : Char, Written daysOfWeek [a] 5 → Written daysOfWeek [b] 7 → a ≠ '-' →
      Reads daysOfWeek [a,'-',b] (.range 5 7) := fun a b ha hb hne =>
    .range (by simpa using Ne.symm hne : '-' ∉ [a]) ha hb (by decide)
  have hfriday : Reads daysOfWeek "5-7".toList (.range 5 7) :=
    hreads '5' '7' ⟨by decide,by decide,by decide⟩ ⟨by decide,by decide,by decide⟩ (by decide)
  refine ⟨⟨by decide,hfriday⟩,⟨_,rfl,by decide,?_,1,by decide,by decide⟩,⟨_,rfl,?_,by decide,by decide⟩,
    fun h => ?_⟩
  · exact .range (by decide : '-' ∉ ['0']) ⟨by decide,by decide,by decide⟩
      (⟨by decide,by decide,by decide⟩ : Written daysOfWeek ['7'] 7) (by decide)
  · intro v hlow hhigh
    simpa [CronField.matches,Span.contains,daysOfMonth] using ⟨hlow,hhigh⟩
  · have haccepts := (h.1 daysOfWeek (by simp [settings]) "5-7".toList).1.mpr fun chunk hchunk => by
      rw [show chunks "5-7".toList = ["5-7".toList] by decide,List.mem_singleton] at hchunk
      exact ⟨_,hchunk ▸ hfriday⟩
    rw [show cronField daysOfWeek "5-7".toList = none by decide] at haccepts
    cases haccepts

end Denotation

end OneStep.CronDenotation
