import OneStep.DigitText

/-!
# Datetimes and their text

A `datetime` of the proleptic calendar, naive or with a fixed offset from UTC in
microseconds. `isoformat` writes it, and `fromisoformat` reads the formats that
it writes, with the shortenings the documentation allows. Reading gives back
what was written, but for the fold, which the text does not hold.
-/
namespace OneStep.DateTimeText
open DigitText

def isLeap (year : ℕ) : Bool := year%4 == 0 && (year%100 != 0 || year%400 == 0)

def daysInMonth (year month : ℕ) : ℕ :=
  if month = 2 then (if isLeap year then 29 else 28)
  else if month = 4 ∨ month = 6 ∨ month = 9 ∨ month = 11 then 30
  else 31

theorem daysInMonth_le (year month : ℕ) : daysInMonth year month ≤ 31 := by
  unfold daysInMonth
  split
  · split <;> omega
  · split <;> omega

/-- A second and a day, in microseconds. -/
def second : ℕ := 1000000

def day : ℕ := 86400*second

structure DateTime where
  year : ℕ
  month : ℕ
  day : ℕ
  hour : ℕ
  minute : ℕ
  second : ℕ
  microsecond : ℕ
  offset : Option ℤ := none
  fold : Bool := false
  dated : 1 ≤ year ∧ year ≤ 9999 ∧ 1 ≤ month ∧ month ≤ 12 ∧ 1 ≤ day ∧ day ≤ daysInMonth year month
  timed : hour < 24 ∧ minute < 60 ∧ second < 60 ∧ microsecond < DateTimeText.second
  bounded : ∀ o ∈ offset, o.natAbs < DateTimeText.day
  deriving DecidableEq, Repr

theorem midnight_timed : 0 < 24 ∧ 0 < 60 ∧ 0 < 60 ∧ 0 < second := by decide

theorem utc_bounded : ∀ o ∈ some (0 : ℤ), o.natAbs < day := by decide

section Instants

def daysBeforeYear (year : ℕ) : ℤ :=
  let y : ℤ := year-1
  y*365+y/4-y/100+y/400

def daysBeforeMonth (year month : ℕ) : ℕ :=
  ((List.range (month-1)).map fun m => daysInMonth year (m+1)).sum

/-- The reading of the clock, in microseconds. -/
def wall (d : DateTime) : ℤ :=
  (daysBeforeYear d.year+daysBeforeMonth d.year d.month+d.day)*day+
    ((d.hour*3600+d.minute*60+d.second)*second+d.microsecond : ℕ)

/-- The instant of a datetime with an offset. -/
def instant (d : DateTime) : Option ℤ := d.offset.map fun o => wall d-o

/-- `==`: a naive datetime equals none with an offset. -/
def DateTime.equals (d e : DateTime) : Bool :=
  match d.offset,e.offset with
  | none,none => decide ({d with fold := e.fold} = e)
  | some _,some _ => decide (instant d = instant e)
  | _,_ => false

end Instants

section Text

def two (n : ℕ) : List Char := fixed 10 2 n

/-- The microseconds behind a point, when there are any. -/
def fraction (us : ℕ) : List Char := if us = 0 then [] else '.'::fixed 10 6 us

def offsetText (o : ℤ) : List Char :=
  let us := o.natAbs%second
  let s := o.natAbs/second
  (if o < 0 then '-' else '+')::two (s/3600)++ ':'::two (s/60%60)++
    if s%60 = 0 ∧ us = 0 then [] else ':'::two (s%60)++fraction us

def isoformat (d : DateTime) : List Char :=
  fixed 10 4 d.year++ '-'::two d.month++ '-'::two d.day++ 'T'::two d.hour++ ':'::two d.minute++
    ':'::two d.second++fraction d.microsecond++d.offset.elim [] offsetText

end Text

section Reading

def readTwo (cs : List Char) : Option (ℕ × List Char) := readFixed 10 2 0 cs

/-- The digits behind a point: three or six, and nothing else. -/
def readFraction (cs : List Char) : Option ℕ :=
  if cs.length = 3 then (readFixed 10 3 0 cs).map fun r => r.1*1000
  else if cs.length = 6 then (readFixed 10 6 0 cs).map Prod.fst
  else none

def expect (c : Char) : List Char → Option (List Char)
  | [] => none
  | d::cs => if d = c then some cs else none

/-- `HH[:MM[:SS[.fff[fff]]]]`. -/
def readClock (cs : List Char) : Option (ℕ × ℕ × ℕ × ℕ) :=
  (readTwo cs).bind fun h =>
    if h.2.isEmpty then some (h.1,0,0,0)
    else (expect ':' h.2).bind fun cs => (readTwo cs).bind fun m =>
      if m.2.isEmpty then some (h.1,m.1,0,0)
      else (expect ':' m.2).bind fun cs => (readTwo cs).bind fun s =>
        if s.2.isEmpty then some (h.1,m.1,s.1,0)
        else (expect '.' s.2).bind fun cs => (readFraction cs).map fun us => (h.1,m.1,s.1,us)

/-- A sign and `HH:MM[:SS[.ffffff]]`. -/
def readOffset (cs : List Char) : Option ℤ :=
  match cs with
  | [] => none
  | sign::cs =>
    if cs.length ≠ 5 ∧ cs.length ≠ 8 ∧ cs.length ≠ 15 then none
    else (readClock cs).bind fun c =>
      if c.2.1 < 60 ∧ c.2.2.1 < 60 then
        let o : ℤ := ((c.1*3600+c.2.1*60+c.2.2.1)*second+c.2.2.2 : ℕ)
        some (if sign = '-' then -o else o)
      else none

def isSign (c : Char) : Bool := c == '+' || c == '-'

/-- The constructor, which refuses fields out of range. -/
def make (year month day : ℕ) (clock : ℕ × ℕ × ℕ × ℕ) (offset : Option ℤ) (fold : Bool) :
    Option DateTime :=
  if h : (1 ≤ year ∧ year ≤ 9999 ∧ 1 ≤ month ∧ month ≤ 12 ∧ 1 ≤ day ∧ day ≤ daysInMonth year month) ∧
      (clock.1 < 24 ∧ clock.2.1 < 60 ∧ clock.2.2.1 < 60 ∧ clock.2.2.2 < second) ∧
      ∀ o ∈ offset, o.natAbs < DateTimeText.day then
    some ⟨year,month,day,clock.1,clock.2.1,clock.2.2.1,clock.2.2.2,offset,fold,h.1,h.2.1,h.2.2⟩
  else none

/-- `datetime.fromisoformat`; none when it raises `ValueError`. -/
def fromisoformat (cs : List Char) : Option DateTime :=
  (readFixed 10 4 0 cs).bind fun y => (expect '-' y.2).bind fun cs => (readTwo cs).bind fun m =>
    (expect '-' m.2).bind fun cs => (readTwo cs).bind fun d =>
      match d.2 with
      | [] => make y.1 m.1 d.1 (0,0,0,0) none false
      | _::cs =>
        (readClock (cs.takeWhile fun c => !isSign c)).bind fun clock =>
          match cs.dropWhile fun c => !isSign c with
          | [] => make y.1 m.1 d.1 clock none false
          | tz => (readOffset tz).bind fun o => make y.1 m.1 d.1 clock (some o) false

end Reading

section RoundTrip

theorem readTwo_two {n : ℕ} (hn : n < 100) (cs : List Char) :
    readTwo (two n++cs) = some (n,cs) := by
  have hread := readFixed_fixed (b := 10) (by decide) (w := 2) (n := n) (by simpa using hn) 0 cs
  rw [Nat.zero_mul,Nat.zero_add] at hread
  exact hread

variable {us : ℕ}

theorem readFraction_fixed (hus : us < second) : readFraction (fixed 10 6 us) = some us := by
  have hread := readFixed_fixed (b := 10) (by decide) (w := 6) (n := us)
    (by unfold second at hus; omega) 0 []
  rw [List.append_nil,Nat.zero_mul,Nat.zero_add] at hread
  unfold readFraction
  rw [length_fixed,if_neg (by decide),if_pos rfl,hread]
  rfl

theorem expect_cons (c : Char) (cs : List Char) : expect c (c::cs) = some cs := if_pos rfl

theorem readClock_seconds {h m s : ℕ} (hh : h < 100) (hm : m < 100) (hs : s < 100)
    (hus : us < second) :
    readClock (two h++ ':'::two m++ ':'::two s++fraction us) = some (h,m,s,us) := by
  unfold readClock
  simp only [List.append_assoc,List.cons_append,readTwo_two hh,readTwo_two hm,readTwo_two hs,
    Option.bind_some,List.isEmpty_cons,expect_cons,Bool.false_eq_true,if_false]
  unfold fraction
  by_cases hzero : us = 0
  · rw [if_pos hzero,hzero]
    rfl
  · rw [if_neg hzero,List.isEmpty_cons,if_neg Bool.false_ne_true,expect_cons,Option.bind_some,
      readFraction_fixed hus,Option.map_some]

theorem readClock_minutes {h m : ℕ} (hh : h < 100) (hm : m < 100) :
    readClock (two h++ ':'::two m) = some (h,m,0,0) := by
  have hread := readTwo_two hm []
  rw [List.append_nil] at hread
  unfold readClock
  rw [readTwo_two hh,Option.bind_some,List.isEmpty_cons,if_neg Bool.false_ne_true,expect_cons,
    Option.bind_some,hread]
  rfl

theorem length_fraction (us : ℕ) : (fraction us).length = if us = 0 then 0 else 7 := by
  unfold fraction
  split
  · rfl
  · rw [List.length_cons,length_fixed]

theorem length_two (n : ℕ) : (two n).length = 2 := length_fixed 10 2 n

theorem readOffset_offsetText {o : ℤ} (ho : o.natAbs < day) : readOffset (offsetText o) = some o := by
  have hus : o.natAbs%second < second := Nat.mod_lt _ (by decide)
  have hparts := Nat.div_add_mod o.natAbs second
  have hh : o.natAbs/second/3600 < 100 := by
    unfold day second at *
    omega
  have hm : o.natAbs/second/60%60 < 60 := Nat.mod_lt _ (by decide)
  have hs : o.natAbs/second%60 < 60 := Nat.mod_lt _ (by decide)
  have hback : (o.natAbs/second/3600*3600+o.natAbs/second/60%60*60+o.natAbs/second%60)*second+
      o.natAbs%second = o.natAbs := by
    have hclock : o.natAbs/second/3600*3600+o.natAbs/second/60%60*60+o.natAbs/second%60 =
        o.natAbs/second := by omega
    rw [hclock,Nat.mul_comm]
    exact hparts
  have hsigned : ∀ n : ℕ, n = o.natAbs →
      (if (if o < 0 then '-' else '+') = '-' then -(n : ℤ) else (n : ℤ)) = o := by
    intro n hn
    by_cases hneg : o < 0
    · rw [if_pos hneg,if_pos rfl]
      omega
    · rw [if_neg hneg,if_neg (by decide)]
      omega
  unfold offsetText readOffset
  dsimp only
  by_cases hshort : o.natAbs/second%60 = 0 ∧ o.natAbs%second = 0
  · rw [if_pos hshort,List.append_nil,List.cons_append]
    dsimp only
    rw [if_neg (by simp [length_two]),readClock_minutes hh (by omega),Option.bind_some,
      if_pos ⟨hm,Nat.succ_pos 59⟩]
    rw [hshort.1,hshort.2] at hback
    rw [hsigned _ hback]
  · rw [if_neg hshort,List.cons_append,List.cons_append]
    dsimp only
    have hlength : (two (o.natAbs/second/3600)++ ':'::two (o.natAbs/second/60%60)++
        ':'::(two (o.natAbs/second%60)++fraction (o.natAbs%second))).length =
          8+(fraction (o.natAbs%second)).length := by
      simp only [List.length_append,List.length_cons,length_two]
      omega
    have hread := readClock_seconds hh (show o.natAbs/second/60%60 < 100 by omega)
      (show o.natAbs/second%60 < 100 by omega) hus
    simp only [List.append_assoc,List.cons_append] at hread hlength ⊢
    rw [hread,hlength,length_fraction,if_neg (by split <;> omega),Option.bind_some,
      if_pos ⟨hm,hs⟩,hsigned _ hback]

theorem two_unsigned {n : ℕ} (hn : n < 100) : ∀ c ∈ two n, (!isSign c) = true := by
  intro c hc
  have hplus := fixed_ne (b := 10) (by decide) (by simpa using hn) hc (d := '+') (by decide)
  have hminus := fixed_ne (b := 10) (by decide) (by simpa using hn) hc (d := '-') (by decide)
  simp [isSign,hplus,hminus]

theorem fraction_unsigned (hus : us < second) : ∀ c ∈ fraction us, (!isSign c) = true := by
  intro c hc
  unfold fraction at hc
  split at hc
  · cases hc
  · rcases List.mem_cons.mp hc with rfl | hc
    · rfl
    · have hbound : us < 10^6 := hus
      have hplus := fixed_ne (b := 10) (by decide) hbound hc (d := '+') (by decide)
      have hminus := fixed_ne (b := 10) (by decide) hbound hc (d := '-') (by decide)
      simp [isSign,hplus,hminus]

theorem clock_unsigned {h m s : ℕ} (hh : h < 100) (hm : m < 100) (hs : s < 100)
    (hus : us < second) :
    ∀ c ∈ two h++ ':'::two m++ ':'::two s++fraction us, (!isSign c) = true := by
  intro c hc
  simp only [List.append_assoc,List.cons_append,List.mem_append,List.mem_cons] at hc
  rcases hc with hc | rfl | hc | rfl | hc | hc
  · exact two_unsigned hh c hc
  · rfl
  · exact two_unsigned hm c hc
  · rfl
  · exact two_unsigned hs c hc
  · exact fraction_unsigned hus c hc

theorem make_self (d : DateTime) :
    make d.year d.month d.day (d.hour,d.minute,d.second,d.microsecond) d.offset false =
      some {d with fold := false} := by
  unfold make
  exact dif_pos ⟨d.dated,d.timed,d.bounded⟩

theorem offset_apart {cs : List Char} (hcs : ∀ c ∈ cs, (!isSign c) = true) (offset : Option ℤ) :
    (cs++offset.elim [] offsetText).takeWhile (fun c => !isSign c) = cs ∧
      (cs++offset.elim [] offsetText).dropWhile (fun c => !isSign c) =
        offset.elim [] offsetText := by
  have hstart : (offset.elim [] offsetText).takeWhile (fun c => !isSign c) = [] ∧
      (offset.elim [] offsetText).dropWhile (fun c => !isSign c) = offset.elim [] offsetText := by
    cases offset with
    | none => exact ⟨rfl,rfl⟩
    | some o =>
      have hsign : (!isSign (if o < 0 then '-' else '+')) = false := by split <;> rfl
      rw [Option.elim_some]
      unfold offsetText
      dsimp only
      rw [List.cons_append,List.cons_append]
      constructor
      · rw [List.takeWhile_cons,hsign]
        rfl
      · rw [List.dropWhile_cons,hsign]
        rfl
  constructor
  · rw [List.takeWhile_append_of_pos hcs,hstart.1,List.append_nil]
  · rw [List.dropWhile_append_of_pos hcs,hstart.2]

/-- `fromisoformat` reads what `isoformat` wrote, without the fold. -/
theorem fromisoformat_isoformat (d : DateTime) :
    fromisoformat (isoformat d) = some {d with fold := false} := by
  obtain ⟨-,hyear,-,hmonth,-,hday⟩ := d.dated
  obtain ⟨hhour,hminute,hsecond,hus⟩ := d.timed
  have hmax := daysInMonth_le d.year d.month
  have hdays : d.day < 100 := by omega
  have hread := readFixed_fixed (b := 10) (by decide) (w := 4) (n := d.year) (by omega) 0
  simp only [Nat.zero_mul,Nat.zero_add] at hread
  have hunsigned := clock_unsigned (show d.hour < 100 by omega) (show d.minute < 100 by omega)
    (show d.second < 100 by omega) hus
  have hclock := readClock_seconds (show d.hour < 100 by omega) (show d.minute < 100 by omega)
    (show d.second < 100 by omega) hus
  obtain ⟨htake,hdrop⟩ := offset_apart hunsigned d.offset
  have hmake := make_self d
  unfold isoformat fromisoformat
  simp only [List.append_assoc,List.cons_append] at hclock htake hdrop ⊢
  simp only [hread,Option.bind_some,expect_cons,readTwo_two (show d.month < 100 by omega),
    readTwo_two hdays,htake,hdrop,hclock]
  rw [← hmake]
  have hbounded := d.bounded
  generalize d.offset = offset at hbounded
  cases offset with
  | none => rfl
  | some o =>
    rw [Option.elim_some]
    split
    · next hnil =>
        unfold offsetText at hnil
        cases hnil
    · rw [readOffset_offsetText (hbounded o rfl),Option.bind_some]

end RoundTrip

end OneStep.DateTimeText
