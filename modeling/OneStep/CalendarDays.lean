import OneStep.DateTimeText

/-!
# Days of the proleptic calendar

The date of a day by its number, counted from the first day of the year one, and
the UTC datetime of an instant. The year is found in cycles of 400, 100, 4 and one
years, and the month by an estimate that is at most one too large.
-/
namespace OneStep.CalendarDays
open DateTimeText

section Dates

/-- The month and the day of the month, by the day of the year counted from zero. -/
def monthAndDay (year n : ℕ) : ℕ × ℕ :=
  let month := (n+50)/32
  if n < daysBeforeMonth year month then (month-1,n-daysBeforeMonth year (month-1)+1)
  else (month,n-daysBeforeMonth year month+1)

/-- `_ord2ymd`. -/
def ordinalDate (ordinal : ℕ) : ℕ × ℕ × ℕ :=
  let n := ordinal-1
  let n400 := n/146097
  let n100 := n%146097/36524
  let n4 := n%146097%36524/1461
  let n1 := n%146097%36524%1461/365
  let year := n400*400+1+n100*100+n4*4+n1
  if n1 = 4 ∨ n100 = 4 then (year-1,12,31)
  else (year,monthAndDay year (n%146097%36524%1461%365))

def yearDays (year : ℕ) : ℕ := if isLeap year then 366 else 365

/-- The months of a year depend on whether it is a leap year only. -/
def likeYear (year : ℕ) : ℕ := if isLeap year then 4 else 1

theorem isLeap_likeYear (year : ℕ) : isLeap (likeYear year) = isLeap year := by
  unfold likeYear
  cases isLeap year <;> rfl

theorem daysInMonth_likeYear (year month : ℕ) :
    daysInMonth (likeYear year) month = daysInMonth year month := by
  unfold daysInMonth
  rw [isLeap_likeYear]

theorem daysBeforeMonth_likeYear (year month : ℕ) :
    daysBeforeMonth (likeYear year) month = daysBeforeMonth year month := by
  unfold daysBeforeMonth
  congr 1
  apply List.map_congr_left
  intro m _
  exact daysInMonth_likeYear year (m+1)

theorem monthAndDay_likeYear (year n : ℕ) : monthAndDay (likeYear year) n = monthAndDay year n := by
  unfold monthAndDay
  simp only [daysBeforeMonth_likeYear]

/-- A day of the year, by its month and day. -/
def Locates (year n : ℕ) (md : ℕ × ℕ) : Prop :=
  1 ≤ md.1 ∧ md.1 ≤ 12 ∧ 1 ≤ md.2 ∧ md.2 ≤ daysInMonth year md.1 ∧
    daysBeforeMonth year md.1+md.2 = n+1

instance (year n : ℕ) (md : ℕ × ℕ) : Decidable (Locates year n md) := by
  unfold Locates
  infer_instance

theorem monthAndDay_samples : (∀ n < 365, Locates 1 n (monthAndDay 1 n)) ∧
    ∀ n < 366, Locates 4 n (monthAndDay 4 n) := by
  decide +kernel

theorem monthAndDay_locates {year n : ℕ} (hn : n < yearDays year) :
    Locates year n (monthAndDay year n) := by
  have hlike : Locates (likeYear year) n (monthAndDay (likeYear year) n) := by
    unfold likeYear
    unfold yearDays at hn
    by_cases hleap : isLeap year = true
    · rw [if_pos hleap] at hn ⊢
      exact monthAndDay_samples.2 n hn
    · rw [if_neg hleap] at hn ⊢
      exact monthAndDay_samples.1 n hn
  unfold Locates at hlike ⊢
  simpa only [monthAndDay_likeYear,daysInMonth_likeYear,daysBeforeMonth_likeYear] using hlike

theorem isLeap_iff (year : ℕ) :
    isLeap year = true ↔ year%4 = 0 ∧ (year%100 ≠ 0 ∨ year%400 = 0) := by
  simp [isLeap]

/-- The last date of a supported calendar, `date.max.toordinal()`. -/
def maxOrdinal : ℕ := 3652059

theorem daysBeforeYear_cycles {a b c d : ℕ} (hb : b ≤ 3) (hc : c ≤ 24) (hd : d ≤ 3) :
    daysBeforeYear (a*400+1+b*100+c*4+d) = (a*146097+b*36524+c*1461+d*365 : ℕ) := by
  unfold daysBeforeYear
  dsimp only
  push_cast
  omega

theorem yearDays_cycles {a b c d : ℕ} (hb : b ≤ 3) (hc : c ≤ 24) (hd : d ≤ 3) :
    yearDays (a*400+1+b*100+c*4+d) = if d = 3 ∧ (c ≠ 24 ∨ b = 3) then 366 else 365 := by
  have hleap : isLeap (a*400+1+b*100+c*4+d) = true ↔ d = 3 ∧ (c ≠ 24 ∨ b = 3) := by
    rw [isLeap_iff]
    omega
  unfold yearDays
  exact if_congr hleap rfl rfl

theorem lastDay {year : ℕ} (h : yearDays year = 366) : monthAndDay year 365 = (12,31) := by
  have hleap : isLeap year = true := by
    by_contra hne
    rw [yearDays,if_neg hne] at h
    omega
  rw [← monthAndDay_likeYear,likeYear,if_pos hleap]
  decide +kernel

theorem ordinalDate_year {ordinal : ℕ} (hone : 1 ≤ ordinal) (hmax : ordinal ≤ maxOrdinal) :
    ∃ year n, ordinalDate ordinal = (year,monthAndDay year n) ∧ n < yearDays year ∧
      1 ≤ year ∧ year ≤ 9999 ∧ daysBeforeYear year+n+1 = ordinal := by
  unfold maxOrdinal at hmax
  unfold ordinalDate
  dsimp only
  generalize ha : (ordinal-1)/146097 = a
  generalize hr : (ordinal-1)%146097 = r
  generalize hb : r/36524 = b
  generalize hs : r%36524 = s
  generalize hc : s/1461 = c
  generalize ht : s%1461 = t
  generalize hd : t/365 = d
  generalize hu : t%365 = u
  by_cases hlast : d = 4 ∨ b = 4
  · rw [if_pos hlast]
    by_cases hcentury : b = 4
    · have hyear : a*400+1+b*100+c*4+d-1 = a*400+1+3*100+24*4+3 := by omega
      have hdays := yearDays_cycles (a := a) (b := 3) (c := 24) (d := 3) le_rfl le_rfl le_rfl
      have hbefore := daysBeforeYear_cycles (a := a) (b := 3) (c := 24) (d := 3) le_rfl le_rfl le_rfl
      rw [if_pos (by decide)] at hdays
      refine ⟨a*400+1+3*100+24*4+3,365,?_,by omega,by omega,by omega,by omega⟩
      rw [hyear,lastDay hdays]
    · have hyear : a*400+1+b*100+c*4+d-1 = a*400+1+b*100+c*4+3 := by omega
      have hdays := yearDays_cycles (a := a) (b := b) (c := c) (d := 3) (by omega) (by omega) le_rfl
      have hbefore := daysBeforeYear_cycles (a := a) (b := b) (c := c) (d := 3) (by omega)
        (by omega) le_rfl
      rw [if_pos (by omega)] at hdays
      refine ⟨a*400+1+b*100+c*4+3,365,?_,by omega,by omega,by omega,by omega⟩
      rw [hyear,lastDay hdays]
  · rw [if_neg hlast]
    have hdays := yearDays_cycles (a := a) (b := b) (c := c) (d := d) (by omega) (by omega) (by omega)
    have hbefore := daysBeforeYear_cycles (a := a) (b := b) (c := c) (d := d) (by omega) (by omega)
      (by omega)
    refine ⟨a*400+1+b*100+c*4+d,u,rfl,?_,by omega,by omega,by omega⟩
    rw [hdays]
    split_ifs <;> omega

end Dates

section Utc

/-- The datetime in UTC at an instant; none when it is out of range. -/
def utc (i : ℤ) : Option DateTime :=
  if i/day < 1 ∨ maxOrdinal < i/day then none
  else
    let date := ordinalDate (i/day).toNat
    let us := (i%day).toNat
    make date.1 date.2.1 date.2.2
      (us/second/3600,us/second/60%60,us/second%60,us%second) (some 0) false

/-- The instants from the year one to the year 9999. -/
def InRange (i : ℤ) : Prop := 1 ≤ i/day ∧ i/day ≤ maxOrdinal

instance (i : ℤ) : Decidable (InRange i) := inferInstanceAs (Decidable (_ ∧ _))

theorem utc_inRange {i : ℤ} (hi : InRange i) :
    ∃ d, utc i = some d ∧ wall d = i ∧ d.offset = some 0 ∧ d.fold = false := by
  obtain ⟨hlow,hhigh⟩ := hi
  have hnot : ¬(i/day < 1 ∨ maxOrdinal < i/day) := by omega
  obtain ⟨year,n,hdate,hn,hyear,hyear',hcount⟩ :=
    @ordinalDate_year (i/day).toNat (by omega) (by omega)
  obtain ⟨hm,hm',hd,hd',hbefore⟩ := monthAndDay_locates hn
  have hus : (i%day).toNat < day := by
    have hpos : (0 : ℤ) < day := by decide
    have hlt := Int.emod_lt_of_pos i hpos
    omega
  have hsecond : second = 1000000 := rfl
  have hday : day = 86400*second := rfl
  have hi : i = i/day*day+(i%day).toNat := by
    have hpos : (0 : ℤ) < day := by decide
    have hnonneg := Int.emod_nonneg i hpos.ne'
    have hdiv := Int.mul_ediv_add_emod i day
    rw [Int.toNat_of_nonneg hnonneg,mul_comm]
    exact hdiv.symm
  unfold utc
  rw [if_neg hnot,hdate]
  generalize (i%day).toNat = us at hus hi
  dsimp only
  have hclock : us/second/3600 < 24 ∧ us/second/60%60 < 60 ∧ us/second%60 < 60 ∧
      us%second < second := by
    rw [hday,hsecond] at hus
    rw [hsecond]
    omega
  have hzero : ∀ o ∈ (some 0 : Option ℤ), o.natAbs < day := by
    intro o ho
    cases ho
    decide
  have hdated : 1 ≤ year ∧ year ≤ 9999 ∧ 1 ≤ (monthAndDay year n).1 ∧
      (monthAndDay year n).1 ≤ 12 ∧ 1 ≤ (monthAndDay year n).2 ∧
      (monthAndDay year n).2 ≤ daysInMonth year (monthAndDay year n).1 :=
    ⟨hyear,hyear',hm,hm',hd,hd'⟩
  refine ⟨_,dif_pos ⟨hdated,hclock,hzero⟩,?_,rfl,rfl⟩
  unfold wall
  dsimp only
  have hdays : daysBeforeYear year+daysBeforeMonth year (monthAndDay year n).1+
      (monthAndDay year n).2 = i/day := by
    omega
  have hparts : (us/second/3600*3600+us/second/60%60*60+us/second%60)*second+us%second = us := by
    rw [hsecond]
    omega
  rw [hdays,hparts]
  exact hi.symm

end Utc

end OneStep.CalendarDays
