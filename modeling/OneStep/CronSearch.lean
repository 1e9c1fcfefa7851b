import OneStep.CalendarDays
import OneStep.CronAgreement
import Mathlib.Order.Bounds.Basic

/-!
# The next minute of a cron schedule

In a timezone with a constant offset the clock reads the instant and the offset together.
The search goes through the minutes one by one, over two years of 366 days, and ends also
where the calendar does, with the year 9999.
-/
namespace OneStep.CronSearch
open CalendarDays CronFields DateTimeText

section Model

def minute : ℤ := 60000000

def newYear : DateTime where
  year := 1
  month := 1
  day := 1
  hour := 0
  minute := 0
  second := 0
  microsecond := 0
  offset := some 0
  dated := by decide
  timed := midnight_timed
  bounded := utc_bounded

/-- What stands on the clock. -/
def reading (w : ℤ) : DateTime := (utc w).getD newYear

/-- `CronSchedule.matches` at a reading of the clock. -/
def matchesAt (s : CronSchedule) (w : ℤ) : Bool := s.matches reading w

/-- The search has found nothing, or it has left the calendar. -/
inductive Raised where
  | notFound
  | overflow
  deriving DecidableEq

def advance (w : ℤ) : Except Raised ℤ :=
  if InRange (w+minute) then .ok (w+minute) else .error .overflow

/-- The loop of `next_after`. -/
def search (s : CronSchedule) : ℕ → ℤ → Except Raised ℤ
  | 0,_ => .error .notFound
  | n+1,candidate =>
    if matchesAt s candidate then .ok candidate else (advance candidate).bind (search s n)

def searched : ℕ := 366*24*60*2

variable (s : CronSchedule) (offset : ℤ)

def nextAfter (current : ℤ) : Except Raised ℤ :=
  ((advance ((current+offset)/minute*minute)).bind (search s searched)).map fun w => w-offset

def firstFireAt (now : ℤ) : Except Raised ℤ :=
  if (now+offset)%minute = 0 ∧ matchesAt s (now+offset) = true then .ok now else nextAfter s offset now

end Model

section Search
variable {s : CronSchedule} {c w : ℤ}

theorem inRange_between {a b : ℤ} (ha : InRange a) (hb : InRange b) (hac : a ≤ c) (hcb : c ≤ b) :
    InRange c :=
  ⟨ha.1.trans (Int.ediv_le_ediv (by decide) hac),(Int.ediv_le_ediv (by decide) hcb).trans hb.2⟩

theorem advance_ok (h : advance c = .ok w) : w = c+minute ∧ InRange w := by
  unfold advance at h
  split at h
  · next hrange =>
      cases h
      exact ⟨rfl,hrange⟩
  · cases h

theorem search_ok {n : ℕ} (hc : InRange c) (h : search s n c = .ok w) :
    ∃ k < n, w = c+k*minute ∧ InRange w ∧ matchesAt s w = true ∧
      ∀ j < k, matchesAt s (c+j*minute) = false := by
  induction n generalizing c with
  | zero => cases h
  | succ n ih =>
    rw [search] at h
    split at h
    · next hmatch =>
        cases h
        exact ⟨0,Nat.succ_pos n,by simp,hc,hmatch,fun j hj => absurd hj (Nat.not_lt_zero j)⟩
    · next hmatch =>
        cases hnext : advance c with
        | error e =>
          rw [hnext] at h
          cases h
        | ok c' =>
          rw [hnext] at h
          obtain ⟨rfl,hc'⟩ := advance_ok hnext
          obtain ⟨k,hk,rfl,hw,hfound,hnone⟩ := ih hc' h
          refine ⟨k+1,Nat.succ_lt_succ hk,by push_cast; ring,hw,hfound,fun j hj => ?_⟩
          cases j with
          | zero => simpa using hmatch
          | succ j =>
            have hbefore := hnone j (by omega)
            rw [show c+minute+(j : ℤ)*minute = c+((j+1 : ℕ) : ℤ)*minute by push_cast; ring]
              at hbefore
            exact hbefore

theorem search_finds {n k : ℕ} (hk : k < n) (hc : InRange c) (hw : InRange (c+k*minute))
    (hmatch : matchesAt s (c+k*minute) = true) : ∃ r, search s n c = .ok r := by
  induction n generalizing c k with
  | zero => exact absurd hk (Nat.not_lt_zero k)
  | succ n ih =>
    rw [search]
    split
    · exact ⟨c,rfl⟩
    · next hfirst =>
        cases k with
        | zero =>
          rw [Nat.cast_zero,Int.zero_mul,Int.add_zero] at hmatch
          exact absurd hmatch hfirst
        | succ k =>
          have hstep : c+((k+1 : ℕ) : ℤ)*minute = c+minute+k*minute := by push_cast; ring
          rw [hstep] at hw hmatch
          have hnonneg : (0 : ℤ) ≤ k*minute := Int.mul_nonneg (Int.natCast_nonneg k) (by decide)
          have hpos : (0 : ℤ) ≤ minute := by decide
          have hc' : InRange (c+minute) := inRange_between hc hw (by omega) (by omega)
          have hnext : advance c = .ok (c+minute) := if_pos hc'
          rw [hnext]
          exact ih (by omega) hc' hw hmatch

end Search

section Exactness
variable (s : CronSchedule) (offset t : ℤ)

/-- A whole minute of the clock that is later and matches. -/
structure Later (r : ℤ) : Prop where
  later : t < r
  whole : (r+offset)%minute = 0
  dated : InRange (r+offset)
  fits : matchesAt s (r+offset) = true

/-- What a search from an instant is to come to. -/
structure Exact : Prop where
  next : ∀ r, nextAfter s offset t = .ok r → IsLeast {r | Later s offset t r} r
  raises : ∀ e, nextAfter s offset t = .error e → ∀ r, ¬Later s offset t r
  first : firstFireAt s offset t =
    if (t+offset)%minute = 0 ∧ matchesAt s (t+offset) = true then .ok t else nextAfter s offset t

def lastSearched : ℤ := (t+offset)/minute*minute+searched*minute

variable {s offset t}

theorem nextAfter_ok {r : ℤ} (h : nextAfter s offset t = .ok r) :
    ∃ w, search s searched ((t+offset)/minute*minute+minute) = .ok w ∧
      InRange ((t+offset)/minute*minute+minute) ∧ r = w-offset := by
  unfold nextAfter at h
  cases hfirst : advance ((t+offset)/minute*minute) with
  | error e =>
    rw [hfirst] at h
    cases h
  | ok c =>
    rw [hfirst] at h
    obtain ⟨rfl,hc⟩ := advance_ok hfirst
    change (search s searched _).map _ = _ at h
    cases hsearch : search s searched ((t+offset)/minute*minute+minute) with
    | error e =>
      rw [hsearch] at h
      cases h
    | ok w =>
      rw [hsearch] at h
      cases h
      exact ⟨w,rfl,hc,rfl⟩

theorem later_count {r : ℤ} (h : Later s offset t r) :
    ∃ k : ℕ, r+offset = (t+offset)/minute*minute+minute+k*minute := by
  have hlater := h.later
  have hwhole := h.whole
  have hdiv := Int.emod_add_mul_ediv (r+offset) minute
  have hstart := Int.lt_ediv_add_one_mul_self (t+offset) (show (0 : ℤ) < minute by decide)
  rw [hwhole] at hdiv
  have hle : (t+offset)/minute+1 ≤ (r+offset)/minute := by
    unfold minute at *
    omega
  refine ⟨((r+offset)/minute-((t+offset)/minute+1)).toNat,?_⟩
  rw [Int.toNat_of_nonneg (by omega)]
  unfold minute at *
  omega

theorem nextAfter_isLeast {r : ℤ} (h : nextAfter s offset t = .ok r) :
    IsLeast {r | Later s offset t r} r ∧ r+offset ≤ lastSearched offset t := by
  obtain ⟨w,hsearch,hc,rfl⟩ := nextAfter_ok h
  obtain ⟨k,hk,rfl,hw,hmatch,hnone⟩ := search_ok hc hsearch
  have hstart := Int.lt_ediv_add_one_mul_self (t+offset) (show (0 : ℤ) < minute by decide)
  have hnonneg : (0 : ℤ) ≤ k*minute := Int.mul_nonneg (Int.natCast_nonneg k) (by decide)
  refine ⟨⟨⟨?_,?_,?_,?_⟩,fun r' hr' => ?_⟩,?_⟩
  · unfold minute at *
    omega
  · unfold minute
    omega
  · rw [Int.sub_add_cancel]
    exact hw
  · rw [Int.sub_add_cancel]
    exact hmatch
  · obtain ⟨j,hj⟩ := later_count hr'
    by_contra hless
    have hjk : j < k := by
      unfold minute at *
      omega
    have hfits := hr'.fits
    rw [hj,hnone j hjk] at hfits
    cases hfits
  · unfold lastSearched minute
    omega

/-- The search is exact from an instant unless the next minute that matches is too far. -/
theorem fires_exactly_iff (ht : InRange (t+offset)) : Exact s offset t ↔
    ∀ r, Later s offset t r → ∃ r', Later s offset t r' ∧ r'+offset ≤ lastSearched offset t := by
  constructor
  · intro h r hr
    cases hnext : nextAfter s offset t with
    | error e => exact absurd hr (h.raises e hnext r)
    | ok r' =>
      obtain ⟨hleast,hlast⟩ := nextAfter_isLeast hnext
      exact ⟨r',hleast.1,hlast⟩
  · intro h
    refine ⟨fun r hr => (nextAfter_isLeast hr).1,fun e he r hr => ?_,rfl⟩
    obtain ⟨r',hr',hlast⟩ := h r hr
    obtain ⟨k,hk⟩ := later_count hr'
    have hnonneg : (0 : ℤ) ≤ k*minute := Int.mul_nonneg (Int.natCast_nonneg k) (by decide)
    have hstart := Int.lt_ediv_add_one_mul_self (t+offset) (show (0 : ℤ) < minute by decide)
    have hfirst : InRange ((t+offset)/minute*minute+minute) := by
      refine inRange_between ht hr'.dated ?_ (by omega)
      unfold minute at *
      omega
    have hcount : k < searched := by
      unfold lastSearched minute at *
      omega
    have hdated := hr'.dated
    have hfits := hr'.fits
    rw [hk] at hdated hfits
    obtain ⟨w,hw⟩ := search_finds hcount hfirst hdated hfits
    have hadvance : advance ((t+offset)/minute*minute) = .ok ((t+offset)/minute*minute+minute) :=
      if_pos hfirst
    unfold nextAfter at he
    rw [hadvance] at he
    change (search s searched _).map _ = _ at he
    rw [hw] at he
    cases he

theorem reading_date {w : ℤ} (h : InRange w) : (reading w).month = (ordinalDate (w/day).toNat).2.1 ∧
    (reading w).day = (ordinalDate (w/day).toNat).2.2 := by
  obtain ⟨d,hd,-⟩ := utc_inRange h
  have hnot : ¬(w/day < 1 ∨ maxOrdinal < w/day) := by
    obtain ⟨hlow,hhigh⟩ := h
    omega
  rw [reading,hd,Option.getD_some]
  unfold utc at hd
  rw [if_neg hnot] at hd
  simp only [make] at hd
  split at hd
  · cases hd
    exact ⟨rfl,rfl⟩
  · cases hd

def leapDay : CronSchedule where
  minute := ⟨false,[⟨0,0,1⟩]⟩
  hour := ⟨false,[⟨0,0,1⟩]⟩
  dayOfMonth := ⟨false,[⟨29,29,1⟩]⟩
  month := ⟨false,[⟨2,2,1⟩]⟩
  dayOfWeek := ⟨true,[⟨0,6,1⟩]⟩

theorem leapDay_date {w : ℤ} (hw : InRange w) (h : matchesAt leapDay w = true) :
    (ordinalDate (w/day).toNat).2 = (2,29) := by
  obtain ⟨hmonth,hday⟩ := reading_date hw
  unfold matchesAt at h
  rw [CronAgreement.matches_eq,Bool.and_eq_true] at h
  have hdated := h.2
  simp only [CronAgreement.CronSchedule.dated,CronAgreement.onDay,leapDay,CronField.matches,
    Span.contains,List.any_cons,List.any_nil,Bool.or_false,Bool.and_eq_true,decide_eq_true_eq,
    Bool.false_and,Bool.false_eq_true,if_false,if_true] at hdated
  refine Prod.ext ?_ ?_
  · rw [← hmonth]
    have hm := hdated.1
    omega
  · rw [← hday]
    have hd := hdated.2
    omega

/-- The first of March 2025, 29 February 2028 and the first of January 2028, in UTC. -/
def march2025 : ℤ := 739311*day

def february2028 : ℤ := 740406*day

def january2028 : ℤ := 740347*day

theorem leapDay_far : ∀ k < 734, (ordinalDate (739311+k)).2 ≠ (2,29) := by decide +kernel

theorem leapDay_later (h : t < february2028) : Later leapDay 0 t february2028 :=
  ⟨h,by decide,by decide,by decide +kernel⟩

/-- Two years are searched for the next 29 February, which is three years away. -/
theorem leapDay_missed : cronSchedule "0 0 29 2 *".toList = some leapDay ∧
    Later leapDay 0 march2025 february2028 ∧
    (∃ e, nextAfter leapDay 0 march2025 = .error e) ∧ ¬Exact leapDay 0 march2025 := by
  have hlater : Later leapDay 0 march2025 february2028 := leapDay_later (by decide)
  have hraises : ∃ e, nextAfter leapDay 0 march2025 = .error e := by
    cases hnext : nextAfter leapDay 0 march2025 with
    | error e => exact ⟨e,rfl⟩
    | ok r =>
      exfalso
      obtain ⟨hleast,hlast⟩ := nextAfter_isLeast hnext
      have hdate := leapDay_date hleast.1.dated hleast.1.fits
      have hlow := hleast.1.later
      simp only [march2025,lastSearched,searched,minute,day,second,Int.add_zero] at hlow hlast hdate
      obtain ⟨k,hk⟩ : ∃ k : ℕ, (r/(86400*1000000 : ℕ)).toNat = 739311+k ∧ k < 734 :=
        ⟨(r/(86400*1000000 : ℕ)).toNat-739311,by omega,by omega⟩
      rw [hk.1] at hdate
      exact leapDay_far k hk.2 hdate
  obtain ⟨e,he⟩ := hraises
  exact ⟨by decide,hlater,⟨e,he⟩,fun h => h.raises e he _ hlater⟩

/-- From the beginning of the leap year the day is found. -/
theorem leapDay_found : Exact leapDay 0 january2028 ∧ Later leapDay 0 january2028 february2028 :=
  have hlater : Later leapDay 0 january2028 february2028 := leapDay_later (by decide)
  ⟨(fires_exactly_iff (by decide)).mpr fun _ _ => ⟨february2028,hlater,by decide⟩,hlater⟩

end Exactness

section Polls
variable (s : CronSchedule) (offset : ℤ)

/-- `_collect_due_runs_locked`: the due runs and the next fire time. -/
def collectDueRuns (now : ℤ) : ℕ → ℤ → Except Raised (List ℤ × ℤ)
  | 0,fireAt => .ok ([],fireAt)
  | n+1,fireAt =>
    if fireAt ≤ now then do
      let (due,nextFireAt) ← collectDueRuns now n (← nextAfter s offset fireAt)
      return (fireAt::due,nextFireAt)
    else return ([],fireAt)

/-- The due runs of one fetch after another. -/
def polls : List ℤ → ℤ → Except Raised (List ℤ × ℤ)
  | [],fireAt => .ok ([],fireAt)
  | now::nows,fireAt => do
    let (due,fireAt) ← collectDueRuns s offset now 1000 fireAt
    let (later,fireAt) ← polls nows fireAt
    return (due++later,fireAt)

/-- The matching minutes from one of them to another, which is left out. -/
structure Collected (a : ℤ) (due : List ℤ) (b : ℤ) : Prop where
  last : Later s offset (b-1) b
  le : a ≤ b
  sorted : due.Pairwise (· < ·)
  mem : ∀ r, r ∈ due ↔ Later s offset (a-1) r ∧ r < b

variable {s offset} {a b c : ℤ} {due due' : List ℤ}

theorem bind_ok {α β : Type} {x : Except Raised α} {f : α → Except Raised β} {y : β}
    (h : x >>= f = .ok y) : ∃ v, x = .ok v ∧ f v = .ok y := by
  cases x with
  | error e => cases h
  | ok v => exact ⟨v,rfl,h⟩

theorem Later.after {r : ℤ} (h : Later s offset a r) (hb : b < r) : Later s offset b r :=
  ⟨hb,h.whole,h.dated,h.fits⟩

theorem collected_nil (h : Later s offset (a-1) a) : Collected s offset a [] a :=
  ⟨h,le_rfl,.nil,fun r => iff_of_false List.not_mem_nil fun hr => by
    have hlater := hr.1.later
    omega⟩

theorem collected_cons (h : Later s offset (a-1) a) (hnext : nextAfter s offset a = .ok b)
    (hrest : Collected s offset b due c) : Collected s offset a (a::due) c := by
  obtain ⟨⟨hb,hleast⟩,-⟩ := nextAfter_isLeast hnext
  have hab := hb.later
  have hbc := hrest.le
  refine ⟨hrest.last,by omega,.cons (fun r hr => ?_) hrest.sorted,fun r => ?_⟩
  · have hlater := ((hrest.mem r).mp hr).1.later
    omega
  · rw [List.mem_cons,hrest.mem]
    constructor
    · rintro (rfl | ⟨hr,hrc⟩)
      · exact ⟨h,by omega⟩
      · have hlater := hr.later
        exact ⟨hr.after (by omega),hrc⟩
    · rintro ⟨hr,hrc⟩
      by_cases hra : r = a
      · exact .inl hra
      · have hlater := hr.later
        have hbr : b ≤ r := hleast (hr.after (by omega))
        exact .inr ⟨hr.after (by omega),hrc⟩

theorem Collected.append (h : Collected s offset a due b) (h' : Collected s offset b due' c) :
    Collected s offset a (due++due') c := by
  have hab := h.le
  have hbc := h'.le
  refine ⟨h'.last,by omega,List.pairwise_append.mpr ⟨h.sorted,h'.sorted,fun r hr q hq => ?_⟩,
    fun r => ?_⟩
  · have hr := ((h.mem r).mp hr).2
    have hq := ((h'.mem q).mp hq).1.later
    omega
  · rw [List.mem_append,h.mem,h'.mem]
    constructor
    · rintro (⟨hr,hrb⟩ | ⟨hr,hrc⟩)
      · exact ⟨hr,by omega⟩
      · have hlater := hr.later
        exact ⟨hr.after (by omega),hrc⟩
    · rintro ⟨hr,hrc⟩
      by_cases hrb : r < b
      · exact .inl ⟨hr,hrb⟩
      · exact .inr ⟨hr.after (by omega),hrc⟩

theorem collected_collectDueRuns {now : ℤ} {n : ℕ} (ha : Later s offset (a-1) a)
    (h : collectDueRuns s offset now n a = .ok (due,b)) : Collected s offset a due b := by
  induction n generalizing a due with
  | zero =>
    cases h
    exact collected_nil ha
  | succ n ih =>
    rw [collectDueRuns] at h
    split at h
    · obtain ⟨c,hnext,h⟩ := bind_ok h
      obtain ⟨⟨due,_⟩,hrest,h⟩ := bind_ok h
      cases h
      have hc := (nextAfter_isLeast hnext).1.1
      exact collected_cons ha hnext (ih (hc.after (by omega)) hrest)
    · cases h
      exact collected_nil ha

theorem collected_polls {nows : List ℤ} (ha : Later s offset (a-1) a)
    (h : polls s offset nows a = .ok (due,b)) : Collected s offset a due b := by
  induction nows generalizing a due with
  | nil =>
    cases h
    exact collected_nil ha
  | cons now nows ih =>
    obtain ⟨⟨due,c⟩,hfirst,h⟩ := bind_ok h
    obtain ⟨⟨later,_⟩,hrest,h⟩ := bind_ok h
    cases h
    have hcollected := collected_collectDueRuns ha hfirst
    exact hcollected.append (ih hcollected.last hrest)

/-- The due runs of all fetches are the matching minutes from the start to the next fire time,
each once and in order. -/
theorem polls_exactly {nows : List ℤ} (ht : InRange (t+offset))
    (hfirst : firstFireAt s offset t = .ok a) (h : polls s offset nows a = .ok (due,b)) :
    due.Pairwise (· < ·) ∧ ∀ r, r ∈ due ↔ Later s offset (t-1) r ∧ r < b := by
  unfold firstFireAt at hfirst
  split at hfirst
  · next hfits =>
    cases hfirst
    have hrun := collected_polls ⟨by omega,hfits.1,ht,hfits.2⟩ h
    exact ⟨hrun.sorted,hrun.mem⟩
  · next hnot =>
    obtain ⟨⟨ha,hleast⟩,-⟩ := nextAfter_isLeast hfirst
    have hlater := ha.later
    have hrun := collected_polls (ha.after (by omega)) h
    refine ⟨hrun.sorted,fun r => (hrun.mem r).trans
      (and_congr_left fun _ => ⟨fun hr => ?_,fun hr => ?_⟩)⟩
    · have har := hr.later
      exact hr.after (by omega)
    · have htr := hr.later
      have hne : r ≠ t := fun heq => hnot (heq ▸ ⟨hr.whole,hr.fits⟩)
      have har : a ≤ r := hleast (hr.after (by omega))
      exact hr.after (by omega)

/-- Two fetches of a source that fires every minute. -/
theorem minutely_polled : ∃ s, ∃ due : List ℤ, ∃ b, cronSchedule "* * * * *".toList = some s ∧
    due.length = 3 ∧ due.Pairwise (· < ·) ∧
    ∀ r, r ∈ due ↔ Later s 0 (january2028-1) r ∧ r < b := by
  obtain ⟨s,due,b,hs,hfirst,hpolls,hlength⟩ : ∃ s, ∃ due : List ℤ, ∃ b,
      cronSchedule "* * * * *".toList = some s ∧
      firstFireAt s 0 january2028 = .ok january2028 ∧
      polls s 0 [january2028,january2028+2*minute] january2028 = .ok (due,b) ∧ due.length = 3 :=
    ⟨_,_,_,rfl,rfl,rfl,rfl⟩
  exact ⟨s,due,b,hs,hlength,polls_exactly (by decide) hfirst hpolls⟩

end Polls

end OneStep.CronSearch
