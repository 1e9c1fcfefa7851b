import Mathlib.Data.Int.Notation
import Mathlib.Order.Bounds.Basic
import Mathlib.Tactic.Ring

/-!
# Intervals and changes of the clock

A timezone has an offset at each instant, and with it the reading of its clock. A datetime
of the timezone is a reading with a fold, which tells the two instants apart that read the
same. Adding to a datetime and comparing two of one timezone goes by the reading alone.
Times are in microseconds.
-/
namespace OneStep.IntervalElapsed

section Model

/-- A datetime of the timezone. -/
structure Reading where
  wall : ℤ
  fold : Bool
  deriving DecidableEq

/-- `utcoffset` of a reading gives back the offset it was read with; where no instant has
the reading, it gives one of the offsets about it. -/
structure Zone where
  offset : ℤ → ℤ
  fold : ℤ → Bool
  utcoffset : Reading → ℤ
  reads : ∀ u, utcoffset ⟨u+offset u,fold u⟩ = offset u

/-- `IntervalSource`, whose constructor refuses an interval that is not positive. -/
structure IntervalSource where
  zone : Zone
  interval : ℤ
  positive : 0 < interval

/-- `datetime.__add__`. -/
def Reading.add (r : Reading) (d : ℤ) : Reading := ⟨r.wall+d,false⟩

def Zone.instant (z : Zone) (r : Reading) : ℤ := r.wall-z.utcoffset r

variable (s : IntervalSource)

/-- `_now` at an instant. -/
def IntervalSource.now (u : ℤ) : Reading := ⟨u+s.zone.offset u,s.zone.fold u⟩

def IntervalSource.initialFireAt (now : Reading) : Reading := now.add s.interval

def IntervalSource.nextFireAfter (current : Reading) : Reading := current.add s.interval

def IntervalSource.fireTimes (s : IntervalSource) (u : ℤ) : ℕ → Reading
  | 0 => s.initialFireAt (s.now u)
  | k+1 => s.nextFireAfter (s.fireTimes u k)

/-- The delay of a retry, in effect. -/
def effective (delay : Option ℤ) : ℤ := max (delay.getD 0) 0

/-- When `finish_retry` has its run ready. -/
def IntervalSource.readyAt (u : ℤ) (delay : Option ℤ) : Reading := (s.now u).add (effective delay)

/-- `_drain_retry_locked` takes the run. -/
def IntervalSource.drains (u : ℤ) (delay : Option ℤ) (v : ℤ) : Prop :=
  (s.readyAt u delay).wall ≤ (s.now v).wall

instance (u : ℤ) (delay : Option ℤ) (v : ℤ) : Decidable (s.drains u delay v) :=
  inferInstanceAs (Decidable (_ ≤ _))

end Model

section Schedule
variable (s : IntervalSource)

/-- The fire times follow each other on the clock, whatever the offset does. -/
theorem fireTimes_eq (u : ℤ) (k : ℕ) :
    s.fireTimes u k = ⟨u+s.zone.offset u+(k+1)*s.interval,false⟩ := by
  induction k with
  | zero =>
    simp only [IntervalSource.fireTimes,IntervalSource.initialFireAt,IntervalSource.now,Reading.add]
    simp
  | succ k ih =>
    rw [IntervalSource.fireTimes,ih,IntervalSource.nextFireAfter,Reading.add]
    push_cast
    congr 1
    ring

theorem instant_add (z : Zone) (r : Reading) (d : ℤ) :
    z.instant (r.add d)-z.instant r = d-(z.utcoffset (r.add d)-z.utcoffset r) := by
  simp only [Zone.instant,Reading.add]
  omega

end Schedule

section Elapsed
variable (s : IntervalSource) (u : ℤ) (delay : Option ℤ)

/-- The interval and the delay in elapsed time. -/
structure Survives : Prop where
  apart : ∀ k, s.zone.instant (s.fireTimes u (k+1))-s.zone.instant (s.fireTimes u k) = s.interval
  ready : IsLeast {v | u ≤ v ∧ s.drains u delay v} (u+effective delay)

/-- The offset is the same at all readings a whole number of intervals after the start; it is
no less when the delay is over than when it begins, and until then never so much more that the
clock makes up what is left. -/
structure Steady : Prop where
  fires : ∀ k : ℕ, s.zone.utcoffset ⟨u+s.zone.offset u+(k+2)*s.interval,false⟩ =
    s.zone.utcoffset ⟨u+s.zone.offset u+(k+1)*s.interval,false⟩
  ended : s.zone.offset u ≤ s.zone.offset (u+effective delay)
  before : ∀ v, u ≤ v → v < u+effective delay → s.zone.offset v-s.zone.offset u < u+effective delay-v

theorem apart_iff (k : ℕ) :
    s.zone.instant (s.fireTimes u (k+1))-s.zone.instant (s.fireTimes u k) = s.interval ↔
      s.zone.utcoffset ⟨u+s.zone.offset u+(k+2)*s.interval,false⟩ =
        s.zone.utcoffset ⟨u+s.zone.offset u+(k+1)*s.interval,false⟩ := by
  have hlater : ((k+1 : ℕ) : ℤ)+1 = k+2 := by omega
  have hadd := instant_add s.zone (s.fireTimes u k) s.interval
  have hnext : s.fireTimes u (k+1) = (s.fireTimes u k).add s.interval := rfl
  rw [← hnext] at hadd
  rw [← hlater,← fireTimes_eq s u (k+1),← fireTimes_eq s u k,hadd]
  omega

theorem drains_iff (v : ℤ) : s.drains u delay v ↔
    u+effective delay-v ≤ s.zone.offset v-s.zone.offset u := by
  simp only [IntervalSource.drains,IntervalSource.readyAt,IntervalSource.now,Reading.add]
  omega

theorem ready_iff : IsLeast {v | u ≤ v ∧ s.drains u delay v} (u+effective delay) ↔
    s.zone.offset u ≤ s.zone.offset (u+effective delay) ∧
      ∀ v, u ≤ v → v < u+effective delay → s.zone.offset v-s.zone.offset u < u+effective delay-v := by
  have hnonneg : 0 ≤ effective delay := le_max_right _ _
  constructor
  · rintro ⟨⟨-,hready⟩,hleast⟩
    rw [drains_iff] at hready
    refine ⟨by omega,fun v hv hbefore => ?_⟩
    by_contra hlate
    have hmem := hleast ⟨hv,(drains_iff s u delay v).mpr (by omega)⟩
    omega
  · rintro ⟨hover,huntil⟩
    refine ⟨⟨by omega,(drains_iff s u delay _).mpr (by omega)⟩,?_⟩
    rintro v ⟨hv,hready⟩
    rw [drains_iff] at hready
    by_contra hbefore
    have hlate := huntil v hv (by omega)
    omega

def hour : ℤ := 3600*1000000

/-- The clock is put forward from one hour to two at the instant zero. -/
def spring : Zone where
  offset u := if u < 0 then hour else 2*hour
  fold _ := false
  utcoffset r := if r.wall < hour ∨ r.wall < 2*hour ∧ r.fold = false then hour else 2*hour
  reads u := by
    unfold hour
    dsimp only
    split <;> split <;> omega

def hourly : IntervalSource := ⟨spring,hour,by decide⟩

end Elapsed

end OneStep.IntervalElapsed
