import OneStep.Transition
import Mathlib.Algebra.Order.Group.Nat

/-!
# The throttle of console logins

A login reads the throttle of its username, has the password verified, and then records
the failure or clears the throttle. Each of these is a read followed by a write, and what
other requests commit in between is not noticed: a row is written as it was computed from
what was read, column by column where it changed. Times are in microseconds.

Beside the row, the world keeps what is to be compared with it: the failures that were
recorded in the window, the verifications that failed since it started, how many of these
there may be once a lock is set, and the end of the latest lock.
-/
namespace OneStep.LoginThrottle
open Transition

section Model

structure Settings where
  maxFailures : ℕ
  failureWindow : ℕ
  lockout : ℕ
  positive : 1 ≤ maxFailures

def seconds (n : ℕ) : ℕ := n*1000000

/-- `ConsoleLoginThrottle`. -/
structure Throttle where
  failureCount : ℕ
  windowStartedAt : ℕ
  lockedUntil : Option ℕ
  deriving DecidableEq

/-- Where a request stands, with what it has read. -/
inductive Phase where
  | arrived
  | locking (throttle : Throttle)
  | admitted
  | failed
  | timed (now : ℕ)
  | loaded (now : ℕ) (throttle : Option Throttle)
  | accepted
  | clearing
  | refused
  | unauthorized
  | loggedIn
  | raised
  deriving DecidableEq

structure World where
  now : ℕ
  row : Option Throttle := none
  requests : List Phase := []
  recorded : ℕ := 0
  made : ℕ := 0
  bound : Option ℕ := none
  promised : ℕ := 0
  deriving DecidableEq

variable (settings : Settings)

def Throttle.windowOver (r : Throttle) (now : ℕ) : Bool :=
  r.windowStartedAt+seconds settings.failureWindow ≤ now

def Throttle.live (r : Throttle) (now : ℕ) : Bool := r.lockedUntil.any fun u => now < u

/-- The window of the row is over, or there is none. -/
def startsWindow (row : Option Throttle) (now : ℕ) : Bool :=
  row.all fun r => r.windowOver settings now

/-- What `record_console_login_failure` makes of the row it has read. -/
def countFailure (now : ℕ) (row : Option Throttle) : Throttle :=
  let base : Throttle := if startsWindow settings row now then ⟨0,now,none⟩ else row.getD ⟨0,now,none⟩
  let count := base.failureCount+1
  {base with
    failureCount := count
    lockedUntil := if settings.maxFailures ≤ count then some (now+seconds settings.lockout)
      else base.lockedUntil}

/-- Only a column that was changed is written. -/
def written {α : Type} [DecidableEq α] (loaded new current : α) : α :=
  if new = loaded then current else new

def Throttle.update (loaded new current : Throttle) : Throttle where
  failureCount := written loaded.failureCount new.failureCount current.failureCount
  windowStartedAt := written loaded.windowStartedAt new.windowStartedAt current.windowStartedAt
  lockedUntil := written loaded.lockedUntil new.lockedUntil current.lockedUntil

/-- An insert needs that there is no row, an update that there is one. -/
def commit (new : Throttle) : Option Throttle → Option Throttle → Option Throttle
  | none,none => some new
  | some loaded,some current => some (loaded.update new current)
  | _,_ => none

inductive Op where
  | tick (elapsed : ℕ)
  | arrive
  | look (i : ℕ)
  | decide (i : ℕ)
  | verify (i : ℕ) (ok : Bool)
  | time (i : ℕ)
  | load (i : ℕ)
  | record (i : ℕ)
  | loadCleared (i : ℕ)
  | clear (i : ℕ)
  deriving DecidableEq

variable (w : World)

def World.goTo (i : ℕ) (phase : Phase) : World := {w with requests := w.requests.set i phase}

def isAdmitted : Phase → Bool
  | .admitted => true
  | _ => false

def isFailed : Phase → Bool
  | .failed | .timed _ | .loaded _ _ => true
  | _ => false

def World.admitted : ℕ := w.requests.countP isAdmitted

def World.failed : ℕ := w.requests.countP isFailed

/-- The requests past their lock check whose failure is not recorded. -/
def World.inFlight : ℕ := w.admitted+w.failed

/-- The row is deleted; the books are closed if its lock was over. -/
def World.delete : World :=
  if w.row.any fun r => r.lockedUntil.isNone || r.live w.now then {w with row := none}
  else {w with row := none, recorded := 0, made := 0, bound := none}

/-- The bound is set with the first lock of a window. -/
def firstBound (lockedUntil bound : Option ℕ) (n : ℕ) : Option ℕ :=
  if lockedUntil.isSome && bound.isNone then some n else bound

/-- The row is written, and the books follow. -/
def World.write (now : ℕ) (new : Throttle) : World :=
  let starts := startsWindow settings w.row now
  {w with
    row := some new
    recorded := if starts then 1 else w.recorded+1
    made := if starts then 0 else w.made
    bound := firstBound new.lockedUntil (if starts then none else w.bound)
      (settings.maxFailures+w.inFlight)
    promised := max w.promised (new.lockedUntil.getD 0)}

def World.perform : Op → Option World
  | .tick elapsed => some {w with now := w.now+elapsed}
  | .arrive => some {w with requests := w.requests++[.arrived]}
  | .look i =>
    match w.requests[i]? with
    | some .arrived =>
      match w.row with
      | none => some (w.goTo i .admitted)
      | some r => some (w.goTo i (if r.lockedUntil.isNone then .admitted else .locking r))
    | _ => none
  | .decide i =>
    match w.requests[i]? with
    | some (.locking r) =>
      if r.live w.now then some (w.goTo i .refused) else some (w.delete.goTo i .admitted)
    | _ => none
  | .verify i ok =>
    match w.requests[i]? with
    | some .admitted =>
      if ok then some (w.goTo i .accepted)
      else some {w.goTo i .failed with made := w.made+1}
    | _ => none
  | .time i =>
    match w.requests[i]? with
    | some .failed => some (w.goTo i (.timed w.now))
    | _ => none
  | .load i =>
    match w.requests[i]? with
    | some (.timed now) => some (w.goTo i (.loaded now w.row))
    | _ => none
  | .record i =>
    match w.requests[i]? with
    | some (.loaded now loaded) =>
      match commit (countFailure settings now loaded) loaded w.row with
      | some new => some ((w.goTo i .unauthorized).write settings now new)
      | none => some (w.goTo i .raised)
    | _ => none
  | .loadCleared i =>
    match w.requests[i]? with
    | some .accepted => some (w.goTo i (if w.row.isSome then .clearing else .loggedIn))
    | _ => none
  | .clear i =>
    match w.requests[i]? with
    | some .clearing =>
      some {w.goTo i .loggedIn with row := none, recorded := 0, made := 0, bound := none, promised := 0}
    | _ => none

end Model

section Properties
variable (settings : Settings) (w : World)

/-- Up to the end of a lockout the guesses of its window are bounded, every failure is
counted, and a lock stays until its end. -/
structure Throttled : Prop where
  bounded : w.now < w.promised → ∀ b ∈ w.bound, w.made ≤ b
  counted : (w.row.map Throttle.failureCount).getD 0 = w.recorded ∧ Phase.raised ∉ w.requests
  kept : w.now < w.promised → ∃ r ∈ w.row, ∃ u ∈ r.lockedUntil, w.promised ≤ u

/-- A failure is recorded over the row that was read, not with a time before that of the
present lock, and no window is started over while its lock is on; a row is deleted when its
own lock is over. -/
def careful : Op → Bool
  | .decide i =>
    match w.requests[i]? with
    | some (.locking r) => r.live w.now || w.row.all fun r => r.lockedUntil.isSome && !r.live w.now
    | _ => true
  | .record i =>
    match w.requests[i]? with
    | some (.loaded now loaded) => decide (w.row = loaded) && w.row.all fun r =>
      r.lockedUntil.all fun u => u ≤ now+seconds settings.lockout &&
        (!r.windowOver settings now || u ≤ w.now)
    | _ => true
  | _ => true

end Properties

section Invariant
variable {settings : Settings} {w : World} {i : ℕ} {p q : Phase} {now : ℕ}

structure Sound (settings : Settings) (w : World) : Prop where
  counted : (w.row.map Throttle.failureCount).getD 0 = w.recorded
  calm : Phase.raised ∉ w.requests
  kept : w.now < w.promised → ∃ r ∈ w.row, ∃ u ∈ r.lockedUntil, w.promised ≤ u
  atLimit : ∀ r ∈ w.row, r.lockedUntil.isSome = true ↔ settings.maxFailures ≤ r.failureCount
  known : w.bound.isSome = true ↔ ∃ r ∈ w.row, r.lockedUntil.isSome = true
  madeUp : w.row.isSome = true → w.made ≤ w.recorded+w.failed
  limited : ∀ b ∈ w.bound, w.made+w.admitted ≤ b

theorem Sound.throttled (h : Sound settings w) : Throttled w :=
  ⟨fun _ b hb => by have := h.limited b hb; omega,⟨h.counted,h.calm⟩,h.kept⟩

/-- A request goes from one phase to another: the counts follow. -/
theorem countP_goTo (f : Phase → Bool) (h : w.requests[i]? = some p) (q : Phase) :
    (w.goTo i q).requests.countP f+(if f p then 1 else 0) =
      w.requests.countP f+(if f q then 1 else 0) := by
  obtain ⟨hi,hp⟩ := List.getElem?_eq_some_iff.mp h
  have hpos : (if f p then 1 else 0) ≤ w.requests.countP f := by
    split
    · next hfp => exact List.countP_pos_iff.mpr ⟨p,List.mem_of_getElem? h,hfp⟩
    · exact Nat.zero_le _
  simp only [World.goTo]
  rw [List.countP_set hi,hp]
  omega

theorem calm_goTo (h : Phase.raised ∉ w.requests) (hq : q ≠ .raised) :
    Phase.raised ∉ (w.goTo i q).requests := by
  intro hmem
  rcases List.mem_or_eq_of_mem_set hmem with hmem | heq
  · exact h hmem
  · exact hq heq.symm

theorem Sound.goTo (h : Sound settings w) (hp : w.requests[i]? = some p) (hq : q ≠ .raised)
    (hadmitted : isAdmitted q = true → isAdmitted p = true ∨ w.bound = none)
    (hfailed : isFailed p = true → isFailed q = true) : Sound settings (w.goTo i q) := by
  have hcounts := countP_goTo isFailed hp q
  have hcounts' := countP_goTo isAdmitted hp q
  refine ⟨h.counted,calm_goTo h.calm hq,h.kept,h.atLimit,h.known,fun hrow => ?_,fun b hb => ?_⟩
  · have hmade := h.madeUp hrow
    simp only [World.failed] at hmade ⊢
    change w.made ≤ w.recorded+_
    by_cases hf : isFailed p = true
    · rw [if_pos hf,if_pos (hfailed hf)] at hcounts
      omega
    · rw [if_neg hf] at hcounts
      omega
  · have hlimited := h.limited b hb
    simp only [World.admitted] at hlimited ⊢
    change w.made+_ ≤ b
    by_cases ha : isAdmitted q = true
    · rcases hadmitted ha with hap | hnone
      · rw [if_pos ha,if_pos hap] at hcounts'
        omega
      · change b ∈ w.bound at hb
        rw [hnone] at hb
        cases hb
    · rw [if_neg ha] at hcounts'
      omega

theorem Sound.tick (h : Sound settings w) (elapsed : ℕ) :
    Sound settings {w with now := w.now+elapsed} :=
  ⟨h.counted,h.calm,fun hnow => h.kept (Nat.lt_of_le_of_lt (Nat.le_add_right _ _) hnow),h.atLimit,
    h.known,h.madeUp,h.limited⟩

theorem Sound.arrive (h : Sound settings w) : Sound settings {w with requests := w.requests++[.arrived]} := by
  refine ⟨h.counted,fun hmem => ?_,h.kept,h.atLimit,h.known,fun hrow => ?_,fun b hb => ?_⟩
  · rcases List.mem_append.mp hmem with hmem | hmem
    · exact h.calm hmem
    · cases List.mem_singleton.mp hmem
  · have hmade := h.madeUp hrow
    simpa [World.failed,isFailed] using hmade
  · have hlimited := h.limited b hb
    simpa [World.admitted,isAdmitted] using hlimited

theorem Sound.look (h : Sound settings w) (hp : w.requests[i]? = some .arrived)
    (hopen : ∀ r ∈ w.row, r.lockedUntil.isNone = true) : Sound settings (w.goTo i .admitted) := by
  refine h.goTo hp (by simp) (fun _ => .inr ?_) (fun hf => (by cases hf))
  rw [← Option.not_isSome_iff_eq_none,h.known]
  rintro ⟨r,hr,hsome⟩
  rw [Option.isSome_iff_ne_none] at hsome
  exact hsome (Option.isNone_iff_eq_none.mp (hopen r hr))

theorem Sound.reject (h : Sound settings w) (hp : w.requests[i]? = some .admitted) :
    Sound settings {w.goTo i .failed with made := w.made+1} := by
  have hcounts := countP_goTo isFailed hp .failed
  have hcounts' := countP_goTo isAdmitted hp .failed
  simp only [isFailed,isAdmitted,if_true,Bool.false_eq_true,if_false] at hcounts hcounts'
  refine ⟨h.counted,calm_goTo h.calm (by simp),h.kept,h.atLimit,h.known,fun hrow => ?_,fun b hb => ?_⟩
  · have hmade := h.madeUp hrow
    simp only [World.failed] at hmade ⊢
    change w.made+1 ≤ w.recorded+_
    omega
  · have hlimited := h.limited b hb
    simp only [World.admitted] at hlimited ⊢
    change w.made+1+_ ≤ b
    omega

/-- The lock of the row that is deleted is over. -/
theorem Sound.delete (h : Sound settings w)
    (hover : ∀ r ∈ w.row, r.lockedUntil.isSome = true ∧ r.live w.now = false) :
    Sound settings w.delete ∧ w.delete.bound = none ∧ w.delete.requests = w.requests := by
  have hclosed : w.delete = {w with row := none, recorded := 0, made := 0, bound := none} := by
    refine if_neg fun hany => ?_
    cases hrow : w.row with
    | none =>
      rw [hrow] at hany
      cases hany
    | some r =>
      obtain ⟨hsome,hlive⟩ := hover r hrow
      rw [hrow,Option.any_some,hlive,Bool.or_false,Option.isNone_iff_eq_none] at hany
      rw [hany] at hsome
      cases hsome
  rw [hclosed]
  refine ⟨⟨rfl,h.calm,fun hnow => ?_,fun r hr => (by cases hr),?_,fun hrow => (by cases hrow),
    fun b hb => (by cases hb)⟩,rfl,rfl⟩
  · obtain ⟨r,hr,u,hu,hle⟩ := h.kept hnow
    have hlive := (hover r hr).2
    rw [Throttle.live,Option.mem_def.mp hu] at hlive
    simp only [Option.any_some,decide_eq_false_iff_not] at hlive
    exact absurd (Nat.lt_of_lt_of_le hnow hle) hlive
  · simp

theorem countFailure_starts {row : Option Throttle} (h : startsWindow settings row now = true) :
    countFailure settings now row = ⟨1,now,if settings.maxFailures ≤ 1 then
      some (now+seconds settings.lockout) else none⟩ := by
  unfold countFailure
  rw [if_pos h]

theorem countFailure_goesOn {r : Throttle} (h : r.windowOver settings now = false) :
    countFailure settings now (some r) = ⟨r.failureCount+1,r.windowStartedAt,
      if settings.maxFailures ≤ r.failureCount+1 then some (now+seconds settings.lockout)
      else r.lockedUntil⟩ := by
  have hgoes : startsWindow settings (some r) now = false := by rw [startsWindow,Option.all_some,h]
  unfold countFailure
  rw [hgoes]
  rfl

theorem commit_same (new : Throttle) (row : Option Throttle) : commit new row row = some new := by
  have hwritten : ∀ {α : Type} [DecidableEq α] (a b : α), written a b a = b := by
    intro α _ a b
    unfold written
    split
    · next heq => exact heq.symm
    · rfl
  cases row with
  | none => rfl
  | some r => simp only [commit,Throttle.update,hwritten]

variable {loaded : Option Throttle}

theorem recorded_counts (hp : w.requests[i]? = some (.loaded now loaded)) :
    (w.goTo i .unauthorized).failed+1 = w.failed ∧
      (w.goTo i .unauthorized).admitted = w.admitted := by
  have hfailed := countP_goTo isFailed hp .unauthorized
  have hadmitted := countP_goTo isAdmitted hp .unauthorized
  simp only [isFailed,isAdmitted,if_true,Bool.false_eq_true,if_false,Nat.add_zero] at hfailed hadmitted
  exact ⟨hfailed,hadmitted⟩

theorem firstBound_isSome {lockedUntil bound : Option ℕ} (n : ℕ)
    (h : bound.isSome = true → lockedUntil.isSome = true) :
    (firstBound lockedUntil bound n).isSome = true ↔ lockedUntil.isSome = true := by
  unfold firstBound
  cases bound with
  | none => cases lockedUntil <;> simp
  | some b => simpa using h rfl

theorem mem_firstBound {lockedUntil bound : Option ℕ} {n b : ℕ}
    (h : b ∈ firstBound lockedUntil bound n) : b = n ∧ bound = none ∨ b ∈ bound := by
  unfold firstBound at h
  split at h
  · next hnew =>
      rw [Bool.and_eq_true,Option.isNone_iff_eq_none] at hnew
      cases h
      exact .inl ⟨rfl,hnew.2⟩
  · exact .inr h

/-- A row that counts one failure more, with a lock from the limit on that no lock outlasts. -/
theorem Sound.write (h : Sound settings w) {new : Throttle}
    (hp : w.requests[i]? = some (.loaded now loaded))
    (hcount : new.failureCount = (if startsWindow settings w.row now then 0 else w.recorded)+1)
    (hlimit : new.lockedUntil.isSome = true ↔ settings.maxFailures ≤ new.failureCount)
    (hkept : w.now < max w.promised (new.lockedUntil.getD 0) →
      ∃ u ∈ new.lockedUntil, max w.promised (new.lockedUntil.getD 0) ≤ u)
    (hlocked : startsWindow settings w.row now = false → w.bound.isSome = true →
      new.lockedUntil.isSome = true)
    (hfresh : startsWindow settings w.row now = false → w.row.isSome = true ∧
      (w.bound = none → new.failureCount ≤ settings.maxFailures)) :
    Sound settings ((w.goTo i .unauthorized).write settings now new) := by
  obtain ⟨hfailed,hadmitted⟩ := recorded_counts hp
  have hrow : (w.goTo i .unauthorized).row = w.row := rfl
  unfold World.write
  rw [hrow]
  generalize startsWindow settings w.row now = starts at hcount hlocked hfresh ⊢
  refine ⟨?_,calm_goTo h.calm (by simp),fun hnow => ⟨new,rfl,hkept hnow⟩,fun r hr => ?_,?_,fun _ => ?_,
    fun b hb => ?_⟩
  · change new.failureCount = if starts then 1 else w.recorded+1
    rw [hcount]
    split <;> rfl
  · cases hr
    exact hlimit
  · change (firstBound _ _ _).isSome = true ↔ ∃ r ∈ some new,r.lockedUntil.isSome = true
    rw [firstBound_isSome]
    · simp
    · change (if starts then none else w.bound).isSome = true → _
      split
      · exact fun hbound => (by cases hbound)
      · next hgoes => exact hlocked (Bool.eq_false_iff.mpr hgoes)
  · change (if starts then 0 else w.made) ≤
      (if starts then 1 else w.recorded+1)+(w.goTo i .unauthorized).failed
    split
    · exact Nat.zero_le _
    · next hgoes =>
        have hmade := h.madeUp (hfresh (Bool.eq_false_iff.mpr hgoes)).1
        omega
  · change (if starts then 0 else w.made)+(w.goTo i .unauthorized).admitted ≤ b
    change b ∈ firstBound new.lockedUntil (if starts then none else w.bound)
      (settings.maxFailures+(w.goTo i .unauthorized).inFlight) at hb
    cases hstarts : starts with
    | true =>
      simp only [hstarts,if_true] at hb ⊢
      rcases mem_firstBound hb with ⟨rfl,-⟩ | hold
      · simp only [World.inFlight]
        omega
      · cases hold
    | false =>
      simp only [hstarts,Bool.false_eq_true,if_false] at hb hcount ⊢
      obtain ⟨hrow,hmax⟩ := hfresh hstarts
      rcases mem_firstBound hb with ⟨rfl,hnone⟩ | hold
      · have hmade := h.madeUp hrow
        have hle := hmax hnone
        simp only [World.inFlight]
        omega
      · have hlimited := h.limited b hold
        omega

theorem lock_kept {c : Prop} [Decidable c] {promised lockEnd : ℕ} {old : Option ℕ}
    (hkept : now < promised → ∃ u ∈ old, promised ≤ u) (hlater : ∀ u ∈ old, u ≤ lockEnd)
    (hunder : ¬c → old = none)
    (hnow : now < max promised ((if c then some lockEnd else old).getD 0)) :
    ∃ u ∈ (if c then some lockEnd else old),
      max promised ((if c then some lockEnd else old).getD 0) ≤ u := by
  by_cases hc : c
  · simp only [hc,if_true,Option.getD_some] at hnow ⊢
    refine ⟨lockEnd,rfl,?_⟩
    by_contra hlong
    obtain ⟨u,hu,hle⟩ := hkept (by omega)
    have hend := hlater u hu
    omega
  · simp only [hc,if_false,hunder hc,Option.getD_none,Nat.max_zero] at hnow
    obtain ⟨u,hu,-⟩ := hkept hnow
    rw [hunder hc] at hu
    cases hu

theorem Sound.starts (h : Sound settings w) (hp : w.requests[i]? = some (.loaded now loaded))
    (hstarts : startsWindow settings w.row now = true)
    (hover : ∀ r ∈ w.row, ∀ u ∈ r.lockedUntil, u ≤ w.now) :
    Sound settings ((w.goTo i .unauthorized).write settings now (countFailure settings now w.row)) := by
  have hfree : w.promised ≤ w.now := by
    by_contra hnow
    obtain ⟨r,hr,u,hu,hle⟩ := h.kept (by omega)
    have hend := hover r hr u hu
    omega
  rw [countFailure_starts hstarts]
  generalize now+seconds settings.lockout = lockEnd
  refine h.write hp (by simp [hstarts]) ?_ (fun hnow => ?_) (fun hgoes => ?_) fun hgoes => ?_
  · by_cases hone : settings.maxFailures ≤ 1 <;> simp [hone]
  · exact lock_kept (fun hlate => absurd hlate (by omega)) nofun (fun _ => rfl) hnow
  · rw [hstarts] at hgoes
    cases hgoes
  · rw [hstarts] at hgoes
    cases hgoes

theorem Sound.goesOn (h : Sound settings w) {r : Throttle}
    (hp : w.requests[i]? = some (.loaded now loaded)) (hrow : w.row = some r)
    (hgoes : r.windowOver settings now = false)
    (hlater : ∀ u ∈ r.lockedUntil, u ≤ now+seconds settings.lockout) :
    Sound settings ((w.goTo i .unauthorized).write settings now
      (countFailure settings now (some r))) := by
  have hstarts : startsWindow settings w.row now = false := by
    rw [hrow,startsWindow,Option.all_some,hgoes]
  have hrecorded : r.failureCount = w.recorded := by
    have hcounted := h.counted
    rw [hrow] at hcounted
    exact hcounted
  have hlimit := h.atLimit r hrow
  have hbound : w.bound.isSome = true ↔ r.lockedUntil.isSome = true := by
    rw [h.known,hrow]
    simp
  have hkept : w.now < w.promised → ∃ u ∈ r.lockedUntil, w.promised ≤ u := fun hnow => by
    obtain ⟨r',hr',hu⟩ := h.kept hnow
    rw [hrow] at hr'
    cases hr'
    exact hu
  rw [countFailure_goesOn hgoes]
  generalize now+seconds settings.lockout = lockEnd at hlater ⊢
  refine h.write hp (by simp [hstarts,hrecorded]) ?_ (fun hnow => ?_) (fun _ hsome => ?_) fun _ => ⟨?_,?_⟩
  · by_cases hmax : settings.maxFailures ≤ r.failureCount+1
    · simp [hmax]
    · simp only [hmax,if_false,hlimit,iff_false]
      omega
  · refine lock_kept hkept hlater (fun hunder => ?_) hnow
    rw [← Option.not_isSome_iff_eq_none,hlimit]
    omega
  · have hmax := hlimit.mp (hbound.mp hsome)
    simp only [show settings.maxFailures ≤ r.failureCount+1 by omega,if_true,Option.isSome_some]
  · rw [hrow]
    rfl
  · intro hnone
    have hunder : ¬settings.maxFailures ≤ r.failureCount := by
      rw [← hlimit,← hbound,hnone]
      simp
    simp only
    omega

/-- What `careful` asks of a request that records its failure. -/
theorem Sound.record (h : Sound settings w) (hp : w.requests[i]? = some (.loaded now loaded))
    (hcareful : careful settings w (.record i) = true) :
    loaded = w.row ∧
      Sound settings ((w.goTo i .unauthorized).write settings now (countFailure settings now w.row)) := by
  simp only [careful,hp,Bool.and_eq_true,decide_eq_true_eq] at hcareful
  obtain ⟨hrow,hlocks⟩ := hcareful
  refine ⟨hrow.symm,?_⟩
  have hends : ∀ r ∈ w.row, ∀ u ∈ r.lockedUntil, u ≤ now+seconds settings.lockout ∧
      (r.windowOver settings now = true → u ≤ w.now) := by
    intro r hr u hu
    rw [Option.mem_def.mp hr,Option.all_some,Option.mem_def.mp hu,Option.all_some] at hlocks
    simp only [Bool.and_eq_true,decide_eq_true_eq,Bool.or_eq_true,Bool.not_eq_true'] at hlocks
    exact ⟨hlocks.1,fun hover => hlocks.2.resolve_left (by rw [hover]; simp)⟩
  cases hcase : w.row with
  | none =>
    rw [← hcase]
    exact h.starts hp (by rw [hcase,startsWindow,Option.all_none]) fun r hr => by
      rw [hcase] at hr
      cases hr
  | some r =>
    cases hover : r.windowOver settings now with
    | true =>
      rw [← hcase]
      refine h.starts hp (by rw [hcase,startsWindow,Option.all_some,hover]) fun r' hr' u hu => ?_
      rw [hcase] at hr'
      cases hr'
      exact (hends r hcase u hu).2 hover
    | false => exact h.goesOn hp hcase hover fun u hu => (hends r hcase u hu).1

/-- A careful step keeps the throttle sound. -/
theorem Sound.perform {w' : World} {op : Op} (h : Sound settings w)
    (hperform : w.perform settings op = some w') (hcareful : careful settings w op = true) :
    Sound settings w' := by
  cases op with
  | tick elapsed =>
    cases hperform
    exact h.tick elapsed
  | arrive =>
    cases hperform
    exact h.arrive
  | look i =>
    simp only [World.perform] at hperform
    split at hperform
    · next hp =>
        split at hperform
        · next hrow =>
            cases hperform
            exact h.look hp fun r hr => by
              rw [hrow] at hr
              cases hr
        · next r hrow =>
            cases hperform
            split
            · next hopen =>
                exact h.look hp fun r' hr' => by
                  rw [hrow] at hr'
                  cases hr'
                  exact hopen
            · exact h.goTo hp (by simp) (fun ha => (by cases ha)) fun hf => (by cases hf)
    · cases hperform
  | decide i =>
    simp only [World.perform] at hperform
    split at hperform
    · next r hp =>
        split at hperform
        · cases hperform
          exact h.goTo hp (by simp) (fun ha => (by cases ha)) fun hf => (by cases hf)
        · next hlive =>
            cases hperform
            rw [Bool.not_eq_true] at hlive
            simp only [careful,hp,hlive,Bool.false_or] at hcareful
            obtain ⟨hdeleted,hnone,hrequests⟩ := h.delete fun r' hr' => by
              rw [Option.mem_def.mp hr',Option.all_some] at hcareful
              simpa using hcareful
            rw [← hrequests] at hp
            exact hdeleted.goTo hp (by simp) (fun _ => .inr hnone) fun hf => (by cases hf)
    · cases hperform
  | verify i ok =>
    simp only [World.perform] at hperform
    split at hperform
    · next hp =>
        split at hperform
        · cases hperform
          exact h.goTo hp (by simp) (fun ha => (by cases ha)) fun hf => (by cases hf)
        · cases hperform
          exact h.reject hp
    · cases hperform
  | time i =>
    simp only [World.perform] at hperform
    split at hperform
    · next hp =>
        cases hperform
        exact h.goTo hp (by simp) (fun ha => (by cases ha)) fun _ => rfl
    · cases hperform
  | load i =>
    simp only [World.perform] at hperform
    split at hperform
    · next hp =>
        cases hperform
        exact h.goTo hp (by simp) (fun ha => (by cases ha)) fun _ => rfl
    · cases hperform
  | record i =>
    simp only [World.perform] at hperform
    split at hperform
    · next now loaded hp =>
        obtain ⟨rfl,hrecorded⟩ := h.record hp hcareful
        rw [commit_same] at hperform
        cases hperform
        exact hrecorded
    · cases hperform
  | loadCleared i =>
    simp only [World.perform] at hperform
    split at hperform
    · next hp =>
        cases hperform
        split
        · exact h.goTo hp (by simp) (fun ha => (by cases ha)) fun hf => (by cases hf)
        · exact h.goTo hp (by simp) (fun ha => (by cases ha)) fun hf => (by cases hf)
    · cases hperform
  | clear i =>
    simp only [World.perform] at hperform
    split at hperform
    · next hp =>
        cases hperform
        exact ⟨rfl,calm_goTo h.calm (by simp),fun hnow => absurd hnow (Nat.not_lt_zero _),
          fun r hr => (by cases hr),by simp,fun hrow => (by cases hrow),fun b hb => (by cases hb)⟩
    · cases hperform

end Invariant

section Throttled

/-- The throttle before the first login. -/
def unused (now : ℕ) : World where
  now := now

theorem unused_sound (settings : Settings) (now : ℕ) : Sound settings (unused now) :=
  ⟨rfl,List.not_mem_nil,fun hnow => absurd hnow (Nat.not_lt_zero _),fun r hr => (by cases hr),
    by simp [unused],fun hrow => (by cases hrow),fun b hb => (by cases hb)⟩

def failing (i : ℕ) : List Op :=
  [.arrive,.look i,.verify i false,.time i,.load i,.record i]

def byTwo : Settings := ⟨2,900,900,Nat.two_pos⟩

theorem three_positive : 1 ≤ 3 := by decide

def byThree : Settings := ⟨3,900,900,three_positive⟩

end Throttled

end OneStep.LoginThrottle
