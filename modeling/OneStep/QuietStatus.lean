import OneStep.RunnerRegistry

/-!
# Drained and paused mean quiet

A runner whose parked flag is set is at rest: it holds no delivery, and nothing it has started
is still under way. At rest it stays for as long as it is kept from fetching. What is reported
of the registered runners is therefore true of all runners when those that left the registry
have ended, together with the deliveries they had started.
-/
namespace OneStep.QuietStatus
open RunnerRegistry Transition

section Rest
variable {D : Type}

/-- The deliveries a runner has fetched, and has neither released nor started. -/
def unstarted (r : Runner D) : List D :=
  match r.phase,r.fetch with
  | .attempting,.returned ds => ds
  | .cancelling _,.returned ds => ds
  | .resolving _,.returned ds => ds
  | .releasing _ ds,_ => ds
  | .cleaning (some ds),_ => ds
  | .emitting ds,_ => ds
  | _,_ => []

structure QuietRunner (r : Runner D) : Prop where
  unstarted : unstarted r = []
  inflight : ∀ h ∈ r.inflight, h.stage ≠ .waiting ∧ h.stage ≠ .handling

def restPhase : Phase D → Bool
  | .created | .waiting | .drainParked | .pauseParked | .resuming | .sleeping | .draining
  | .ended => true
  | _ => false

structure Rests (r : Runner D) : Prop where
  phase : restPhase r.phase = true
  inflight : ∀ h ∈ r.inflight, h.stage = .finished

theorem Rests.quiet {r : Runner D} (h : Rests r) : QuietRunner r := by
  refine ⟨?_,fun l hl => ?_⟩
  · have hphase := h.phase
    unfold QuietStatus.unstarted
    split <;> simp_all [restPhase]
  · rw [h.inflight l hl]
    exact ⟨nofun,nofun⟩

theorem rests_newRunner (task : TaskSpec) (source : Source) :
    Rests (newRunner task source : Runner D) :=
  ⟨rfl,fun _ h => absurd h List.not_mem_nil⟩

theorem Rests.unregistered {r : Runner D} (h : Rests r) : Rests r.unregistered :=
  ⟨h.phase,h.inflight⟩

/-- Nothing lets the runners of a task fetch. -/
def Blocked (c : Controls) (taskName : String) : Prop :=
  (c.isStopping || c.isDraining || c.isTaskPaused taskName) = true

variable {c : Controls} {r : Runner D}

theorem Rests.leave (h : Rests r) : Rests (leave r) := by
  refine ⟨?_,h.inflight⟩
  unfold RunnerRegistry.leave
  split <;> rfl

theorem Rests.afterEmpty (h : Rests r) : Rests (afterEmpty c r) := by
  unfold RunnerRegistry.afterEmpty
  split
  · exact h.leave
  · refine ⟨?_,h.inflight⟩
    dsimp only
    split <;> rfl

theorem Rests.takeWork (h : Rests r) (hblocked : Blocked c r.taskName) : Rests (takeWork c r) := by
  have hunparked : Rests {r with pauseParked := false} := ⟨h.phase,h.inflight⟩
  unfold RunnerRegistry.takeWork fetchDeliveries
  dsimp only
  split
  · exact ⟨rfl,h.inflight⟩
  · rw [if_pos (show _ = true from hblocked)]
    exact hunparked.afterEmpty

theorem Rests.loop (h : Rests r) (hblocked : Blocked c r.taskName) : Rests (loop c r) := by
  unfold RunnerRegistry.loop
  split
  · exact h.leave
  · split
    · split
      · exact ⟨rfl,h.inflight⟩
      · exact ⟨rfl,h.inflight⟩
    · split
      · split
        · exact ⟨rfl,h.inflight⟩
        · exact ⟨rfl,h.inflight⟩
      · split
        · exact ⟨rfl,h.inflight⟩
        · exact Rests.takeWork ⟨h.phase,h.inflight⟩ hblocked

end Rest

/-- A runner, or a task that handles one of its deliveries, goes on. -/
inductive Moves {D : Type} [DecidableEq D] (c : Controls) (timed : Bool) (r r' : Runner D) : Prop
  | resume (a : Await) (h : RunnerRegistry.resume c timed r a = some r')
  | fetchEnds (result : Fetched D) (h : endFetch result r = some r')
  | stopFires (h : seeStop c r = some r')
  | inflight (k : ℕ) (allowed : Stage → Bool) (stage : Stage) (hallowed : allowed .finished = false)
      (h : moveInflight k allowed stage r = some r')
  | discard (k : ℕ) (h : discardInflight k r = some r')

section Moving
variable {D : Type} {c : Controls} {timed : Bool} {r r' : Runner D}

theorem moveInflight_inflight {k : ℕ} {allowed : Stage → Bool} {stage : Stage}
    (h : moveInflight k allowed stage r = some r') :
    ∃ l, r.inflight[k]? = some l ∧ allowed l.stage = true ∧
      r' = {r with inflight := r.inflight.set k {l with stage := stage}} := by
  obtain ⟨l,hl,hmove⟩ := Option.bind_eq_some_iff.mp h
  split at hmove
  · next hallowed => exact ⟨l,hl,hallowed,(Option.some.inj hmove).symm⟩
  · cases hmove

theorem discardInflight_inflight {k : ℕ} (h : discardInflight k r = some r') :
    r' = {r with inflight := r.inflight.eraseIdx k} := by
  obtain ⟨l,-,hmove⟩ := Option.bind_eq_some_iff.mp h
  split at hmove
  · exact (Option.some.inj hmove).symm
  · cases hmove

theorem endFetch_fetch {result : Fetched D} (h : endFetch result r = some r') :
    restPhase r.phase = false ∧ r' = {r with fetch := result} := by
  unfold endFetch at h
  split at h <;> simp_all [restPhase]

theorem seeStop_stopSeen (h : seeStop c r = some r') :
    r.phase = .attempting ∧ r' = {r with stopSeen := true} := by
  unfold seeStop at h
  split at h
  · split at h
    · next hphase => exact ⟨hphase,(Option.some.inj h).symm⟩
    · cases h
  · cases h

/-- The phases from which a runner goes back to the head of its loop. -/
def loops : Phase D → Bool
  | .created | .waiting | .pauseParked | .sleeping => true
  | _ => false

/-- Where a runner can be after one step of its own. -/
inductive Resumes (c : Controls) (r : Runner D) : Runner D → Prop
  | loop (h : loops r.phase = true) : Resumes c r (loop c r)
  | tracked (ds : List D) (h : r.phase = .emitting ds) : Resumes c r (loop c (trackInflight r ds))
  | work (h : r.phase = .resuming) : Resumes c r (takeWork c r)
  | empty (h : restPhase r.phase = false) : Resumes c r (afterEmpty c r)
  | left : Resumes c r (leave r)
  | ended (h : r.phase = .created ∨ r.phase = .draining) : Resumes c r {r with phase := .ended}
  | fetch (h : restPhase r.phase = false) (phase : Phase D) (fetching : Bool)
      (hphase : restPhase phase = false) : Resumes c r {r with phase := phase, fetching := fetching}

section Fetching
variable (h : restPhase r.phase = false)
include h

theorem resumes_phase (phase : Phase D) (hphase : restPhase phase = false) :
    Resumes c r {r with phase := phase} :=
  .fetch h phase r.fetching hphase

theorem resumes_cleanUp (result : Option (List D)) : Resumes c r (cleanUp r result) :=
  .fetch h (.cleaning result) false rfl

theorem resumes_releaseUnstarted (leave : Bool) (ds : List D) :
    Resumes c r (releaseUnstarted r leave ds) := by
  unfold releaseUnstarted
  split
  · exact resumes_cleanUp h _
  · exact resumes_phase h _ rfl

theorem resumes_resolveFetchTask {leave : Bool} (hresolve : resolveFetchTask r leave = some r') :
    Resumes c r r' := by
  unfold resolveFetchTask at hresolve
  split at hresolve
  · cases hresolve
  · cases hresolve
    exact resumes_releaseUnstarted h _ _
  · cases hresolve
    exact resumes_phase h _ rfl
  · cases hresolve
    exact resumes_cleanUp h _

theorem resumes_takeFetched (htake : takeFetched c r = some r') : Resumes c r r' := by
  unfold takeFetched at htake
  split at htake
  · cases htake
  · split at htake
    · cases htake
      exact resumes_releaseUnstarted h _ _
    · cases htake
      exact resumes_cleanUp h _
  · cases htake
    exact resumes_phase h _ rfl
  · cases htake
    exact resumes_cleanUp h _

variable [DecidableEq D]

theorem resumes_cancelOrReleaseFetch : Resumes c r (cancelOrReleaseFetch r) := by
  refine resumes_phase h _ ?_
  split <;> rfl

theorem resumes_interrupted {p : Prop} [Decidable p] :
    Resumes c r (if p then cleanUp r none else cancelOrReleaseFetch r) := by
  split
  · exact resumes_cleanUp h _
  · exact resumes_cancelOrReleaseFetch h

end Fetching

section
variable [DecidableEq D]

theorem resumes_of_resume {a : Await} (h : RunnerRegistry.resume c timed r a = some r') :
    Resumes c r r' := by
  cases hphase : r.phase
  all_goals
    cases a
    all_goals simp only [RunnerRegistry.resume,hphase,reduceCtorEq] at h
  case created.returned | waiting.returned | waiting.timedOut | pauseParked.timedOut
      | sleeping.returned =>
    cases h
    exact .loop (by rw [hphase]; rfl)
  case created.cancelled =>
    cases h
    exact .ended (.inl hphase)
  case draining.cancelled =>
    cases h
    exact .ended (.inr hphase)
  case draining.returned | draining.timedOut =>
    split at h
    · cases h
      exact .ended (.inr hphase)
    · cases h
  case drainParked.returned | pauseParked.returned =>
    split at h
    · cases h
      exact .left
    · cases h
  case waiting.cancelled | drainParked.cancelled | pauseParked.cancelled | resuming.raised
      | resuming.cancelled | sleeping.cancelled | emitting.raised | emitting.cancelled
      | cleaning.cancelled =>
    cases h
    exact .left
  case resuming.returned =>
    cases h
    exact .work hphase
  case emitting.returned ds =>
    cases h
    exact .tracked ds hphase
  all_goals have hrest : restPhase r.phase = false := by rw [hphase]; rfl
  case cleaning.returned result =>
    rcases result with - | (- | ⟨d,ds⟩)
    · cases h
      exact .left
    · cases h
      exact .empty hrest
    · cases h
      exact resumes_phase hrest _ rfl
  case attempting.returned =>
    split at h
    · cases h
      refine resumes_phase hrest _ ?_
      split <;> rfl
    · exact resumes_takeFetched hrest h
  case attempting.cancelled =>
    cases h
    exact resumes_cancelOrReleaseFetch hrest
  case cancelling.returned =>
    split at h
    · cases h
    · cases h
      exact resumes_cleanUp hrest _
  case resolving.returned => exact resumes_resolveFetchTask hrest h
  case cancelling.cancelled | resolving.cancelled | backingOff.cancelled | releasing.cancelled =>
    cases h
    exact resumes_interrupted hrest
  case backingOff.returned | backingOff.timedOut | releasing.returned | releasing.raised =>
    cases h
    exact resumes_releaseUnstarted hrest _ _

end

theorem Rests.resumes (h : Rests r) (hblocked : Blocked c r.taskName) (hr : Resumes c r r') :
    Rests r' := by
  have hphase := h.phase
  cases hr with
  | loop => exact h.loop hblocked
  | tracked ds he =>
    rw [he] at hphase
    cases hphase
  | work => exact h.takeWork hblocked
  | empty => exact h.afterEmpty
  | left => exact h.leave
  | ended => exact ⟨rfl,h.inflight⟩
  | fetch he =>
    rw [he] at hphase
    cases hphase

/-- A runner that has ended, and so have the tasks it had started. -/
structure Over (r : Runner D) : Prop where
  phase : r.phase = .ended
  inflight : ∀ h ∈ r.inflight, h.stage = .finished

theorem Over.rests (h : Over r) : Rests r := by
  refine ⟨?_,h.inflight⟩
  rw [h.phase]
  rfl

/-- What the parked flags say. -/
structure Parked (r : Runner D) : Prop where
  drain : r.drainParked = true → r.phase = .drainParked ∧ r.inflight = []
  pause : r.pauseParked = true → (r.phase = .pauseParked ∨ r.phase = .resuming) ∧ r.inflight = []

theorem parked_of_flags (hd : r.drainParked = false) (hp : r.pauseParked = false) : Parked r :=
  ⟨fun h => absurd (hd.symm.trans h) Bool.false_ne_true,
    fun h => absurd (hp.symm.trans h) Bool.false_ne_true⟩

theorem Parked.not_drainParked (h : Parked r) (hphase : r.phase ≠ .drainParked) :
    r.drainParked = false :=
  Bool.eq_false_iff.mpr fun hd => hphase (h.drain hd).1

theorem Parked.not_pauseParked (h : Parked r) (hpause : r.phase ≠ .pauseParked)
    (hresuming : r.phase ≠ .resuming) : r.pauseParked = false :=
  Bool.eq_false_iff.mpr fun hp => (h.pause hp).1.elim hpause hresuming

theorem parked_leave : Parked (leave r) := parked_of_flags rfl rfl

theorem parked_afterEmpty (hd : r.drainParked = false) (hp : r.pauseParked = false) :
    Parked (afterEmpty c r) := by
  unfold afterEmpty
  split
  · exact parked_leave
  · exact parked_of_flags hd hp

theorem parked_takeWork (hd : r.drainParked = false) : Parked (takeWork c r) := by
  unfold takeWork fetchDeliveries
  dsimp only
  split
  · exact parked_of_flags hd rfl
  · split
    · exact parked_afterEmpty hd rfl
    · exact parked_of_flags hd rfl

theorem parked_loop (hd : r.drainParked = false) (hp : r.pauseParked = true → r.inflight = []) :
    Parked (loop c r) := by
  have hbusy : r.inflight.isEmpty ≠ true → r.pauseParked = false := fun hinflight =>
    Bool.eq_false_iff.mpr fun h => hinflight (List.isEmpty_iff.mpr (hp h))
  unfold loop
  split
  · exact parked_leave
  · split
    · split
      · next hinflight =>
          exact ⟨fun _ => ⟨rfl,List.isEmpty_iff.mp hinflight⟩,fun h => absurd h Bool.false_ne_true⟩
      · next hinflight => exact parked_of_flags hd (hbusy hinflight)
    · split
      · split
        · next hinflight =>
            exact ⟨fun h => absurd h Bool.false_ne_true,
              fun _ => ⟨.inl rfl,List.isEmpty_iff.mp hinflight⟩⟩
        · next hinflight => exact parked_of_flags hd (hbusy hinflight)
      · split
        · next hresumes =>
            exact ⟨fun h => absurd h Bool.false_ne_true,
              fun h => ⟨.inr rfl,hp h⟩⟩
        · exact parked_takeWork rfl

theorem Parked.resumes (h : Parked r) (hr : Resumes c r r') : Parked r' := by
  have hflags : restPhase r.phase = false → r.drainParked = false ∧ r.pauseParked = false := by
    intro hrest
    refine ⟨h.not_drainParked fun he => ?_,h.not_pauseParked (fun he => ?_) fun he => ?_⟩
    all_goals
      rw [he] at hrest
      cases hrest
  cases hr with
  | loop hloops =>
    refine parked_loop (h.not_drainParked fun he => ?_) fun hp => (h.pause hp).2
    rw [he] at hloops
    cases hloops
  | tracked ds he =>
    have hrest : restPhase r.phase = false := by rw [he]; rfl
    obtain ⟨hd,hp⟩ := hflags hrest
    exact parked_loop hd fun htrue => absurd (hp.symm.trans htrue) Bool.false_ne_true
  | work he =>
    refine parked_takeWork (h.not_drainParked fun hd => ?_)
    rw [he] at hd
    cases hd
  | empty hrest => exact parked_afterEmpty (hflags hrest).1 (hflags hrest).2
  | left => exact parked_leave
  | ended he =>
    refine parked_of_flags (h.not_drainParked fun hd => ?_)
      (h.not_pauseParked (fun hd => ?_) fun hd => ?_)
    all_goals
      rw [hd] at he
      rcases he with he | he <;> cases he
  | fetch hrest => exact parked_of_flags (hflags hrest).1 (hflags hrest).2

variable [DecidableEq D]

/-- A step that is not one of the runner's own leaves its phase and flags alone, and starts
nothing that has finished anew. -/
theorem moves_cases (hr : Moves c timed r r') :
    (∃ a, RunnerRegistry.resume c timed r a = some r') ∨
      r'.phase = r.phase ∧ r'.drainParked = r.drainParked ∧
      r'.pauseParked = r.pauseParked ∧ (r.inflight = [] → r'.inflight = []) ∧
      ((∀ h ∈ r.inflight, h.stage = .finished) → ∀ h ∈ r'.inflight, h.stage = .finished) := by
  cases hr with
  | resume a hresume => exact .inl ⟨a,hresume⟩
  | fetchEnds result hend =>
    rw [(endFetch_fetch hend).2]
    exact .inr ⟨rfl,rfl,rfl,id,id⟩
  | stopFires hstop =>
    rw [(seeStop_stopSeen hstop).2]
    exact .inr ⟨rfl,rfl,rfl,id,id⟩
  | inflight k allowed stage hallowed hmove =>
    obtain ⟨l,hl,hyes,rfl⟩ := moveInflight_inflight hmove
    refine .inr ⟨rfl,rfl,rfl,fun hnil => ?_,fun hfinished => ?_⟩
    · rw [hnil] at hl
      cases hl
    · rw [hfinished l (List.mem_of_getElem? hl),hallowed] at hyes
      cases hyes
  | discard k hdiscard =>
    rw [discardInflight_inflight hdiscard]
    refine .inr ⟨rfl,rfl,rfl,fun hnil => ?_,fun hfinished l hl => ?_⟩
    · change r.inflight.eraseIdx k = []
      rw [hnil]
      rfl
    · exact hfinished l (List.mem_of_mem_eraseIdx hl)

/-- At rest a runner stays, as long as it is kept from fetching. -/
theorem Rests.moves (h : Rests r) (hblocked : Blocked c r.taskName) (hr : Moves c timed r r') :
    Rests r' := by
  rcases moves_cases hr with ⟨a,hresume⟩ | ⟨hphase,-,-,-,hinflight⟩
  · exact h.resumes hblocked (resumes_of_resume hresume)
  · refine ⟨?_,hinflight h.inflight⟩
    rw [hphase]
    exact h.phase

theorem Over.moves (h : Over r) (hr : Moves c timed r r') : Over r' := by
  rcases moves_cases hr with ⟨a,hresume⟩ | ⟨hphase,-,-,-,hinflight⟩
  · unfold RunnerRegistry.resume at hresume
    rw [h.phase] at hresume
    cases a
    all_goals cases hresume
  · exact ⟨hphase.trans h.phase,hinflight h.inflight⟩

theorem Parked.moves (h : Parked r) (hr : Moves c timed r r') : Parked r' := by
  rcases moves_cases hr with ⟨a,hresume⟩ | ⟨hphase,hd,hp,hinflight,-⟩
  · exact h.resumes (resumes_of_resume hresume)
  · refine ⟨fun hflag => ?_,fun hflag => ?_⟩
    · rw [hd] at hflag
      rw [hphase]
      exact ⟨(h.drain hflag).1,hinflight (h.drain hflag).2⟩
    · rw [hp] at hflag
      rw [hphase]
      exact ⟨(h.pause hflag).1,hinflight (h.pause hflag).2⟩

omit [DecidableEq D] in
theorem Resumes.same (h : Resumes c r r') :
    r'.taskName = r.taskName ∧ r'.registered = r.registered := by
  have hempty : ∀ r : Runner D, (afterEmpty c r).taskName = r.taskName ∧
      (afterEmpty c r).registered = r.registered := by
    intro r
    unfold afterEmpty leave
    split <;> exact ⟨rfl,rfl⟩
  have hwork : ∀ r : Runner D, (takeWork c r).taskName = r.taskName ∧
      (takeWork c r).registered = r.registered := by
    intro r
    unfold takeWork fetchDeliveries
    dsimp only
    split
    · exact ⟨rfl,rfl⟩
    · split
      · exact hempty _
      · exact ⟨rfl,rfl⟩
  have hloop : ∀ r : Runner D, (RunnerRegistry.loop c r).taskName = r.taskName ∧
      (RunnerRegistry.loop c r).registered = r.registered := by
    intro r
    unfold RunnerRegistry.loop leave
    split_ifs
    all_goals first | exact ⟨rfl,rfl⟩ | exact hwork _
  cases h with
  | loop => exact hloop r
  | tracked ds => exact hloop (trackInflight r ds)
  | work => exact hwork r
  | empty => exact hempty r
  | left => exact ⟨rfl,rfl⟩
  | ended => exact ⟨rfl,rfl⟩
  | fetch => exact ⟨rfl,rfl⟩

theorem Moves.same (h : Moves c timed r r') :
    r'.taskName = r.taskName ∧ r'.registered = r.registered := by
  cases h with
  | resume a hresume => exact (resumes_of_resume hresume).same
  | fetchEnds result hend =>
    rw [(endFetch_fetch hend).2]
    exact ⟨rfl,rfl⟩
  | stopFires hstop =>
    rw [(seeStop_stopSeen hstop).2]
    exact ⟨rfl,rfl⟩
  | inflight k allowed stage hallowed hmove =>
    obtain ⟨l,-,-,rfl⟩ := moveInflight_inflight hmove
    exact ⟨rfl,rfl⟩
  | discard k hdiscard =>
    rw [discardInflight_inflight hdiscard]
    exact ⟨rfl,rfl⟩

end Moving

section States
variable {D : Type} {s : State D}

/-- The flags are right, and outside the registry nothing goes on. -/
structure Counted (s : State D) : Prop where
  parked : ∀ r ∈ s.runners, Parked r
  unregistered : ∀ r ∈ s.runners, r.registered = false → Over r

/-- The runners of a task are at rest and kept from fetching. -/
structure Held (s : State D) (taskName : String) : Prop where
  blocked : Blocked s.controls taskName
  rests : ∀ r ∈ s.runners, r.taskName = taskName → Rests r

/-- A stop of the task's runner lifts a pause as a resume does. -/
def Lifts (taskName : String) : Op D → Prop
  | .requestTaskResume other => other = taskName
  | .stopTaskRunner other => other = taskName
  | .stopEnds other _ => other = taskName
  | _ => False

def Suspended (s : State D) (taskName : String) : Prop :=
  s.controls.isStopping = true ∨ taskName ∈ s.controls.pausedTasks

theorem Suspended.blocked {taskName : String} (h : Suspended s taskName) :
    Blocked s.controls taskName := by
  unfold Blocked Controls.isTaskPaused
  rcases h with h | h
  · rw [h]
    rfl
  · rw [List.contains_iff_mem.mpr h]
    cases s.controls.isStopping <;> simp

theorem blocked_of_drainRequested {taskName : String} (h : s.controls.drainRequested = true) :
    Blocked s.controls taskName := by
  unfold Blocked Controls.isDraining
  rw [h]
  cases s.controls.isStopping <;> rfl

end States

section Registry
variable {D : Type} [DecidableEq D] {app : App} {s t : State D} {op : Op D} {taskName : String}

/-- The runners that leave the registry. -/
def Drops (s : State D) : Op D → Runner D → Prop
  | .serve,_ => True
  | .clearRunners,_ => True
  | .stopTaskRunner taskName,r => awaited s taskName = none ∧ r.taskName = taskName
  | .stopEnds taskName _,r => r.taskName = taskName
  | _,_ => False

/-- What leaves the registry has ended. -/
def Tidy (s : State D) (op : Op D) : Prop := ∀ r ∈ s.registry, Drops s op r → Over r

/-- What can have become of a runner. -/
inductive Becomes (app : App) (s : State D) (op : Op D) (r' : Runner D) : Prop
  | kept (h : r' ∈ s.runners)
  | moved (r : Runner D) (h : r ∈ s.runners) (hmoves : Moves s.controls app.timed r r')
  | dropped (r : Runner D) (h : r ∈ s.runners) (hdrops : Drops s op r) (he : r' = r.unregistered)
  | fresh (task : TaskSpec) (source : Source) (he : r' = newRunner task source)

/-- What a step can do to the runners and to what has been requested. -/
structure Effects (app : App) (s : State D) (op : Op D) (t : State D) : Prop where
  runners : ∀ r' ∈ t.runners, Becomes app s op r'
  drains : s.controls.drainRequested = true → t.controls.drainRequested = true
  suspends : ∀ taskName, Suspended s taskName → ¬Lifts taskName op → Suspended t taskName

theorem effects_runners (hruns : ∀ r' ∈ t.runners, Becomes app s op r')
    (he : t.controls = s.controls) : Effects app s op t := by
  refine ⟨hruns,?_,?_⟩
  · rw [he]
    exact id
  · unfold Suspended
    rw [he]
    exact fun _ h _ => h

theorem effects_same (he : t.runners = s.runners) (hc : t.controls = s.controls) :
    Effects app s op t :=
  effects_runners (fun _ hr' => .kept (he ▸ hr')) hc

theorem effects_update {i : ℕ} {f : Runner D → Option (Runner D)}
    (hf : ∀ r r', f r = some r' → Moves s.controls app.timed r r')
    (h : updateRunner s i f = some t) : Effects app s op t := by
  obtain ⟨r',hr',rfl⟩ := Option.map_eq_some_iff.mp h
  obtain ⟨r,hr,hmove⟩ := Option.bind_eq_some_iff.mp hr'
  refine effects_runners (fun r'' hmem => ?_) rfl
  rcases List.mem_or_eq_of_mem_set hmem with hold | rfl
  · exact .kept hold
  · exact .moved r (List.mem_of_getElem? hr) (hf r _ hmove)

omit [DecidableEq D] in
theorem suspended_filter {other : String} (h : Suspended s taskName) (hne : other ≠ taskName) :
    s.controls.isStopping = true ∨
      taskName ∈ s.controls.pausedTasks.filter fun t => t ≠ other :=
  h.imp id fun hmem => List.mem_filter.mpr ⟨hmem,decide_eq_true (Ne.symm hne)⟩

theorem effects_dropRunners {s' : State D} (he : s'.runners = s.runners)
    (hc : s'.controls = s.controls) (hdrops : ∀ r : Runner D, r.taskName = taskName → Drops s op r)
    (hlifts : ∀ other, ¬Lifts other op → taskName ≠ other) :
    Effects app s op (dropRunners s' taskName) := by
  refine ⟨fun r' hmem => ?_,fun h => ?_,fun other h hnot => ?_⟩
  · obtain ⟨r,hr,rfl⟩ := List.mem_map.mp hmem
    rw [he] at hr
    split
    · next hname => exact .dropped r hr (hdrops r hname) rfl
    · exact .kept hr
  · rw [dropRunners,hc]
    exact h
  · unfold Suspended dropRunners
    rw [hc]
    exact suspended_filter h (hlifts other hnot)

theorem effects_of_perform (h : perform app s op = some t) : Effects app s op t := by
  cases op with
  | serve =>
    change (if s.serving then none else some (registerRunners app s)) = some t at h
    split at h
    · cases h
    · cases h
      refine effects_runners (fun r' hr' => ?_) rfl
      rcases List.mem_append.mp hr' with hold | hnew
      · obtain ⟨r,hr,rfl⟩ := List.mem_map.mp hold
        exact .dropped r hr trivial rfl
      · obtain ⟨task,-,hsource⟩ := List.mem_filterMap.mp hnew
        obtain ⟨source,-,rfl⟩ := Option.map_eq_some_iff.mp hsource
        exact .fresh task source rfl
  | requestDrain =>
    cases h
    exact ⟨fun r' hr' => .kept hr',fun _ => rfl,fun _ h _ => h⟩
  | requestShutdown =>
    cases h
    exact ⟨fun r' hr' => .kept hr',id,fun _ _ _ => .inl rfl⟩
  | stopCancelled | manualEnds =>
    cases h
    exact effects_same rfl rfl
  | requestTaskPause other =>
    obtain ⟨_,-,rfl⟩ := Option.map_eq_some_iff.mp h
    refine ⟨fun r' hr' => .kept hr',id,fun taskName h _ => ?_⟩
    exact h.imp id fun hmem => List.mem_append_left _ hmem
  | requestTaskResume other =>
    obtain ⟨_,-,rfl⟩ := Option.map_eq_some_iff.mp h
    exact ⟨fun r' hr' => .kept hr',id,fun taskName h hlifts => suspended_filter h hlifts⟩
  | clearRunners =>
    change (if _ then some (clearRunners s) else none) = some t at h
    split at h
    · next hguard =>
        cases h
        refine ⟨fun r' hr' => ?_,id,fun _ _ _ => .inl hguard.1⟩
        obtain ⟨r,hr,rfl⟩ := List.mem_map.mp hr'
        exact .dropped r hr trivial rfl
    · cases h
  | stopTaskRunner taskName =>
    obtain ⟨_,-,rfl⟩ := Option.map_eq_some_iff.mp h
    unfold stopTaskRunner
    dsimp only
    cases ha : awaited s taskName with
    | none => exact effects_dropRunners rfl rfl (fun r hr => ⟨ha,hr⟩) fun other hnot => hnot
    | some i => exact effects_same rfl rfl
  | stopEnds taskName i =>
    change (if _ then some _ else none) = some t at h
    split at h
    · cases h
      have hdropped : Effects app s (.stopEnds taskName i) (dropRunners s taskName) :=
        effects_dropRunners rfl rfl (fun r hr => hr) fun other hnot => hnot
      exact ⟨hdropped.runners,hdropped.drains,hdropped.suspends⟩
    · cases h
  | startTaskRunner =>
    obtain ⟨found,-,rfl⟩ := Option.map_eq_some_iff.mp h
    refine effects_runners (fun r' hr' => ?_) rfl
    rcases List.mem_append.mp hr' with hold | hnew
    · exact .kept hold
    · exact .fresh found.1 found.2 (List.mem_singleton.mp hnew)
  | runTaskOnce =>
    obtain ⟨found,-,hrun⟩ := Option.bind_eq_some_iff.mp h
    split at hrun
    · cases hrun
      exact effects_same rfl rfl
    · cases hrun
  | manualSettles | manualAgain =>
    obtain ⟨m,-,hmove⟩ := Option.bind_eq_some_iff.mp h
    split at hmove
    · cases hmove
      exact effects_same rfl rfl
    · cases hmove
  | resume i a => exact effects_update (fun r r' hr => .resume a hr) h
  | fetchEnds i result => exact effects_update (fun r r' hr => .fetchEnds result hr) h
  | stopFires i => exact effects_update (fun r r' hr => .stopFires hr) h
  | begin i k | settle i k | finish i k =>
    exact effects_update (fun r r' hr => .inflight k _ _ rfl hr) h
  | discard i k => exact effects_update (fun r r' hr => .discard k hr) h

theorem Counted.step (h : Counted s) (hstep : perform app s op = some t) (htidy : Tidy s op) :
    Counted t := by
  refine ⟨fun r' hr' => ?_,fun r' hr' hout => ?_⟩
  · cases (effects_of_perform hstep).runners r' hr' with
    | kept hr => exact h.parked r' hr
    | moved r hr hmoves => exact (h.parked r hr).moves hmoves
    | dropped r hr hdrops he =>
      rw [he]
      exact ⟨(h.parked r hr).drain,(h.parked r hr).pause⟩
    | fresh task source he =>
      rw [he]
      exact parked_of_flags rfl rfl
  · cases (effects_of_perform hstep).runners r' hr' with
    | kept hr => exact h.unregistered r' hr hout
    | moved r hr hmoves =>
      rw [hmoves.same.2] at hout
      exact (h.unregistered r hr hout).moves hmoves
    | dropped r hr hdrops he =>
      rw [he]
      cases hin : r.registered with
      | false => exact ⟨(h.unregistered r hr hin).phase,(h.unregistered r hr hin).inflight⟩
      | true =>
        have hover := htidy r (List.mem_filter.mpr ⟨hr,hin⟩) hdrops
        exact ⟨hover.phase,hover.inflight⟩
    | fresh task source he =>
      rw [he] at hout
      cases hout

theorem Held.step (h : Held s taskName) (hstep : perform app s op = some t)
    (hblocked : Blocked t.controls taskName) : Held t taskName := by
  refine ⟨hblocked,fun r' hr' hname => ?_⟩
  cases (effects_of_perform hstep).runners r' hr' with
  | kept hr => exact h.rests r' hr hname
  | moved r hr hmoves =>
    have hr_name : r.taskName = taskName := hmoves.same.1.symm.trans hname
    refine (h.rests r hr hr_name).moves ?_ hmoves
    rw [hr_name]
    exact h.blocked
  | dropped r hr hdrops he =>
    rw [he] at hname ⊢
    exact (h.rests r hr hname).unregistered
  | fresh task source he =>
    rw [he]
    exact rests_newRunner task source

end Registry

section Reports
variable {D : Type} {s : State D}

theorem settled_report {requested : Bool} {parked : Runner D → Bool} {rs : List (Runner D)}
    (h : (report requested parked rs).settled = true) :
    requested = true ∧ ∀ r ∈ rs, parked r = true := by
  unfold report at h
  simp only [Bool.and_eq_true,beq_iff_eq] at h
  exact ⟨h.1.1.1,List.length_filter_eq_length_iff.mp h.2⟩

/-- What a parked flag of every registered runner says of all runners. -/
theorem Counted.rests (h : Counted s) {r : Runner D} (hr : r ∈ s.runners)
    (hparked : r.registered = true → r.drainParked = true ∨ r.pauseParked = true) : Rests r := by
  cases hin : r.registered with
  | false => exact (h.unregistered r hr hin).rests
  | true =>
    rcases hparked hin with hflag | hflag
    · obtain ⟨hphase,hinflight⟩ := (h.parked r hr).drain hflag
      refine ⟨by rw [hphase]; rfl,?_⟩
      rw [hinflight]
      exact fun l hl => absurd hl List.not_mem_nil
    · obtain ⟨hphase,hinflight⟩ := (h.parked r hr).pause hflag
      refine ⟨by rcases hphase with he | he <;> rw [he] <;> rfl,?_⟩
      rw [hinflight]
      exact fun l hl => absurd hl List.not_mem_nil

theorem Counted.held_of_drained (h : Counted s) (hdrained : (drainStatus s).settled = true)
    (taskName : String) : Held s taskName := by
  obtain ⟨hrequested,hparked⟩ := settled_report hdrained
  refine ⟨blocked_of_drainRequested hrequested,fun r hr _ => h.rests hr fun hin => .inl ?_⟩
  exact hparked r (List.mem_filter.mpr ⟨hr,hin⟩)

theorem Counted.held_of_paused (h : Counted s) {app : App} {taskName : String} {status : Status}
    (hstatus : taskPauseStatus app s taskName = some status) (hpaused : status.settled = true) :
    Suspended s taskName ∧ Held s taskName := by
  obtain ⟨_,-,rfl⟩ := Option.map_eq_some_iff.mp hstatus
  obtain ⟨hrequested,hparked⟩ := settled_report hpaused
  have hsuspended : Suspended s taskName :=
    .inr (List.contains_iff_mem.mp (Bool.and_eq_true_iff.mp hrequested).1)
  refine ⟨hsuspended,hsuspended.blocked,fun r hr hname => h.rests hr fun hin => .inr ?_⟩
  exact hparked r (List.mem_filter.mpr ⟨List.mem_filter.mpr ⟨hr,hin⟩,decide_eq_true hname⟩)

end Reports

section Quiet
variable {D : Type} [DecidableEq D] {app : App} {ops : List (Op D)} {s : State D}

/-- No delivery that a runner of the task fetched is being handled or waits to start. -/
def QuietTask (s : State D) (taskName : String) : Prop :=
  ∀ r ∈ s.runners, r.taskName = taskName → QuietRunner r

def Quiet (s : State D) : Prop := ∀ r ∈ s.runners, QuietRunner r

/-- A step after which the registry lacks no runner that is still at work. -/
def TidyStep (app : App) (s : State D) (op : Op D) (t : State D) : Prop :=
  perform app s op = some t ∧ Tidy s op

theorem counted_of_run (h : Run (TidyStep app) start ops s) : Counted s := by
  refine h.invariant (fun s op t hs hstep => hs.step hstep.1 hstep.2) ⟨?_,?_⟩
  · exact fun r hr => absurd hr List.not_mem_nil
  · exact fun r hr => absurd hr List.not_mem_nil

theorem held_of_run_drained {u : State D} {taskName : String} (h : Run (TidyStep app) s ops u)
    (hdrain : s.controls.drainRequested = true) (hheld : Held s taskName) : Held u taskName := by
  refine (h.invariant (I := fun s => s.controls.drainRequested = true ∧ Held s taskName) ?_
    ⟨hdrain,hheld⟩).2
  intro s op t hs hstep
  have hrequested := (effects_of_perform hstep.1).drains hs.1
  exact ⟨hrequested,hs.2.step hstep.1 (blocked_of_drainRequested hrequested)⟩

theorem held_of_run_paused {u : State D} {taskName : String} (h : Run (TidyStep app) s ops u)
    (hlifts : ∀ op ∈ ops, ¬Lifts taskName op) (hsuspended : Suspended s taskName)
    (hheld : Held s taskName) : Held u taskName := by
  induction h with
  | nil s => exact hheld
  | cons hstep _ ih =>
    have hnext := (effects_of_perform hstep.1).suspends taskName hsuspended
      (hlifts _ List.mem_cons_self)
    refine ih (fun op hop => hlifts op (List.mem_cons_of_mem _ hop)) hnext ?_
    exact hheld.step hstep.1 hnext.blocked

/-- What is reported as settled stays quiet, while no
control lifts it. -/
theorem reported_quiet (app : App) {s : State D} {ops : List (Op D)}
    (h : Run (TidyStep app) start ops s) :
    ((drainStatus s).settled = true → ∀ ms u, Run (TidyStep app) s ms u → Quiet u) ∧
      ∀ taskName status, taskPauseStatus app s taskName = some status → status.settled = true →
        ∀ ms u, Run (TidyStep app) s ms u → (∀ op ∈ ms, ¬Lifts taskName op) →
          QuietTask u taskName := by
  have hcounted := counted_of_run h
  refine ⟨fun hdrained ms u hrun r hr => ?_,fun taskName status hstatus hpaused ms u hrun hlifts => ?_⟩
  · have hheld := hcounted.held_of_drained hdrained r.taskName
    exact ((held_of_run_drained hrun (settled_report hdrained).1 hheld).rests r hr rfl).quiet
  · obtain ⟨hsuspended,hheld⟩ := hcounted.held_of_paused hstatus hpaused
    intro r hr hname
    exact ((held_of_run_paused hrun hlifts hsuspended hheld).rests r hr hname).quiet

theorem run_tidy {t : State D} (hops : ∀ op ∈ ops, ∀ s r, ¬Drops s op r)
    (h : runs (perform app) (fun _ _ => true) s ops = some t) : Run (TidyStep app) s ops t := by
  refine Run.mono ?_ (run_of_labels (P := fun op => ∀ s r, ¬Drops s op r) hops h)
  exact fun s op t hstep => ⟨hstep.1,fun r _ hdrops => absurd hdrops (hstep.2 s r)⟩

def oneTask : App := ⟨[⟨"sync",some ⟨true,false,true⟩,1,Nat.one_pos⟩],true⟩

/-- A fresh runner takes what the source returns, and starts to handle it. -/
def handles (i d : ℕ) : List (Op ℕ) :=
  [.resume i .returned,.fetchEnds i (.returned [d]),.resume i .returned,.resume i .returned,
    .resume i .returned,.begin i 0]

/-- A drained runtime is quiet. -/
theorem reported_quiet_drained :
    ∃ (ops : List (Op ℕ)) (s : State ℕ), Run (TidyStep oneTask) start ops s ∧
      (drainStatus s).settled = true ∧ Quiet s := by
  have hserve : Run (TidyStep oneTask) (start : State ℕ) [.serve] (registerRunners oneTask start) :=
    .single ⟨rfl,fun r hr _ => absurd hr List.not_mem_nil⟩
  obtain ⟨s,hs,hdrained⟩ : ∃ s, runs (perform oneTask) (fun _ _ => true)
      (registerRunners oneTask start)
      (handles 0 7++[.requestDrain,.settle 0 0,.finish 0 0,.discard 0 0,.resume 0 .returned])
        = some s ∧ (drainStatus s).settled = true := ⟨_,rfl,rfl⟩
  have hrun := hserve.append (run_tidy (by simp [handles,Drops]) hs)
  exact ⟨_,s,hrun,hdrained,(reported_quiet oneTask hrun).1 hdrained [] s (.nil s)⟩

/-- A manual run is not counted; a restart lifts a pause; and of two restarts that overlap, the
one that ends last drops the runner which the other has started. -/
theorem reported_not_quiet :
    (∃ ops s, runs (perform oneTask) (fun _ _ => true) (start : State ℕ) ops = some s ∧
      (drainStatus s).settled = true ∧ ("sync",.handling) ∈ s.manual) ∧
    (∃ ops s ms u, runs (perform oneTask) (fun _ _ => true) (start : State ℕ) ops = some s ∧
      (∃ status, taskPauseStatus oneTask s "sync" = some status ∧ status.settled = true) ∧
      runs (perform oneTask) (fun _ _ => true) s ms = some u ∧
      Op.requestTaskResume "sync" ∉ ms ∧ Op.requestShutdown ∉ ms ∧
      ∃ r ∈ u.runners, r.taskName = "sync" ∧ ⟨7,.handling⟩ ∈ r.inflight) ∧
    ∃ ops s, runs (perform oneTask) (fun _ _ => true) (start : State ℕ) ops = some s ∧
      (drainStatus s).settled = true ∧ ∃ r ∈ s.runners, ⟨7,.handling⟩ ∈ r.inflight := by
  refine ⟨⟨[.serve,.requestDrain,.resume 0 .returned,.runTaskOnce "sync"],_,rfl,rfl,by decide⟩,
    ⟨[.serve,.requestTaskPause "sync",.resume 0 .returned],_,
      [.stopTaskRunner "sync",.resume 0 .cancelled,.stopEnds "sync" 0,.startTaskRunner "sync"]++
        handles 1 7,_,rfl,⟨_,rfl,rfl⟩,rfl,by decide,by decide,by decide⟩,
    ⟨[.serve,.stopTaskRunner "sync",.stopTaskRunner "sync",.startTaskRunner "sync"]++handles 1 7++
      [.resume 0 .cancelled,.stopEnds "sync" 0,.startTaskRunner "sync",.requestDrain,
        .resume 2 .returned],_,rfl,rfl,by decide⟩⟩

end Quiet

end OneStep.QuietStatus
