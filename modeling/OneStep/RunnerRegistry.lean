import OneStep.Transition
import Mathlib.Algebra.GroupWithZero.Nat

/-!
# The runner registry

The runners of an application are coroutines on one event loop, and what `drain_status` and
`task_pause_status` report is computed from their flags and counters. Every step below goes from
one await to the next: of a runner's loop, of the tasks that handle its deliveries, and of the
calls that start and stop runners. Only the registered runners are counted.
-/
namespace OneStep.RunnerRegistry

/-- What the runner asks of a task's source. -/
structure Source where
  fetchIsCancelSafe : Bool
  resumesAfterPause : Bool
  supportsManualRun : Bool
deriving DecidableEq, Repr

structure TaskSpec where
  name : String
  source : Option Source
  concurrency : ℕ
  concurrency_pos : 0 < concurrency

/-- How far a task that handles a delivery has come. -/
inductive Stage where
  | waiting
  | handling
  | settling
  | finished
deriving DecidableEq, Repr

structure Handling (D : Type) where
  delivery : D
  stage : Stage
deriving DecidableEq, Repr

/-- What has become of the task that fetches. -/
inductive Fetched (D : Type) where
  | pending
  | returned (ds : List D)
  | degraded
  | raised
deriving DecidableEq, Repr

/-- The await a runner is at. Where it is inside a fetch, `leave` tells whether it has been
cancelled there; `cleaning` keeps what the fetch is about to return, if anything. -/
inductive Phase (D : Type) where
  | created
  | waiting
  | drainParked
  | pauseParked
  | resuming
  | attempting
  | cancelling (leave : Bool)
  | resolving (leave : Bool)
  | backingOff (leave : Bool)
  | releasing (leave : Bool) (ds : List D)
  | cleaning (result : Option (List D))
  | sleeping
  | emitting (ds : List D)
  | draining
  | ended
deriving DecidableEq, Repr

structure Runner (D : Type) where
  taskName : String
  source : Source
  concurrency : ℕ
  phase : Phase D
  fetching : Bool
  drainParked : Bool
  pauseParked : Bool
  inflight : List (Handling D)
  fetch : Fetched D
  stopSeen : Bool
  registered : Bool
deriving DecidableEq, Repr

structure Controls where
  drainRequested : Bool
  shutdownRequested : Bool
  pausedTasks : List String
deriving DecidableEq, Repr

def Controls.isStopping (c : Controls) : Bool := c.shutdownRequested

def Controls.isDraining (c : Controls) : Bool := c.drainRequested && !c.isStopping

def Controls.isTaskPaused (c : Controls) (taskName : String) : Bool :=
  c.pausedTasks.contains taskName && !c.isStopping

/-- How an await ends. -/
inductive Await where
  | returned
  | timedOut
  | raised
  | cancelled
deriving DecidableEq, Repr

section Loop
variable {D : Type}

/-- The `finally` of the loop, as far as its await. -/
def leave (r : Runner D) : Runner D :=
  {r with
    drainParked := false, pauseParked := false, fetching := false
    phase := if r.inflight.isEmpty then .ended else .draining}

def afterEmpty (c : Controls) (r : Runner D) : Runner D :=
  if c.isStopping then leave r
  else {r with phase := if r.inflight.isEmpty then .sleeping else .waiting}

def fetchDeliveries (c : Controls) (r : Runner D) : Runner D :=
  if c.isStopping || c.isDraining || c.isTaskPaused r.taskName then afterEmpty c r
  else {r with fetching := true, phase := .attempting, fetch := .pending, stopSeen := false}

def takeWork (c : Controls) (r : Runner D) : Runner D :=
  let r := {r with pauseParked := false}
  if r.concurrency ≤ r.inflight.length then {r with phase := .waiting} else fetchDeliveries c r

/-- The loop of `run` from its head. -/
def loop (c : Controls) (r : Runner D) : Runner D :=
  if c.isStopping then leave r
  else if c.isDraining then
    if r.inflight.isEmpty then
      {r with pauseParked := false, drainParked := true, phase := .drainParked}
    else {r with phase := .waiting}
  else if c.isTaskPaused r.taskName then
    if r.inflight.isEmpty then
      {r with drainParked := false, pauseParked := true, phase := .pauseParked}
    else {r with phase := .waiting}
  else if r.pauseParked && r.source.resumesAfterPause then
    {r with drainParked := false, phase := .resuming}
  else takeWork c {r with drainParked := false}

/-- The `finally` of `_fetch_deliveries`. -/
def cleanUp (r : Runner D) (result : Option (List D)) : Runner D :=
  {r with fetching := false, phase := .cleaning result}

def releaseUnstarted (r : Runner D) (leave : Bool) (ds : List D) : Runner D :=
  if ds.isEmpty then cleanUp r (if leave then none else some [])
  else {r with phase := .releasing leave ds}

def cancelOrReleaseFetch [DecidableEq D] (r : Runner D) : Runner D :=
  {r with
    phase :=
      if r.fetch = .pending ∧ r.source.fetchIsCancelSafe then .cancelling true
      else .resolving true}

/-- The fetch task awaited after the runner has been told to stop. -/
def resolveFetchTask (r : Runner D) (leave : Bool) : Option (Runner D) :=
  match r.fetch with
  | .pending => none
  | .returned ds => some (releaseUnstarted r leave ds)
  | .degraded => some {r with phase := .backingOff leave}
  | .raised => some (cleanUp r none)

def takeFetched (c : Controls) (r : Runner D) : Option (Runner D) :=
  match r.fetch with
  | .pending => none
  | .returned ds =>
    if c.isStopping || c.isDraining || c.isTaskPaused r.taskName then
      some (releaseUnstarted r false ds)
    else some (cleanUp r (some ds))
  | .degraded => some {r with phase := .backingOff false}
  | .raised => some (cleanUp r none)

def trackInflight (r : Runner D) (ds : List D) : Runner D :=
  {r with inflight := r.inflight++ds.map fun d => ⟨d,.waiting⟩}

/-- A runner goes on from its await. -/
def resume [DecidableEq D] (c : Controls) (timed : Bool) (r : Runner D) (a : Await) :
    Option (Runner D) :=
  match r.phase,a with
  | .created,.returned => some (loop c r)
  | .created,.cancelled => some {r with phase := .ended}
  | .waiting,.returned => some (loop c r)
  | .waiting,.timedOut => some (loop c r)
  | .waiting,.cancelled => some (leave r)
  | .drainParked,.returned => if c.isStopping then some (leave r) else none
  | .drainParked,.cancelled => some (leave r)
  | .pauseParked,.returned => if c.isStopping then some (leave r) else none
  | .pauseParked,.timedOut => some (loop c r)
  | .pauseParked,.cancelled => some (leave r)
  | .resuming,.returned => some (takeWork c r)
  | .resuming,.raised => some (leave r)
  | .resuming,.cancelled => some (leave r)
  | .attempting,.returned =>
    if r.stopSeen then
      some {r with
        phase := if r.source.fetchIsCancelSafe then .cancelling false else .resolving false}
    else takeFetched c r
  | .attempting,.cancelled => some (cancelOrReleaseFetch r)
  | .cancelling leave,.returned =>
    if r.fetch = .pending then none else some (cleanUp r (if leave then none else some []))
  | .cancelling leave,.cancelled => some (if leave then cleanUp r none else cancelOrReleaseFetch r)
  | .resolving leave,.returned => resolveFetchTask r leave
  | .resolving leave,.cancelled =>
    some (if leave ∨ r.fetch = .pending then cleanUp r none else cancelOrReleaseFetch r)
  | .backingOff leave,.returned => some (releaseUnstarted r leave [])
  | .backingOff leave,.timedOut => some (releaseUnstarted r leave [])
  | .backingOff leave,.cancelled => some (if leave then cleanUp r none else cancelOrReleaseFetch r)
  | .releasing leave ds,.returned => some (releaseUnstarted r leave ds.tail)
  | .releasing leave ds,.raised => some (releaseUnstarted r leave ds.tail)
  | .releasing leave _,.cancelled =>
    some (if leave then cleanUp r none else cancelOrReleaseFetch r)
  | .cleaning none,.returned => some (leave r)
  | .cleaning (some []),.returned => some (afterEmpty c r)
  | .cleaning (some (d::ds)),.returned => some {r with phase := .emitting (d::ds)}
  | .cleaning _,.cancelled => some (leave r)
  | .sleeping,.returned => some (loop c r)
  | .sleeping,.cancelled => some (leave r)
  | .emitting ds,.returned => some (loop c (trackInflight r ds))
  | .emitting _,.raised => some (leave r)
  | .emitting _,.cancelled => some (leave r)
  | .draining,.returned => if r.inflight.isEmpty then some {r with phase := .ended} else none
  | .draining,.timedOut => if timed then some {r with phase := .ended} else none
  | .draining,.cancelled => some {r with phase := .ended}
  | _,_ => none

end Loop

section Registry
variable {D : Type}

/-- The tasks of an application, and whether it has a shutdown timeout. -/
structure App where
  tasks : List TaskSpec
  timed : Bool

structure State (D : Type) where
  controls : Controls
  serving : Bool
  runners : List (Runner D)
  handles : List (String × ℕ)
  stops : List (String × ℕ)
  manual : List (String × Stage)
deriving DecidableEq, Repr

/-- What `startup` resets. -/
def start : State D := ⟨⟨false,false,[]⟩,false,[],[],[],[]⟩

def newRunner (task : TaskSpec) (source : Source) : Runner D :=
  ⟨task.name,source,task.concurrency,.created,false,false,false,[],.pending,false,true⟩

def App.requireControllableTask (app : App) (taskName : String) : Option (TaskSpec × Source) :=
  (app.tasks.find? fun task => task.name = taskName).bind fun task =>
    task.source.map fun source => (task,source)

/-- A runner for every task with a source. -/
def App.newRunners (app : App) : List (Runner D) :=
  app.tasks.filterMap fun task => task.source.map (newRunner task)

def Runner.unregistered (r : Runner D) : Runner D := {r with registered := false}

/-- `_runner_tasks[task_name] = handle` -/
def setHandle (handles : List (String × ℕ)) (taskName : String) (i : ℕ) : List (String × ℕ) :=
  (handles.filter fun h => h.1 ≠ taskName)++[(taskName,i)]

def handle (handles : List (String × ℕ)) (taskName : String) : Option ℕ :=
  (handles.find? fun h => h.1 = taskName).map fun h => h.2

def registerRunners (app : App) (s : State D) : State D :=
  {s with
    serving := true
    runners := s.runners.map Runner.unregistered++app.newRunners
    handles := (app.newRunners (D := D)).zipIdx.foldl
      (fun handles r => setHandle handles r.1.taskName (s.runners.length+r.2)) []}

/-- What `stop_task_runner` does once the runner it cancelled has ended. -/
def dropRunners (s : State D) (taskName : String) : State D :=
  {s with
    controls := {s.controls with pausedTasks := s.controls.pausedTasks.filter fun t => t ≠ taskName}
    runners := s.runners.map fun r => if r.taskName = taskName then r.unregistered else r}

def Runner.done (r : Runner D) : Bool :=
  match r.phase with
  | .ended => true
  | _ => false

def isDone (s : State D) (i : ℕ) : Bool :=
  match s.runners[i]? with
  | some r => r.done
  | none => true

/-- The runner that a stop has to wait for. -/
def awaited (s : State D) (taskName : String) : Option ℕ :=
  (handle s.handles taskName).filter fun i => !isDone s i

def stopTaskRunner (s : State D) (taskName : String) : State D :=
  let t := {s with handles := s.handles.filter fun h => h.1 ≠ taskName}
  match awaited s taskName with
  | none => dropRunners t taskName
  | some i => {t with stops := s.stops++[(taskName,i)]}

def startTaskRunner (s : State D) (task : TaskSpec) (source : Source) : State D :=
  {s with
    runners := s.runners++[newRunner task source]
    handles := setHandle s.handles task.name s.runners.length}

/-- What `shutdown` leaves of the registries. -/
def clearRunners (s : State D) : State D :=
  {s with
    controls := {s.controls with pausedTasks := []}
    runners := s.runners.map Runner.unregistered
    handles := []}

end Registry

inductive Op (D : Type) where
  | serve
  | requestDrain
  | requestTaskPause (taskName : String)
  | requestTaskResume (taskName : String)
  | requestShutdown
  | clearRunners
  | stopTaskRunner (taskName : String)
  | stopEnds (taskName : String) (i : ℕ)
  | stopCancelled (i : ℕ)
  | startTaskRunner (taskName : String)
  | runTaskOnce (taskName : String)
  | manualSettles (i : ℕ)
  | manualAgain (i : ℕ)
  | manualEnds (i : ℕ)
  | resume (i : ℕ) (a : Await)
  | fetchEnds (i : ℕ) (result : Fetched D)
  | stopFires (i : ℕ)
  | begin (i k : ℕ)
  | settle (i k : ℕ)
  | finish (i k : ℕ)
  | discard (i k : ℕ)
deriving DecidableEq, Repr

section Steps
variable {D : Type} [DecidableEq D]

def updateRunner (s : State D) (i : ℕ) (f : Runner D → Option (Runner D)) : Option (State D) :=
  (s.runners[i]?.bind f).map fun r => {s with runners := s.runners.set i r}

/-- A task that handles a delivery goes from one stage to the next. -/
def moveInflight (k : ℕ) (allowed : Stage → Bool) (stage : Stage) (r : Runner D) :
    Option (Runner D) :=
  r.inflight[k]?.bind fun h =>
    if allowed h.stage then some {r with inflight := r.inflight.set k {h with stage := stage}}
    else none

def discardInflight (k : ℕ) (r : Runner D) : Option (Runner D) :=
  r.inflight[k]?.bind fun h =>
    if h.stage = .finished then some {r with inflight := r.inflight.eraseIdx k} else none

def endFetch (result : Fetched D) (r : Runner D) : Option (Runner D) :=
  match r.phase,r.fetch with
  | .attempting,.pending => some {r with fetch := result}
  | .cancelling _,.pending => some {r with fetch := result}
  | .resolving _,.pending => some {r with fetch := result}
  | _,_ => none

/-- `wait_for_stop_fetching` has returned. -/
def seeStop (c : Controls) (r : Runner D) : Option (Runner D) :=
  if c.isStopping || c.drainRequested || c.isTaskPaused r.taskName then
    match r.phase with
    | .attempting => some {r with stopSeen := true}
    | _ => none
  else none

def moveManual (s : State D) (i : ℕ) (before after : Stage) : Option (State D) :=
  s.manual[i]?.bind fun m =>
    if m.2 = before then some {s with manual := s.manual.set i (m.1,after)} else none

def perform (app : App) (s : State D) : Op D → Option (State D)
  | .serve => if s.serving then none else some (registerRunners app s)
  | .requestDrain => some {s with controls := {s.controls with drainRequested := true}}
  | .requestTaskPause taskName => (app.requireControllableTask taskName).map fun _ =>
    {s with controls := {s.controls with pausedTasks := s.controls.pausedTasks++[taskName]}}
  | .requestTaskResume taskName => (app.requireControllableTask taskName).map fun _ =>
    {s with
      controls :=
        {s.controls with pausedTasks := s.controls.pausedTasks.filter fun t => t ≠ taskName}}
  | .requestShutdown => some {s with controls := {s.controls with shutdownRequested := true}}
  | .clearRunners =>
    if s.controls.isStopping ∧ s.handles.all fun h => isDone s h.2 then some (clearRunners s)
    else none
  | .stopTaskRunner taskName =>
    (app.requireControllableTask taskName).map fun _ => stopTaskRunner s taskName
  | .stopEnds taskName i =>
    if s.stops.contains (taskName,i) ∧ isDone s i then
      some {dropRunners s taskName with stops := s.stops.erase (taskName,i)}
    else none
  | .stopCancelled i => some {s with stops := s.stops.eraseIdx i}
  | .startTaskRunner taskName => (app.requireControllableTask taskName).map fun found =>
    startTaskRunner s found.1 found.2
  | .runTaskOnce taskName => (app.requireControllableTask taskName).bind fun found =>
    if found.2.supportsManualRun then some {s with manual := s.manual++[(taskName,.handling)]}
    else none
  | .manualSettles i => moveManual s i .handling .settling
  | .manualAgain i => moveManual s i .settling .handling
  | .manualEnds i => some {s with manual := s.manual.eraseIdx i}
  | .resume i a => updateRunner s i fun r => RunnerRegistry.resume s.controls app.timed r a
  | .fetchEnds i result => updateRunner s i (endFetch result)
  | .stopFires i => updateRunner s i (seeStop s.controls)
  | .begin i k => updateRunner s i (moveInflight k (fun stage => stage = .waiting) .handling)
  | .settle i k => updateRunner s i (moveInflight k (fun stage => stage = .handling) .settling)
  | .finish i k => updateRunner s i (moveInflight k (fun stage => stage ≠ .finished) .finished)
  | .discard i k => updateRunner s i (discardInflight k)

end Steps

section Status
variable {D : Type}

structure Status where
  requested : Bool
  settled : Bool
  acceptingNewWork : Bool
  runnerCount : ℕ
  parkedRunnerCount : ℕ
  fetchingRunnerCount : ℕ
  inflightTaskCount : ℕ
deriving DecidableEq, Repr

def State.registry (s : State D) : List (Runner D) := s.runners.filter fun r => r.registered

def report (requested : Bool) (parked : Runner D → Bool) (rs : List (Runner D)) : Status :=
  let inflightTaskCount := (rs.map fun r => r.inflight.length).sum
  let fetchingRunnerCount := (rs.filter fun r => r.fetching).length
  let parkedRunnerCount := (rs.filter parked).length
  ⟨requested,
    requested && inflightTaskCount == 0 && fetchingRunnerCount == 0
      && parkedRunnerCount == rs.length,
    !requested,rs.length,parkedRunnerCount,fetchingRunnerCount,inflightTaskCount⟩

def drainStatus (s : State D) : Status :=
  report s.controls.drainRequested (fun r => r.drainParked) s.registry

def taskPauseStatus (app : App) (s : State D) (taskName : String) : Option Status :=
  (app.requireControllableTask taskName).map fun _ =>
    report (s.controls.isTaskPaused taskName) (fun r => r.pauseParked)
      (s.registry.filter fun r => r.taskName = taskName)

end Status

end OneStep.RunnerRegistry
