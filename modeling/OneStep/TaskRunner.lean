import OneStep.DeliveryModel

/-!
# The task runner

`TaskRunner.run` fetches deliveries and starts a task for each of them. The
fetch runs as a task of its own, next to one that waits for a stop request, and
the runner itself may be cancelled at every await. What the event loop decides
in one pass of the loop is an `Iteration`; a list of them, followed by the stop
that ends the loop, is one run.

Three facts about the event loop are built in. `asyncio.wait` returns only when
one of its tasks is done. A cancelled `gather`, and a cancelled await of a task,
end only when the tasks they wait for have ended; so the fetch is done whenever
the except clause is entered, unless the wait itself was cancelled. Awaiting a
task that is done does not suspend.

Logging is left out, and so is what a started task does.
-/
namespace OneStep.TaskRunner
open Coroutine DeliveryModel

structure Source where
  fetchIsCancelSafe : Bool := true
  pollIntervalS : ℚ := 1
  deriving DecidableEq, Repr

structure Runner where
  source : Source
  concurrency : ℕ
  eventHandlers : ℕ
  deriving DecidableEq, Repr

/-- Which tasks were done when `asyncio.wait` returned, or that it was cancelled. -/
inductive Wait where
  | fetch | stop | both
  | cancelled (fetchDone : Bool)
  deriving DecidableEq, Repr

def Wait.stopped : Wait → Bool
  | .stop | .both => true
  | _ => false

/-- Whether the fetch was done, once the wait was over. -/
def Wait.fetchDone : Wait → Bool
  | .fetch | .both => true
  | .stop => false
  | .cancelled fetchDone => fetchDone

/-- The try block of `_fetch_deliveries`, or its except clause. -/
inductive Phase where
  | attempt | recovery
  deriving DecidableEq, Repr

/-- What happens in one call of `_fetch_deliveries` and to what it returns. -/
structure Fetching (D : Type) where
  /-- A stop was requested before the fetch. -/
  stopped : Bool
  /-- How the fetch task ends. -/
  fetchEnd : Outcome Exn (List D)
  wait : Wait
  /-- A cancellation arrives while the fetch task is awaited. -/
  interrupted : Phase → Bool
  gatherCancelled : Phase → Bool
  backoff : Phase → Outcome Exn Unit
  isStopping : Phase → Bool
  /-- A stop was requested by the time the fetch was resolved. -/
  stopRequested : Bool
  release : Phase → ℕ → Outcome Exn Unit
  cleanupCancelled : Bool
  copyMeta : ℕ → Except Exn Unit
  handler : ℕ → ℕ → Outcome Exn Unit
  /-- The task of this delivery is not cancelled before its first step. -/
  starts : ℕ → Bool

inductive Point where
  | wait | cleanup | inflight | shutdown | sleep | resume | drain
  | fetchTask (phase : Phase)
  | gather (phase : Phase)
  | backoff (phase : Phase)
  deriving DecidableEq, Repr

/-- What the runner does, with the number of the iteration and the position of
the delivery in its batch. -/
inductive Act (D : Type) where
  | fetch (cycle limit : ℕ) (returned : List D)
  | release (cycle index : ℕ) (delivery : D)
  | execute (cycle index : ℕ) (delivery : D)
  | eventHandler (cycle index handler : ℕ)
  | suspend (point : Point)
  deriving DecidableEq, Repr

structure RunnerState where
  inflight : ℕ := 0
  fetching : Bool := false
  drainParked : Bool := false
  pauseParked : Bool := false
  deriving DecidableEq, Repr

abbrev Loop (D α : Type) := Co RunnerState (Act D) Exn α

variable {D : Type} (r : Runner) (n : ℕ)

def cancelledIf (b : Bool) : Outcome Exn Unit := if b then .error .cancelled else .ok ()

section Fetch
variable (c : Fetching D)

/-- The deliveries `source.fetch` returned as its result. -/
def Fetching.returned : List D :=
  match c.fetchEnd with
  | .ok ds => ds
  | .error _ => []

def awaitFetchTask (phase : Phase) (done : Bool) : Loop D (List D) :=
  call (.suspend (.fetchTask phase))
    (if done = false ∧ c.interrupted phase = true then .error .cancelled else c.fetchEnd)

def handleSourceFetchError (phase : Phase) (exc : ConnectorOperationError) : Loop D Unit :=
  if connectorRetryDelay exc r.source.pollIntervalS ≤ 0 ∨ c.isStopping phase = true then pure ()
  else attempt (call (.suspend (.backoff phase)) (c.backoff phase)) fun e =>
    if e.timeout then pure () else interrupt (.raised e)

def resolveFetchTask (phase : Phase) (done : Bool) : Loop D (List D) :=
  attempt (awaitFetchTask c phase done) fun e =>
    match e.connector with
    | none => interrupt (.raised e)
    | some exc =>
      if isRetryableConnectorError exc = false then interrupt (.raised e)
      else do
        handleSourceFetchError r c phase exc
        return []

def releaseUnstartedDeliveries (phase : Phase) : ℕ → List D → Loop D Unit
  | _,[] => return ()
  | i,d::ds => do
    suppress (call (.release n i d) (c.release phase i))
    releaseUnstartedDeliveries phase (i+1) ds

def cancelOrReleaseFetch (done : Bool) : Loop D Unit :=
  if done = false ∧ r.source.fetchIsCancelSafe = true then
    call (.suspend (.gather .recovery)) (cancelledIf (c.gatherCancelled .recovery))
  else do
    let deliveries ← resolveFetchTask r c .recovery done
    releaseUnstartedDeliveries n c .recovery 0 deliveries

/-- The stop task was done: the fetch is cancelled, or its result released. -/
def abandonFetch : Loop D Unit :=
  if r.source.fetchIsCancelSafe then
    call (.suspend (.gather .attempt)) (cancelledIf (c.gatherCancelled .attempt))
  else do
    let deliveries ← resolveFetchTask r c .attempt c.wait.fetchDone
    releaseUnstartedDeliveries n c .attempt 0 deliveries

def unlessStopRequested (deliveries : List D) : Loop D (List D) :=
  if c.stopRequested then do
    releaseUnstartedDeliveries n c .attempt 0 deliveries
    return []
  else return deliveries

/-- Only the fetch task was done. -/
def takeFetched : Loop D (List D) := do
  let deliveries ← resolveFetchTask r c .attempt true
  unlessStopRequested n c deliveries

def waitOutcome : Outcome Exn Unit :=
  match c.wait with
  | .cancelled _ => .error .cancelled
  | _ => .ok ()

/-- What follows the wait in the try block; with neither task done, which does
not happen, the source cancels the fetch. -/
def afterWait : Loop D (List D) :=
  if c.wait.stopped then do
    abandonFetch r n c
    return []
  else takeFetched r n c

def fetchAttempt : Loop D (List D) := do
  call (.suspend .wait) (waitOutcome c)
  afterWait r n c

/-- The except clause knows the fetch to be done unless the wait was cancelled. -/
def doneAtRecovery : Bool :=
  match c.wait with
  | .cancelled fetchDone => fetchDone
  | _ => true

/-- The finally clause, which gathers nothing when both tasks were done. -/
def cleanup : Loop D Unit := do
  assign fun s => {s with fetching := false}
  if c.wait = .both then return ()
  else call (.suspend .cleanup) (cancelledIf c.cleanupCancelled)

def startFetch (limit : ℕ) : Loop D (List D) := do
  assign fun s => {s with fetching := true}
  call (.fetch n limit c.returned) (.ok ())
  ensure (onCancelled (fetchAttempt r n c) (cancelOrReleaseFetch r n c (doneAtRecovery c)))
    (cleanup c)

def fetchDeliveries (limit : ℕ) : Loop D (List D) :=
  if c.stopped then pure [] else startFetch r n c limit

def emitEvent (i : ℕ) : Loop D Unit := do
  ofExcept (c.copyMeta i)
  forEach (fun k => suppress (call (.eventHandler n i k) (c.handler i k)))
    (List.range r.eventHandlers)

def emitBatchEvent (deliveries : List D) : Loop D Unit :=
  forEach (emitEvent r n c) (List.range deliveries.length)

/-- Creating the task of a delivery, which passes it to the executor in its
first step. -/
def startDelivery (i : ℕ) (d : D) : Loop D Unit := do
  assign fun s => {s with inflight := s.inflight+1}
  if c.starts i then call (.execute n i d) (.ok ()) else pure ()

def startDeliveries : ℕ → List D → Loop D Unit
  | _,[] => return ()
  | i,d::ds => do
    startDelivery n c i d
    startDeliveries (i+1) ds

end Fetch

section Run

/-- One pass of the loop, entered while the app is not stopping. -/
structure Iteration (D : Type) where
  /-- Deliveries whose task ended since the last pass. -/
  finished : ℕ
  draining : Bool
  paused : Bool
  /-- The await of this pass that is not part of a fetch. -/
  pause : Outcome Exn Unit
  resume : Outcome Exn Unit
  fetching : Fetching D
  isStopping : Bool

variable (it : Iteration D)

/-- Waiting for the inflight deliveries, or else parked; true to go on. -/
def whileDraining (s : RunnerState) : Loop D Bool :=
  if 0 < s.inflight then do
    call (.suspend .inflight) it.pause
    return true
  else do
    assign fun s => {s with pauseParked := false, drainParked := true}
    call (.suspend .shutdown) it.pause
    return false

def whilePaused (s : RunnerState) : Loop D Bool :=
  if 0 < s.inflight then do
    call (.suspend .inflight) it.pause
    return true
  else do
    assign fun s => {s with pauseParked := true, drainParked := false}
    attempt (do
        call (.suspend .shutdown) it.pause
        return false)
      fun e => if e.timeout then pure true else interrupt (.raised e)

def resumeSourceAfterPause (s : RunnerState) : Loop D Unit :=
  if s.pauseParked then call (.suspend .resume) it.resume else pure ()

/-- What follows a fetch; true to go on. -/
def afterFetch (s : RunnerState) : List D → Loop D Bool
  | [] =>
    if it.isStopping then return false
    else do
      call (.suspend (if 0 < s.inflight then .inflight else .sleep)) it.pause
      return true
  | d::ds => do
    emitBatchEvent r n it.fetching (d::ds)
    startDeliveries n it.fetching 0 (d::ds)
    return true

def fetchCycle (s : RunnerState) : Loop D Bool := do
  let deliveries ← fetchDeliveries r n it.fetching (r.concurrency-s.inflight)
  afterFetch r n it s deliveries

def whileRunning (s : RunnerState) : Loop D Bool := do
  assign fun s => {s with drainParked := false}
  resumeSourceAfterPause it s
  assign fun s => {s with pauseParked := false}
  if r.concurrency ≤ s.inflight then do
    call (.suspend .inflight) it.pause
    return true
  else fetchCycle r n it s

def iteration : Loop D Bool := do
  assign fun s => {s with inflight := s.inflight-it.finished}
  let s ← current
  if it.draining then whileDraining it s
  else if it.paused then whilePaused it s
  else whileRunning r n it s

/-- The loop ends when the app is stopping, which is where the list ends. -/
def runLoop : ℕ → List (Iteration D) → Loop D Unit
  | _,[] => return ()
  | n,it::its => do
    let goOn ← iteration r n it
    if goOn then runLoop (n+1) its else return ()

def drainInflight (drained : Outcome Exn Unit) (s : RunnerState) : Loop D Unit :=
  if s.inflight = 0 then pure () else call (.suspend .drain) drained

def finish (drained : Outcome Exn Unit) : Loop D Unit := do
  assign fun s => {s with drainParked := false, pauseParked := false, fetching := false}
  let s ← current
  drainInflight drained s

def run (its : List (Iteration D)) (drained : Outcome Exn Unit) : Loop D Unit :=
  ensure (runLoop r 0 its) (finish drained)

end Run

end OneStep.TaskRunner
