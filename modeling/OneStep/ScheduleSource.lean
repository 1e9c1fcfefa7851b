import Mathlib.Data.Int.Notation
import Mathlib.Data.List.TakeWhile
import Mathlib.Tactic

/-!
# Interval and cron sources

`BaseScheduleSource` hands out a run for each fire time of its schedule. A fetch
drains the retried runs that are ready; then it hands out the immediate run, a
queued run, or the runs that became due, under the rule for overlapping runs. A
time is a wall clock reading of the timezone of the source, in microseconds: the
source compares times of one timezone only. A run of the source belongs to one
event loop, and each step below is one section that holds its lock.

Beside the fields of the source the model records the queue at each moment an
entry was dropped from it, and, for every run handed out, whether it was the
immediate one and whether it was settled.
-/
namespace OneStep.ScheduleSource

/-- When a source fires, and when it fires next; both may raise. -/
structure Schedule where
  initialFireAt : ℤ → Option ℤ
  nextFireAfter : ℤ → Option ℤ
  ahead : ∀ t t', nextFireAfter t = some t' → t < t'

section Schedules

/-- `IntervalSource`, whose constructor refuses an interval that is not positive. -/
def interval (d : ℤ) (hpositive : 0 < d) : Schedule where
  initialFireAt now := some (now+d)
  nextFireAfter t := some (t+d)
  ahead t t' h := by
    cases h
    omega

end Schedules

inductive Overlap where
  | allow | skip | queue
  deriving DecidableEq, Repr

/-- The constructor refuses a queue without room. -/
structure Settings where
  schedule : Schedule
  overlap : Overlap
  immediate : Bool := false
  maxQueuedRuns : ℕ := 1000
  room : 1 ≤ maxQueuedRuns := by decide

structure Envelope where
  scheduledAt : ℤ
  sequence : ℕ
  attempts : ℕ := 0
  deriving DecidableEq, Repr

structure Retry where
  readyAt : ℤ
  envelope : Envelope
  deriving DecidableEq, Repr

/-- The heap is kept in the order in which its entries are popped. -/
structure Source where
  initialized : Bool := false
  pendingImmediate : Bool := false
  nextFireAt : Option ℤ := none
  inflight : ℕ := 0
  sequence : ℕ := 0
  queuedRuns : List ℤ := []
  retryHeap : List Retry := []
  dropped : List (List ℤ) := []
  deriving DecidableEq, Repr

section Fetch
variable (cfg : Settings) (s : Source)

/-- `heappush`: an entry goes behind those that are ready no later, whose
sequence numbers are smaller. -/
def Source.push (r : Retry) : Source :=
  {s with retryHeap := s.retryHeap.takeWhile (fun q => decide (q.readyAt ≤ r.readyAt))++
    r::s.retryHeap.dropWhile fun q => decide (q.readyAt ≤ r.readyAt)}

/-- What `_drain_retry_locked` pops. -/
def Source.ready (now : ℤ) (limit : ℕ) : List Retry :=
  (s.retryHeap.takeWhile fun r => decide (r.readyAt ≤ now)).take limit

def Source.drainRetry (now : ℤ) (limit : ℕ) : Source :=
  {s with
    retryHeap := s.retryHeap.drop (s.ready now limit).length
    inflight := s.inflight+(s.ready now limit).length}

/-- The loop of `_collect_due_runs_locked`, with the fire time that is next. When
the search for it raises, the loop stops at the fire time it started from. -/
def collect (schedule : Schedule) (now : ℤ) : ℕ → ℤ → Except ℤ (List ℤ × ℤ)
  | 0,next => .ok ([],next)
  | n+1,next =>
    if next ≤ now then
      match schedule.nextFireAfter next with
      | none => .error next
      | some after => (collect schedule now n after).map fun r => (next::r.1,r.2)
    else .ok ([],next)

def maxDue : ℕ := 1000

/-- `_queue_runs_locked`. -/
def Source.queueRuns (runs : List ℤ) : Source :=
  let extended := s.queuedRuns++runs
  {s with
    queuedRuns := extended.drop (extended.length-cfg.maxQueuedRuns)
    dropped := s.dropped++
      (List.range (extended.length-cfg.maxQueuedRuns)).map fun k => extended.drop k}

/-- `_make_delivery_locked`, once the payload is built. -/
def Source.make (scheduledAt : ℤ) : Source × Envelope :=
  ({s with sequence := s.sequence+1,inflight := s.inflight+1},⟨scheduledAt,s.sequence,0⟩)

/-- The loop that makes a delivery for each run; none when building a payload raises. -/
def makeAll (payload : ℕ → Bool) : ℕ → List ℤ → Source → Source × Option (List Envelope)
  | _,[],s => (s,some [])
  | i,t::ts,s =>
    if payload i then
      let rest := makeAll payload (i+1) ts (s.make t).1
      (rest.1,rest.2.map fun es => (s.make t).2::es)
    else (s,none)

/-- `_handle_due_runs_locked` with runs and a limit that are not empty. -/
def Source.handleDueRuns (payload : ℕ → Bool) (dueRuns : List ℤ) (limit : ℕ) :
    Source × Option (List Envelope) :=
  match cfg.overlap,dueRuns with
  | _,[] => (s,some [])
  | .allow,dueRuns => makeAll payload 0 (dueRuns.take limit) s
  | .skip,t::ts =>
    if 0 < s.inflight then (s,some [])
    else makeAll payload 0 [(t::ts).getLast (List.cons_ne_nil t ts)] s
  | .queue,t::ts =>
    if 0 < s.inflight then (s.queueRuns cfg (t::ts),some [])
    else
      let made := makeAll payload 0 [t] s
      match made.2 with
      | none => made
      | some es => (if ts = [] then made.1 else made.1.queueRuns cfg ts,some es)

/-- The last part of `fetch`: a queued run, or the runs that became due. -/
def Source.fetchDue (payload : ℕ → Bool) (now : ℤ) (limit : ℕ) :
    Source × Option (List Envelope) :=
  match cfg.overlap,s.inflight,s.queuedRuns with
  | .queue,0,t::ts => makeAll payload 0 [t] {s with queuedRuns := ts}
  | _,_,_ =>
    match s.nextFireAt with
    | none => (s,some [])
    | some next =>
      match collect cfg.schedule now maxDue next with
      | .error next => ({s with nextFireAt := some next},none)
      | .ok (dueRuns,next) =>
        Source.handleDueRuns cfg {s with nextFireAt := some next} payload dueRuns limit

/-- The runs handed out, each with whether it is the immediate one; none when the
fetch raises. -/
def Source.fetch (payload : ℕ → Bool) (now : ℤ) (limit : ℕ) :
    Source × Option (List (Envelope × Bool)) :=
  let limit := max 1 limit
  let ready := s.ready now limit
  if ready ≠ [] then (s.drainRetry now limit,some (ready.map fun r => (r.envelope,false)))
  else if s.pendingImmediate then
    let s := {s with pendingImmediate := false}
    let immediate := s.handleDueRuns cfg payload [now] limit
    match immediate.2 with
    | none => (immediate.1,none)
    | some [] =>
      let due := immediate.1.fetchDue cfg payload now limit
      (due.1,due.2.map fun es => es.map fun e => (e,false))
    | some es => (immediate.1,some (es.map fun e => (e,true)))
  else
    let due := s.fetchDue cfg payload now limit
    (due.1,due.2.map fun es => es.map fun e => (e,false))

end Fetch

structure Handed where
  envelope : Envelope
  immediate : Bool := false
  settled : Bool := false
  deriving DecidableEq, Repr

/-- The source, what it handed out, the last reading of the clock, and the fire
time it was initialized with. -/
structure State where
  source : Source := {}
  handed : List Handed := []
  clock : Option ℤ := none
  firstFireAt : Option ℤ := none
  deriving DecidableEq, Repr

def constructed (cfg : Settings) : State := {source := {pendingImmediate := cfg.immediate}}

/-- Settling and releasing concern a run by its number. Whether building the i-th
payload of a fetch returns is told with the fetch. -/
inductive Op where
  | open_ (now : ℤ)
  | fetch (limit : ℕ) (now : ℤ) (payload : ℕ → Bool)
  | ack (i : ℕ)
  | fail (i : ℕ)
  | retry (i : ℕ) (now : ℤ) (delay : Option ℤ)
  | releaseUnstarted (i : ℕ)

section Steps
variable (cfg : Settings) (s : State)

/-- `_initialize_locked`; nothing changes when there is no first fire time. -/
def State.initializeLocked (now : ℤ) : State :=
  if s.source.initialized then s
  else
    match cfg.schedule.initialFireAt now with
    | none => s
    | some first => {s with
        source := {s.source with nextFireAt := some first,initialized := true}
        firstFireAt := some first}

/-- `fetch`, after the opening that precedes it; it raises when that raises. -/
def State.fetch (limit : ℕ) (now : ℤ) (payload : ℕ → Bool) : State :=
  let s := s.initializeLocked cfg now
  if s.source.initialized then
    let fetched := s.source.fetch cfg payload now limit
    {s with
      source := fetched.1
      handed := s.handed++(fetched.2.getD []).map fun d => {envelope := d.1,immediate := d.2}}
  else s

def State.settle (i : ℕ) : State :=
  {s with handed := s.handed.modify i fun h => {h with settled := true}}

/-- `finish_success` and `finish_failure`. -/
def State.finish (i : ℕ) : State :=
  State.settle {s with source := {s.source with inflight := s.source.inflight-1}} i

def State.finishRetry (i : ℕ) (e : Envelope) (now : ℤ) (delay : Option ℤ) : State :=
  State.settle {s with
    source := Source.push {s.source with inflight := s.source.inflight-1}
      ⟨now+max (delay.getD 0) 0,{e with attempts := e.attempts+1}⟩} i

/-- A run that was handed out and not settled. -/
def State.unsettled (i : ℕ) : Option Handed := s.handed[i]?.filter fun h => !h.settled

/-- The reading of the clock a step takes. -/
def Op.now : Op → Option ℤ
  | .open_ now | .fetch _ now _ | .retry _ now _ => some now
  | _ => none

/-- A run is settled once. Releasing an unstarted run does nothing, and no call
on it follows. -/
def perform (s : State) (op : Op) : Option State :=
  let s := {s with clock := op.now.orElse fun _ => s.clock}
  match op with
  | .open_ now => some (s.initializeLocked cfg now)
  | .fetch limit now payload => some (s.fetch cfg limit now payload)
  | .ack i => (s.unsettled i).map fun _ => s.finish i
  | .fail i => (s.unsettled i).map fun _ => s.finish i
  | .retry i now delay => (s.unsettled i).map fun h => s.finishRetry i h.envelope now delay
  | .releaseUnstarted i => (s.unsettled i).map fun _ => s

end Steps

end OneStep.ScheduleSource
