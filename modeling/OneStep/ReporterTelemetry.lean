import OneStep.DateTimeText
import OneStep.DeliveryModel
import OneStep.TelemetryBuffers
import OneStep.Transition

/-!
# The telemetry of the control plane reporter

Task events are counted in a bucket for each task and wait to be sent; a rotation of the
window closes the buckets into a batch of metrics. Flushes of both run periodically, by
command, and at the same time, and await the sender. A duration is a value of any kind,
from which the payload has its average and its percentile; a custom metric likewise. An
event is told by the number in its id, a batch by the order of the rotations.
-/
namespace OneStep.ReporterTelemetry
open DateTimeText TelemetryBuffers Transition
open DeliveryModel (TaskEventKind FailureKind)

variable {F M : Type}

section Counters

/-- What the reporter reads of an event. -/
structure TaskEvent (F : Type) where
  kind : TaskEventKind
  task : String
  durationS : Option F := none
  failure : Option FailureKind := none

structure TaskMetricsState (F : Type) where
  fetched : ℕ := 0
  started : ℕ := 0
  succeeded : ℕ := 0
  retried : ℕ := 0
  failed : ℕ := 0
  deadLettered : ℕ := 0
  cancelled : ℕ := 0
  timeouts : ℕ := 0
  inflight : ℕ := 0
  durations : List F := []

def TaskMetricsState.hasActivity (s : TaskMetricsState F) : Bool :=
  [s.fetched,s.started,s.succeeded,s.retried,s.failed,s.deadLettered,s.cancelled,s.timeouts,
    s.inflight].any (· ≠ 0)

/-- What `rotate` leaves; it returns what was there. -/
def TaskMetricsState.rotated (s : TaskMetricsState F) : TaskMetricsState F := {inflight := s.inflight}

def recordDuration (event : TaskEvent F) (s : TaskMetricsState F) : TaskMetricsState F :=
  {s with durations := s.durations++event.durationS.toList}

def recordTimeout (event : TaskEvent F) (s : TaskMetricsState F) : TaskMetricsState F :=
  if event.failure = some .timeout then {s with timeouts := s.timeouts+1} else s

/-- What `handle_event` does to the bucket of the task. -/
def record (event : TaskEvent F) (s : TaskMetricsState F) : TaskMetricsState F :=
  match event.kind with
  | .fetched => {s with fetched := s.fetched+1}
  | .started => {s with started := s.started+1, inflight := s.inflight+1}
  | .succeeded =>
    recordDuration event {s with succeeded := s.succeeded+1, inflight := s.inflight-1}
  | .retried =>
    recordDuration event
      (recordTimeout event {s with retried := s.retried+1, inflight := s.inflight-1})
  | .failed =>
    recordDuration event
      (recordTimeout event {s with failed := s.failed+1, inflight := s.inflight-1})
  | .deadLettered => {s with deadLettered := s.deadLettered+1}
  | .cancelled => {s with cancelled := s.cancelled+1}

end Counters

section Reporter

/-- `_utcnow`. -/
structure UtcTime where
  time : DateTime
  utc : time.offset = some 0
  unfolded : time.fold = false
  deriving DecidableEq

structure EventPayload (F : Type) where
  sequence : ℕ
  event : TaskEvent F

/-- The payload of a task in a batch. -/
structure TaskWindow (F M : Type) where
  taskName : String
  windowId : List Char
  snapshot : TaskMetricsState F
  customMetrics : List M

structure PreparedMetricsBatch (F M : Type) where
  sequence : ℕ
  windowStartedAt : UtcTime
  windowEndedAt : UtcTime
  tasks : List (TaskWindow F M)

structure Config where
  eventBatchSize : ℕ
  maxPendingEvents : ℕ
  maxPendingMetricBatches : ℕ
  positive : 1 ≤ eventBatchSize ∧ 1 ≤ maxPendingEvents ∧ 1 ≤ maxPendingMetricBatches

abbrev Buckets (F : Type) := List (String × TaskMetricsState F)

structure Reporter (F M : Type) where
  metricsByTask : Buckets F := []
  windowStartedAt : UtcTime
  eventSequence : ℕ := 0
  batchSequence : ℕ := 0
  events : Buffer (EventPayload F) := {}
  batches : Buffer (PreparedMetricsBatch F M) := {}

def bucketOf (buckets : Buckets F) (task : String) : TaskMetricsState F :=
  (buckets.lookup task).getD {}

def changeBucket (task : String) (f : TaskMetricsState F → TaskMetricsState F) (buckets : Buckets F) :
    Buckets F :=
  if task ∈ buckets.map Prod.fst then
    buckets.map fun bucket => if bucket.1 = task then (task,f bucket.2) else bucket
  else buckets++[(task,f {})]

def handleEvent (config : Config) (event : TaskEvent F) (r : Reporter F M) : Reporter F M :=
  let r := {r with metricsByTask := changeBucket event.task (record event) r.metricsByTask}
  if event.kind = .fetched then r
  else
    let sequence := r.eventSequence+1
    {r with
      eventSequence := sequence
      events := r.events.add config.maxPendingEvents ⟨sequence,event⟩}

def windowId (task : String) (startedAt endedAt : UtcTime) : List Char :=
  task.toList++ ':'::isoformat startedAt.time++ ':'::isoformat endedAt.time

/-- A task is reported if it was active or has custom metrics. -/
def taskWindow (startedAt endedAt : UtcTime) (customMetrics : List (String × List M))
    (buckets : Buckets F) (task : String) : Option (TaskWindow F M) :=
  let bucket := bucketOf buckets task
  let custom := (customMetrics.lookup task).getD []
  if bucket.hasActivity || !custom.isEmpty then
    some ⟨task,windowId task startedAt endedAt,bucket,custom⟩
  else none

def taskNames (customMetrics : List (String × List M)) (buckets : Buckets F) : List String :=
  (buckets.map Prod.fst++customMetrics.map Prod.fst).dedup.mergeSort fun a b => decide (a ≤ b)

def reportedTask (endedAt : UtcTime) (customMetrics : List (String × List M)) (r : Reporter F M) :
    String → Option (TaskWindow F M) :=
  taskWindow r.windowStartedAt endedAt customMetrics r.metricsByTask

def rotatedBuckets (endedAt : UtcTime) (customMetrics : List (String × List M)) (r : Reporter F M) :
    Buckets F :=
  (taskNames customMetrics r.metricsByTask).foldl (fun buckets task => changeBucket task
    (fun bucket => if (reportedTask endedAt customMetrics r task).isSome then bucket.rotated
      else bucket) buckets) r.metricsByTask

def rotateMetricsWindow (config : Config) (endedAt : UtcTime) (customMetrics : List (String × List M))
    (r : Reporter F M) : Reporter F M :=
  let tasks := (taskNames customMetrics r.metricsByTask).filterMap
    (reportedTask endedAt customMetrics r)
  {r with
    metricsByTask := rotatedBuckets endedAt customMetrics r
    windowStartedAt := endedAt
    batchSequence := if tasks.isEmpty then r.batchSequence else r.batchSequence+1
    batches := if tasks.isEmpty then r.batches else
      r.batches.add config.maxPendingMetricBatches ⟨r.batchSequence+1,r.windowStartedAt,endedAt,tasks⟩}

end Reporter

section Runs

inductive Channel where
  | metrics | events

/-- The synchronous pieces of the reporter; a flush is told by a number. -/
inductive Act (F M : Type) where
  | handleEvent (event : TaskEvent F)
  | rotate (endedAt : UtcTime) (customMetrics : List (String × List M))
  | flush (channel : Channel) (k : ℕ)
  | returned (channel : Channel) (k : ℕ)
  | raised (channel : Channel) (k : ℕ)

/-- A flush begins, unless the number is that of one that awaits its send. -/
def flushBuffer {α : Type} (size k : ℕ) (b : Buffer α) : Option (Buffer α) :=
  if (b.sending k).isNone then some (b.flush size k) else none

def finishBuffer {α : Type} (size k : ℕ) (b : Buffer α) : Option (Buffer α) :=
  (b.sending k).map fun batch => b.finish size k batch

def failBuffer {α : Type} (k : ℕ) (b : Buffer α) : Option (Buffer α) :=
  (b.sending k).map fun _ => b.fail k

/-- The pieces of `_flush_metric_batches`, which sends one batch at a time, and of
`_flush_event_batches`. -/
def perform (config : Config) (r : Reporter F M) : Act F M → Option (Reporter F M)
  | .handleEvent event => some (handleEvent config event r)
  | .rotate endedAt customMetrics => some (rotateMetricsWindow config endedAt customMetrics r)
  | .flush .metrics k => (flushBuffer 1 k r.batches).map fun b => {r with batches := b}
  | .flush .events k =>
    (flushBuffer config.eventBatchSize k r.events).map fun b => {r with events := b}
  | .returned .metrics k => (finishBuffer 1 k r.batches).map fun b => {r with batches := b}
  | .returned .events k =>
    (finishBuffer config.eventBatchSize k r.events).map fun b => {r with events := b}
  | .raised .metrics k => (failBuffer k r.batches).map fun b => {r with batches := b}
  | .raised .events k => (failBuffer k r.events).map fun b => {r with events := b}

/-- Nothing leaves without having been sent, or dropped by backpressure. -/
def KeepsTelemetry (config : Config) (r : Reporter F M) (act : Act F M) : Prop :=
  ∀ r', perform config r act = some r' →
    r.events.Accounted r'.events ∧ r.batches.Accounted r'.batches

/-- When a send returns, its batch is still in front. -/
def Undisturbed (r : Reporter F M) : Act F M → Prop
  | .returned .metrics k => ∀ batch ∈ r.batches.sending k, Buffer.InFront batch r.batches.pending
  | .returned .events k => ∀ batch ∈ r.events.sending k, Buffer.InFront batch r.events.pending
  | _ => True

variable {config : Config} {r r' : Reporter F M} {act : Act F M}

/-- All events and batches that there were, in their order. -/
structure Recorded (config : Config) (r : Reporter F M) : Prop where
  events : ∃ log, r.events.Traced log ∧ ∀ e ∈ log, e.sequence ≤ r.eventSequence
  batches : ∃ log, r.batches.Traced log ∧ ∀ batch ∈ log, batch.sequence ≤ r.batchSequence
  boundedEvents : r.events.pending.length ≤ config.maxPendingEvents
  boundedBatches : r.batches.pending.length ≤ config.maxPendingMetricBatches

theorem recorded_new (config : Config) (startedAt : UtcTime) :
    Recorded config ({windowStartedAt := startedAt} : Reporter F M) :=
  ⟨⟨[],Buffer.traced_empty,nofun⟩,⟨[],Buffer.traced_empty,nofun⟩,Nat.zero_le _,Nat.zero_le _⟩

theorem log_add {α : Type} {sequence : α → ℕ} {n limit : ℕ} {b : Buffer α} {x : α}
    (h : ∃ log, b.Traced log ∧ ∀ e ∈ log, sequence e ≤ n) (hx : sequence x = n+1) :
    ∃ log, (b.add limit x).Traced log ∧ ∀ e ∈ log, sequence e ≤ n+1 := by
  obtain ⟨log,htraced,hle⟩ := h
  refine ⟨log++[x],Buffer.traced_add limit htraced fun hmem => ?_,fun e he => ?_⟩
  · have hbound := hle x hmem
    omega
  · rcases List.mem_append.mp he with hold | hnew
    · exact Nat.le_succ_of_le (hle e hold)
    · rw [List.mem_singleton.mp hnew,hx]

theorem flushBuffer_eq {α : Type} {size k : ℕ} {b b' : Buffer α}
    (h : flushBuffer size k b = some b') : b' = b.flush size k := by
  unfold flushBuffer at h
  split at h
  · exact (Option.some.inj h).symm
  · cases h

theorem finishBuffer_eq {α : Type} {size k : ℕ} {b b' : Buffer α}
    (h : finishBuffer size k b = some b') :
    ∃ batch ∈ b.sending k, b' = b.finish size k batch := by
  obtain ⟨batch,hbatch,rfl⟩ := Option.map_eq_some_iff.mp h
  exact ⟨batch,hbatch,rfl⟩

theorem failBuffer_eq {α : Type} {k : ℕ} {b b' : Buffer α} (h : failBuffer k b = some b') :
    b' = b.fail k := by
  obtain ⟨_,_,rfl⟩ := Option.map_eq_some_iff.mp h
  rfl

/-- What a step does. -/
inductive Does (config : Config) (r : Reporter F M) : Act F M → Reporter F M → Prop
  | handle (event : TaskEvent F) : Does config r (.handleEvent event) (handleEvent config event r)
  | rotate (endedAt : UtcTime) (customMetrics : List (String × List M)) :
      Does config r (.rotate endedAt customMetrics)
        (rotateMetricsWindow config endedAt customMetrics r)
  | flushMetrics (k : ℕ) :
      Does config r (.flush .metrics k) {r with batches := r.batches.flush 1 k}
  | flushEvents (k : ℕ) :
      Does config r (.flush .events k) {r with events := r.events.flush config.eventBatchSize k}
  | sentMetrics {k : ℕ} {batch : List (PreparedMetricsBatch F M)} (h : batch ∈ r.batches.sending k) :
      Does config r (.returned .metrics k) {r with batches := r.batches.finish 1 k batch}
  | sentEvents {k : ℕ} {batch : List (EventPayload F)} (h : batch ∈ r.events.sending k) :
      Does config r (.returned .events k)
        {r with events := r.events.finish config.eventBatchSize k batch}
  | failMetrics (k : ℕ) : Does config r (.raised .metrics k) {r with batches := r.batches.fail k}
  | failEvents (k : ℕ) : Does config r (.raised .events k) {r with events := r.events.fail k}

theorem does_of_perform (h : perform config r act = some r') : Does config r act r' := by
  cases act with
  | handleEvent event =>
    cases h
    exact .handle event
  | rotate endedAt customMetrics =>
    cases h
    exact .rotate endedAt customMetrics
  | flush channel k =>
    cases channel with
    | metrics | events =>
      obtain ⟨b,hb,rfl⟩ := Option.map_eq_some_iff.mp h
      rw [flushBuffer_eq hb]
      constructor
  | returned channel k =>
    cases channel with
    | metrics | events =>
      obtain ⟨b,hb,rfl⟩ := Option.map_eq_some_iff.mp h
      obtain ⟨batch,hbatch,rfl⟩ := finishBuffer_eq hb
      constructor
      exact hbatch
  | raised channel k =>
    cases channel with
    | metrics | events =>
      obtain ⟨b,hb,rfl⟩ := Option.map_eq_some_iff.mp h
      rw [failBuffer_eq hb]
      constructor

/-- Every step keeps the record. -/
theorem recorded_step (hr : Recorded config r) (h : perform config r act = some r') :
    Recorded config r' := by
  obtain ⟨hevents,hbatches,hboundedEvents,hboundedBatches⟩ := hr
  have hsize := config.positive.1
  cases does_of_perform h with
  | handle event =>
    unfold handleEvent
    by_cases hfetched : event.kind = .fetched
    · simp only [hfetched,if_true]
      exact ⟨hevents,hbatches,hboundedEvents,hboundedBatches⟩
    · simp only [hfetched,if_false]
      exact ⟨log_add hevents rfl,hbatches,Buffer.add_length _ _ _,hboundedBatches⟩
  | rotate endedAt customMetrics =>
    unfold rotateMetricsWindow
    cases (taskNames customMetrics r.metricsByTask).filterMap (reportedTask endedAt customMetrics r) with
    | nil => exact ⟨hevents,hbatches,hboundedEvents,hboundedBatches⟩
    | cons task tasks =>
      exact ⟨hevents,log_add hbatches rfl,hboundedEvents,Buffer.add_length _ _ _⟩
  | flushMetrics k =>
    obtain ⟨log,htraced,hle⟩ := hbatches
    exact ⟨hevents,⟨log,Buffer.traced_flush le_rfl k htraced,hle⟩,hboundedEvents,hboundedBatches⟩
  | flushEvents k =>
    obtain ⟨log,htraced,hle⟩ := hevents
    exact ⟨⟨log,Buffer.traced_flush hsize k htraced,hle⟩,hbatches,hboundedEvents,hboundedBatches⟩
  | sentMetrics hbatch =>
    obtain ⟨log,htraced,hle⟩ := hbatches
    exact ⟨hevents,⟨log,Buffer.traced_finish le_rfl hbatch htraced,hle⟩,hboundedEvents,
      (Buffer.finish_length _ _ _ _).trans hboundedBatches⟩
  | sentEvents hbatch =>
    obtain ⟨log,htraced,hle⟩ := hevents
    exact ⟨⟨log,Buffer.traced_finish hsize hbatch htraced,hle⟩,hbatches,
      (Buffer.finish_length _ _ _ _).trans hboundedEvents,hboundedBatches⟩
  | failMetrics k =>
    obtain ⟨log,htraced,hle⟩ := hbatches
    exact ⟨hevents,⟨log,Buffer.traced_fail k htraced,hle⟩,hboundedEvents,hboundedBatches⟩
  | failEvents k =>
    obtain ⟨log,htraced,hle⟩ := hevents
    exact ⟨⟨log,Buffer.traced_fail k htraced,hle⟩,hbatches,hboundedEvents,hboundedBatches⟩

theorem accounted_iff (hr : Recorded config r) (h : perform config r act = some r') :
    r.events.Accounted r'.events ∧ r.batches.Accounted r'.batches ↔ Undisturbed r act := by
  cases does_of_perform h with
  | handle event =>
    refine iff_of_true ?_ trivial
    unfold handleEvent
    by_cases hfetched : event.kind = .fetched
    · simp only [hfetched,if_true]
      exact ⟨Buffer.accounted_same rfl,Buffer.accounted_same rfl⟩
    · simp only [hfetched,if_false]
      exact ⟨Buffer.accounted_add _ _ _,Buffer.accounted_same rfl⟩
  | rotate endedAt customMetrics =>
    refine iff_of_true ?_ trivial
    unfold rotateMetricsWindow
    cases (taskNames customMetrics r.metricsByTask).filterMap (reportedTask endedAt customMetrics r) with
    | nil => exact ⟨Buffer.accounted_same rfl,Buffer.accounted_same rfl⟩
    | cons task tasks => exact ⟨Buffer.accounted_same rfl,Buffer.accounted_add _ _ _⟩
  | flushMetrics k | flushEvents k | failMetrics k | failEvents k =>
    exact iff_of_true ⟨Buffer.accounted_same rfl,Buffer.accounted_same rfl⟩ trivial
  | sentMetrics hbatch =>
    obtain ⟨log,htraced,-⟩ := hr.batches
    rw [Buffer.accounted_finish hbatch htraced,Undisturbed]
    constructor
    · rintro ⟨-,hfront⟩ batch' hbatch'
      rw [Option.mem_unique hbatch' hbatch]
      exact hfront
    · exact fun hfront => ⟨Buffer.accounted_same rfl,hfront _ hbatch⟩
  | sentEvents hbatch =>
    obtain ⟨log,htraced,-⟩ := hr.events
    rw [Buffer.accounted_finish hbatch htraced,Undisturbed]
    constructor
    · rintro ⟨hfront,-⟩ batch' hbatch'
      rw [Option.mem_unique hbatch' hbatch]
      exact hfront
    · exact fun hfront => ⟨hfront _ hbatch,Buffer.accounted_same rfl⟩

/-- In any interleaving, every step keeps the telemetry exactly if every send that returns
finds its batch in front; and never is more pending than allowed. -/
theorem telemetry_kept_iff (config : Config) (startedAt : UtcTime) (acts : List (Act F M)) :
    (EachStep (perform config) (KeepsTelemetry config) {windowStartedAt := startedAt} acts ↔
      EachStep (perform config) Undisturbed {windowStartedAt := startedAt} acts) ∧
    Throughout (perform config) (fun r => r.events.pending.length ≤ config.maxPendingEvents ∧
      r.batches.pending.length ≤ config.maxPendingMetricBatches) {windowStartedAt := startedAt} acts := by
  constructor
  · apply eachStep_iff (J := Recorded config)
    · exact fun r act r' hr h _ => recorded_step hr h
    · intro r act r' hr h
      rw [← accounted_iff hr h]
      refine ⟨fun hkeeps => hkeeps r' h,fun haccounted r'' h'' => ?_⟩
      rw [← Option.mem_unique h h'']
      exact haccounted
    · exact recorded_new config startedAt
  · apply throughout_of_invariant (J := Recorded config)
    · exact fun r act r' hr h => recorded_step hr h
    · exact fun r hr => ⟨hr.boundedEvents,hr.boundedBatches⟩
    · exact recorded_new config startedAt

end Runs

section Example

def smallBatches : Config := ⟨1,1000,120,by decide⟩

def midnight : UtcTime where
  time :=
    { year := 2026, month := 7, day := 30, hour := 0, minute := 0, second := 0, microsecond := 0
      offset := some 0
      dated := by decide
      timed := midnight_timed
      bounded := utc_bounded }
  utc := rfl
  unfolded := rfl

/-- The periodic flush and one by command send the first event; the second is never sent. -/
theorem unsent_event_removed : ∃ r : Reporter Unit Unit,
    runs (perform smallBatches) (fun _ _ => true) {windowStartedAt := midnight} [
      .handleEvent ⟨.started,"task",none,none⟩,
      .flush .events 0,
      .flush .events 1,
      .handleEvent ⟨.succeeded,"task",none,none⟩,
      .returned .events 0,
      .returned .events 1,
      .raised .events 0] = some r ∧
    r.eventSequence = 2 ∧ r.events.pending = [] ∧ r.events.dropped = [] ∧
      r.events.returned.map EventPayload.sequence = [1,1] :=
  ⟨_,rfl,rfl,rfl,rfl,rfl⟩

end Example

end OneStep.ReporterTelemetry
