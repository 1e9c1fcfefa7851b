import OneStep.GivingUp
import OneStep.JsonValues
import OneStep.KafkaDeliveries

/-!
# Workers that consume a broker

A task runner fetches from a Kafka topic, a RabbitMQ queue or a Redis stream and
executes each delivery with the delivery executor, several of them at a time.
The brokers differ in what a fetch reads and in what the settlements do; each of
them hands out the stored message again, unchanged, after a retry. A delivery in
execution is the list of calls it still has to make, so that the calls of
several executions interleave in any way.
-/
namespace OneStep.BrokerWorkers
open Coroutine DeliveryModel DeliveryExecutor GivingUp JsonValues KafkaTracker KafkaDeliveries

section Envelopes

structure Envelope where
  body : Json
  metadata : List (String × Json) := []
  attempts : ℤ := 0

/-- The stored bytes: no UTF-8, text that is no JSON, or JSON. -/
inductive Raw where
  | undecodable
  | text (s : String)
  | json (value : Json)

/-- `isinstance(value, int)`, which holds of the two booleans. -/
def asInt : Option Json → ℤ
  | some (.int n) => n
  | some (.bool b) => if b then 1 else 0
  | _ => 0

def asDict : Option Json → List (String × Json)
  | some (.obj fields) => fields
  | _ => []

/-- None when decoding the bytes raises. -/
def decodeEnvelope : Raw → Option Envelope
  | .undecodable => none
  | .text s => some {body := .str s}
  | .json (.obj parsed) =>
    match parsed.lookup "body" with
    | none => some {body := .obj parsed}
    | some body =>
      some {
        body := body
        metadata := asDict (parsed.lookup "meta")
        attempts := asInt (parsed.lookup "attempts")}
  | .json parsed => some {body := parsed}

end Envelopes

/-- A broker with the operations of its connector: what it does on its own, the
messages a fetch with a limit returns, and the three settlements, with whether
the call returned normally. The choices are the broker's. -/
structure Broker (B M C : Type) where
  decode : M → Option Envelope
  serve : B → C → Option B
  fetch : B → ℕ → C → Option (List M × B)
  ack : B → M → Bool → B
  retry : B → M → Bool → B
  fail : B → M → Bool → B

/-- Messages that were taken become deliveries unless one of them does not decode. -/
def deliverable {M : Type} (decode : M → Option Envelope) (taken : List M) : List M :=
  if taken.all fun m => (decode m).isSome then taken else []

section RabbitMQ

/-- Messages are numbered as they are published. -/
structure RabbitMQQueue where
  published : ℕ := 0
  ready : List ℕ := []
  /-- Pushed to the consumer and not fetched. -/
  consumerMessages : List ℕ := []

inductive RabbitMQChoice where
  | publish
  | push (i : ℕ)

structure RabbitMQSettings where
  prefetch : ℕ := 100
  batchSize : ℕ := 100

variable (settings : RabbitMQSettings) (body : ℕ → Raw)

/-- `_on_message`: a message that finds the buffer full is requeued. -/
def RabbitMQQueue.onMessage (q : RabbitMQQueue) (m : ℕ) : RabbitMQQueue :=
  if settings.prefetch = 0 ∨ q.consumerMessages.length < settings.prefetch then
    {q with ready := q.ready.erase m, consumerMessages := q.consumerMessages++[m]}
  else q

def RabbitMQQueue.serve (q : RabbitMQQueue) : RabbitMQChoice → Option RabbitMQQueue
  | .publish => some {q with published := q.published+1, ready := q.ready++[q.published]}
  | .push i => q.ready[i]?.map (q.onMessage settings)

/-- It waits for a first message and takes what else is there. -/
def RabbitMQQueue.fetch (q : RabbitMQQueue) (limit : ℕ) : Option (List ℕ × RabbitMQQueue) :=
  if q.consumerMessages = [] then none
  else
    let taken := q.consumerMessages.take (max 1 (min limit settings.batchSize))
    let rest := q.consumerMessages.drop (max 1 (min limit settings.batchSize))
    some (deliverable (fun m => decodeEnvelope (body m)) taken,{q with consumerMessages := rest})

/-- A requeued message is ready again, with its body as it was. -/
def rabbitMQ : Broker RabbitMQQueue ℕ RabbitMQChoice where
  decode m := decodeEnvelope (body m)
  serve q c := q.serve settings c
  fetch q limit _ := q.fetch settings body limit
  ack q _ _ := q
  retry q m ok := if ok then {q with ready := m::q.ready} else q
  fail q _ _ := q

end RabbitMQ

section Redis

/-- Entries are numbered as they are added; the pending ones are those of the
group that were read and not acknowledged. -/
structure RedisStream where
  added : ℕ := 0
  pending : List ℕ := []
  unread : List ℕ := []

variable (batchSize : ℕ) (data : ℕ → Option Raw)

/-- `_process_messages` skips an entry without a body, and one that does not decode. -/
def decodeEntry (m : ℕ) : Option Envelope := (data m).bind decodeEnvelope

def processMessages (entries : List ℕ) : List ℕ :=
  entries.filter fun m => (decodeEntry data m).isSome

/-- Pending entries come first; new ones are read when there are none to deliver. -/
def RedisStream.fetch (q : RedisStream) (limit : ℕ) : List ℕ × RedisStream :=
  let fetchLimit := max 1 (min limit batchSize)
  let pendingDeliveries := processMessages data (q.pending.take fetchLimit)
  if pendingDeliveries ≠ [] then (pendingDeliveries,q)
  else
    (processMessages data (q.unread.take fetchLimit),
      {q with
        pending := q.pending++q.unread.take fetchLimit
        unread := q.unread.drop fetchLimit})

def RedisStream.xack (q : RedisStream) (m : ℕ) (ok : Bool) : RedisStream :=
  if ok then {q with pending := q.pending.erase m} else q

/-- A retry leaves the entry pending. -/
def redis : Broker RedisStream ℕ Unit where
  decode := decodeEntry data
  serve q _ := some {q with added := q.added+1, unread := q.unread++[q.added]}
  fetch q limit _ := some (q.fetch batchSize data limit)
  ack := RedisStream.xack
  retry q _ _ := q
  fail := RedisStream.xack

end Redis

section Kafka

/-- What a record carries besides its place. -/
structure RecordData where
  value : Raw
  timestamp : Json := .null
  key : Json := .null
  headers : Json := .obj []

variable (batchSize : ℕ) (log : Record → RecordData)

/-- `_decode_record_envelope`: the place of the record joins the metadata. -/
def decodeRecordEnvelope (r : Record) : Option Envelope :=
  (decodeEnvelope (log r).value).map fun envelope =>
    let kafkaMeta := [("topic",Json.str r.tp.topic),("partition",.int r.tp.partition),
      ("offset",.int r.offset),("timestamp",(log r).timestamp),("key",(log r).key),
      ("headers",(log r).headers)]
    {envelope with
      metadata := set "kafka" (.obj (kafkaMeta.foldl (fun fields f => set f.1 f.2 fields)
        (asDict (envelope.metadata.lookup "kafka")))) envelope.metadata}

theorem decodeRecordEnvelope_attempts {log : Record → RecordData} {r : Record} {e : Envelope}
    (h : decodeRecordEnvelope log r = some e) :
    ∃ e', decodeEnvelope (log r).value = some e' ∧ e'.attempts = e.attempts := by
  unfold decodeRecordEnvelope at h
  obtain ⟨e',he',rfl⟩ := Option.map_eq_some_iff.mp h
  exact ⟨e',he',rfl⟩

/-- Reads each record where its partition is read next. -/
def readRecords : (TopicPartition → ℕ) → List Record → Option (TopicPartition → ℕ)
  | position,[] => some position
  | position,r::rs =>
    if r.offset = position r.tp then
      readRecords (Function.update position r.tp (r.offset+1)) rs
    else none

/-- The records that are marked fetched: up to one that does not decode. -/
def marked (decode : Record → Option Envelope) : List Record → List Record
  | [] => []
  | r::rs => r::if (decode r).isSome then marked decode rs else []

def kafkaFetch (k : KafkaTopic) (limit : ℕ) (polled : List Record) :
    Option (List Record × KafkaTopic) :=
  if polled.length ≤ max 1 (min limit batchSize) then
    (readRecords k.position polled).map fun position =>
      (deliverable (decodeRecordEnvelope log) polled,{
        tracker := (marked (decodeRecordEnvelope log) polled).foldl
          (fun t r => t.markFetched r.tp r.offset) k.tracker
        position := position})
  else none

/-- A retry seeks to the record. -/
def kafka : Broker KafkaTopic Record (List Record) where
  decode := decodeRecordEnvelope log
  serve _ _ := none
  fetch := kafkaFetch batchSize log
  ack k r ok := (k.ackRecord r ok).2
  retry k r ok := if ok then k.seekRecord r else k
  fail k r ok := (k.ackRecord r ok).2

end Kafka

/-- The task: its specification, retry policy and concurrency. -/
structure Task where
  spec : TaskSpec
  policy : MaxAttempts
  concurrency : ℕ

section Workers
variable {B M C : Type}

/-- A delivery in execution, with the calls it has not made. -/
structure Running (M : Type) where
  message : M
  executor : Executor Json
  rest : List (Call Json)

/-- The worker, with what it handed out, in order, each with the attempts of its
envelope; the handler calls made for messages not failed before; and the
messages failed. -/
structure Worker (B M : Type) where
  broker : B
  inflight : List (Running M) := []
  delivered : List (M × ℤ) := []
  executed : List M := []
  failed : List M := []

inductive Op (C : Type) where
  | serve (c : C)
  | fetch (c : C) (envs : ℕ → Env Json)
  | advance (i : ℕ)

/-- None is the body null. -/
def payload : Json → Option Json
  | .null => none
  | body => some body

/-- The executor of a delivery with this envelope, in an environment whose retry
policy is replaced by the task's. -/
def executing (task : Task) (envelope : Envelope) (env : Env Json) : Executor Json where
  task := task.spec
  delivery := ⟨payload envelope.body,some (.obj envelope.metadata),envelope.attempts,false⟩
  env := {env with retryPolicy := fun _ _ => .ok (task.policy.onError envelope.attempts)}
  applyDeliveryActions := true

def started (task : Task) (m : M) (envelope : Envelope) (env : Env Json) : Running M :=
  ⟨m,executing task envelope env,calls (executing task envelope env)⟩

variable [DecidableEq M] (broker : Broker B M C) (task : Task)

/-- What one awaited call of an execution does outside of it. -/
def Worker.await (w : Worker B M) (m : M) (env : Env Json) (c : Call Json) : Worker B M :=
  let ok := (env.outcome c).isOk
  match c with
  | .handler => {w with executed := if m ∈ w.failed then w.executed else w.executed++[m]}
  | .ack => {w with broker := broker.ack w.broker m ok}
  | .retry _ => {w with broker := broker.retry w.broker m ok}
  | .fail _ => {w with broker := broker.fail w.broker m ok, failed := w.failed++[m]}
  | _ => w

def Worker.deliver (w : Worker B M) (envs : ℕ → Env Json) (b : B)
    (deliveries : List (M × Envelope)) : Worker B M :=
  {w with
    broker := b
    inflight := w.inflight++deliveries.mapIdx fun i d => started task d.1 d.2 (envs i)
    delivered := w.delivered++deliveries.map fun d => (d.1,d.2.attempts)}

def Worker.resume (w : Worker B M) (i : ℕ) (r : Running M) : Worker B M :=
  {w with inflight := w.inflight.set i r}

/-- The runner fetches only as much as it can start. -/
def perform (w : Worker B M) : Op C → Option (Worker B M)
  | .serve c => (broker.serve w.broker c).map fun b => {w with broker := b}
  | .fetch c envs =>
    if w.inflight.length < task.concurrency then
      (broker.fetch w.broker (task.concurrency-w.inflight.length) c).map fun fetched =>
        w.deliver task envs fetched.2
          (fetched.1.filterMap fun m => (broker.decode m).map fun e => (m,e))
    else none
  | .advance i =>
    w.inflight[i]?.map fun r =>
      match r.rest with
      | [] => {w with inflight := w.inflight.eraseIdx i}
      | c::rest =>
        (w.await broker r.message r.executor.env c).resume i {r with rest := rest}

end Workers

end OneStep.BrokerWorkers
