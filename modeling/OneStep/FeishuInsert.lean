import OneStep.JsonText
import OneStep.ScalarTexts
import OneStep.Transition
import Mathlib.Data.Finset.Basic
import Mathlib.Data.Finset.Union

/-!
# Indexed inserts into a Feishu table

The sink knows the keys of the table and buffers a record for each key that is new.
Sends of one key share an entry, each with a waiter. A flush seals a batch of entries
and writes it, one flush at a time; a create whose outcome is in doubt is followed by
rounds of searches and further creates. Every step runs without suspension in the
source: what stands between two steps is an `await`. The buffer lock is never held
across one, so it does not appear, and an entry is replaced only once it is settled,
so that a batch can be given by its keys.

A create commits at some moment before its answer, or never; the request of a task
that is cancelled is left behind and may commit later.
-/
namespace OneStep.FeishuInsert
open JsonValues JsonText ScalarTexts Transition

section Keys

abbrev Record := List (String × Json)

inductive PayloadError where
  | emptyMatchValue (field : String)
  | blankKey
  | notFinite
  | noneKey
  | notScalar
  deriving DecidableEq

structure Config where
  matchField : String
  batchSize : ℕ
  ambiguousWriteMaxRounds : ℕ
  floatText : Double → List Char
  sized : 1 ≤ batchSize ∧ batchSize ≤ 500
  positive : 1 ≤ ambiguousWriteMaxRounds

def emptyMatchValue : Json → Bool
  | .null => true
  | .str value => (strip isSpace value.toList).isEmpty
  | .arr items => items.isEmpty
  | .obj fields => fields.isEmpty
  | _ => false

variable (config : Config)

def canonicalInsertKey : Json → Except PayloadError String
  | .str value =>
    let stripped := strip isSpace value.toList
    if stripped.isEmpty then .error .blankKey else .ok (.ofList stripped)
  | .bool b => .ok (if b then "True" else "False")
  | .int n => .ok (.ofList (intText n))
  | .float x => if x.isFinite then .ok (.ofList (config.floatText x)) else .error .notFinite
  | .null => .error .noneKey
  | .arr _ | .obj _ => .error .notScalar

/-- The key of a payload; a field that is missing reads as null. -/
def payloadKey (fields : Record) : Except PayloadError String :=
  let value := (fields.lookup config.matchField).getD .null
  if emptyMatchValue value then .error (.emptyMatchValue config.matchField)
  else canonicalInsertKey config value

def recordKey (fields : Record) : Option String :=
  (canonicalInsertKey config ((fields.lookup config.matchField).getD .null)).toOption

def tableKeys (table : List Record) : List String := table.filterMap (recordKey config)

end Keys

section Replies

inductive ErrorKind where
  | disconnected
  | transient
  | throttled
  | misconfigured
  | permanent
  | uncertain
  deriving DecidableEq

def classifyStatus (status : ℕ) : ErrorKind :=
  if status = 429 then .throttled
  else if 500 ≤ status then .transient
  else if status = 401 ∨ status = 403 ∨ status = 404 then .misconfigured
  else .permanent

/-- What a create request comes to: the data of an accepted one, a body that is not a
JSON object, an error of the connector, or another exception. -/
inductive Reply where
  | data (data : Record)
  | unparsable (status : ℕ)
  | error (kind : ErrorKind)
  | raised

inductive Verdict where
  | complete
  | definite
  | ambiguous
  deriving DecidableEq

def isDefiniteWriteError (kind : ErrorKind) : Bool := kind = .permanent || kind = .misconfigured

def isMapping : Json → Bool
  | .obj _ => true
  | _ => false

def responseIsComplete (result : Record) (expected : ℕ) : Bool :=
  match result.lookup "records" with
  | some (.arr records) => records.length = expected && records.all isMapping
  | _ => false

def ofKind (kind : ErrorKind) : Verdict := if isDefiniteWriteError kind then .definite else .ambiguous

def Reply.verdict (expected : ℕ) : Reply → Verdict
  | .data result => if responseIsComplete result expected then .complete else .ambiguous
  | .unparsable status => ofKind (classifyStatus status)
  | .error kind => ofKind kind
  | .raised => .ambiguous

/-- An exact search that gives no list of matches. -/
inductive Fault where
  | malformed
  | failed
  deriving DecidableEq

inductive Lookup where
  | matched (count : ℕ)
  | faulty (fault : Fault)
  deriving DecidableEq

end Replies

section State

inductive InsertState where
  | buffered
  | writing
  | recovering
  deriving DecidableEq

/-- `_PendingInsert`; a waiter is given by the number of its send. -/
structure Pending where
  key : String
  fields : Record
  waiters : List ℕ
  state : InsertState

inductive Waiter where
  | waiting
  | done (ok : Bool)
  | cancelled
  deriving DecidableEq

/-- Where a send stands: in the search for an uncertain key, before or after the
server has answered it, in a flush, or at its waiter. -/
inductive Phase where
  | reconciling (answer : Option Lookup)
  | flushing
  | waiting
  | returned
  | raised
  | cancelled
  deriving DecidableEq

structure Sender where
  key : String
  fields : Record
  phase : Phase
  waiter : Option Waiter

inductive Owner where
  | sender (i : ℕ)
  | timer
  | close
  deriving DecidableEq

/-- What the holder of the flush lock waits for. -/
inductive Write where
  | creating (batch : List String) (committed : Bool)
  | looking (unresolved : List String) (answers : List (String × Lookup)) (round : ℕ)
  | recreating (missing lookupFailed : List String) (committed : Bool) (round : ℕ)

structure Lane where
  owner : Owner
  write : Write

inductive Timer where
  | sleeping
  | flushing
  deriving DecidableEq

inductive Closing where
  | idle
  | flushing
  | returned
  | raised
  deriving DecidableEq

/-- `lane` is the flush lock with its holder; `abandoned` are the records of requests
whose tasks were cancelled before a commit. -/
structure Sink where
  table : List Record
  insertKeys : Finset String
  uncertainKeys : Finset String := ∅
  pendingByKey : List Pending := []
  pendingOrder : List String := []
  inflightWaiterCount : ℤ := 0
  closed : Bool := false
  timer : Option Timer := none
  closing : Closing := .idle
  lane : Option Lane := none
  senders : List Sender := []
  abandoned : List (List Record) := []

variable (config : Config) (s : Sink)

/-- The sink after `open`, which reads the key of every record. -/
def opened (table : List Record) : Sink where
  table := table
  insertKeys := (tableKeys config table).toFinset

def Sink.pending? (key : String) : Option Pending := s.pendingByKey.find? fun p => p.key = key

def Sink.setStates (keys : List String) (state : InsertState) : Sink :=
  {s with pendingByKey := s.pendingByKey.map fun p =>
    if p.key ∈ keys then {p with state := state} else p}

def Sink.setPhase (i : ℕ) (phase : Phase) : Sink :=
  {s with senders := s.senders.modify i fun x => {x with phase := phase}}

/-- An exact search lists two matches at most. -/
def Sink.search (key : String) (fault : Option Fault) : Lookup :=
  match fault with
  | some fault => .faulty fault
  | none => .matched (min 2 ((tableKeys config s.table).count key))

end State

section Settling
variable (config : Config) (s : Sink)

def Sender.settle (ok : Bool) (x : Sender) : Sender :=
  {x with waiter := x.waiter.map fun w => match w with
    | .waiting => .done ok
    | done => done}

/-- `_complete_pending` and `_fail_pending`. -/
def Sink.settle (ok : Bool) (keys : List String) : Sink :=
  let settled := s.pendingByKey.filter fun p => p.key ∈ keys
  {s with
    pendingByKey := s.pendingByKey.filter fun p => p.key ∉ keys
    inflightWaiterCount := s.inflightWaiterCount-(settled.map fun p => p.waiters.length).sum
    senders := s.senders.mapIdx fun i x => if settled.any fun p => i ∈ p.waiters then x.settle ok else x}

/-- `_confirm_created` and `_confirm_found`. -/
def Sink.confirm (keys : List String) : Sink :=
  Sink.settle {s with
    insertKeys := s.insertKeys ∪ keys.toFinset
    uncertainKeys := s.uncertainKeys \ keys.toFinset} true keys

/-- The end of a round of `close`. -/
def Sink.closeRound : Sink :=
  {s with closing := if !s.pendingOrder.isEmpty then .flushing
    else if s.pendingByKey.isEmpty then .returned else .raised}

/-- The flush lock is given back, and its holder goes on. -/
def Sink.release (owner : Owner) : Sink :=
  let s := {s with lane := none}
  match owner with
  | .sender i => s.setPhase i .waiting
  | .timer => {s with timer := none}
  | .close => s.closeRound

end Settling

section Buffering
variable (config : Config) (s : Sink)

/-- The last part of `_send_indexed_insert`, up to its flush or its waiter. -/
def Sink.buffer (i : ℕ) (key : String) (fields : Record) : Sink :=
  let s : Sink := match s.pending? key with
    | some _ => {s with pendingByKey := s.pendingByKey.map fun (p : Pending) =>
      if p.key = key then {p with waiters := p.waiters++[i]} else p}
    | none => {s with
        pendingByKey := s.pendingByKey++[⟨key,fields,[i],.buffered⟩]
        pendingOrder := s.pendingOrder++[key]}
  let shouldFlush : Bool := config.batchSize ≤ s.pendingOrder.length
  {s with
    inflightWaiterCount := s.inflightWaiterCount+1
    timer := if !shouldFlush && s.timer.isNone && !s.closed then some .sleeping else s.timer
    senders := s.senders.modify i fun x =>
      {x with phase := if shouldFlush then .flushing else .waiting, waiter := some .waiting}}

/-- `_send_indexed_insert`, up to its first `await`. -/
def Sink.send (fields : Record) : Sink :=
  if s.closed then s
  else match payloadKey config fields with
    | .error _ => s
    | .ok key =>
      let joined (phase : Phase) : Sink := {s with senders := s.senders++[⟨key,fields,phase,none⟩]}
      if key ∈ s.insertKeys then joined .returned
      else if key ∈ s.uncertainKeys then joined (.reconciling none)
      else (joined .waiting).buffer config s.senders.length key fields

/-- A search for an uncertain key settles whether it is in the table. -/
def Sink.learn (key : String) (count : ℕ) : Sink :=
  {s with
    insertKeys := if 0 < count then insert key s.insertKeys else s.insertKeys
    uncertainKeys := s.uncertainKeys.erase key}

/-- `_reconcile_uncertain_key` has its answer, and the send goes on. -/
def Sink.reconciled (i : ℕ) (x : Sender) : Lookup → Sink
  | .faulty _ => s.setPhase i .raised
  | .matched count =>
    if 1 < count then s.setPhase i .raised
    else if x.key ∈ (s.learn x.key count).insertKeys then
      (s.learn x.key count).setPhase i .returned
    else (s.learn x.key count).buffer config i x.key x.fields

end Buffering

section Writing
variable (config : Config) (s : Sink)

/-- `_seal_indexed_batch`: the batch, the keys that stay in order, and the entries. -/
def sealBatch : ℕ → List String → List Pending → List String × List String × List Pending
  | _,[],entries => ([],[],entries)
  | 0,order,entries => ([],order,entries)
  | size+1,key::order,entries =>
    match entries.find? fun p => p.key = key with
    | none => sealBatch (size+1) order entries
    | some p =>
      if p.state ≠ .buffered then sealBatch (size+1) order entries
      else
        let r := sealBatch size order (entries.map fun p =>
          if p.key = key then {p with state := .writing} else p)
        (key::r.1,r.2)

def Sink.records (keys : List String) : List Record :=
  keys.filterMap fun key => (s.pending? key).map Pending.fields

/-- The loop of `_recover_ambiguous_batch` at its head. -/
def Sink.nextRound (owner : Owner) (unresolved : List String) (round : ℕ) : Sink :=
  if unresolved.isEmpty then s.release owner
  else if round ≤ config.ambiguousWriteMaxRounds then
    {s with lane := some ⟨owner,.looking unresolved [] round⟩}
  else (s.settle false unresolved).release owner

def Sink.recover (owner : Owner) (batch : List String) : Sink :=
  Sink.nextRound config
    {s.setStates batch .recovering with uncertainKeys := s.uncertainKeys ∪ batch.toFinset} owner batch 1

/-- A create has its answer. -/
def Sink.respond (owner : Owner) (reply : Reply) : Write → Sink
  | .creating batch _ =>
    match reply.verdict batch.length with
    | .complete => (s.confirm batch).release owner
    | .definite => (s.settle false batch).release owner
    | .ambiguous => s.recover config owner batch
  | .looking _ _ _ => s
  | .recreating missing lookupFailed _ round =>
    match reply.verdict missing.length with
    | .complete => (s.confirm missing).nextRound config owner lookupFailed (round+1)
    | .definite => (s.settle false missing).nextRound config owner lookupFailed (round+1)
    | .ambiguous => s.nextRound config owner (lookupFailed++missing) (round+1)

/-- The keys of a search with one kind of answer. -/
def answered (unresolved : List String) (answers : List (String × Lookup)) (p : Lookup → Bool) :
    List String :=
  unresolved.filter fun key => (answers.lookup key).any p

def isFound : Lookup → Bool
  | .matched count => count = 1
  | .faulty _ => false

def isMissing : Lookup → Bool
  | .matched count => count = 0
  | .faulty _ => false

def isFailed : Lookup → Bool
  | .faulty .failed => true
  | _ => false

/-- The match is not unique, or the response was no list. -/
def isBroken : Lookup → Bool
  | .matched count => 1 < count
  | .faulty .malformed => true
  | .faulty .failed => false

/-- `_lookup_pending_keys` has all its answers, and the round goes on. -/
def Sink.lookedUp (owner : Owner) (unresolved : List String) (answers : List (String × Lookup))
    (round : ℕ) : Sink :=
  let found := answered unresolved answers isFound
  let missing := answered unresolved answers isMissing
  let lookupFailed := answered unresolved answers isFailed
  let s := (s.settle false (answered unresolved answers isBroken)).confirm found
  if missing.isEmpty then s.nextRound config owner lookupFailed (round+1)
  else {s.setStates missing .writing with lane := some ⟨owner,.recreating missing lookupFailed false round⟩}

def Sink.leftBehind (write : Write) : List (List Record) :=
  match write with
  | .creating batch false => [s.records batch]
  | .recreating missing _ false _ => [s.records missing]
  | _ => []

/-- A task is cancelled; if it holds the flush lock, it gives it back. -/
def Sink.abandon (owner : Owner) : Sink :=
  match s.lane with
  | some ⟨holder,write⟩ =>
    if holder = owner then {s with lane := none, abandoned := s.abandoned++s.leftBehind write} else s
  | none => s

end Writing

section Steps

inductive Op where
  | send (fields : Record)
  | reconcileLookup (i : ℕ) (fault : Option Fault)
  | reconciled (i : ℕ)
  | wake (i : ℕ)
  | timerFires
  | acquire (owner : Owner)
  | commit
  | respond (reply : Reply)
  | lookUp (key : String) (fault : Option Fault)
  | lookedUp
  | close
  | cancelSender (i : ℕ)
  | cancelTimer
  | lateCommit (i : ℕ)

variable (config : Config) (s : Sink)

/-- A task that waits for the flush lock. -/
def Sink.wantsLane : Owner → Bool
  | .sender i => s.senders[i]?.any fun x => x.phase = .flushing
  | .timer => s.timer = some .flushing
  | .close => s.closing = .flushing

/-- The flush lock is free, and a task seals a batch. -/
def Sink.acquire (owner : Owner) : Sink :=
  let (batch,order,entries) := sealBatch config.batchSize s.pendingOrder s.pendingByKey
  let s := {s with pendingOrder := order, pendingByKey := entries}
  if batch.isEmpty then s.release owner else {s with lane := some ⟨owner,.creating batch false⟩}

/-- The request of the holder of the flush lock commits. -/
def Sink.commit (owner : Owner) : Write → Option Sink
  | .creating batch false =>
    some {s with table := s.table++s.records batch, lane := some ⟨owner,.creating batch true⟩}
  | .recreating missing lookupFailed false round =>
    some {s with
      table := s.table++s.records missing
      lane := some ⟨owner,.recreating missing lookupFailed true round⟩}
  | _ => none

def Sink.cancelSender (i : ℕ) (x : Sender) : Option Sink :=
  match x.phase with
  | .reconciling _ => some (s.setPhase i .cancelled)
  | .flushing => some ((s.abandon (.sender i)).setPhase i .cancelled)
  | .waiting => some {s with senders := s.senders.modify i fun x =>
    {x with
      phase := .cancelled
      waiter := x.waiter.map fun w => match w with
        | .waiting => .cancelled
        | done => done}}
  | _ => none

def Sink.cancelTimer : Sink := {s.abandon .timer with timer := none}

def Sink.perform : Op → Option Sink
  | .send fields => some (s.send config fields)
  | .reconcileLookup i fault =>
    match s.senders[i]? with
    | some ⟨key,_,.reconciling none,_⟩ =>
      some (s.setPhase i (.reconciling (some (s.search config key fault))))
    | _ => none
  | .reconciled i =>
    match s.senders[i]? with
    | some ⟨key,fields,.reconciling (some answer),waiter⟩ =>
      some (s.reconciled config i ⟨key,fields,.reconciling (some answer),waiter⟩ answer)
    | _ => none
  | .wake i =>
    match s.senders[i]? with
    | some ⟨_,_,.waiting,some (.done ok)⟩ => some (s.setPhase i (if ok then .returned else .raised))
    | _ => none
  | .timerFires => if s.timer = some .sleeping then some {s with timer := some .flushing} else none
  | .acquire owner => if s.lane.isNone && s.wantsLane owner then some (s.acquire config owner) else none
  | .commit => s.lane.bind fun l => s.commit l.owner l.write
  | .respond reply =>
    match s.lane with
    | some ⟨_,.looking _ _ _⟩ => none
    | some ⟨owner,write⟩ => some (s.respond config owner reply write)
    | none => none
  | .lookUp key fault =>
    match s.lane with
    | some ⟨owner,.looking unresolved answers round⟩ =>
      if unresolved.contains key && (answers.lookup key).isNone then
        let answers := (key,s.search config key fault)::answers
        some {s with lane := some ⟨owner,.looking unresolved answers round⟩}
      else none
    | _ => none
  | .lookedUp =>
    match s.lane with
    | some ⟨owner,.looking unresolved answers round⟩ =>
      if unresolved.all fun key => (answers.lookup key).isSome then
        some (s.lookedUp config owner unresolved answers round)
      else none
    | _ => none
  | .close =>
    if s.closing = .flushing then none
    else some {s.cancelTimer with closed := true, closing := .flushing}
  | .cancelSender i => s.senders[i]?.bind (s.cancelSender i)
  | .cancelTimer => if s.timer.isSome then some s.cancelTimer else none
  | .lateCommit i =>
    match s.abandoned[i]? with
    | some records => some {s with
        table := s.table++records
        abandoned := s.abandoned.eraseIdx i}
    | none => none

/-- What was done in which state, and what it led to. -/
structure Event where
  before : Sink
  op : Op
  after : Sink

def Step (s : Sink) (e : Event) (s' : Sink) : Prop :=
  e.before = s ∧ e.after = s' ∧ s.perform config e.op = some s'

def Sink.trace : List Op → Option (List Event × Sink) :=
  Transition.trace (Sink.perform config) Event.mk s

theorem run_of_trace {es : List Event} {s' : Sink} {ops : List Op}
    (h : s.trace config ops = some (es,s')) : Run (Step config) s es s' :=
  Transition.run_of_trace (fun _ _ _ hperform => ⟨rfl,rfl,hperform⟩) h

end Steps

end OneStep.FeishuInsert
