import OneStep.ReferenceLedger

/-!
# Shared connections

`RedisConnector` and `RabbitMQConnector` share one connection between any number of queues and
count references to it. An operation of a queue goes from await to await; whether a queue is
open is one flag of the queue, which all operations of the queue read and write. The lock of
the connector is held over an await only where it connects or closes the connection.
-/
namespace OneStep.SharedConnections
open ReferenceLedger

inductive Kind where
  | opening
  | closing
  | fetching
  | sending
deriving DecidableEq, Repr

/-- How an await ends. A failure is a connector error or not. -/
inductive Await where
  | returned
  | failed (connectorError : Bool)
  | cancelled
deriving DecidableEq, Repr

/-- A call of an operation, or an operation that goes on from its await. -/
inductive Op (Q : Type) where
  | call (queue : Q) (kind : Kind)
  | resume (i : ℕ) (a : Await)
deriving DecidableEq, Repr

section Redis

inductive RedisPhase where
  | acquiring
  | creatingGroup
  | working
  | releasing
  | closingRedis
  | closingPool
  | done
deriving DecidableEq, Repr

structure RedisOp (Q : Type) where
  queue : Q
  kind : Kind
  phase : RedisPhase
deriving DecidableEq, Repr

structure RedisState (Q : Type) extends Ledger Q (RedisOp Q) where
  redis : Bool
  pool : Bool
  locked : Bool
deriving DecidableEq

variable {Q : Type} [DecidableEq Q]

def redisStart : RedisState Q := ⟨⟨0,∅,[]⟩,false,false,false⟩

namespace RedisState
variable (s : RedisState Q) (i : ℕ) (op : RedisOp Q)

def goto (phase : RedisPhase) : RedisState Q := {s with ops := s.ops.set i {op with phase := phase}}

/-- `open` has returned. -/
def afterOpen : RedisState Q :=
  goto s i op (match op.kind with
    | .opening => .done
    | _ => .working)

/-- `self._opened = True` -/
def setOpened : RedisState Q := afterOpen {s with opened := insert op.queue s.opened} i op

/-- `RedisConnector.acquire`, under the lock -/
def acquire (createGroup : Q → Bool) : RedisState Q :=
  let s := {s with count := s.count+1, redis := true, pool := s.pool || !s.redis}
  if createGroup op.queue then goto s i op .creatingGroup else setOpened s i op

/-- `_reset_transport_state`, as far as its await -/
def resetTransportState : RedisState Q :=
  goto {s with opened := s.opened.erase op.queue} i op .releasing

/-- `_close_connection_locked`, as far as an await -/
def closeConnection : RedisState Q :=
  if s.redis then goto {s with locked := true} i op .closingRedis
  else if s.pool then goto {s with locked := true} i op .closingPool
  else goto s i op .done

/-- `RedisConnector.release`, under the lock -/
def release : RedisState Q :=
  let s := {s with count := s.count-1}
  if s.count = 0 then closeConnection s i op else goto s i op .done

def unlock : RedisState Q := goto {s with locked := false} i op .done

def redisClosed : RedisState Q :=
  if s.pool then goto {s with redis := false} i op .closingPool
  else unlock {s with redis := false} i op

def resume (createGroup : Q → Bool) : Await → Option (RedisState Q) :=
  match op.phase with
  | .acquiring => fun
    | .returned => if s.locked then none else some (acquire s i op createGroup)
    | .failed _ => if s.locked then none else some (goto s i op .done)
    | .cancelled => some (goto s i op .done)
  | .creatingGroup => fun
    | .returned => some (setOpened s i op)
    | .failed _ => some (goto s i op .done)
    | .cancelled => some (goto s i op .done)
  | .working => fun
    | .returned => some (goto s i op .done)
    | .failed true => some (resetTransportState s i op)
    | .failed false => some (goto s i op .done)
    | .cancelled => some (goto s i op .done)
  | .releasing => fun
    | .returned => if s.locked then none else some (release s i op)
    | .failed _ => none
    | .cancelled => some (goto s i op .done)
  | .closingRedis => fun
    | .returned => some (redisClosed s i op)
    | .failed _ => some (unlock s i op)
    | .cancelled => some (unlock s i op)
  | .closingPool => fun
    | .returned => some (unlock {s with pool := false} i op)
    | .failed _ => some (unlock s i op)
    | .cancelled => some (unlock s i op)
  | .done => fun _ => none

end RedisState

/-- The first step of an operation of a Redis queue. -/
def redisCall (s : RedisState Q) (queue : Q) (kind : Kind) : RedisState Q :=
  match kind with
  | .closing =>
    if queue ∈ s.opened then
      {s with opened := s.opened.erase queue, ops := s.ops++[⟨queue,kind,.releasing⟩]}
    else {s with ops := s.ops++[⟨queue,kind,.done⟩]}
  | .opening =>
    {s with ops := s.ops++[⟨queue,kind,if queue ∈ s.opened then .done else .acquiring⟩]}
  | _ => {s with ops := s.ops++[⟨queue,kind,if queue ∈ s.opened then .working else .acquiring⟩]}

def redisPerform (createGroup : Q → Bool) (s : RedisState Q) : Op Q → Option (RedisState Q)
  | .call queue kind => some (redisCall s queue kind)
  | .resume i a => s.ops[i]?.bind fun op => s.resume i op createGroup a

end Redis

section RabbitMQ

def Await.isCancelled : Await → Bool
  | .cancelled => true
  | _ => false

/-- A reset is `nested` where `open` makes it inside a `fetch`, which then still sees whether
it was `cancelled`. -/
inductive RabbitPhase where
  | acquiring
  | connecting
  | declaring
  | working
  | resetting (acquired nested : Bool)
  | releasing (nested cancelled : Bool)
  | closingConnection (nested cancelled : Bool)
  | done
deriving DecidableEq, Repr

structure RabbitOp (Q : Type) where
  queue : Q
  kind : Kind
  phase : RabbitPhase
deriving DecidableEq, Repr

/-- The connection knows whether it is closed. -/
structure RabbitState (Q : Type) extends Ledger Q (RabbitOp Q) where
  connection : Option Bool
  locked : Bool
deriving DecidableEq

variable {Q : Type} [DecidableEq Q]

def rabbitStart : RabbitState Q := ⟨⟨0,∅,[]⟩,none,false⟩

namespace RabbitState
variable (s : RabbitState Q) (i : ℕ) (op : RabbitOp Q)

def goto (phase : RabbitPhase) : RabbitState Q := {s with ops := s.ops.set i {op with phase := phase}}

def afterOpen : RabbitState Q :=
  goto s i op (match op.kind with
    | .opening => .done
    | _ => .working)

def setOpened : RabbitState Q := afterOpen {s with opened := insert op.queue s.opened} i op

/-- `RabbitMQConnector.acquire`, under the lock, as far as an await -/
def acquire : RabbitState Q :=
  match s.connection with
  | some false => goto {s with count := s.count+1} i op .declaring
  | _ => goto {s with locked := true} i op .connecting

def connected : RabbitState Q :=
  goto {s with count := s.count+1, connection := some false, locked := false} i op .declaring

/-- What `except asyncio.CancelledError` of `fetch` does; no other operation has it. -/
def cancel (acquired : Bool) : RabbitState Q :=
  goto s i op (match op.kind with
    | .fetching => .resetting acquired false
    | _ => .done)

/-- What `open` does where it fails after the acquire. -/
def failOpen : RabbitState Q :=
  goto s i op (match op.kind with
    | .fetching => .resetting true true
    | _ => .resetting true false)

/-- `_clear_transport_state`, before the release -/
def clearTransportState (nested cancelled : Bool) : RabbitState Q :=
  goto {s with opened := s.opened.erase op.queue} i op (.releasing nested cancelled)

/-- A reset is over; where `fetch` sees a cancellation of it, it makes another. -/
def finish (nested cancelled : Bool) : RabbitState Q :=
  goto s i op (if nested && cancelled then .resetting false false else .done)

/-- `RabbitMQConnector.release`, under the lock -/
def release (nested cancelled : Bool) : RabbitState Q :=
  let s := {s with count := s.count-1}
  if s.count = 0 ∧ s.connection.isSome then
    goto {s with connection := none, locked := true} i op (.closingConnection nested cancelled)
  else finish s i op nested cancelled

def unlock (s : RabbitState Q) : RabbitState Q := {s with locked := false}

def resume : Await → Option (RabbitState Q) :=
  match op.phase with
  | .acquiring => fun
    | .returned => if s.locked then none else some (acquire s i op)
    | .failed _ => none
    | .cancelled => some (cancel s i op false)
  | .connecting => fun
    | .returned => some (connected s i op)
    | .failed _ => some (goto (unlock s) i op .done)
    | .cancelled => some (cancel (unlock s) i op false)
  | .declaring => fun
    | .returned => some (setOpened s i op)
    | .failed _ => some (failOpen s i op)
    | .cancelled => some (cancel s i op true)
  | .working => fun
    | .returned => some (goto s i op .done)
    | .failed true => some (goto s i op (.resetting false false))
    | .failed false => some (goto s i op .done)
    | .cancelled => some (cancel s i op false)
  | .resetting _ nested => fun a => some (clearTransportState s i op nested a.isCancelled)
  | .releasing nested cancelled => fun
    | .returned => if s.locked then none else some (release s i op nested cancelled)
    | .failed _ => none
    | .cancelled => some (goto s i op (if nested then .resetting true false else .done))
  | .closingConnection nested cancelled => fun a =>
    some (finish (unlock s) i op nested (cancelled || a.isCancelled))
  | .done => fun _ => none

end RabbitState

/-- The first step of an operation of a RabbitMQ queue. A close leaves the flag alone until its
channels are closed, as a reset does. -/
def rabbitCall (s : RabbitState Q) (queue : Q) (kind : Kind) : RabbitState Q :=
  match kind with
  | .closing =>
    {s with ops := s.ops++[⟨queue,kind,if queue ∈ s.opened then .resetting false false else .done⟩]}
  | .opening =>
    {s with ops := s.ops++[⟨queue,kind,if queue ∈ s.opened then .done else .acquiring⟩]}
  | _ => {s with ops := s.ops++[⟨queue,kind,if queue ∈ s.opened then .working else .acquiring⟩]}

/-- The connection may also be lost at any time. -/
def rabbitPerform (s : RabbitState Q) : Option (Op Q) → Option (RabbitState Q)
  | none => some {s with connection := s.connection.map fun _ => true}
  | some (.call queue kind) => some (rabbitCall s queue kind)
  | some (.resume i a) => s.ops[i]?.bind fun op => s.resume i op a

end RabbitMQ

end OneStep.SharedConnections
