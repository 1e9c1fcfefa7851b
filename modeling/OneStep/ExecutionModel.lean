import Mathlib.Data.Rat.Floor

/-!
# Execution records

The public records of `onestep.execution`: statuses, requests, completions,
error details and leases, with the normalisation their constructors perform.
Values are opaque Python objects of a type `V`.

Instants are microseconds on the UTC axis, so that comparison of instants is
comparison of integers; durations are rationals, because a float number of
seconds is one, and become microseconds by the rounding of `timedelta`. The
range limits of `datetime` are not modelled. UUIDs are natural numbers.
-/
namespace OneStep.ExecutionModel

abbrev Instant := ℤ
abbrev UUID := ℕ

/-- `timedelta(seconds=s)`: nearest microsecond, ties to even. -/
def timedelta (seconds : ℚ) : ℤ :=
  let q := seconds*1000000
  let f := ⌊q⌋
  if q-f < 1/2 then f
  else if 1/2 < q-f then f+1
  else if f % 2 = 0 then f else f+1

/-- The characters `str.strip` removes. -/
def isSpace (c : Char) : Bool :=
  let n := c.toNat
  (9 ≤ n && n ≤ 13) || (28 ≤ n && n ≤ 32) || n == 133 || n == 160 || n == 5760 ||
    (8192 ≤ n && n ≤ 8202) || n == 8232 || n == 8233 || n == 8239 || n == 8287 || n == 12288

def strip (s : String) : String :=
  .ofList (((s.toList.dropWhile isSpace).reverse.dropWhile isSpace).reverse)

/-- `_text`: the stripped text, or the message of the `ValueError`. -/
def text (value fieldName : String) (maximum : ℕ) : Except String String :=
  let v := strip value
  if v.toList = [] then .error s!"{fieldName} must not be empty"
  else if maximum < v.length then .error s!"{fieldName} must be at most {maximum} characters"
  else .ok v

def optionalText (value : Option String) (fieldName : String) (maximum : ℕ) :
    Except String (Option String) :=
  match value with
  | none => .ok none
  | some v => (text v fieldName maximum).map some

inductive ExecutionStatus where
  | queued | running | retrying | succeeded | failed | cancelRequested | cancelled | expired
  deriving DecidableEq, Repr

namespace ExecutionStatus

/-- Membership in `TERMINAL_EXECUTION_STATUSES`. -/
def terminal : ExecutionStatus → Bool
  | succeeded | failed | cancelled | expired => true
  | queued | running | retrying | cancelRequested => false

/-- The statuses under which a worker holds a lease. -/
def leased : ExecutionStatus → Bool
  | running | cancelRequested => true
  | queued | retrying | succeeded | failed | cancelled | expired => false

/-- The statuses from which `claim` hands an execution out. -/
def waiting : ExecutionStatus → Bool
  | queued | retrying => true
  | running | succeeded | failed | cancelRequested | cancelled | expired => false

end ExecutionStatus

structure ExecutionErrorDetail where
  kind : String
  exceptionType : String
  stage : Option String := none
  backend : Option String := none
  operation : Option String := none
  connectorKind : Option String := none
  deriving DecidableEq, Repr

/-- `ExecutionErrorDetail.__post_init__`: each text is stripped and bounded,
in this order; the first that is empty or too long is the error. -/
def ExecutionErrorDetail.build (raw : ExecutionErrorDetail) :
    Except String ExecutionErrorDetail := do
  let kind ← text raw.kind "kind" 64
  let exceptionType ← text raw.exceptionType "exception_type" 255
  let stage ← optionalText raw.stage "stage" 255
  let backend ← optionalText raw.backend "backend" 255
  let operation ← optionalText raw.operation "operation" 255
  let connectorKind ← optionalText raw.connectorKind "connector_kind" 255
  return ⟨kind,exceptionType,stage,backend,operation,connectorKind⟩

/-- The snapshot returned to clients. -/
structure Execution (V : Type) where
  id : UUID
  namespaceName : String
  taskName : String
  status : ExecutionStatus
  payload : V
  metadata : V
  result : V
  error : Option ExecutionErrorDetail
  attempts : ℕ
  createdAt : Instant
  availableAt : Instant
  startedAt : Option Instant
  finishedAt : Option Instant
  cancelRequestedAt : Option Instant
  expiresAt : Option Instant
  version : ℕ
  deriving DecidableEq, Repr

structure ExecutionRequest (V : Type) where
  namespaceName : String
  taskName : String
  payload : V
  idempotencyKey : Option String := none
  metadata : V
  delayS : Option ℚ := none
  expiresAt : Option Instant := none
  deriving DecidableEq, Repr

/-- The statuses an `ExecutionCompletion` accepts, `COMPLETION_STATUSES`. -/
inductive CompletionStatus where
  | succeeded | retrying | failed | cancelled
  deriving DecidableEq, Repr

def CompletionStatus.status : CompletionStatus → ExecutionStatus
  | succeeded => .succeeded
  | retrying => .retrying
  | failed => .failed
  | cancelled => .cancelled

structure ExecutionCompletion (V : Type) where
  status : CompletionStatus
  result : V
  error : Option ExecutionErrorDetail := none
  delayS : Option ℚ := none
  deriving DecidableEq, Repr

structure ExecutionLease (V : Type) where
  execution : Execution V
  attemptId : UUID
  leaseToken : UUID
  leaseExpiresAt : Instant
  deriving DecidableEq, Repr

structure HeartbeatResult where
  leaseExpiresAt : Instant
  cancelRequested : Bool
  deriving DecidableEq, Repr

end OneStep.ExecutionModel
