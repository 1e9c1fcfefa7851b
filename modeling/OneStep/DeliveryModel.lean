import OneStep.Coroutine
import OneStep.ExecutionModel

/-!
# Deliveries, tasks and what may happen to a delivery

The data of the runtime executor: exceptions as far as the runtime looks at
them, task specifications, the calls an executor awaits, and an environment
that fixes the outcome of every one of them. Hooks, handlers, predicates,
transforms, sinks and brokers are user or connector code, so any outcome of any
call is possible; a call is made at most once in one execution, which is why
one function from calls to outcomes covers every assignment.

Logging, durations, tracebacks and the payload of task events are left out.
-/
namespace OneStep.DeliveryModel
open Coroutine ExecutionModel

inductive ConnectorErrorKind where
  | disconnected | transient | throttled | misconfigured | permanent | uncertain
  deriving DecidableEq, Repr

def ConnectorErrorKind.value : ConnectorErrorKind → String
  | disconnected => "disconnected"
  | transient => "transient"
  | throttled => "throttled"
  | misconfigured => "misconfigured"
  | permanent => "permanent"
  | uncertain => "uncertain"

inductive ConnectorOperation where
  | opening | fetch | heartbeat | send | ack | retry | fail | close
  deriving DecidableEq, Repr

def ConnectorOperation.value : ConnectorOperation → String
  | opening => "open"
  | fetch => "fetch"
  | heartbeat => "heartbeat"
  | send => "send"
  | ack => "ack"
  | retry => "retry"
  | fail => "fail"
  | close => "close"

structure ConnectorOperationError where
  backend : String
  operation : ConnectorOperation
  kind : ConnectorErrorKind
  retryDelayS : Option ℚ := none
  deriving DecidableEq, Repr

def isRetryableConnectorError (exc : ConnectorOperationError) : Bool :=
  exc.kind = .disconnected || exc.kind = .transient || exc.kind = .throttled

def connectorRetryDelay (exc : ConnectorOperationError) (fallbackS : ℚ) : ℚ :=
  match exc.retryDelayS with
  | some d => max 0 d
  | none => if exc.kind = .throttled then max fallbackS 1 else max fallbackS 0

/-- An exception, as far as the runtime tells exceptions apart. -/
structure Exn where
  typeName : String
  /-- What `str` returns, or the type name of what it raises. -/
  message : Except String String
  timeout : Bool := false
  leaseLost : Bool := false
  connector : Option ConnectorOperationError := none

def Exn.plain (typeName : String) : Exn where
  typeName := typeName
  message := .ok ""

def Exn.valueError (message : String) : Exn where
  typeName := "ValueError"
  message := .ok message

inductive FailureKind where
  | error | timeout | cancelled
  deriving DecidableEq, Repr

def FailureKind.value : FailureKind → String
  | error => "error"
  | timeout => "timeout"
  | cancelled => "cancelled"

structure FailureInfo where
  kind : FailureKind
  exceptionType : String
  message : String
  deriving DecidableEq, Repr

/-- `FailureInfo.from_exception` raises what `str(exc)` raises. -/
def FailureInfo.fromException (exc : Exn) (kind : FailureKind) : Except Exn FailureInfo :=
  match exc.message with
  | .ok m => .ok ⟨kind,exc.typeName,m⟩
  | .error t => .error (.plain t)

inductive RetryDecision where
  | retry | fail
  deriving DecidableEq, Repr

structure RetryAction where
  decision : RetryDecision
  delayS : Option ℚ := none
  deriving DecidableEq, Repr

structure Sink where
  name : String
  pollIntervalS : ℚ := 1
  deriving DecidableEq, Repr

structure EmitBinding where
  sink : Sink
  transform : Bool := false
  deriving DecidableEq, Repr

/-- `EmitBinding` or `EmitRoute`; a route without a predicate takes `then`. -/
inductive EmitTarget where
  | binding (b : EmitBinding)
  | route (predicate : Bool) (thenBindings otherwiseBindings : List EmitBinding)
  deriving DecidableEq, Repr

inductive CaptureMode where
  | terminal | all
  deriving DecidableEq, Repr

/-- The task, its hooks counted, and the failure capture of its app. -/
structure TaskSpec where
  appName : String
  name : String
  sourceName : Option String
  before : ℕ
  afterSuccess : ℕ
  onFailure : ℕ
  emitTargets : List EmitTarget
  deadLetterSinks : List Sink
  eventHandlers : ℕ
  capture : Option CaptureMode
  deriving DecidableEq, Repr

/-- Values of the program are `V`, with `none` for None. -/
structure Delivery (V : Type) where
  body : Option V
  metadata : Option V
  attempts : ℤ
  managed : Bool
  deriving DecidableEq, Repr

structure DeadLetter (V : Type) where
  payload : Option V
  failure : FailureInfo
  app : String
  task : String
  source : Option String
  originalMeta : Option V
  originalAttempts : ℤ
  deriving DecidableEq, Repr

inductive Stage where
  | deliveryAction | beforeHook | handler | afterSuccessHook | route | transform | sink | ack
  | failureHook
  deriving DecidableEq, Repr

def Stage.name : Stage → String
  | deliveryAction => "delivery_action"
  | beforeHook => "before_hook"
  | handler => "handler"
  | afterSuccessHook => "after_success_hook"
  | route => "route"
  | transform => "transform"
  | sink => "sink"
  | ack => "ack"
  | failureHook => "failure_hook"

inductive TaskEventKind where
  | fetched | started | succeeded | retried | failed | deadLettered | cancelled
  deriving DecidableEq, Repr

inductive HookKind where
  | before | afterSuccess | onFailure
  deriving DecidableEq, Repr

inductive Transition where
  | entered | completed
  deriving DecidableEq, Repr

/-- The calls an execution awaits. -/
inductive Call (V : Type) where
  | startProcessing
  | checkpoint (phase : Stage) (transition : Transition)
  | eventHandler (kind : TaskEventKind) (index : ℕ)
  | hook (kind : HookKind) (index : ℕ)
  | handler
  | predicate (target : ℕ)
  | transform (position : ℕ)
  | send (position attempt : ℕ) (sink : Sink) (body : Option V)
  | waitForShutdown (position attempt : ℕ)
  | deadLetter (position : ℕ) (sink : Sink) (envelope : DeadLetter V)
  | ack
  | retry (delayS : Option ℚ)
  | fail (exc : Exn)
  | completeExecution (completion : ExecutionCompletion (Option V))
  | capture

/-- The outcome of every awaited call, and of the user code called in between. -/
structure Env (V : Type) where
  outcome : Call V → Outcome Exn Unit
  handler : Outcome Exn (Option V)
  predicate : ℕ → Outcome Exn Bool
  transform : ℕ → Outcome Exn (Option V)
  isStopping : ℕ → ℕ → Bool
  cancelRequested : Bool
  retryPolicy : Exn → FailureInfo → Except Exn RetryAction
  /-- Copying the metadata for an event of this kind. -/
  copyMeta : TaskEventKind → Except Exn Unit
  /-- Building the metadata of the success event. -/
  succeededMeta : Except Exn Unit
  copyPayload : Except Exn Unit
  copyOriginalMeta : Except Exn Unit
  copyEnvelope : Except Exn Unit
  copyResult : Except Exn Unit

inductive DeliveryAction where
  | ack | retry | deadLetter | fail
  deriving DecidableEq, Repr

inductive Completion where
  | running | succeeded | failed | cancelled | retrying
  deriving DecidableEq, Repr

structure PublicFailure where
  failureKind : FailureKind
  exceptionType : String
  connector : Option ConnectorOperationError := none
  deriving DecidableEq, Repr

/-- The outcome object, together with the local that tracks the stage. -/
structure ExecutionOutcome (V : Type) where
  activeStage : Stage := .deliveryAction
  completion : Completion := .running
  handlerResult : Option V := none
  selectedSinks : List String := []
  deliveryAction : Option DeliveryAction := none
  retryDelayS : Option ℚ := none
  failure : Option FailureInfo := none
  publicFailure : Option PublicFailure := none
  failureStage : Option Stage := none
  deadLetterAttempted : Bool := false
  deadLetterPublished : Option Bool := none
  terminal : Bool := false
  captureSnapshotFailed : Bool := false

end OneStep.DeliveryModel
