import OneStep.DeliveryModel

/-!
# The delivery executor

`DeliveryExecutor.execute` and everything it calls, over an environment that
fixes the outcome of each awaited call. The state is the outcome object; the
log is the list of awaited calls. The sinks are dispatched as in production and
events go to the handlers of the app, whose exceptions are logged and dropped.
-/
namespace OneStep.DeliveryExecutor
open Coroutine ExecutionModel DeliveryModel

variable {V : Type}

structure Executor (V : Type) where
  task : TaskSpec
  delivery : Delivery V
  env : Env V
  applyDeliveryActions : Bool

abbrev Run (V α : Type) := Co (ExecutionOutcome V) (Call V) Exn α

variable (x : Executor V)

def await (c : Call V) : Run V Unit := call c (x.env.outcome c)

def checkpoint (phase : Stage) (transition : Transition) : Run V Unit :=
  await x (.checkpoint phase transition)

def enter (stage : Stage) : Run V Unit := assign fun o => {o with activeStage := stage}

/-- `emit`, with `app.emit_event` as the emitter. -/
def emit (kind : TaskEventKind) : Run V Unit := do
  ofExcept (x.env.copyMeta kind)
  forEach (fun i => suppress (await x (.eventHandler kind i))) (List.range x.task.eventHandlers)

def runHooks (kind : HookKind) (count : ℕ) : Run V Unit :=
  forEach (fun i => await x (.hook kind i)) (List.range count)

/-- `_run_hooks` with `suppress_exceptions`. -/
def runFailureHooks : Run V Unit :=
  forEach (fun i => suppress (await x (.hook .onFailure i))) (List.range x.task.onFailure)

section Output

def selectEmitBindings : ℕ → List EmitTarget → Run V (List EmitBinding)
  | _,[] => return []
  | i,.binding b::targets => do
    let bindings ← selectEmitBindings (i+1) targets
    return b::bindings
  | i,.route false thenBindings _::targets => do
    let bindings ← selectEmitBindings (i+1) targets
    return thenBindings++bindings
  | i,.route true thenBindings otherwiseBindings::targets => do
    let chosen ← call (.predicate i) (x.env.predicate i)
    let bindings ← selectEmitBindings (i+1) targets
    return (if chosen then thenBindings else otherwiseBindings)++bindings

/-- The body the `i`-th selected binding sends. -/
def emitBody (result : Option V) (i : ℕ) (b : EmitBinding) : Run V (Option V) :=
  if b.transform then call (.transform i) (x.env.transform i) else pure result

def prepareEmitEnvelopes (result : Option V) :
    ℕ → List EmitBinding → Run V (List (Sink × Option V))
  | _,[] => return []
  | i,b::bindings => do
    let body ← emitBody x result i b
    let prepared ← prepareEmitEnvelopes result (i+1) bindings
    return (b.sink,body)::prepared

/-- Whether the wait between two sends ran out, rather than ended in a shutdown. -/
def waitForShutdown (position tries : ℕ) : Run V Bool :=
  attempt (do
      await x (.waitForShutdown position tries)
      return false)
    fun e => if e.timeout then pure true else interrupt (.raised e)

/-- The loop of `_send_to_sink`: tries left, and the number of this one. -/
def sendTries (position : ℕ) (sink : Sink) (body : Option V) : ℕ → ℕ → Run V Unit
  | 0,_ => pure ()
  | left+1,tries => attempt (await x (.send position tries sink body)) fun e =>
    match e.connector with
    | none => interrupt (.raised e)
    | some exc =>
      if isRetryableConnectorError exc = false ∨ left = 0 then interrupt (.raised e)
      else if connectorRetryDelay exc sink.pollIntervalS ≤ 0 ∨
          x.env.isStopping position tries = true then
        sendTries position sink body left (tries+1)
      else do
        let timedOut ← waitForShutdown x position tries
        if timedOut then sendTries position sink body left (tries+1)
        else interrupt (.raised e)

def sendAttempts : ℕ := 2

def sendToSink (position : ℕ) (sink : Sink) (body : Option V) : Run V Unit :=
  sendTries x position sink body sendAttempts 0

def sendPrepared : ℕ → List (Sink × Option V) → Run V Unit
  | _,[] => return ()
  | i,(sink,body)::prepared => do
    enter .sink
    sendToSink x i sink body
    sendPrepared (i+1) prepared

def emitSelected (result : Option V) : Run V Unit := do
  enter .route
  checkpoint x .route .entered
  let selected ← selectEmitBindings x 0 x.task.emitTargets
  assign fun o => {o with selectedSinks := selected.map fun b => b.sink.name}
  checkpoint x .route .completed
  enter .transform
  checkpoint x .transform .entered
  let prepared ← prepareEmitEnvelopes x result 0 selected
  checkpoint x .transform .completed
  sendPrepared x 0 prepared

/-- None is not sent, and without targets nothing is. -/
def emitResult (result : Option V) : Run V Unit :=
  if result.isSome ∧ x.task.emitTargets ≠ [] then emitSelected x result else pure ()

end Output

/-- The try block of `execute` up to the acknowledgement. -/
def process : Run V (Option V) := do
  await x .startProcessing
  emit x .started
  enter .beforeHook
  checkpoint x .beforeHook .entered
  runHooks x .before x.task.before
  checkpoint x .beforeHook .completed
  enter .handler
  checkpoint x .handler .entered
  let result ← call .handler x.env.handler
  assign fun o => {o with handlerResult := result}
  checkpoint x .handler .completed
  enter .afterSuccessHook
  checkpoint x .afterSuccessHook .entered
  runHooks x .afterSuccess x.task.afterSuccess
  checkpoint x .afterSuccessHook .completed
  emitResult x result
  assign fun o => {o with activeStage := .ack, deliveryAction := some .ack}
  checkpoint x .ack .entered
  return result

section Settlement

/-- The constructor of `ExecutionCompletion`, which copies the result and
checks the delay. -/
def buildCompletion (status : CompletionStatus) (result : Option V)
    (error : Option ExecutionErrorDetail) (delayS : Option ℚ) :
    Except Exn (ExecutionCompletion (Option V)) :=
  match if status = .succeeded then x.env.copyResult else .ok () with
  | .error e => .error e
  | .ok () =>
    if delayS.any fun d => d < 0 then .error (.valueError "delay_s must be finite and >= 0")
    else .ok ⟨status,result,error,delayS⟩

/-- `_complete_managed_execution`: false when the lease was lost. -/
def completeManagedExecution (status : CompletionStatus) (result : Option V)
    (error : Option ExecutionErrorDetail) (delayS : Option ℚ) : Run V Bool := do
  let completion ← ofExcept (buildCompletion x status result error delayS)
  attempt (do
      await x (.completeExecution completion)
      return true)
    fun e => if e.leaseLost then pure false else interrupt (.raised e)

def applySuccess (result : Option V) : Run V Unit :=
  if x.delivery.managed then do
    let _ ← completeManagedExecution x .succeeded result none none
    return ()
  else await x .ack

/-- `_public_failure`; the exception is absent for a cancellation. -/
def publicFailure (failure : FailureInfo) (exc : Option Exn) : PublicFailure where
  failureKind := failure.kind
  exceptionType := failure.exceptionType
  connector := exc.bind Exn.connector

@[irreducible] def errorDetail (failure : PublicFailure) (stage : Option Stage) :
    Except Exn ExecutionErrorDetail :=
  (ExecutionErrorDetail.build {
    kind := failure.failureKind.value
    exceptionType := failure.exceptionType
    stage := stage.map Stage.name
    backend := failure.connector.map ConnectorOperationError.backend
    operation := failure.connector.map fun c => c.operation.value
    connectorKind := failure.connector.map fun c => c.kind.value}).mapError .valueError

def errorOf (outcome : ExecutionOutcome V) : Run V (Option ExecutionErrorDetail) :=
  match outcome.publicFailure with
  | none => return none
  | some failure => do
    let detail ← ofExcept (errorDetail failure outcome.failureStage)
    return some detail

def executionError : Run V (Option ExecutionErrorDetail) := do
  let outcome ← current
  errorOf outcome

/-- The retry itself, for either kind of delivery. -/
def settleRetry (delayS : Option ℚ) (error : Option ExecutionErrorDetail) : Run V Unit :=
  if x.delivery.managed then do
    let _ ← completeManagedExecution x .retrying none error delayS
    return ()
  else await x (.retry delayS)

def whenApplied (p : Run V Unit) : Run V Unit :=
  if x.applyDeliveryActions then p else pure ()

def applyRetry (delayS : Option ℚ) (error : Option ExecutionErrorDetail) : Run V Unit := do
  checkpoint x .deliveryAction .entered
  whenApplied x (settleRetry x delayS error)
  checkpoint x .deliveryAction .completed

/-- The failure itself, or a retry when failing raises. -/
def settleFailure (exc : Exn) (error : Option ExecutionErrorDetail) : Run V Bool :=
  if x.delivery.managed then
    attempt (do
        let _ ← completeManagedExecution x .failed none error none
        return true)
      fun _ => do
        let retried ← completeManagedExecution x .retrying none error none
        return !retried
  else
    attempt (do
        await x (.fail exc)
        return true)
      fun _ => do
        await x (.retry none)
        return false

/-- `_fail_delivery`: true unless it fell back to a retry. -/
def failDelivery (exc : Exn) (error : Option ExecutionErrorDetail) : Run V Bool :=
  if x.applyDeliveryActions then do
    checkpoint x .deliveryAction .entered
    let failed ← settleFailure x exc error
    checkpoint x .deliveryAction .completed
    return failed
  else pure true

end Settlement

section Failure

def snapshotCaptureEnvelope : Run V Unit :=
  match x.task.capture,x.env.copyEnvelope with
  | some _,.error _ => assign fun o => {o with captureSnapshotFailed := true}
  | _,_ => pure ()

def captureFailure : Run V Unit := do
  let outcome ← current
  match x.task.capture with
  | none => return ()
  | some mode =>
    if outcome.failure.isNone ∨ (mode = .terminal ∧ outcome.terminal = false) ∨
        outcome.captureSnapshotFailed = true then return ()
    else suppress (await x .capture)

def deadLetter (failure : FailureInfo) : DeadLetter V where
  payload := x.delivery.body
  failure := failure
  app := x.task.appName
  task := x.task.name
  source := x.task.sourceName
  originalMeta := x.delivery.metadata
  originalAttempts := x.delivery.attempts

def sendDeadLetters (envelope : DeadLetter V) : ℕ → List Sink → Run V Unit
  | _,[] => return ()
  | i,sink::sinks => do
    await x (.deadLetter i sink envelope)
    sendDeadLetters envelope (i+1) sinks

/-- The try block of `_publish_dead_letter`: whether all sinks took the envelope. -/
def publishAttempt (failure : FailureInfo) : Run V Bool :=
  attempt (do
      sendDeadLetters x (deadLetter x failure) 0 x.task.deadLetterSinks
      return true)
    fun _ => return false

def deadLettered : Run V Bool := do
  assign fun o => {o with
    deadLetterAttempted := !x.task.deadLetterSinks.isEmpty
    deadLetterPublished := if x.task.deadLetterSinks.isEmpty then none else some true}
  emit x .deadLettered
  return true

def retryOriginal : Run V Bool := do
  assign fun o => {o with
    deadLetterAttempted := true, deadLetterPublished := some false
    deliveryAction := some .retry}
  let error ← executionError
  applyRetry x none error
  emit x .retried
  return false

/-- True when every dead-letter sink took the envelope; otherwise the original
delivery has been retried. -/
def publishDeadLetter (failure : FailureInfo) : Run V Bool := do
  ofExcept x.env.copyPayload
  ofExcept x.env.copyOriginalMeta
  let published ← publishAttempt x failure
  if published then deadLettered x else retryOriginal x

/-- Publishes to the dead-letter sinks, if there are any. -/
def publishIfConfigured (failure : FailureInfo) : Run V Bool :=
  if x.task.deadLetterSinks ≠ [] then do
    assign fun o => {o with deliveryAction := some .deadLetter}
    publishDeadLetter x failure
  else do
    assign fun o => {o with deliveryAction := some .fail}
    return true

def finishFailed (exc : Exn) : Run V Unit := do
  let error ← executionError
  let terminal ← failDelivery x exc error
  assign fun o => {o with
    terminal := terminal
    deliveryAction := if terminal then o.deliveryAction else some .retry}
  emit x .failed
  captureFailure x

/-- The end of `_handle_failure` once the policy has given up. -/
def failTerminally (exc : Exn) (failure : FailureInfo) : Run V Unit := do
  let published ← publishIfConfigured x failure
  if published then finishFailed x exc else captureFailure x

/-- The end of `_handle_failure` when the policy asks for a retry. -/
def retryLater (delayS : Option ℚ) : Run V Unit := do
  assign fun o => {o with deliveryAction := some .retry, retryDelayS := delayS}
  let error ← executionError
  applyRetry x delayS error
  emit x .retried
  captureFailure x

def handleFailure (exc : Exn) (kind : FailureKind) : Run V Unit := do
  let failure ← ofExcept (FailureInfo.fromException exc kind)
  assign fun o => {o with failure := some failure}
  snapshotCaptureEnvelope x
  assign fun o => {o with
    publicFailure := some (publicFailure failure (some exc)), completion := .failed}
  checkpoint x .failureHook .entered
  runFailureHooks x
  checkpoint x .failureHook .completed
  let action ← ofExcept (x.env.retryPolicy exc failure)
  if action.decision = .retry then retryLater x action.delayS
  else failTerminally x exc failure

def cancelledFailure : FailureInfo := ⟨.cancelled,"CancelledError",""⟩

/-- The status a cancelled managed execution is completed with. -/
def managedStatus : CompletionStatus :=
  if x.env.cancelRequested then .cancelled else .retrying

def settleCancelled : Run V Unit := do
  let error ← executionError
  if x.delivery.managed then do
    let _ ← completeManagedExecution x (managedStatus x) none error
      (if managedStatus x = .retrying then some 0 else none)
    return ()
  else await x (.retry none)

def announceCancelled : Run V Unit :=
  if x.delivery.managed = false ∨ managedStatus x = .retrying then emit x .retried else pure ()

def handleCancelled : Run V Unit := do
  assign fun o => {o with failure := some cancelledFailure}
  snapshotCaptureEnvelope x
  assign fun o => {o with
    publicFailure := some (publicFailure cancelledFailure none)
    deliveryAction := some .retry
    completion :=
      if x.delivery.managed = false then .cancelled
      else if x.env.cancelRequested then .cancelled else .retrying
    terminal := x.delivery.managed && x.env.cancelRequested}
  emit x .cancelled
  whenApplied x (settleCancelled x)
  announceCancelled x
  captureFailure x

end Failure

/-- What follows the acknowledgement inside the try block. -/
def announce : Run V Unit := do
  checkpoint x .ack .completed
  ofExcept x.env.succeededMeta
  emit x .succeeded

def attemptDelivery : Run V Unit := do
  let result ← process x
  whenApplied x (applySuccess x result)
  announce x
  assign fun o => {o with completion := .succeeded, terminal := true}

/-- The except clauses of `execute`. -/
def recover : Interrupt Exn → Run V Unit
  | .cancelled => do
    assign fun o => {o with failureStage := some o.activeStage}
    handleCancelled x
    interrupt .cancelled
  | .raised exc => do
    assign fun o => {o with failureStage := some o.activeStage}
    handleFailure x exc (if exc.timeout then .timeout else .error)

def execute : Run V Unit := handle (attemptDelivery x) (recover x)

/-- Everything one execution awaited, in order. -/
def calls : List (Call V) := ((execute x).run {}).calls

end OneStep.DeliveryExecutor
