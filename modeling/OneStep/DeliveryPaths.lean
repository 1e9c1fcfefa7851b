import OneStep.DeliveryExecutor

/-!
# How an execution ends

For each part of the executor, the outcomes that decide how it ends, in the
order in which the source meets them. The part returns when none of them
interrupts, and is otherwise cut short by the first that does.
-/
namespace OneStep.DeliveryPaths
open Coroutine ExecutionModel DeliveryModel DeliveryExecutor

variable {V : Type} (x : Executor V)

def reached (phase : Stage) (transition : Transition) : Outcome Exn Unit :=
  x.env.outcome (.checkpoint phase transition)

def emitPath (kind : TaskEventKind) : List (Outcome Exn Unit) :=
  raises (x.env.copyMeta kind)::
    (List.range x.task.eventHandlers).map fun i => dropped (x.env.outcome (.eventHandler kind i))

def hooksPath (kind : HookKind) (count : ℕ) : List (Outcome Exn Unit) :=
  (List.range count).map fun i => x.env.outcome (.hook kind i)

def failureHooksPath : List (Outcome Exn Unit) :=
  (List.range x.task.onFailure).map fun i => dropped (x.env.outcome (.hook .onFailure i))

section Output

/-- The bindings the emit targets select, in declaration order. -/
def selected : ℕ → List EmitTarget → List EmitBinding
  | _,[] => []
  | i,.binding b::targets => b::selected (i+1) targets
  | i,.route false thenBindings _::targets => thenBindings++selected (i+1) targets
  | i,.route true thenBindings otherwiseBindings::targets =>
    (match x.env.predicate i with
      | .ok true => thenBindings
      | _ => otherwiseBindings)++selected (i+1) targets

def predicatePath : ℕ → List EmitTarget → List (Outcome Exn Unit)
  | _,[] => []
  | i,.route true _ _::targets => void (x.env.predicate i)::predicatePath (i+1) targets
  | i,_::targets => predicatePath (i+1) targets

/-- The sinks to send to, with the body each of them gets. -/
def prepared (result : Option V) : ℕ → List EmitBinding → List (Sink × Option V)
  | _,[] => []
  | i,b::bindings =>
    (b.sink,if b.transform then
        match x.env.transform i with
        | .ok body => body
        | .error _ => none
      else result)::prepared result (i+1) bindings

def transformPath : ℕ → List EmitBinding → List (Outcome Exn Unit)
  | _,[] => []
  | i,b::bindings =>
    (if b.transform then [void (x.env.transform i)] else [])++transformPath (i+1) bindings

def waitOutcome (o : Outcome Exn Unit) : Outcome Exn Bool :=
  match o with
  | .ok () => .ok false
  | .error .cancelled => .error .cancelled
  | .error (.raised t) => if t.timeout then .ok true else .error (.raised t)

/-- Whether the error of a first send leads to a second one at once, after a
wait that ran out, or not at all. -/
def resendOutcome (position : ℕ) (sink : Sink) (body : Option V) (e : Exn) :
    Outcome Exn Unit :=
  match e.connector with
  | none => .error (.raised e)
  | some exc =>
    if isRetryableConnectorError exc = false then .error (.raised e)
    else if connectorRetryDelay exc sink.pollIntervalS ≤ 0 ∨
        x.env.isStopping position 0 = true then x.env.outcome (.send position 1 sink body)
    else
      match waitOutcome (x.env.outcome (.waitForShutdown position 0)) with
      | .ok true => x.env.outcome (.send position 1 sink body)
      | .ok false => .error (.raised e)
      | .error i => .error i

def sendOutcome (position : ℕ) (sink : Sink) (body : Option V) : Outcome Exn Unit :=
  match x.env.outcome (.send position 0 sink body) with
  | .ok () => .ok ()
  | .error .cancelled => .error .cancelled
  | .error (.raised e) => resendOutcome x position sink body e

def sendPath : ℕ → List (Sink × Option V) → List (Outcome Exn Unit)
  | _,[] => []
  | i,(sink,body)::rest => sendOutcome x i sink body::sendPath (i+1) rest

def outputPath (result : Option V) : List (Outcome Exn Unit) :=
  if result.isSome ∧ x.task.emitTargets ≠ [] then
    reached x .route .entered::(predicatePath x 0 x.task.emitTargets++
      reached x .route .completed::reached x .transform .entered::
      (transformPath x 0 (selected x 0 x.task.emitTargets)++
      reached x .transform .completed::
      sendPath x 0 (prepared x result 0 (selected x 0 x.task.emitTargets))))
  else []

end Output

/-- What follows the STARTED event in the try block, up to the acknowledgement. -/
def working : Run V (Option V) := do
  enter .beforeHook
  checkpoint x .beforeHook .entered
  runHooks x .before x.task.before
  checkpoint x .beforeHook .completed
  enter .handler
  checkpoint x .handler .entered
  let result ← call .handler x.env.handler
  assign fun o => {o with handlerResult := result}
  checkpoint x .handler .completed
  enter .afterSuccessHook
  checkpoint x .afterSuccessHook .entered
  runHooks x .afterSuccess x.task.afterSuccess
  checkpoint x .afterSuccessHook .completed
  emitResult x result
  assign fun o => {o with activeStage := .ack, deliveryAction := some .ack}
  checkpoint x .ack .entered
  return result

def workingPath : List (Outcome Exn Unit) :=
  reached x .beforeHook .entered::(hooksPath x .before x.task.before++
    reached x .beforeHook .completed::reached x .handler .entered::void x.env.handler::
    reached x .handler .completed::reached x .afterSuccessHook .entered::
    (hooksPath x .afterSuccess x.task.afterSuccess++
    reached x .afterSuccessHook .completed::
    ((match x.env.handler with
      | .ok result => outputPath x result
      | .error _ => [])++
    [reached x .ack .entered])))

/-- Everything up to the acknowledgement. -/
def processPath : List (Outcome Exn Unit) :=
  x.env.outcome .startProcessing::(emitPath x .started++
    reached x .beforeHook .entered::(hooksPath x .before x.task.before++
    reached x .beforeHook .completed::reached x .handler .entered::void x.env.handler::
    reached x .handler .completed::reached x .afterSuccessHook .entered::
    (hooksPath x .afterSuccess x.task.afterSuccess++
    reached x .afterSuccessHook .completed::
    ((match x.env.handler with
      | .ok result => outputPath x result
      | .error _ => [])++
    [reached x .ack .entered]))))

/-- Everything after the acknowledgement. -/
def announcePath : List (Outcome Exn Unit) :=
  reached x .ack .completed::raises x.env.succeededMeta::emitPath x .succeeded

section Failure

def failureKind (exc : Exn) : FailureKind := if exc.timeout then .timeout else .error

/-- What stands between the choice of a settlement and the call itself. -/
def settlementPath (failure : FailureInfo) (exc : Option Exn) : List (Outcome Exn Unit) :=
  [raises (errorDetail (publicFailure failure exc) none),reached x .deliveryAction .entered]

def deadLetterPath (failure : FailureInfo) : ℕ → List Sink → List (Outcome Exn Unit)
  | _,[] => []
  | i,sink::sinks =>
    x.env.outcome (.deadLetter i sink (deadLetter x failure))::deadLetterPath failure (i+1) sinks

/-- How sending to the dead-letter sinks ended. -/
def deadLetterOutcome (failure : FailureInfo) : Outcome Exn Unit :=
  first (deadLetterPath x failure 0 x.task.deadLetterSinks)

/-- After the dead-letter sinks: they took it, one of them failed, or the
execution was cancelled among them. -/
def deadLetteredPath (exc : Exn) (failure : FailureInfo) :
    Outcome Exn Unit → List (Outcome Exn Unit)
  | .ok () => emitPath x .deadLettered++settlementPath x failure (some exc)
  | .error (.raised _) => settlementPath x failure (some exc)
  | .error .cancelled => [.error .cancelled]

def terminalPath (exc : Exn) (failure : FailureInfo) : List (Outcome Exn Unit) :=
  if x.task.deadLetterSinks ≠ [] then
    raises x.env.copyPayload::raises x.env.copyOriginalMeta::
      deadLetteredPath x exc failure
        (deadLetterOutcome x failure)
  else settlementPath x failure (some exc)

/-- From the failure hooks to the decision of the retry policy. -/
def decisionPath (exc : Exn) (failure : FailureInfo) : List (Outcome Exn Unit) :=
  reached x .failureHook .entered::(failureHooksPath x++
    [reached x .failureHook .completed,raises (x.env.retryPolicy exc failure)])

def decidedPath (exc : Exn) (failure : FailureInfo) : List (Outcome Exn Unit) :=
  match x.env.retryPolicy exc failure with
  | .error _ => []
  | .ok action =>
    if action.decision = .retry then settlementPath x failure (some exc)
    else terminalPath x exc failure

/-- Everything between an exception and the settlement it leads to. -/
def failurePath (exc : Exn) : List (Outcome Exn Unit) :=
  match FailureInfo.fromException exc (failureKind exc) with
  | .error e => [.error (.raised e)]
  | .ok failure => decisionPath x exc failure++decidedPath x exc failure

/-- Everything between an interruption and the settlement it leads to. -/
def recoveryPath : Interrupt Exn → List (Outcome Exn Unit)
  | .cancelled => emitPath x .cancelled
  | .raised exc => failurePath x exc

end Failure

section Results
variable {I : ExecutionOutcome V → Prop}

theorem yields_await (c : Call V) : Yields I (await x c) [x.env.outcome c] :=
  (yields_call c (x.env.outcome c)).congr (by rw [void_unit])

theorem yields_checkpoint (phase : Stage) (transition : DeliveryModel.Transition) :
    Yields I (checkpoint x phase transition) [reached x phase transition] :=
  yields_await x _

theorem yields_suppressed (c : Call V) :
    Yields I (suppress (await x c)) [dropped (x.env.outcome c)] := yields_suppress_call _ _

theorem yields_emit (kind : TaskEventKind) : Yields I (emit x kind) (emitPath x kind) :=
  yields_bind (yields_ofExcept _) fun _ _ => yields_forEach_map fun _ => yields_suppressed x _

theorem yields_runHooks (kind : HookKind) (count : ℕ) :
    Yields I (runHooks x kind count) (hooksPath x kind count) :=
  yields_forEach_map fun _ => yields_await x _

theorem yields_runFailureHooks : Yields I (runFailureHooks x) (failureHooksPath x) :=
  yields_forEach_map fun _ => yields_suppressed x _

theorem returns_selectEmitBindings {i : ℕ} {targets : List EmitTarget} {bs : List EmitBinding}
    (h : Returns I (selectEmitBindings x i targets) bs) : bs = selected x i targets := by
  obtain ⟨s,-,hr⟩ := h
  induction targets generalizing i bs s with
  | nil => exact (Except.ok.inj hr).symm
  | cons target targets ih =>
    cases target with
    | binding b =>
      obtain ⟨rest,hrest,hend⟩ := bind_result hr
      cases hend
      rw [ih _ hrest]
      rfl
    | route predicate thenBindings otherwiseBindings =>
      cases predicate with
      | false =>
        obtain ⟨rest,hrest,hend⟩ := bind_result hr
        cases hend
        rw [ih _ hrest]
        rfl
      | true =>
        obtain ⟨chosen,hchosen,hr'⟩ := bind_result hr
        obtain ⟨rest,hrest,hend⟩ := bind_result hr'
        cases hend
        have hp : x.env.predicate i = .ok chosen := hchosen
        rw [ih _ hrest,selected,hp]
        cases chosen <;> rfl

theorem yields_selectEmitBindings (i : ℕ) (targets : List EmitTarget) :
    Yields I (selectEmitBindings x i targets) (predicatePath x i targets) := by
  induction targets generalizing i with
  | nil => exact yields_pure _
  | cons target targets ih =>
    cases target with
    | binding b =>
      exact (yields_bind (ih (i+1)) fun _ _ => yields_pure _).congr (by simp [predicatePath])
    | route predicate thenBindings otherwiseBindings =>
      cases predicate with
      | false =>
        exact (yields_bind (ih (i+1)) fun _ _ => yields_pure _).congr
          (by simp [predicatePath])
      | true =>
        refine (yields_bind (yields_call _ _) fun _ _ =>
          yields_bind (ih (i+1)) fun _ _ => yields_pure _).congr ?_
        simp [predicatePath]

theorem returns_prepareEmitEnvelopes {result : Option V} {i : ℕ} {bindings : List EmitBinding}
    {ps : List (Sink × Option V)}
    (h : Returns I (prepareEmitEnvelopes x result i bindings) ps) :
    ps = prepared x result i bindings := by
  obtain ⟨s,-,hr⟩ := h
  induction bindings generalizing i ps s with
  | nil => exact (Except.ok.inj hr).symm
  | cons b bindings ih =>
    obtain ⟨body,hbody,hr'⟩ := bind_result hr
    obtain ⟨rest,hrest,hend⟩ := bind_result hr'
    cases hend
    rw [ih _ hrest,prepared]
    rw [emitBody] at hbody
    split at hbody
    · have htr : x.env.transform i = .ok body := hbody
      simp only [*,if_true]
    · have hbd : result = body := Except.ok.inj hbody
      simp only [*,if_false,Bool.false_eq_true]

theorem yields_prepareEmitEnvelopes (result : Option V) (i : ℕ) (bindings : List EmitBinding) :
    Yields I (prepareEmitEnvelopes x result i bindings) (transformPath x i bindings) := by
  induction bindings generalizing i with
  | nil => exact yields_pure _
  | cons b bindings ih =>
    have hbody : Yields I (emitBody x result i b)
        (if b.transform then [void (x.env.transform i)] else []) :=
      yields_ite (yields_call _ _) (yields_pure _)
    refine (yields_bind hbody fun _ _ =>
      yields_bind (ih (i+1)) fun _ _ => yields_pure _).congr ?_
    simp [transformPath]

theorem yields_lastTry (position : ℕ) (sink : Sink) (body : Option V) (tries : ℕ) :
    Yields I (sendTries x position sink body 1 tries)
      [x.env.outcome (.send position tries sink body)] := by
  refine (yields_attempt (m := fun e => [.error (.raised e)]) (yields_await x _) ?_).congr ?_
  · intro e _
    cases e.connector with
    | none => exact yields_lift _
    | some exc =>
      simp only [or_true,if_true]
      exact yields_lift _
  · rw [first_singleton]
    cases x.env.outcome (.send position tries sink body) with
    | ok u => rfl
    | error i => cases i <;> rfl

theorem waitForShutdown_run (position tries : ℕ) (s : ExecutionOutcome V) :
    (waitForShutdown x position tries).run s =
      ⟨waitOutcome (x.env.outcome (.waitForShutdown position tries)),s,
        [.waitForShutdown position tries]⟩ := by
  have hawait : ((await x (.waitForShutdown position tries)).run s).result =
      x.env.outcome (.waitForShutdown position tries) := rfl
  unfold waitForShutdown attempt
  cases ho : x.env.outcome (.waitForShutdown position tries) with
  | ok u =>
    rw [ho] at hawait
    rw [handle_of_ok (a := false) (by rw [bind_of_ok hawait]; rfl),bind_of_ok hawait]
    rfl
  | error i =>
    rw [ho] at hawait
    rw [handle_of_error (i := i) (by rw [bind_of_error hawait]),bind_of_error hawait]
    cases i with
    | cancelled => rfl
    | raised t =>
      simp only [waitOutcome]
      split <;> rfl

theorem yields_resend (position : ℕ) (sink : Sink) (body : Option V) (e : Exn) :
    Yields I (do
        let timedOut ← waitForShutdown x position 0
        if timedOut then sendTries x position sink body 1 1 else interrupt (.raised e))
      [match waitOutcome (x.env.outcome (.waitForShutdown position 0)) with
        | .ok true => x.env.outcome (.send position 1 sink body)
        | .ok false => .error (.raised e)
        | .error i => .error i] := by
  intro s hs
  have hwait := waitForShutdown_run x position 0 s
  cases ho : waitOutcome (x.env.outcome (.waitForShutdown position 0)) with
  | error i =>
    rw [ho] at hwait
    rw [bind_of_error (by rw [hwait]),hwait]
    exact ⟨rfl,hs⟩
  | ok timedOut =>
    rw [ho] at hwait
    rw [bind_of_ok (by rw [hwait]),hwait]
    cases timedOut with
    | true => exact yields_lastTry x position sink body 1 s hs
    | false => exact ⟨rfl,hs⟩

theorem yields_sendToSink (position : ℕ) (sink : Sink) (body : Option V) :
    Yields I (sendToSink x position sink body) [sendOutcome x position sink body] := by
  refine (yields_attempt (m := fun e => [resendOutcome x position sink body e])
    (yields_await x _) ?_).congr ?_
  · intro e _
    unfold resendOutcome
    cases e.connector with
    | none => exact yields_lift _
    | some exc =>
      by_cases hretry : isRetryableConnectorError exc = false
      · simp only [hretry,true_or,if_true]
        exact yields_lift _
      · by_cases hnow : connectorRetryDelay exc sink.pollIntervalS ≤ 0 ∨
          x.env.isStopping position 0 = true
        · simp only [hretry,hnow,if_true,one_ne_zero]
          exact yields_lastTry x position sink body 1
        · simp only [hretry,hnow,if_false,one_ne_zero]
          exact yields_resend x position sink body e
  · rw [first_singleton,sendOutcome]
    cases x.env.outcome (.send position 0 sink body) with
    | ok u => rfl
    | error i =>
      cases i with
      | raised e => simp only [caught,first_singleton]
      | cancelled => rfl

theorem yields_sendPrepared (hI : ∀ o, I o → I {o with activeStage := .sink}) (i : ℕ)
    (rest : List (Sink × Option V)) : Yields I (sendPrepared x i rest) (sendPath x i rest) := by
  induction rest generalizing i with
  | nil => exact yields_pure ()
  | cons p rest ih =>
    refine (yields_bind (yields_assign hI) fun _ _ =>
      yields_bind (yields_sendToSink x i p.1 p.2) fun _ _ => ih (i+1)).congr ?_
    simp [sendPath]

/-- What the steps before the acknowledgement change of the outcome object. -/
def Updated (I : ExecutionOutcome V → Prop) : Prop := ∀ o stage result sinks action, I o →
  I {o with
    activeStage := stage, handlerResult := result, selectedSinks := sinks, deliveryAction := action}

theorem yields_emitResult (hI : Updated I) (result : Option V) :
    Yields I (emitResult x result) (outputPath x result) := by
  refine yields_ite ?_ (yields_pure ())
  have hstage : ∀ stage o, I o → I {o with activeStage := stage} := fun stage o ho =>
    hI o stage o.handlerResult o.selectedSinks o.deliveryAction ho
  refine (yields_bind (yields_assign (hstage .route)) fun _ _ =>
    yields_bind (yields_checkpoint x _ _) fun _ _ =>
    yields_bind (yields_selectEmitBindings x _ _) fun bindings hb =>
    yields_bind (yields_assign fun o ho =>
      hI o o.activeStage o.handlerResult (bindings.map fun b => b.sink.name) o.deliveryAction ho)
      fun _ _ =>
    yields_bind (yields_checkpoint x _ _) fun _ _ =>
    yields_bind (yields_assign (hstage .transform)) fun _ _ =>
    yields_bind (yields_checkpoint x _ _) fun _ _ => ?_).congr (by simp; rfl)
  rw [returns_selectEmitBindings x hb]
  refine yields_bind (yields_prepareEmitEnvelopes x result 0 _) fun ps hps =>
    yields_bind (yields_checkpoint x _ _) fun _ _ => ?_
  rw [returns_prepareEmitEnvelopes x hps]
  exact yields_sendPrepared x (hstage .sink) 0 _

theorem yields_output (hI : Updated I) {result : Option V} (h : x.env.handler = .ok result) :
    Yields I (do
        emitResult x result
        assign fun o => {o with activeStage := .ack, deliveryAction := some .ack}
        checkpoint x .ack .entered
        return result)
      ((match x.env.handler with
        | .ok result => outputPath x result
        | .error _ => [])++[reached x .ack .entered]) := by
  rw [h]
  refine yields_bind (yields_emitResult x hI result) fun _ _ => ?_
  exact yields_bind (yields_assign fun o ho =>
    hI o .ack o.handlerResult o.selectedSinks (some .ack) ho) fun _ _ =>
    yields_bind (yields_checkpoint x _ _) fun _ _ => yields_pure _

theorem yields_working (hI : Updated I) : Yields I (working x) (workingPath x) := by
  have hstage : ∀ stage o, I o → I {o with activeStage := stage} := fun stage o ho =>
    hI o stage o.handlerResult o.selectedSinks o.deliveryAction ho
  exact (yields_bind (yields_assign (hstage .beforeHook)) fun _ _ =>
    yields_bind (yields_checkpoint x _ _) fun _ _ =>
    yields_bind (yields_runHooks x _ _) fun _ _ =>
    yields_bind (yields_checkpoint x _ _) fun _ _ =>
    yields_bind (yields_assign (hstage .handler)) fun _ _ =>
    yields_bind (yields_checkpoint x _ _) fun _ _ =>
    yields_bind (yields_call _ _) fun result hresult =>
    yields_bind (yields_assign fun o ho =>
      hI o o.activeStage result o.selectedSinks o.deliveryAction ho) fun _ _ =>
    yields_bind (yields_checkpoint x _ _) fun _ _ =>
    yields_bind (yields_assign (hstage .afterSuccessHook)) fun _ _ =>
    yields_bind (yields_checkpoint x _ _) fun _ _ =>
    yields_bind (yields_runHooks x _ _) fun _ _ =>
    yields_bind (yields_checkpoint x _ _) fun _ _ =>
    yields_output x hI (returns_call hresult)).congr (by simp [workingPath])

theorem yields_process : Yields (fun _ => True) (process x) (processPath x) := by
  refine (yields_bind (yields_await x _) fun _ _ =>
    yields_bind (yields_emit x _) fun _ _ => yields_working x fun _ _ _ _ _ _ => trivial).congr ?_
  simp [processPath,workingPath]

theorem yields_announce : Yields I (announce x) (announcePath x) :=
  yields_bind (yields_checkpoint x _ _) fun _ _ =>
    yields_bind (yields_ofExcept _) fun _ _ => yields_emit x _

theorem yields_snapshotCaptureEnvelope (hI : ∀ o, I o → I {o with captureSnapshotFailed := true}) :
    Yields I (snapshotCaptureEnvelope x) [] := by
  unfold snapshotCaptureEnvelope
  split
  · exact yields_assign hI
  · exact yields_pure ()

theorem yields_sendDeadLetters (failure : FailureInfo) (i : ℕ) (sinks : List Sink) :
    Yields I (sendDeadLetters x (deadLetter x failure) i sinks)
      (deadLetterPath x failure i sinks) := by
  induction sinks generalizing i with
  | nil => exact yields_pure ()
  | cons sink sinks ih => exact yields_bind (yields_await x _) fun _ _ => ih (i+1)

theorem yields_publishAttempt (failure : FailureInfo) :
    Yields I (publishAttempt x failure) [dropped (deadLetterOutcome x failure)] := by
  have hsend : Yields I (do
      sendDeadLetters x (deadLetter x failure) 0 x.task.deadLetterSinks
      return true : Run V Bool) (deadLetterPath x failure 0 x.task.deadLetterSinks) :=
    (yields_bind (yields_sendDeadLetters x failure 0 _) fun _ _ => yields_pure _).congr
      (List.append_nil _)
  refine (yields_attempt hsend fun _ _ => yields_pure _).congr ?_
  unfold deadLetterOutcome
  cases first (deadLetterPath x failure 0 x.task.deadLetterSinks) with
  | ok u => rfl
  | error i => cases i <;> rfl

theorem returns_publishAttempt {failure : FailureInfo} {published : Bool}
    (h : Returns I (publishAttempt x failure) published) :
    (published = true ∧ deadLetterOutcome x failure = .ok ()) ∨
      (published = false ∧ ∃ e, deadLetterOutcome x failure = .error (.raised e)) := by
  obtain ⟨o,-,hr⟩ := h
  have hy := (yields_sendDeadLetters x failure 0 x.task.deadLetterSinks (I := fun _ => True)) o
    trivial
  change void _ = deadLetterOutcome x failure ∧ _ at hy
  unfold publishAttempt attempt at hr
  cases hs : ((sendDeadLetters x (deadLetter x failure) 0 x.task.deadLetterSinks).run o).result with
  | ok u =>
    rw [hs] at hy
    rw [handle_of_ok (a := true) (by rw [bind_of_ok hs]; rfl),bind_of_ok hs] at hr
    exact .inl ⟨(Except.ok.inj hr).symm,hy.1.symm⟩
  | error i =>
    rw [hs] at hy
    rw [handle_of_error (i := i) (by rw [bind_of_error hs])] at hr
    cases i with
    | raised e => exact .inr ⟨(Except.ok.inj hr).symm,e,hy.1.symm⟩
    | cancelled => cases hr

end Results

section ErrorDetail

theorem stage_name_text (stage : Stage) : text stage.name "stage" 255 = .ok stage.name := by
  cases stage <;> decide +kernel

theorem errorDetail_stage (failure : PublicFailure) (stage : Option Stage) :
    raises (errorDetail failure stage) = raises (errorDetail failure none) := by
  cases stage with
  | none => rfl
  | some stage =>
    unfold errorDetail ExecutionErrorDetail.build
    have hstage : optionalText (some stage.name) "stage" 255 = .ok (some stage.name) := by
      rw [optionalText,stage_name_text]
      rfl
    have hnone : optionalText none "stage" 255 = .ok none := rfl
    simp only [Option.map_some,Option.map_none,hstage,hnone]
    generalize text failure.failureKind.value "kind" 64 = kind
    generalize text failure.exceptionType "exception_type" 255 = exceptionType
    generalize optionalText (failure.connector.map ConnectorOperationError.backend)
      "backend" 255 = backend
    generalize optionalText (failure.connector.map fun c => c.operation.value)
      "operation" 255 = operation
    generalize optionalText (failure.connector.map fun c => c.kind.value)
      "connector_kind" 255 = connectorKind
    cases kind with
    | error m => rfl
    | ok kind =>
      cases exceptionType with
      | error m => rfl
      | ok exceptionType =>
        cases backend with
        | error m => rfl
        | ok backend =>
          cases operation with
          | error m => rfl
          | ok operation => cases connectorKind <;> rfl

/-- The outcome object carries this public failure. -/
def Public (failure : PublicFailure) (o : ExecutionOutcome V) : Prop :=
  o.publicFailure = some failure

theorem yields_executionError (failure : PublicFailure) :
    Yields (Public failure) (executionError : Run V _) [raises (errorDetail failure none)] := by
  intro o ho
  have hof : errorOf o = (do
      let detail ← ofExcept (errorDetail failure o.failureStage)
      return some detail : Run V (Option ExecutionErrorDetail)) := by
    unfold errorOf
    rw [ho]
  rw [executionError,current_bind,hof,← errorDetail_stage failure o.failureStage]
  have hy : Yields (Public failure) (do
      let detail ← ofExcept (errorDetail failure o.failureStage)
      return some detail : Run V (Option ExecutionErrorDetail))
      [raises (errorDetail failure o.failureStage)] :=
    (yields_bind (yields_ofExcept _) fun _ _ => yields_pure _).congr (List.append_nil _)
  exact hy o ho

theorem errorDetail_cancelled :
    raises (errorDetail (publicFailure cancelledFailure none) none) = .ok () :=
  raises_ok.mpr (by decide +kernel)

end ErrorDetail

section Calls

/-- A call that settles the delivery, of either kind. -/
def settlement : Call V → Bool
  | .ack | .retry _ | .fail _ | .completeExecution _ => true
  | _ => false

def Quiet (c : Call V) : Prop := settlement c = false

/-- Neither a settlement nor a message to a sink. -/
def Plain : Call V → Prop
  | .send _ _ _ _ | .deadLetter _ _ _ | .ack | .retry _ | .fail _ | .completeExecution _ => False
  | _ => True

variable (c : Call V)

theorem plain_quiet (h : Plain c) : Quiet c := by
  cases c with
  | ack => exact h.elim
  | retry delayS => exact h.elim
  | fail exc => exact h.elim
  | completeExecution completion => exact h.elim
  | _ => rfl

/-- Neither a message, nor a settlement, nor an event. -/
def Bare : Call V → Prop
  | .eventHandler _ _ | .send _ _ _ _ | .deadLetter _ _ _ | .ack | .retry _ | .fail _
  | .completeExecution _ => False
  | _ => True

theorem bare_plain (h : Bare c) : Plain c := by
  cases c with
  | send position tries sink body => exact h.elim
  | deadLetter position sink envelope => exact h.elim
  | ack => exact h.elim
  | retry delayS => exact h.elim
  | fail exc => exact h.elim
  | completeExecution completion => exact h.elim
  | _ => trivial

/-- What sending the result awaits besides the sends. -/
def Routing : Call V → Prop
  | .checkpoint _ _ | .predicate _ | .transform _ | .waitForShutdown _ _ => True
  | _ => False

theorem routing_bare (h : Routing c) : Bare c := by
  cases c with
  | checkpoint phase transition => trivial
  | predicate i => trivial
  | transform i => trivial
  | waitForShutdown position tries => trivial
  | _ => exact h.elim

/-- What goes with a settlement: stages, events, failure hooks and the capture. -/
def Attending : Call V → Prop
  | .checkpoint _ _ | .eventHandler _ _ | .hook _ _ | .capture => True
  | _ => False

theorem attending_plain (h : Attending c) : Plain c := by
  cases c with
  | checkpoint phase transition => trivial
  | eventHandler kind index => trivial
  | hook kind index => trivial
  | capture => trivial
  | _ => exact h.elim

theorem attending_quiet (h : Attending c) : Quiet c := plain_quiet c (attending_plain c h)

variable (phase : Stage)

theorem attending_checkpoint (transition : DeliveryModel.Transition) :
    Only Attending (checkpoint x phase transition) := only_call trivial

variable (kind : TaskEventKind)

theorem attending_emit : Only Attending (emit x kind) :=
  only_bind (only_lift _) fun _ => only_forEach fun _ => only_suppress (only_call trivial)

theorem attending_runFailureHooks : Only Attending (runFailureHooks x) :=
  only_forEach fun _ => only_suppress (only_call trivial)

theorem attending_captureFailure : Only Attending (captureFailure x) := by
  refine only_bind only_current fun outcome => ?_
  cases x.task.capture with
  | none => exact only_pure ()
  | some mode => exact only_ite (only_pure ()) (only_suppress (only_call trivial))

variable {P : Call V → Prop}

theorem silent_executionError : Only P (executionError : Run V _) := by
  refine only_bind only_current fun outcome => ?_
  unfold errorOf
  cases outcome.publicFailure with
  | none => exact only_pure _
  | some failure => exact only_bind (only_lift _) fun _ => only_pure _

theorem silent_snapshotCaptureEnvelope : Only P (snapshotCaptureEnvelope x) := by
  unfold snapshotCaptureEnvelope
  split
  · exact only_assign _
  · exact only_pure ()

theorem bare_checkpoint (transition : DeliveryModel.Transition) :
    Only Bare (checkpoint x phase transition) := only_call trivial

theorem plain_checkpoint (transition : DeliveryModel.Transition) :
    Only Plain (checkpoint x phase transition) := (attending_checkpoint x _ _).mono attending_plain

theorem plain_emit : Only Plain (emit x kind) :=
  (attending_emit x kind).mono attending_plain

theorem bare_runHooks (kind : HookKind) (count : ℕ) : Only Bare (runHooks x kind count) :=
  only_forEach fun _ => only_call trivial

theorem plain_runHooks (kind : HookKind) (count : ℕ) : Only Plain (runHooks x kind count) :=
  (bare_runHooks x kind count).mono bare_plain

theorem bare_runFailureHooks : Only Bare (runFailureHooks x) :=
  only_forEach fun _ => only_suppress (only_call trivial)

theorem plain_runFailureHooks : Only Plain (runFailureHooks x) :=
  (attending_runFailureHooks x).mono attending_plain

theorem only_selectEmitBindings (hpredicate : ∀ i, P (.predicate i)) (i : ℕ)
    (targets : List EmitTarget) : Only P (selectEmitBindings x i targets) := by
  induction targets generalizing i with
  | nil => exact only_pure _
  | cons target targets ih =>
    cases target with
    | binding b => exact only_bind (ih (i+1)) fun _ => only_pure _
    | route predicate thenBindings otherwiseBindings =>
      cases predicate with
      | false => exact only_bind (ih (i+1)) fun _ => only_pure _
      | true =>
        refine only_bind (only_call (hpredicate i)) fun _ => ?_
        exact only_bind (ih (i+1)) fun _ => only_pure _

theorem only_prepareEmitEnvelopes (htransform : ∀ i, P (.transform i)) (result : Option V) (i : ℕ)
    (bindings : List EmitBinding) : Only P (prepareEmitEnvelopes x result i bindings) := by
  induction bindings generalizing i with
  | nil => exact only_pure _
  | cons b bindings ih =>
    refine only_bind (only_ite (only_call (htransform i)) (only_pure _)) fun _ => ?_
    exact only_bind (ih (i+1)) fun _ => only_pure _

theorem plain_announce : Only Plain (announce x) :=
  only_bind (plain_checkpoint x _ _) fun _ => only_bind (only_lift _) fun _ => plain_emit x _

theorem plain_captureFailure : Only Plain (captureFailure x) :=
  (attending_captureFailure x).mono attending_plain

theorem quiet_checkpoint (transition : DeliveryModel.Transition) :
    Only Quiet (checkpoint x phase transition) := (plain_checkpoint x _ _).mono plain_quiet

theorem quiet_emit : Only Quiet (emit x kind) :=
  (plain_emit x kind).mono plain_quiet

theorem quiet_runFailureHooks : Only Quiet (runFailureHooks x) :=
  (plain_runFailureHooks x).mono plain_quiet

theorem quiet_announce : Only Quiet (announce x) := (plain_announce x).mono plain_quiet

theorem quiet_captureFailure : Only Quiet (captureFailure x) :=
  (plain_captureFailure x).mono plain_quiet

section Output
variable {P : Call V → Prop} (hrouting : ∀ c, Routing c → P c)
  (hsend : ∀ position tries sink body, P (.send position tries sink body))
include hrouting

theorem only_waitForShutdown (position tries : ℕ) :
    Only P (waitForShutdown x position tries) := by
  refine only_attempt (only_bind (only_call (hrouting _ trivial)) fun _ => only_pure _) fun e => ?_
  exact only_ite (only_pure _) (only_lift _)

include hsend

theorem only_sendTries (position : ℕ) (sink : Sink) (body : Option V) (left tries : ℕ) :
    Only P (sendTries x position sink body left tries) := by
  induction left generalizing tries with
  | zero => exact only_pure ()
  | succ left ih =>
    refine only_attempt (only_call (hsend _ _ _ _)) fun e => ?_
    cases e.connector with
    | none => exact only_lift _
    | some exc =>
      refine only_ite (only_lift _) (only_ite (ih (tries+1)) ?_)
      refine only_bind (only_waitForShutdown x hrouting position tries) fun timedOut => ?_
      exact only_ite (ih (tries+1)) (only_lift _)

theorem only_sendPrepared (i : ℕ) (rest : List (Sink × Option V)) :
    Only P (sendPrepared x i rest) := by
  induction rest generalizing i with
  | nil => exact only_pure ()
  | cons p rest ih =>
    refine only_bind (only_assign _) fun _ => ?_
    exact only_bind (only_sendTries x hrouting hsend i p.1 p.2 _ _) fun _ => ih (i+1)

theorem only_emitResult (result : Option V) : Only P (emitResult x result) := by
  have hcheckpoint : ∀ phase transition, Only P (checkpoint x phase transition) :=
    fun _ _ => only_call (hrouting _ trivial)
  refine only_ite ?_ (only_pure ())
  exact only_bind (only_assign _) fun _ => only_bind (hcheckpoint _ _) fun _ =>
    only_bind (only_selectEmitBindings x (fun _ => hrouting _ trivial) _ _) fun _ =>
    only_bind (only_assign _) fun _ => only_bind (hcheckpoint _ _) fun _ =>
    only_bind (only_assign _) fun _ => only_bind (hcheckpoint _ _) fun _ =>
    only_bind (only_prepareEmitEnvelopes x (fun _ => hrouting _ trivial) _ _ _) fun _ =>
    only_bind (hcheckpoint _ _) fun _ => only_sendPrepared x hrouting hsend _ _

end Output

theorem only_working (hbare : ∀ c, Bare c → P c)
    (hsend : ∀ position tries sink body, P (.send position tries sink body)) :
    Only P (working x) := by
  have hcheckpoint : ∀ phase transition, Only P (checkpoint x phase transition) :=
    fun _ _ => (bare_checkpoint x _ _).mono hbare
  have hhooks : ∀ kind count, Only P (runHooks x kind count) :=
    fun _ _ => (bare_runHooks x _ _).mono hbare
  exact only_bind (only_assign _) fun _ => only_bind (hcheckpoint _ _) fun _ =>
    only_bind (hhooks _ _) fun _ => only_bind (hcheckpoint _ _) fun _ =>
    only_bind (only_assign _) fun _ => only_bind (hcheckpoint _ _) fun _ =>
    only_bind (only_call (hbare _ trivial)) fun _ => only_bind (only_assign _) fun _ =>
    only_bind (hcheckpoint _ _) fun _ => only_bind (only_assign _) fun _ =>
    only_bind (hcheckpoint _ _) fun _ => only_bind (hhooks _ _) fun _ =>
    only_bind (hcheckpoint _ _) fun _ =>
    only_bind (only_emitResult x (fun c hc => hbare c (routing_bare c hc)) hsend _) fun _ =>
    only_bind (only_assign _) fun _ => only_bind (hcheckpoint _ _) fun _ => only_pure _


theorem only_process (hplain : ∀ c, Plain c → P c)
    (hsend : ∀ position tries sink body, P (.send position tries sink body)) : Only P (process x) :=
  only_bind (only_call (hplain _ trivial)) fun _ =>
    only_bind ((plain_emit x _).mono hplain) fun _ =>
    only_working x (fun c hc => hplain c (bare_plain c hc)) hsend

theorem quiet_process : Only Quiet (process x) :=
  only_process x plain_quiet fun _ _ _ _ => rfl

section DeadLetters
variable {P : Call V → Prop}
  (hdead : ∀ position sink envelope, P (.deadLetter position sink envelope))
include hdead

theorem only_sendDeadLetters (envelope : DeadLetter V) (i : ℕ) (sinks : List Sink) :
    Only P (sendDeadLetters x envelope i sinks) := by
  induction sinks generalizing i with
  | nil => exact only_pure ()
  | cons sink sinks ih => exact only_bind (only_call (hdead _ _ _)) fun _ => ih (i+1)

theorem only_publishAttempt (failure : FailureInfo) : Only P (publishAttempt x failure) :=
  only_attempt (only_bind (only_sendDeadLetters x hdead _ _ _) fun _ => only_pure _)
    fun _ => only_pure _

end DeadLetters

theorem quiet_publishAttempt (failure : FailureInfo) : Only Quiet (publishAttempt x failure) :=
  only_publishAttempt x (fun _ _ _ => rfl) failure

theorem quiet_deadLettered : Only Quiet (deadLettered x) :=
  only_bind (only_assign _) fun _ => only_bind (quiet_emit x _) fun _ => only_pure _

end Calls

section Retries
variable {I : ExecutionOutcome V → Prop} {q : Call V → Prop} (hq : ∀ c, Quiet c → ¬q c)
include hq

theorem reaches_applyRetry {delayS : Option ℚ} {error : Option ExecutionErrorDetail}
    (hsettle : Always q (whenApplied x (settleRetry x delayS error))) :
    Reaches I q (applyRetry x delayS error) [reached x .deliveryAction .entered] :=
  reaches_bind ((quiet_checkpoint x _ _).mono hq) (yields_checkpoint x _ _)
    fun _ _ => reaches_always (always_bind hsettle)

omit hq in
theorem reaches_withError {α : Type} {failure : FailureInfo} {exc : Option Exn}
    {p : Option ExecutionErrorDetail → Run V α}
    (hp : ∀ error, Reaches (Public (publicFailure failure exc)) q (p error)
      [reached x .deliveryAction .entered]) :
    Reaches (Public (publicFailure failure exc)) q (do
        let error ← executionError
        p error) (settlementPath x failure exc) :=
  reaches_bind (silent_executionError)
    (yields_executionError (publicFailure failure exc)) fun error _ => hp error

theorem reaches_retryOriginal {failure : FailureInfo} {exc : Option Exn}
    (hsettle : ∀ error, Always q (whenApplied x (settleRetry x none error))) :
    Reaches (Public (publicFailure failure exc)) q (retryOriginal x)
      (settlementPath x failure exc) := by
  refine reaches_assign (fun _ ho => ho) (reaches_withError x fun error => ?_)
  refine reaches_bind_only (reaches_applyRetry x hq (hsettle error)) fun _ _ => ?_
  exact Only.mono (only_bind (quiet_emit x _) fun _ => only_pure _) hq

end Retries

/-! Whatever holds of all calls that go with a settlement, of the dead letters and of the three
settlements of the except clauses holds of every call they make. -/

section Recovery
variable {P : Call V → Prop} (hattend : ∀ c, Attending c → P c)
include hattend

theorem only_handleCancelled (hcancel : Only P (whenApplied x (settleCancelled x))) :
    Only P (handleCancelled x) :=
  only_bind (only_assign _) fun _ => only_bind (silent_snapshotCaptureEnvelope x) fun _ =>
    only_bind (only_assign _) fun _ => only_bind ((attending_emit x _).mono hattend) fun _ =>
    only_bind hcancel fun _ =>
    only_bind (only_ite ((attending_emit x _).mono hattend) (only_pure ())) fun _ =>
    (attending_captureFailure x).mono hattend

theorem only_deadLettered : Only P (deadLettered x) :=
  only_bind (only_assign _) fun _ => only_bind ((attending_emit x _).mono hattend) fun _ => only_pure _

theorem only_finishFailed {exc : Exn} (hfail : ∀ error, Only P (failDelivery x exc error)) :
    Only P (finishFailed x exc) :=
  only_bind silent_executionError fun error =>
    only_bind (hfail error) fun _ => only_bind (only_assign _) fun _ =>
    only_bind ((attending_emit x _).mono hattend) fun _ => (attending_captureFailure x).mono hattend

variable (hretry : ∀ delayS error, Only P (whenApplied x (settleRetry x delayS error)))
include hretry

theorem only_applyRetry (delayS : Option ℚ) (error : Option ExecutionErrorDetail) :
    Only P (applyRetry x delayS error) :=
  only_bind ((attending_checkpoint x _ _).mono hattend) fun _ => only_bind (hretry delayS error)
    fun _ => (attending_checkpoint x _ _).mono hattend

theorem only_retryLater (delayS : Option ℚ) : Only P (retryLater x delayS) :=
  only_bind (only_assign _) fun _ => only_bind silent_executionError fun error =>
    only_bind (only_applyRetry x hattend hretry delayS error) fun _ =>
    only_bind ((attending_emit x _).mono hattend) fun _ => (attending_captureFailure x).mono hattend

theorem only_retryOriginal : Only P (retryOriginal x) :=
  only_bind (only_assign _) fun _ => only_bind silent_executionError fun error =>
    only_bind (only_applyRetry x hattend hretry none error) fun _ =>
    only_bind ((attending_emit x _).mono hattend) fun _ => only_pure _

variable (hdead : ∀ position sink envelope, P (.deadLetter position sink envelope))
include hdead

theorem only_publishIfConfigured (failure : FailureInfo) :
    Only P (publishIfConfigured x failure) := by
  refine only_ite (only_bind (only_assign _) fun _ => ?_)
    (only_bind (only_assign _) fun _ => only_pure _)
  refine only_bind (only_lift _) fun _ => only_bind (only_lift _) fun _ => ?_
  refine only_bind (only_publishAttempt x hdead failure) fun published => ?_
  exact only_ite (only_deadLettered x hattend) (only_retryOriginal x hattend hretry)

variable (hfail : ∀ exc error, Only P (failDelivery x exc error))
  (hcancel : Only P (whenApplied x (settleCancelled x)))
include hfail

theorem only_failTerminally (exc : Exn) (failure : FailureInfo) :
    Only P (failTerminally x exc failure) :=
  only_bind (only_publishIfConfigured x hattend hretry hdead failure) fun _ =>
    only_ite (only_finishFailed x hattend (hfail exc)) ((attending_captureFailure x).mono hattend)

theorem only_handleFailure (exc : Exn) (kind : FailureKind) :
    Only P (handleFailure x exc kind) :=
  only_bind (only_lift _) fun failure => only_bind (only_assign _) fun _ =>
    only_bind (silent_snapshotCaptureEnvelope x) fun _ =>
    only_bind (only_assign _) fun _ => only_bind ((attending_checkpoint x _ _).mono hattend) fun _ =>
    only_bind ((attending_runFailureHooks x).mono hattend) fun _ =>
    only_bind ((attending_checkpoint x _ _).mono hattend) fun _ => only_bind (only_lift _) fun _ =>
    only_ite (only_retryLater x hattend hretry _)
      (only_failTerminally x hattend hretry hdead hfail exc failure)

include hcancel

theorem only_recover (i : Interrupt Exn) : Only P (recover x i) := by
  cases i with
  | raised exc =>
    exact only_bind (only_assign _) fun _ => only_handleFailure x hattend hretry hdead hfail exc _
  | cancelled =>
    exact only_bind (only_assign _) fun _ =>
      only_bind (only_handleCancelled x hattend hcancel) fun _ => only_lift _

end Recovery

end OneStep.DeliveryPaths
