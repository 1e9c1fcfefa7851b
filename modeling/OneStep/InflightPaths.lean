import OneStep.DeliveryOutput

/-!
# The gauge events of an execution

The reporter counts an execution in at its STARTED event and out at its SUCCEEDED, RETRIED or
FAILED event. The reporter is one of the event handlers of the app, and the last of them. For
each way through the executor, the outcomes that decide whether it comes to the event that
counts it out, and whether anything is awaited after that event.
-/
namespace OneStep.InflightPaths
open Coroutine ExecutionModel DeliveryModel DeliveryExecutor DeliveryPaths DeliveryOutput

variable {V : Type}

section Signs

inductive Sign where
  | up | down
  deriving DecidableEq

/-- What an event does to the gauge. -/
def signOf : TaskEventKind → Option Sign
  | .started => some .up
  | .succeeded | .retried | .failed => some .down
  | .fetched | .deadLettered | .cancelled => none

variable (reporter : ℕ)

def sign : Call V → Option Sign
  | .eventHandler kind i => if i = reporter then signOf kind else none
  | _ => none

def Gauge (c : Call V) : Prop := sign reporter c ≠ none

def Moves (direction : Sign) (c : Call V) : Prop := sign reporter c = some direction

/-- `handle_event` of the reporter awaits nothing, and what it raises is dropped. -/
def reporting (env : Env V) : Env V :=
  {env with outcome := fun
    | .eventHandler kind i => if i = reporter then .ok () else env.outcome (.eventHandler kind i)
    | c => env.outcome c}

/-- The reporter is the last event handler, and is not cancelled. -/
structure Registered (x : Executor V) : Prop where
  last : x.task.eventHandlers = reporter+1
  returns : ∀ kind, x.env.outcome (.eventHandler kind reporter) = .ok ()

end Signs

section Paths

variable (x : Executor V)

def appliedPath (l : List (Outcome Exn Unit)) : List (Outcome Exn Unit) :=
  if x.applyDeliveryActions then l else []

def completedPath (status : CompletionStatus) (result : Option V)
    (error : Option ExecutionErrorDetail) (delayS : Option ℚ) : List (Outcome Exn Unit) :=
  match buildCompletion x status result error delayS with
  | .error e => [.error (.raised e)]
  | .ok completion => [leaseOutcome (x.env.outcome (.completeExecution completion))]

def retryPath (delayS : Option ℚ) (error : Option ExecutionErrorDetail) : List (Outcome Exn Unit) :=
  if x.delivery.managed then completedPath x .retrying none error delayS
  else [x.env.outcome (.retry delayS)]

/-- The failure, or the retry when failing raises. -/
def failPath (exc : Exn) (error : Option ExecutionErrorDetail) : List (Outcome Exn Unit) :=
  if x.delivery.managed then
    [caught (first (completedPath x .failed none error none)) fun _ =>
      first (completedPath x .retrying none error none)]
  else [caught (x.env.outcome (.fail exc)) fun _ => x.env.outcome (.retry none)]

def cancelPath (error : Option ExecutionErrorDetail) : List (Outcome Exn Unit) :=
  if x.delivery.managed then
    completedPath x (managedStatus x) none error
      (if managedStatus x = .retrying then some 0 else none)
  else [x.env.outcome (.retry none)]

/-- The error detail of a settlement, which names the stage that was interrupted. -/
def detail (failure : PublicFailure) (stage : Stage) : Option ExecutionErrorDetail :=
  (errorDetail failure (some stage)).toOption

/-- From the choice of a retry to its RETRIED event. -/
def retriedPath (failure : PublicFailure) (stage : Stage) (delayS : Option ℚ) :
    List (Outcome Exn Unit) :=
  raises (errorDetail failure none)::reached x .deliveryAction .entered::
    (appliedPath x (retryPath x delayS (detail failure stage))++
      reached x .deliveryAction .completed::emitPath x .retried)

/-- From the choice of a failure to its FAILED event. -/
def failedPath (failure : PublicFailure) (stage : Stage) (exc : Exn) : List (Outcome Exn Unit) :=
  raises (errorDetail failure none)::
    (appliedPath x (reached x .deliveryAction .entered::
      (failPath x exc (detail failure stage)++[reached x .deliveryAction .completed]))++
      emitPath x .failed)

/-- From the attempt to publish the dead letter to the event that counts the execution out,
and whether the failure is terminal then. -/
def publishedConclusion (failure : PublicFailure) (stage : Stage) (exc : Exn) (info : FailureInfo) :
    List (Outcome Exn Unit) × Bool :=
  match deadLetterOutcome x info with
  | .ok () => (emitPath x .deadLettered++failedPath x failure stage exc,true)
  | .error (.raised _) => (retriedPath x failure stage none,false)
  | .error .cancelled => ([.error .cancelled],false)

/-- From the decision of the retry policy. -/
def decidedConclusion (failure : PublicFailure) (stage : Stage) (exc : Exn) (info : FailureInfo) :
    List (Outcome Exn Unit) × Bool :=
  match x.env.retryPolicy exc info with
  | .error _ => ([],false)
  | .ok action =>
    if action.decision = .retry then (retriedPath x failure stage action.delayS,false)
    else if x.task.deadLetterSinks ≠ [] then
      (raises x.env.copyPayload::raises x.env.copyOriginalMeta::
        (publishedConclusion x failure stage exc info).1,
        (publishedConclusion x failure stage exc info).2)
    else (failedPath x failure stage exc,true)

/-- From an interruption. -/
def conclusion (stage : Stage) : Interrupt Exn → List (Outcome Exn Unit) × Bool
  | .cancelled =>
    let failure := publicFailure cancelledFailure none
    (emitPath x .cancelled++
      (appliedPath x (raises (errorDetail failure none)::cancelPath x (detail failure stage))++
        if x.delivery.managed = false ∨ managedStatus x = .retrying then emitPath x .retried
        else [.error .cancelled]),false)
  | .raised exc =>
    match FailureInfo.fromException exc (failureKind exc) with
    | .error e => ([.error (.raised e)],false)
    | .ok info =>
      let decided := decidedConclusion x (publicFailure info (some exc)) stage exc info
      (decisionPath x exc info++decided.1,decided.2)

/-- A failure that is captured if it is terminal is awaited. -/
def Captures (terminal : Bool) : Prop :=
  ∃ mode, x.task.capture = some mode ∧ (mode = .all ∨ terminal = true) ∧ x.env.copyEnvelope = .ok ()

/-- An execution that was counted in is counted out by its last call. -/
def Concludes (stage : Stage) (i : Interrupt Exn) : Prop :=
  first (conclusion x stage i).1 = .ok () ∧ ¬Captures x (conclusion x stage i).2

def openingPath : List (Outcome Exn Unit) := x.env.outcome .startProcessing::emitPath x .started

def successfulPath : List (Outcome Exn Unit) :=
  workingPath x++(appliedPath x (successPath x)++announcePath x)

/-- When an execution is counted in and, by its last call, out again, or neither. -/
def Exact : Prop :=
  match first (openingPath x) with
  | .error i => first (conclusion x .deliveryAction i).1 ≠ .ok ()
  | .ok () =>
    match first (successfulPath x) with
    | .ok () => True
    | .error i => ∀ stage, Concludes x stage i

end Paths

section Settling

variable (x : Executor V) {I : ExecutionOutcome V → Prop} {P : Call V → Prop}

theorem yields_completed (status : CompletionStatus) (result : Option V)
    (error : Option ExecutionErrorDetail) (delayS : Option ℚ) :
    Yields I (completeManagedExecution x status result error delayS)
      (completedPath x status result error delayS) := by
  unfold completeManagedExecution completedPath
  cases buildCompletion x status result error delayS with
  | error e =>
    rw [ofExcept_error_bind]
    exact yields_lift _
  | ok completion =>
    rw [ofExcept_ok_bind]
    exact yields_complete x completion

theorem yields_whenApplied {p : Run V Unit} {l : List (Outcome Exn Unit)} (h : Yields I p l) :
    Yields I (whenApplied x p) (appliedPath x l) := yields_ite h (yields_pure ())

theorem yields_settleRetry (delayS : Option ℚ) (error : Option ExecutionErrorDetail) :
    Yields I (settleRetry x delayS error) (retryPath x delayS error) := by
  refine yields_ite ?_ (yields_await x _)
  exact (yields_bind (yields_completed x _ _ _ _) fun _ _ => yields_pure ()).congr (List.append_nil _)

theorem yields_settleFailure (exc : Exn) (error : Option ExecutionErrorDetail) :
    Yields I (settleFailure x exc error) (failPath x exc error) := by
  refine yields_ite ?_ ?_
  · refine (yields_attempt (yields_bind (yields_completed x _ _ _ _) fun _ _ => yields_pure true)
      fun _ _ => yields_bind (yields_completed x _ _ _ _) fun _ _ => yields_pure _).congr ?_
    rw [List.append_nil,List.append_nil]
  · refine (yields_attempt (yields_bind (yields_await x _) fun _ _ => yields_pure true)
      fun _ _ => yields_bind (yields_await x _) fun _ _ => yields_pure false).congr ?_
    rw [List.append_nil,List.append_nil,first_singleton,first_singleton]

theorem only_completed (h : ∀ completion, P (.completeExecution completion)) (status : CompletionStatus)
    (result : Option V) (error : Option ExecutionErrorDetail) (delayS : Option ℚ) :
    Only P (completeManagedExecution x status result error delayS) :=
  only_completeManagedExecution x fun completion _ => h completion

end Settling

section Shapes

variable {reporter : ℕ} (x : Executor V) {I : ExecutionOutcome V → Prop} (kind : TaskEventKind)

theorem sign_eventHandler :
    sign reporter (.eventHandler kind reporter : Call V) = signOf kind := if_pos rfl

theorem not_gauge_of_ne {c : Call V} (h : ∀ kind i, c ≠ .eventHandler kind i) :
    ¬Gauge reporter c := by
  intro hgauge
  cases c with
  | eventHandler kind i => exact h kind i rfl
  | _ => exact hgauge rfl

theorem not_gauge_of_bare (c : Call V) (h : Bare c) : ¬Gauge reporter c := by
  apply not_gauge_of_ne
  rintro kind i rfl
  exact h

theorem steady_bare {α : Type} {p : Run V α} (h : Only Bare p) :
    Only (fun c => ¬Gauge reporter c) p := h.mono not_gauge_of_bare

theorem steady_emit {kind : TaskEventKind} (h : signOf kind = none) :
    Only (fun c => ¬Gauge reporter c) (emit x kind) := by
  refine only_bind (only_lift _) fun _ => only_forEach fun i => only_suppress (only_call ?_)
  intro hgauge
  refine hgauge ?_
  change (if i = reporter then signOf kind else none) = none
  rw [h,ite_self]

theorem forEach_append {α : Type} (f : α → Run V Unit) (as bs : List α) :
    forEach f (as++bs) = forEach f as >>= fun _ => forEach f bs := by
  induction as with
  | nil => rfl
  | cons a as ih =>
    change (f a >>= fun _ => forEach f (as++bs)) = (f a >>= fun _ => forEach f as) >>= _
    rw [bind_bind,ih]

/-- The handlers before the reporter, then the reporter. -/
theorem emit_registered (h : Registered reporter x) (kind : TaskEventKind) :
    emit x kind = (do
      ofExcept (x.env.copyMeta kind)
      forEach (fun i => suppress (await x (.eventHandler kind i))) (List.range reporter)) >>= fun _ =>
        forEach (fun i => suppress (await x (.eventHandler kind i))) [reporter] := by
  rw [emit,h.last,List.range_succ,forEach_append,bind_bind]

def earlierPath (reporter : ℕ) (kind : TaskEventKind) : List (Outcome Exn Unit) :=
  raises (x.env.copyMeta kind)::
    (List.range reporter).map fun i => dropped (x.env.outcome (.eventHandler kind i))

theorem yields_earlier : Yields I (do
      ofExcept (x.env.copyMeta kind)
      forEach (fun i => suppress (await x (.eventHandler kind i))) (List.range reporter))
    (earlierPath x reporter kind) :=
  yields_bind (yields_ofExcept _) fun _ _ => yields_forEach_map fun _ => yields_suppressed x _

theorem steady_earlier : Only (fun c => ¬Gauge reporter c) (do
      ofExcept (x.env.copyMeta kind)
      forEach (fun i => suppress (await x (.eventHandler kind i))) (List.range reporter) : Run V Unit) := by
  refine only_bind (only_lift _) fun _ => only_forEach_mem fun i hi => ?_
  refine only_suppress (only_call fun hgauge => hgauge ?_)
  exact if_neg (Nat.ne_of_lt (List.mem_range.mp hi))

theorem first_emitPath (h : Registered reporter x) (kind : TaskEventKind) :
    first (emitPath x kind) = first (earlierPath x reporter kind) := by
  have hpath : emitPath x kind = earlierPath x reporter kind++[.ok ()] := by
    rw [emitPath,h.last,List.range_succ,List.map_append,List.map_singleton,h.returns]
    rfl
  rw [hpath,first_append]
  cases first (earlierPath x reporter kind) with
  | ok u => rfl
  | error i => rfl

theorem finishes_emit (h : Registered reporter x) {kind : TaskEventKind} {direction : Sign}
    (hsign : signOf kind = some direction) :
    Finishes I (Gauge reporter) (Moves reporter direction) (emit x kind) (emitPath x kind) False := by
  rw [emit_registered x h kind]
  have hlast : Finishes I (Gauge reporter) (Moves reporter direction)
      (forEach (fun i => suppress (await x (.eventHandler kind i))) [reporter]) [] False := by
    intro s _
    have hrun : ((forEach (fun i => suppress (await x (.eventHandler kind i))) [reporter]).run s).calls =
        [.eventHandler kind reporter] := by
      change ((suppress (await x (.eventHandler kind reporter)) >>= fun _ => pure ()).run s).calls = _
      have hok : ((suppress (await x (.eventHandler kind reporter))).run s) =
          ⟨.ok (),s,[.eventHandler kind reporter]⟩ := by
        have hawait : ((await x (.eventHandler kind reporter)).run s).result = .ok () := h.returns kind
        unfold suppress attempt
        rw [handle_of_ok hawait]
        exact congrArg (fun o => (⟨o,s,[Call.eventHandler kind reporter]⟩ : Ended _ _ _ _)) (h.returns kind)
      have hres : ((suppress (await x (.eventHandler kind reporter))).run s).result = .ok () := by
        rw [hok]
      rw [bind_of_ok hres,hok]
      rfl
    rw [hrun]
    refine ⟨fun _ => ?_,fun hne => absurd rfl hne⟩
    refine ⟨[],_,[],rfl,?_,fun _ hd => absurd hd List.not_mem_nil,.inr rfl⟩
    rw [Moves,sign_eventHandler,hsign]
  refine (finishes_bind (steady_earlier x kind) (yields_earlier x kind) fun _ _ => hlast).congr ?_
  rw [List.append_nil,first_emitPath x h]

end Shapes

section Recovery

variable {reporter : ℕ} (x : Executor V) {I : ExecutionOutcome V → Prop} {failure : PublicFailure}
  {stage : Stage}

def Snapshot (o : ExecutionOutcome V) : Prop :=
  x.env.copyEnvelope ≠ .ok () → x.task.capture ≠ none → o.captureSnapshotFailed = true

/-- The outcome object while a failure is handled. -/
structure Failing (failure : PublicFailure) (stage : Stage) (o : ExecutionOutcome V) : Prop where
  published : o.publicFailure = some failure
  stage : o.failureStage = some stage
  terminal : o.terminal = false
  snapshot : Snapshot x o

theorem silent_captureFailure {o : ExecutionOutcome V} (hsnapshot : Snapshot x o)
    (h : ¬Captures x o.terminal) : ((captureFailure x).run o).calls = [] := by
  rw [captureFailure,current_bind]
  cases hcapture : x.task.capture with
  | none => rfl
  | some mode =>
    dsimp only
    split
    · rfl
    · next hcaptured =>
        rw [not_or,not_or,not_and] at hcaptured
        refine absurd ⟨mode,hcapture,?_,?_⟩ h
        · cases mode with
          | all => exact .inl rfl
          | terminal => exact .inr (Bool.eq_true_of_not_eq_false (hcaptured.2.1 rfl))
        · by_contra hcopy
          refine hcaptured.2.2 (hsnapshot hcopy ?_)
          rw [hcapture]
          exact Option.some_ne_none mode

theorem executionError_run (o : ExecutionOutcome V) (h : o.publicFailure = some failure)
    (hstage : o.failureStage = some stage) : ((executionError : Run V _).run o).state = o ∧
      ∀ error, ((executionError : Run V _).run o).result = .ok error → error = detail failure stage := by
  have hof : (executionError : Run V _).run o = (ofExcept (errorDetail failure (some stage)) >>= fun
      detail => (pure (some detail) : Run V _)).run o := by
    rw [executionError,current_bind,errorOf,h,hstage]
  rw [hof,detail]
  cases errorDetail failure (some stage) with
  | error e => exact ⟨rfl,fun error herror => by cases herror⟩
  | ok detail =>
    refine ⟨rfl,fun error herror => ?_⟩
    exact (Except.ok.inj herror).symm

theorem yields_failingError : Yields (Failing x failure stage) executionError
    [raises (errorDetail failure none)] := by
  intro o ho
  have hrun := (executionError_run o ho.published ho.stage).1
  refine ⟨(yields_executionError failure o ho.published).1,?_⟩
  rw [hrun]
  exact ho

theorem returns_failingError {error : Option ExecutionErrorDetail}
    (h : Returns (Failing x failure stage) executionError error) : error = detail failure stage := by
  obtain ⟨o,ho,hr⟩ := h
  exact (executionError_run o ho.published ho.stage).2 error hr

theorem steady_settleRetry (delayS : Option ℚ) (error : Option ExecutionErrorDetail) :
    Only (fun c => ¬Gauge reporter c) (settleRetry x delayS error) := by
  refine only_ite (only_bind (only_completed x ?_ _ _ _ _) fun _ => only_pure ()) (only_call ?_)
  · exact fun completion => not_gauge_of_ne (by simp)
  · exact not_gauge_of_ne (by simp)

theorem steady_settleFailure (exc : Exn) (error : Option ExecutionErrorDetail) :
    Only (fun c => ¬Gauge reporter c) (settleFailure x exc error) := by
  have hcompleted : ∀ status, Only (fun c => ¬Gauge reporter c)
      (completeManagedExecution x status none error none) := fun status =>
    only_completed x (fun completion => not_gauge_of_ne (by simp)) status none error none
  refine only_ite ?_ ?_
  · exact only_attempt (only_bind (hcompleted _) fun _ => only_pure _) fun _ =>
      only_bind (hcompleted _) fun _ => only_pure _
  · exact only_attempt (only_bind (only_call (not_gauge_of_ne (by simp))) fun _ => only_pure _) fun _ =>
      only_bind (only_call (not_gauge_of_ne (by simp))) fun _ => only_pure _

theorem steady_captureFailure : Only (fun c => ¬Gauge reporter c) (captureFailure x) := by
  refine only_bind only_current fun outcome => ?_
  cases x.task.capture with
  | none => exact only_pure ()
  | some mode => exact only_ite (only_pure ()) (only_suppress (only_call (not_gauge_of_ne (by simp))))

theorem steady_executionError : Only (fun c => ¬Gauge reporter c) (executionError : Run V _) := by
  refine only_bind only_current fun outcome => ?_
  unfold errorOf
  cases outcome.publicFailure with
  | none => exact only_pure _
  | some failure => exact only_bind (only_lift _) fun _ => only_pure _

theorem steady_applyRetry (delayS : Option ℚ) (error : Option ExecutionErrorDetail) :
    Only (fun c => ¬Gauge reporter c) (applyRetry x delayS error) :=
  only_bind (steady_bare (bare_checkpoint x _ _)) fun _ =>
    only_bind (only_ite (steady_settleRetry x delayS error) (only_pure ())) fun _ =>
    steady_bare (bare_checkpoint x _ _)

theorem yields_applyRetry (delayS : Option ℚ) (error : Option ExecutionErrorDetail) :
    Yields I (applyRetry x delayS error) (reached x .deliveryAction .entered::
      (appliedPath x (retryPath x delayS error)++[reached x .deliveryAction .completed])) :=
  yields_bind (yields_checkpoint x _ _) fun _ _ =>
    yields_bind (yields_whenApplied x (yields_settleRetry x _ _)) fun _ _ => yields_checkpoint x _ _

theorem finishes_withError {α : Type} {p : Option ExecutionErrorDetail → Run V α} {late : Prop}
    {l : List (Outcome Exn Unit)}
    (hp : Finishes (Failing x failure stage) (Gauge reporter) (Moves reporter .down)
      (p (detail failure stage)) l late) :
    Finishes (Failing x failure stage) (Gauge reporter) (Moves reporter .down) (do
      let error ← executionError
      p error) (raises (errorDetail failure none)::l) late := by
  refine finishes_bind steady_executionError (yields_failingError x) fun error herror => ?_
  rw [returns_failingError x herror]
  exact hp

theorem steady_sendDeadLetters (envelope : DeadLetter V) (i : ℕ) (sinks : List Sink) :
    Only (fun c => ¬Gauge reporter c) (sendDeadLetters x envelope i sinks) := by
  induction sinks generalizing i with
  | nil => exact only_pure ()
  | cons sink sinks ih =>
    exact only_bind (only_call (not_gauge_of_ne (by simp))) fun _ => ih (i+1)

/-- What taking the snapshot of the envelope leaves. -/
def snapshotted (o : ExecutionOutcome V) : ExecutionOutcome V :=
  match x.task.capture,x.env.copyEnvelope with
  | some _,.error _ => {o with captureSnapshotFailed := true}
  | _,_ => o

theorem snapshotCaptureEnvelope_eq : snapshotCaptureEnvelope x = assign (snapshotted x) := by
  unfold snapshotCaptureEnvelope snapshotted
  cases x.task.capture with
  | none => rfl
  | some mode => cases x.env.copyEnvelope <;> rfl

theorem snapshot_snapshotted (o : ExecutionOutcome V) : Snapshot x (snapshotted x o) := by
  intro hcopy hcapture
  unfold snapshotted
  cases hmode : x.task.capture with
  | none => exact absurd hmode hcapture
  | some mode =>
    cases hcopied : x.env.copyEnvelope with
    | ok u => exact absurd hcopied hcopy
    | error e => rfl

/-- The outcome object when an execution is interrupted. -/
structure Interrupted (stage : Stage) (o : ExecutionOutcome V) : Prop where
  stage : o.failureStage = some stage
  terminal : o.terminal = false

theorem interrupted_snapshotted {o : ExecutionOutcome V} (h : Interrupted stage o) :
    Interrupted stage (snapshotted x o) := by
  unfold snapshotted
  split
  · exact ⟨h.stage,h.terminal⟩
  · exact h

theorem finishes_recorded (failure : PublicFailure) {α : Type} {p : Run V α} {l : List (Outcome Exn Unit)} {late : Prop}
    {record publish : ExecutionOutcome V → ExecutionOutcome V}
    (hrecord : ∀ o, Interrupted stage o → Interrupted stage (record o))
    (hpublish : ∀ o, Interrupted stage o → Snapshot x o → Failing x failure stage (publish o))
    (hp : Finishes (Failing x failure stage) (Gauge reporter) (Moves reporter .down) p l late) :
    Finishes (Interrupted stage) (Gauge reporter) (Moves reporter .down) (do
      assign record
      snapshotCaptureEnvelope x
      assign publish
      p) l late := by
  rw [snapshotCaptureEnvelope_eq]
  refine finishes_assign hrecord ?_
  refine finishes_assign (J := fun o => Interrupted stage o ∧ Snapshot x o) (fun o ho =>
    ⟨interrupted_snapshotted x ho,snapshot_snapshotted x o⟩) ?_
  exact finishes_assign (fun o ho => hpublish o ho.1 ho.2) hp

theorem steady_settleCancelled : Only (fun c => ¬Gauge reporter c) (settleCancelled x) := by
  refine only_bind steady_executionError fun error => only_ite ?_ (only_call (not_gauge_of_ne (by simp)))
  exact only_bind (only_completed x (fun _ => not_gauge_of_ne (by simp)) _ _ _ _) fun _ => only_pure ()

theorem yields_settleCancelled : Yields (Failing x failure stage) (settleCancelled x)
    (raises (errorDetail failure none)::cancelPath x (detail failure stage)) := by
  refine yields_bind (yields_failingError x) fun error herror => ?_
  rw [returns_failingError x herror]
  refine yields_ite ?_ (yields_await x _)
  exact (yields_bind (yields_completed x _ _ _ _) fun _ _ => yields_pure ()).congr (List.append_nil _)

variable (h : Registered reporter x)
include h

theorem finishes_emit_capture {kind : TaskEventKind} (hdown : signOf kind = some .down) {late : Prop}
    (hsilent : ¬late → ∀ o, I o → Snapshot x o ∧ ¬Captures x o.terminal) :
    Finishes I (Gauge reporter) (Moves reporter .down) (emit x kind >>= fun _ => captureFailure x)
      (emitPath x kind) late :=
  finishes_then (finishes_emit x h hdown) False.elim (fun o ho => (yields_emit x kind o ho).2)
    (fun _ => steady_captureFailure x) fun hlate _ o ho =>
      silent_captureFailure x (hsilent hlate o ho).1 (hsilent hlate o ho).2

theorem finishes_retried (delayS : Option ℚ) :
    Finishes (Failing x failure stage) (Gauge reporter) (Moves reporter .down) (do
      let error ← executionError
      applyRetry x delayS error
      emit x .retried
      captureFailure x) (retriedPath x failure stage delayS) (Captures x false) := by
  have hend : Finishes (Failing x failure stage) (Gauge reporter) (Moves reporter .down)
      (emit x .retried >>= fun _ => captureFailure x) (emitPath x .retried) (Captures x false) := by
    refine finishes_emit_capture x h rfl fun hlate o ho => ⟨ho.snapshot,?_⟩
    rw [ho.terminal]
    exact hlate
  exact (finishes_withError x (finishes_bind (steady_applyRetry x delayS _)
    (yields_applyRetry x delayS _) fun _ _ => hend)).congr (by simp [retriedPath])

theorem finishes_retryLater (delayS : Option ℚ) :
    Finishes (Failing x failure stage) (Gauge reporter) (Moves reporter .down) (retryLater x delayS)
      (retriedPath x failure stage delayS) (Captures x false) :=
  finishes_assign (fun _ ho => ⟨ho.published,ho.stage,ho.terminal,ho.snapshot⟩)
    (finishes_retried x h delayS)

theorem finishes_finishFailed (exc : Exn) :
    Finishes (Failing x failure stage) (Gauge reporter) (Moves reporter .down) (finishFailed x exc)
      (failedPath x failure stage exc) (Captures x true) := by
  have hfail : Yields (Failing x failure stage) (failDelivery x exc (detail failure stage))
      (appliedPath x (reached x .deliveryAction .entered::
        (failPath x exc (detail failure stage)++[reached x .deliveryAction .completed]))) := by
    refine yields_ite ?_ (yields_pure true)
    refine yields_bind (yields_checkpoint x _ _) fun _ _ =>
      yields_bind (yields_settleFailure x _ _) fun _ _ => ?_
    exact (yields_bind (yields_checkpoint x _ _) fun _ _ => yields_pure _).congr (List.append_nil _)
  have hsteady : Only (fun c => ¬Gauge reporter c) (failDelivery x exc (detail failure stage)) :=
    only_ite (only_bind (steady_bare (bare_checkpoint x _ _)) fun _ =>
      only_bind (steady_settleFailure x _ _) fun _ =>
      only_bind (steady_bare (bare_checkpoint x _ _)) fun _ => only_pure _) (only_pure true)
  refine finishes_withError x (finishes_bind hsteady hfail fun terminal _ => ?_)
  refine finishes_assign (J := Snapshot x) (fun _ ho => ho.snapshot) ?_
  refine finishes_emit_capture x h rfl fun hlate o ho => ⟨ho,?_⟩
  rintro ⟨mode,hcapture,-,hcopy⟩
  exact hlate ⟨mode,hcapture,.inr rfl,hcopy⟩

theorem finishes_published (exc : Exn) {info : FailureInfo} {published : Bool}
    (hpublished : Returns I (publishAttempt x info) published) :
    Finishes (Failing x failure stage) (Gauge reporter) (Moves reporter .down)
      ((if published then deadLettered x else retryOriginal x) >>= fun published =>
        if published then finishFailed x exc else captureFailure x)
      (publishedConclusion x failure stage exc info).1
      (Captures x (publishedConclusion x failure stage exc info).2) := by
  unfold publishedConclusion
  rcases returns_publishAttempt x hpublished with ⟨rfl,hok⟩ | ⟨rfl,e,herr⟩
  · rw [hok]
    have heq : (deadLettered x >>= fun published => if published then finishFailed x exc
        else captureFailure x) = (assign fun o => {o with
            deadLetterAttempted := !x.task.deadLetterSinks.isEmpty
            deadLetterPublished := if x.task.deadLetterSinks.isEmpty then none else some true}) >>=
          fun _ => emit x .deadLettered >>= fun _ => finishFailed x exc := by
      simp only [deadLettered,bind_bind]
      rfl
    rw [if_pos rfl,heq]
    refine finishes_assign (J := Failing x failure stage)
      (fun _ ho => ⟨ho.published,ho.stage,ho.terminal,ho.snapshot⟩) ?_
    exact finishes_bind (steady_emit x rfl) (yields_emit x _) fun _ _ => finishes_finishFailed x h exc
  · rw [herr]
    have heq : (retryOriginal x >>= fun published => if published then finishFailed x exc
        else captureFailure x) = (assign fun o => {o with
            deadLetterAttempted := true, deadLetterPublished := some false
            deliveryAction := some .retry}) >>= fun _ => (do
          let error ← executionError
          applyRetry x none error
          emit x .retried
          captureFailure x) := by
      simp only [retryOriginal,bind_bind]
      rfl
    rw [if_neg Bool.false_ne_true,heq]
    exact finishes_assign (fun _ ho => ⟨ho.published,ho.stage,ho.terminal,ho.snapshot⟩)
      (finishes_retried x h none)

theorem finishes_failTerminally (exc : Exn) (info : FailureInfo) (hdead : x.task.deadLetterSinks ≠ []) :
    Finishes (Failing x failure stage) (Gauge reporter) (Moves reporter .down) (failTerminally x exc info)
      (raises x.env.copyPayload::raises x.env.copyOriginalMeta::
        (publishedConclusion x failure stage exc info).1)
      (Captures x (publishedConclusion x failure stage exc info).2) := by
  unfold failTerminally publishIfConfigured
  rw [if_pos hdead]
  simp only [publishDeadLetter,bind_bind]
  refine finishes_assign (J := Failing x failure stage)
    (fun _ ho => ⟨ho.published,ho.stage,ho.terminal,ho.snapshot⟩) ?_
  refine finishes_bind (only_lift _) (yields_ofExcept _) fun _ _ => ?_
  refine finishes_bind (only_lift _) (yields_ofExcept _) fun _ _ => ?_
  have hsteady : Only (fun c => ¬Gauge reporter c) (publishAttempt x info) :=
    only_attempt (only_bind (steady_sendDeadLetters x _ _ _) fun _ => only_pure _) fun _ => only_pure _
  refine (finishes_bind hsteady (yields_publishAttempt x info) fun published hpublished =>
    finishes_published x h exc hpublished).congr ?_
  unfold publishedConclusion
  cases deadLetterOutcome x info with
  | ok u => rfl
  | error i => cases i <;> rfl

theorem finishes_decided (exc : Exn) (info : FailureInfo) :
    Finishes (Failing x failure stage) (Gauge reporter) (Moves reporter .down) (do
        checkpoint x .failureHook .entered
        runFailureHooks x
        checkpoint x .failureHook .completed
        let action ← ofExcept (x.env.retryPolicy exc info)
        if action.decision = .retry then retryLater x action.delayS
        else failTerminally x exc info)
      (decisionPath x exc info++(decidedConclusion x failure stage exc info).1)
      (Captures x (decidedConclusion x failure stage exc info).2) := by
  have hpolicy : Finishes (Failing x failure stage) (Gauge reporter) (Moves reporter .down) (do
        let action ← ofExcept (x.env.retryPolicy exc info)
        if action.decision = .retry then retryLater x action.delayS
        else failTerminally x exc info)
      (raises (x.env.retryPolicy exc info)::(decidedConclusion x failure stage exc info).1)
      (Captures x (decidedConclusion x failure stage exc info).2) := by
    unfold decidedConclusion
    cases x.env.retryPolicy exc info with
    | error e =>
      rw [ofExcept_error_bind]
      exact finishes_never (only_lift _) (.raised e) []
    | ok action =>
      rw [ofExcept_ok_bind]
      dsimp only
      split
      · exact finishes_retryLater x h action.delayS
      · split
        · next hdead => exact finishes_failTerminally x h exc info hdead
        · next hnone =>
            unfold failTerminally publishIfConfigured
            rw [if_neg hnone]
            exact finishes_assign (J := Failing x failure stage)
              (fun _ ho => ⟨ho.published,ho.stage,ho.terminal,ho.snapshot⟩)
              (finishes_finishFailed x h exc)
  refine (finishes_bind (steady_bare (bare_checkpoint x _ _)) (yields_checkpoint x _ _) fun _ _ =>
    finishes_bind (steady_bare (bare_runFailureHooks x)) (yields_runFailureHooks x) fun _ _ =>
    finishes_bind (steady_bare (bare_checkpoint x _ _)) (yields_checkpoint x _ _) fun _ _ =>
    hpolicy).congr ?_
  simp [decisionPath]

theorem finishes_handleFailure (exc : Exn) :
    Finishes (Interrupted stage) (Gauge reporter) (Moves reporter .down)
      (handleFailure x exc (failureKind exc)) (conclusion x stage (.raised exc)).1
      (Captures x (conclusion x stage (.raised exc)).2) := by
  rw [handleFailure,conclusion]
  cases FailureInfo.fromException exc (failureKind exc) with
  | error e =>
    rw [ofExcept_error_bind]
    exact finishes_never (only_lift _) (.raised e) []
  | ok info =>
    rw [ofExcept_ok_bind]
    exact finishes_recorded x (publicFailure info (some exc)) (fun o ho => ⟨ho.stage,ho.terminal⟩)
      (fun o ho hsnapshot => ⟨rfl,ho.stage,ho.terminal,hsnapshot⟩) (finishes_decided x h exc info)

theorem finishes_handleCancelled :
    Finishes (Interrupted stage) (Gauge reporter) (Moves reporter .down) (handleCancelled x)
      (conclusion x stage .cancelled).1 (Captures x (conclusion x stage .cancelled).2) := by
  rw [handleCancelled,conclusion]
  dsimp only
  by_cases hannounced : x.delivery.managed = false ∨ managedStatus x = .retrying
  · rw [announceCancelled,if_pos hannounced,if_pos hannounced]
    have hterminal : (x.delivery.managed && x.env.cancelRequested) = false := by
      rcases hannounced with hordinary | hstatus
      · rw [hordinary]
        rfl
      · unfold managedStatus at hstatus
        split at hstatus
        · cases hstatus
        · next hrequested => rw [Bool.eq_false_of_not_eq_true hrequested,Bool.and_false]
    have hend : Finishes (Failing x (publicFailure cancelledFailure none) stage) (Gauge reporter)
        (Moves reporter .down) (emit x .retried >>= fun _ => captureFailure x) (emitPath x .retried)
        (Captures x false) := by
      refine finishes_emit_capture x h rfl fun hlate o ho => ⟨ho.snapshot,?_⟩
      rw [ho.terminal]
      exact hlate
    refine finishes_recorded x (publicFailure cancelledFailure none)
      (fun o ho => ⟨ho.stage,ho.terminal⟩)
      (fun o ho hsnapshot => ⟨rfl,ho.stage,hterminal,hsnapshot⟩) ?_
    exact finishes_bind (steady_emit x rfl) (yields_emit x _) fun _ _ =>
      finishes_bind (only_ite (steady_settleCancelled x) (only_pure ()))
        (yields_whenApplied x (yields_settleCancelled x)) fun _ _ => hend
  · rw [announceCancelled,if_neg hannounced,if_neg hannounced]
    refine finishes_of_only ?_ ?_
    · refine only_bind (only_assign _) fun _ => ?_
      rw [snapshotCaptureEnvelope_eq]
      exact only_bind (only_assign _) fun _ => only_bind (only_assign _) fun _ =>
        only_bind (steady_emit x rfl) fun _ =>
        only_bind (only_ite (steady_settleCancelled x) (only_pure ())) fun _ =>
        only_bind (only_pure ()) fun _ => steady_captureFailure x
    · intro hok
      have hlast := first_append_ok.mp (first_append_ok.mp hok).2
      cases hlast.2

/-- From an interruption, the execution is counted out by its last call exactly as described. -/
theorem finishes_recover (i : Interrupt Exn) :
    Finishes (fun o => o.activeStage = stage ∧ o.terminal = false) (Gauge reporter) (Moves reporter .down)
      (recover x i) (conclusion x stage i).1 (Captures x (conclusion x stage i).2) := by
  cases i with
  | raised exc =>
    exact finishes_assign (fun o ho => ⟨congrArg some ho.1,ho.2⟩) (finishes_handleFailure x h exc)
  | cancelled =>
    refine finishes_assign (J := Interrupted stage) (fun o ho => ⟨congrArg some ho.1,ho.2⟩) ?_
    exact finishes_then (J := fun _ => True) (finishes_handleCancelled x h) id (fun _ _ => trivial)
      (fun _ => only_lift _) fun _ _ _ _ => rfl

end Recovery

section Executions

variable {reporter : ℕ} (x : Executor V)

/-- Nothing moves the gauge, or one call moves it up and the last one moves it down. -/
def Gauged (reporter : ℕ) (l : List (Call V)) : Prop :=
  (∀ c ∈ l, ¬Gauge reporter c) ∨ ∃ pre up mid down, l = pre++up::(mid++[down]) ∧
    Moves reporter .up up ∧ Moves reporter .down down ∧ ∀ c ∈ pre++mid, ¬Gauge reporter c

def opening : Run V Unit := do
  await x .startProcessing
  emit x .started

/-- The try block after the STARTED event, up to the SUCCEEDED event. -/
def succeeding : Run V Unit := do
  let result ← working x
  whenApplied x (applySuccess x result)
  announce x

theorem attemptDelivery_eq : attemptDelivery x = opening x >>= fun _ => succeeding x >>= fun _ =>
    assign fun o => {o with completion := .succeeded, terminal := true} := by
  have hprocess : process x = opening x >>= fun _ => working x := by
    rw [opening,bind_bind]
    rfl
  simp only [attemptDelivery,hprocess,succeeding,bind_bind]

def Fresh (o : ExecutionOutcome V) : Prop := o.terminal = false

theorem updated_fresh : Updated (Fresh : ExecutionOutcome V → Prop) := fun _ _ _ _ _ ho => ho

variable {I : ExecutionOutcome V → Prop}

theorem yields_succeed {result : Option V} (hresult : x.env.handler = .ok result) :
    Yields I (whenApplied x (applySuccess x result)) (appliedPath x (successPath x)) := by
  unfold appliedPath
  split
  · next happ => exact yields_applySuccess x happ hresult
  · next happ =>
      rw [whenApplied,if_neg happ]
      exact yields_pure ()

theorem returns_working {result : Option V} (h : Returns I (working x) result) :
    x.env.handler = .ok result := by
  obtain ⟨s,-,hr⟩ := h
  iterate 6 obtain ⟨_,-,hr⟩ := bind_result hr
  obtain ⟨returned,hreturned,hr⟩ := bind_result hr
  iterate 9 obtain ⟨_,-,hr⟩ := bind_result hr
  have hsame : returned = result := Except.ok.inj hr
  rw [← hsame]
  exact hreturned

theorem yields_succeeding : Yields Fresh (succeeding x) (successfulPath x) :=
  yields_bind (yields_working x updated_fresh) fun _ hresult =>
    yields_bind (yields_succeed x (returns_working x hresult)) fun _ _ => yields_announce x

theorem steady_applySuccess (result : Option V) :
    Only (fun c => ¬Gauge reporter c) (whenApplied x (applySuccess x result)) := by
  refine only_ite (only_ite ?_ (only_call (not_gauge_of_ne (by simp)))) (only_pure ())
  exact only_bind (only_completed x (fun _ => not_gauge_of_ne (by simp)) _ _ _ _) fun _ => only_pure ()

theorem opening_run : void ((opening x).run {}).result = first (openingPath x) ∧
    ((opening x).run {}).state = {} := by
  have hyields : Yields (fun o => o = {}) (opening x) (openingPath x) :=
    yields_bind (yields_await x _) fun _ _ => yields_emit x _
  exact hyields {} rfl

variable (h : Registered reporter x)
include h

theorem finishes_opening :
    Finishes I (Gauge reporter) (Moves reporter .up) (opening x) (openingPath x) False :=
  finishes_bind (only_call (not_gauge_of_ne (by simp))) (yields_await x _) fun _ _ =>
    finishes_emit x h rfl

theorem finishes_succeeding :
    Finishes Fresh (Gauge reporter) (Moves reporter .down) (succeeding x) (successfulPath x) False := by
  have hannounce : Finishes Fresh (Gauge reporter) (Moves reporter .down) (announce x) (announcePath x)
      False :=
    finishes_bind (steady_bare (bare_checkpoint x _ _)) (yields_checkpoint x _ _) fun _ _ =>
      finishes_bind (only_lift _) (yields_ofExcept _) fun _ _ => finishes_emit x h rfl
  have hworking : Only (fun c => ¬Gauge reporter c) (working x) :=
    only_working x not_gauge_of_bare fun _ _ _ _ => not_gauge_of_ne (by simp)
  exact finishes_bind hworking (yields_working x updated_fresh) fun _ hresult =>
    finishes_bind (steady_applySuccess x _) (yields_succeed x (returns_working x hresult))
      fun _ _ => hannounce

theorem gauged_unopened {i : Interrupt Exn} (hopened : first (openingPath x) = .error i)
    (hrecover : first (conclusion x .deliveryAction i).1 ≠ .ok ()) :
    ∀ c ∈ calls x, ¬Gauge reporter c := by
  obtain ⟨hresult,hstate⟩ := opening_run x
  rw [hopened,void_error] at hresult
  obtain ⟨-,hsteady⟩ := finishes_opening x h (I := fun _ => True) {} trivial
  have hfresh : ({} : ExecutionOutcome V).activeStage = .deliveryAction ∧
      ({} : ExecutionOutcome V).terminal = false := ⟨rfl,rfl⟩
  obtain ⟨-,hafter⟩ := finishes_recover x h i {} hfresh
  have hattempt : (attemptDelivery x).run {} = ⟨.error i,{},((opening x).run {}).calls⟩ := by
    rw [attemptDelivery_eq,bind_of_error hresult,hstate]
  have herror : ((attemptDelivery x).run {}).result = .error i := by rw [hattempt]
  intro c hc
  rw [calls,execute,handle_of_error herror,hattempt] at hc
  rcases List.mem_append.mp hc with hc | hc
  · exact hsteady (by rw [hopened]; exact fun h => by cases h) c hc
  · exact hafter hrecover c hc

theorem gauged_opened (hopened : first (openingPath x) = .ok ())
    (hexact : ∀ i, first (successfulPath x) = .error i → ∀ stage, Concludes x stage i) :
    ∃ pre up mid down, calls x = pre++up::(mid++[down]) ∧ Moves reporter .up up ∧
      Moves reporter .down down ∧ ∀ c ∈ pre++mid, ¬Gauge reporter c := by
  obtain ⟨hresult,hstate⟩ := opening_run x
  rw [hopened] at hresult
  obtain ⟨u,hok⟩ := void_ok.mp hresult
  obtain ⟨hup,-⟩ := finishes_opening x h (I := fun _ => True) {} trivial
  obtain ⟨pre,up,post,hcalls,hmoves,hquiet,hpost⟩ := hup hopened
  obtain rfl := hpost.resolve_left id
  obtain ⟨hsucceeded,hfresh⟩ := yields_succeeding x {} rfl
  obtain ⟨hdown,hnone⟩ := finishes_succeeding x h {} rfl
  cases hpath : first (successfulPath x) with
  | ok u =>
    rw [hpath] at hsucceeded
    obtain ⟨v,hsucceeded⟩ := void_ok.mp hsucceeded
    obtain ⟨mid,down,later,hmid,hlast,hsteady,hlater⟩ := hdown hpath
    obtain rfl := hlater.resolve_left id
    refine ⟨pre,up,mid,down,?_,hmoves,hlast,?_⟩
    · have hrun : (attemptDelivery x).run {} = ⟨.ok (),
          {((succeeding x).run {}).state with completion := .succeeded, terminal := true},
          ((opening x).run {}).calls++(((succeeding x).run {}).calls++[])⟩ := by
        rw [attemptDelivery_eq,bind_of_ok hok,hstate,bind_of_ok hsucceeded]
        rfl
      have hend : ((attemptDelivery x).run {}).result = .ok () := by rw [hrun]
      rw [calls,execute,handle_of_ok hend,hrun]
      dsimp only
      rw [hcalls,hmid,List.append_nil,List.append_assoc]
      rfl
    · intro c hc
      rcases List.mem_append.mp hc with hc | hc
      · exact hquiet c (List.mem_append_left _ hc)
      · exact hsteady c (List.mem_append_left _ hc)
  | error i =>
    rw [hpath,void_error] at hsucceeded
    have hrun : (attemptDelivery x).run {} = ⟨.error i,((succeeding x).run {}).state,
        ((opening x).run {}).calls++((succeeding x).run {}).calls⟩ := by
      rw [attemptDelivery_eq,bind_of_ok hok,hstate,bind_of_error hsucceeded]
      rfl
    have hend : ((attemptDelivery x).run {}).result = .error i := by rw [hrun]
    obtain ⟨hreached,huncaptured⟩ := hexact i hpath ((succeeding x).run {}).state.activeStage
    obtain ⟨hone,-⟩ := finishes_recover x h i ((succeeding x).run {}).state ⟨rfl,hfresh⟩
    obtain ⟨mid,down,later,hmid,hlast,hsteady,hlater⟩ := hone hreached
    obtain rfl := hlater.resolve_left huncaptured
    refine ⟨pre,up,((succeeding x).run {}).calls++mid,down,?_,hmoves,hlast,?_⟩
    · rw [calls,execute,handle_of_error hend,hrun]
      change (((opening x).run {}).calls++_)++((recover x i).run _).calls = _
      rw [hcalls,hmid,List.append_assoc,List.append_assoc,List.append_assoc]
      rfl
    · intro c hc
      rcases List.mem_append.mp hc with hc | hc
      · exact hquiet c (List.mem_append_left _ hc)
      · rcases List.mem_append.mp hc with hc | hc
        · exact hnone (by rw [hpath]; exact fun h => by cases h) c hc
        · exact hsteady c (List.mem_append_left _ hc)

/-- An exact execution moves the gauge up once, and down again by its last call, or not at all. -/
theorem gauged_execute (hexact : Exact x) : Gauged reporter (calls x) := by
  rw [Exact] at hexact
  cases hopened : first (openingPath x) with
  | error i =>
    rw [hopened] at hexact
    exact .inl (gauged_unopened x h hopened hexact)
  | ok u =>
    rw [hopened] at hexact
    refine .inr (gauged_opened x h hopened fun i hi => ?_)
    rw [hi] at hexact
    exact hexact

end Executions

end OneStep.InflightPaths
