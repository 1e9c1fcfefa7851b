import OneStep.DeliveryPaths

/-!
# Settling an ordinary delivery

An ordinary delivery is settled by `ack`, `retry` or `fail`. The acknowledgement
stands inside the try block whose except clauses settle again, and the failure
path calls user code before it settles. Two questions follow: whether anything
is settled twice, and whether something is always settled. Each is answered
exactly, by the outcomes on the way to the second settlement and to the first.
-/
namespace OneStep.DeliverySettlement
open Coroutine ExecutionModel DeliveryModel DeliveryExecutor DeliveryPaths

variable {V : Type} (x : Executor V) {c : Call V}

/-- The three calls that settle an ordinary delivery. -/
def acts : Call V → Bool
  | .ack | .retry _ | .fail _ => true
  | _ => false

/-- A settlement that returned normally. -/
def effective (c : Call V) : Bool := acts c && (x.env.outcome c).isOk

theorem quiet_acts (h : Quiet c) : ¬acts c = true := by
  cases c <;> simp_all [Quiet,settlement,acts]

theorem acts_append_quiet {before after : List (Call V)} (hq : ∀ c ∈ before, Quiet c) :
    (∃ c ∈ before++after, acts c = true) ↔ ∃ c ∈ after, acts c = true := by
  constructor
  · rintro ⟨c,hc,hact⟩
    rcases List.mem_append.mp hc with hc | hc
    · exact absurd hact (quiet_acts (hq c hc))
    · exact ⟨c,hc,hact⟩
  · rintro ⟨c,hc,hact⟩
    exact ⟨c,List.mem_append_right _ hc,hact⟩

theorem acts_ack (l : List (Call V)) : ∃ c ∈ Call.ack::l, acts c = true :=
  ⟨.ack,List.mem_cons_self,rfl⟩

theorem quiet_effective (h : Quiet c) : effective x c = false := by
  simp [effective,quiet_acts h]

section Reaching
variable {I : ExecutionOutcome V → Prop}

/-- The calls of a kind that settling makes: a retry and a failure end with them so. -/
structure Settling (q : Call V → Prop) (retried : Option ℚ → Outcome Exn Unit)
    (failed : Exn → Outcome Exn Unit) : Prop where
  quiet : ∀ c, Quiet c → ¬q c
  retry : ∀ I delayS, Reaches I q (await x (.retry delayS)) [retried delayS]
  fail : ∀ I exc error, Reaches I q (settleFailure x exc error) [failed exc]

section Ends
variable (retried : Option ℚ → Outcome Exn Unit) (failed : Exn → Outcome Exn Unit)

/-- The end once the policy has given up: a dead-letter sink that fails leads to a retry. -/
def terminalEnd (exc : Exn) (failure : FailureInfo) : Outcome Exn Unit :=
  if x.task.deadLetterSinks ≠ [] then
    match deadLetterOutcome x failure with
    | .ok () => failed exc
    | .error (.raised _) => retried none
    | .error .cancelled => .error .cancelled
  else failed exc

def decidedEnd (exc : Exn) (failure : FailureInfo) : Outcome Exn Unit :=
  match x.env.retryPolicy exc failure with
  | .error e => .error (.raised e)
  | .ok action =>
    if action.decision = .retry then retried action.delayS
    else terminalEnd x retried failed exc failure

/-- The end of what an interruption leads to, if nothing interrupts on the way. -/
def settledEnd : Interrupt Exn → Outcome Exn Unit
  | .cancelled => retried none
  | .raised exc =>
    match FailureInfo.fromException exc (failureKind exc) with
    | .error e => .error (.raised e)
    | .ok failure => decidedEnd x retried failed exc failure

end Ends

theorem yields_deadLettered {failure : PublicFailure} :
    Yields (Public failure) (deadLettered x) (emitPath x .deadLettered) := by
  have h : Yields (Public failure) (deadLettered x) ([]++(emitPath x .deadLettered++[])) :=
    yields_bind (yields_assign fun _ ho => ho) fun _ _ =>
      yields_bind (yields_emit x _) fun _ _ => yields_pure _
  exact h.congr (List.append_nil _)

theorem returns_deadLettered {published : Bool} (h : Returns I (deadLettered x) published) :
    published = true := by
  obtain ⟨o,-,hr⟩ := h
  obtain ⟨_,-,hr₁⟩ := bind_result hr
  obtain ⟨_,-,hr₂⟩ := bind_result hr₁
  exact (Except.ok.inj hr₂).symm

theorem returns_retryOriginal {published : Bool} (h : Returns I (retryOriginal x) published) :
    published = false := by
  obtain ⟨o,-,hr⟩ := h
  obtain ⟨_,-,hr₁⟩ := bind_result hr
  obtain ⟨_,-,hr₂⟩ := bind_result hr₁
  obtain ⟨_,-,hr₃⟩ := bind_result hr₂
  obtain ⟨_,-,hr₄⟩ := bind_result hr₃
  exact (Except.ok.inj hr₄).symm

variable {q : Call V → Prop} {retried : Option ℚ → Outcome Exn Unit}
  {failed : Exn → Outcome Exn Unit} (h : Settling x q retried failed)
include h

theorem Settling.free {α : Type} {p : Run V α} (hp : Only Quiet p) : Only (fun c => ¬q c) p :=
  hp.mono h.quiet

omit h in
theorem reaches_error {α : Type} {failure : FailureInfo} {exc : Option Exn}
    {o : Outcome Exn Unit} {p : Option ExecutionErrorDetail → Run V α}
    (hp : ∀ error, Reaches (Public (publicFailure failure exc)) q (p error)
      [reached x .deliveryAction .entered,o]) :
    Reaches (Public (publicFailure failure exc)) q (do
        let error ← executionError
        p error) (settlementPath x failure exc++[o]) := by
  rw [settlementPath,List.cons_append]
  exact reaches_bind (silent_executionError)
    (yields_executionError (publicFailure failure exc)) fun error _ => hp error

variable (hord : x.delivery.managed = false) (happ : x.applyDeliveryActions = true)
include hord happ

theorem reaches_retried (delayS : Option ℚ) (error : Option ExecutionErrorDetail) :
    Reaches I q (applyRetry x delayS error) [reached x .deliveryAction .entered,retried delayS] := by
  refine reaches_bind (h.free x (quiet_checkpoint x _ _)) (yields_checkpoint x _ _) fun _ _ => ?_
  refine reaches_bind_only ?_ fun _ _ => h.free x (quiet_checkpoint x _ _)
  simp only [whenApplied,happ,if_true,settleRetry,hord,Bool.false_eq_true,if_false]
  exact h.retry I delayS

omit hord in
theorem reaches_failed (exc : Exn) (error : Option ExecutionErrorDetail) :
    Reaches I q (failDelivery x exc error) [reached x .deliveryAction .entered,failed exc] := by
  simp only [failDelivery,happ,if_true]
  refine reaches_bind (h.free x (quiet_checkpoint x _ _)) (yields_checkpoint x _ _) fun _ _ => ?_
  refine reaches_bind_only (h.fail I exc error) fun _ _ => ?_
  exact h.free x (only_bind (quiet_checkpoint x _ _) fun _ => only_pure _)

theorem reaches_retryLater (delayS : Option ℚ) {failure : FailureInfo} {exc : Option Exn} :
    Reaches (Public (publicFailure failure exc)) q (retryLater x delayS)
      (settlementPath x failure exc++[retried delayS]) := by
  refine reaches_assign (fun _ ho => ho) (reaches_error x fun error => ?_)
  refine reaches_bind_only (reaches_retried x h hord happ delayS error) fun _ _ => ?_
  exact h.free x (only_bind (quiet_emit x _) fun _ => quiet_captureFailure x)

theorem reaches_original {failure : FailureInfo} {exc : Option Exn} :
    Reaches (Public (publicFailure failure exc)) q (retryOriginal x)
      (settlementPath x failure exc++[retried none]) := by
  refine reaches_assign (fun _ ho => ho) (reaches_error x fun error => ?_)
  refine reaches_bind_only (reaches_retried x h hord happ none error) fun _ _ => ?_
  exact h.free x (only_bind (quiet_emit x _) fun _ => only_pure _)

omit hord in
theorem reaches_finishFailed (exc : Exn) {failure : FailureInfo} :
    Reaches (Public (publicFailure failure (some exc))) q (finishFailed x exc)
      (settlementPath x failure (some exc)++[failed exc]) := by
  refine reaches_error x fun error => ?_
  refine reaches_bind_only (reaches_failed x h happ exc error) fun _ _ => ?_
  exact h.free x (only_bind (only_assign _) fun _ =>
    only_bind (quiet_emit x _) fun _ => quiet_captureFailure x)

theorem reaches_published (exc : Exn) {failure : FailureInfo} {published : Bool}
    (hsinks : x.task.deadLetterSinks ≠ []) (hr : Returns I (publishAttempt x failure) published) :
    Reaches (Public (publicFailure failure (some exc))) q
      ((if published then deadLettered x else retryOriginal x) >>= fun published =>
        if published then finishFailed x exc else captureFailure x)
      (deadLetteredPath x exc failure (deadLetterOutcome x failure)++
        [terminalEnd x retried failed exc failure]) := by
  rw [terminalEnd,if_pos hsinks]
  rcases returns_publishAttempt x hr with ⟨rfl,hok⟩ | ⟨rfl,e,herr⟩
  · rw [hok,deadLetteredPath,List.append_assoc]
    refine reaches_bind (h.free x (quiet_deadLettered x)) (yields_deadLettered x)
      fun published hpub => ?_
    rw [returns_deadLettered x hpub]
    exact reaches_finishFailed x h happ exc
  · rw [herr]
    refine reaches_bind_only (reaches_original x h hord happ) fun published hpub => ?_
    rw [returns_retryOriginal x hpub]
    exact h.free x (quiet_captureFailure x)

theorem reaches_failTerminally (exc : Exn) (failure : FailureInfo) :
    Reaches (Public (publicFailure failure (some exc))) q (failTerminally x exc failure)
      (terminalPath x exc failure++[terminalEnd x retried failed exc failure]) := by
  unfold failTerminally publishIfConfigured terminalPath
  split
  · next hsinks =>
      rw [List.cons_append,List.cons_append]
      simp only [publishDeadLetter,bind_bind]
      refine reaches_assign (J := Public (publicFailure failure (some exc))) (fun _ ho => ho) ?_
      refine reaches_bind (only_lift _) (yields_ofExcept _) fun _ _ => ?_
      refine reaches_bind (only_lift _) (yields_ofExcept _) fun _ _ => ?_
      have hpub := yields_publishAttempt x failure (I := Public (publicFailure failure (some exc)))
      have hsend := reaches_bind (h.free x (quiet_publishAttempt x failure)) hpub
        fun published hr => reaches_published x h hord happ exc hsinks hr
      refine hsend.congr ?_
      cases deadLetterOutcome x failure with
      | ok u => rfl
      | error i => cases i <;> rfl
  · next hsinks =>
      rw [terminalEnd,if_neg hsinks]
      exact reaches_assign (fun _ ho => ho) (reaches_finishFailed x h happ exc)

theorem reaches_decision (exc : Exn) (failure : FailureInfo) :
    Reaches (Public (publicFailure failure (some exc))) q (do
        checkpoint x .failureHook .entered
        runFailureHooks x
        checkpoint x .failureHook .completed
        let action ← ofExcept (x.env.retryPolicy exc failure)
        if action.decision = .retry then retryLater x action.delayS
        else failTerminally x exc failure)
      (decisionPath x exc failure++decidedPath x exc failure++
        [decidedEnd x retried failed exc failure]) := by
  have hpolicy : Reaches (Public (publicFailure failure (some exc))) q (do
        let action ← ofExcept (x.env.retryPolicy exc failure)
        if action.decision = .retry then retryLater x action.delayS
        else failTerminally x exc failure)
      (raises (x.env.retryPolicy exc failure)::
        (decidedPath x exc failure++[decidedEnd x retried failed exc failure])) := by
    unfold decidedPath decidedEnd
    cases x.env.retryPolicy exc failure with
    | error e =>
      rw [ofExcept_error_bind]
      exact reaches_never (only_lift _) (.raised e) _
    | ok action =>
      rw [ofExcept_ok_bind]
      dsimp only
      split
      · exact reaches_retryLater x h hord happ action.delayS
      · exact reaches_failTerminally x h hord happ exc failure
  refine Reaches.congr (reaches_bind (h.free x (quiet_checkpoint x _ _))
    (yields_checkpoint x _ _) fun _ _ =>
    reaches_bind (h.free x (quiet_runFailureHooks x)) (yields_runFailureHooks x)
      fun _ _ => reaches_bind (h.free x (quiet_checkpoint x _ _))
        (yields_checkpoint x _ _) fun _ _ => hpolicy) ?_
  simp [decisionPath]

theorem reaches_handleFailure (exc : Exn) :
    Reaches (fun _ => True) q (handleFailure x exc (failureKind exc))
      (failurePath x exc++[settledEnd x retried failed (.raised exc)]) := by
  unfold handleFailure
  simp only [failurePath,settledEnd]
  cases FailureInfo.fromException exc (failureKind exc) with
  | error e =>
    rw [ofExcept_error_bind]
    exact reaches_never (only_lift _) (.raised e) _
  | ok failure =>
    rw [ofExcept_ok_bind]
    refine reaches_assign (J := fun _ => True) (fun _ _ => trivial) ?_
    refine reaches_skip (silent_snapshotCaptureEnvelope x)
      (yields_snapshotCaptureEnvelope x fun _ _ => trivial) fun _ => ?_
    exact reaches_assign (fun _ _ => rfl) (reaches_decision x h hord happ exc failure)

theorem reaches_handleCancelled :
    Reaches (fun _ => True) q (handleCancelled x) (emitPath x .cancelled++[retried none]) := by
  have hsettle : Reaches (Public (publicFailure cancelledFailure none)) q
      (whenApplied x (settleCancelled x)) [retried none] := by
    simp only [whenApplied,settleCancelled,happ,hord,if_true,if_false,Bool.false_eq_true]
    refine Reaches.congr (reaches_bind (silent_executionError)
      (yields_executionError _) fun _ _ => h.retry _ none) ?_
    rw [errorDetail_cancelled]
    rfl
  refine reaches_assign (J := fun _ => True) (fun _ _ => trivial) ?_
  refine reaches_skip (silent_snapshotCaptureEnvelope x)
    (yields_snapshotCaptureEnvelope x fun _ _ => trivial) fun _ => ?_
  refine reaches_assign (J := Public (publicFailure cancelledFailure none)) (fun _ _ => rfl) ?_
  refine reaches_bind (h.free x (quiet_emit x _)) (yields_emit x _)
    fun _ _ => reaches_bind_only hsettle fun _ _ => ?_
  exact h.free x (only_bind (only_ite (quiet_emit x _) (only_pure ()))
    fun _ => quiet_captureFailure x)

/-- An except clause makes such a call exactly when nothing interrupts, its end included. -/
theorem reaches_settled (i : Interrupt Exn) : Reaches (fun _ => True) q (recover x i)
    (recoveryPath x i++[settledEnd x retried failed i]) := by
  cases i with
  | cancelled =>
    refine reaches_assign (J := fun _ => True) (fun _ _ => trivial) ?_
    exact reaches_bind_only (reaches_handleCancelled x h hord happ) fun _ _ => only_lift _
  | raised exc =>
    exact reaches_assign (J := fun _ => True) (fun _ _ => trivial)
      (reaches_handleFailure x h hord happ exc)

end Reaching

section Recovery
variable (hord : x.delivery.managed = false) (happ : x.applyDeliveryActions = true)
include hord

theorem settling_acts : Settling x (fun c => acts c = true) (fun _ => .ok ()) fun _ => .ok () where
  quiet _ := quiet_acts
  retry _ _ := (reaches_always (q := fun c => acts c = true) (always_call rfl)).congr rfl
  fail _ _ _ := by
    simp only [settleFailure,hord,Bool.false_eq_true,if_false]
    exact (reaches_always (q := fun c => acts c = true)
      (always_attempt (always_bind (always_call rfl)))).congr rfl

theorem recover_ne_ack (i : Interrupt Exn) : Only (fun c => c ≠ .ack) (recover x i) := by
  have hretry : ∀ delayS error, Only (fun c => c ≠ .ack)
      (whenApplied x (settleRetry x delayS error)) := by
    intro delayS error
    refine only_ite ?_ (only_pure ())
    simp only [settleRetry,hord,Bool.false_eq_true,if_false]
    exact only_call (by simp)
  refine only_recover x ?_ hretry (by simp) ?_ ?_ i
  · rintro c hc rfl
    cases hc
  · intro exc error
    refine only_ite (only_bind (only_call (by simp)) fun _ => only_bind ?_ fun _ =>
      only_bind (only_call (by simp)) fun _ => only_pure _) (only_pure _)
    simp only [settleFailure,hord,Bool.false_eq_true,if_false]
    exact only_attempt (only_bind (only_call (by simp)) fun _ => only_pure _)
      fun _ => only_bind (only_call (by simp)) fun _ => only_pure _
  · refine only_ite (only_bind silent_executionError fun error => ?_) (only_pure ())
    simp only [hord,Bool.false_eq_true,if_false]
    exact only_call (by simp)

omit hord in
/-- What an interruption leads to, once nothing interrupts on the way, is a retry or a failure. -/
theorem settledEnd_kind (i : Interrupt Exn) (h : first (recoveryPath x i) = .ok ()) :
    (∃ delayS, ∀ retried failed, settledEnd x retried failed i = retried delayS) ∨
      ∃ exc, i = .raised exc ∧ ∀ retried failed, settledEnd x retried failed i = failed exc := by
  rw [first_ok_iff] at h
  cases i with
  | cancelled => exact .inl ⟨none,fun _ _ => rfl⟩
  | raised exc =>
    rw [recoveryPath,failurePath] at h
    simp only [settledEnd]
    cases hfailure : FailureInfo.fromException exc (failureKind exc) with
    | error e =>
      rw [hfailure] at h
      exact absurd (h _ (List.mem_singleton_self _)) (by simp)
    | ok failure =>
      rw [hfailure] at h
      dsimp only at h ⊢
      simp only [decidedEnd]
      cases hpolicy : x.env.retryPolicy exc failure with
      | error e =>
        have hraised := h (raises (x.env.retryPolicy exc failure)) (by simp [decisionPath])
        rw [hpolicy] at hraised
        cases hraised
      | ok action =>
        by_cases hretry : action.decision = .retry
        · exact .inl ⟨action.delayS,fun _ _ => if_pos hretry⟩
        · simp only [if_neg hretry,terminalEnd]
          by_cases hsinks : x.task.deadLetterSinks ≠ []
          · simp only [if_pos hsinks]
            cases hsent : deadLetterOutcome x failure with
            | ok u => exact .inr ⟨exc,rfl,fun _ _ => rfl⟩
            | error j =>
              cases j with
              | raised e => exact .inl ⟨none,fun _ _ => rfl⟩
              | cancelled =>
                exact absurd (h (.error .cancelled) (by simp [decidedPath,hpolicy,hretry,
                  terminalPath,hsinks,hsent,deadLetteredPath])) (by simp)
          · simp only [if_neg hsinks]
            exact .inr ⟨exc,rfl,fun _ _ => rfl⟩

omit hord in
theorem settledEnd_ok (i : Interrupt Exn) (h : first (recoveryPath x i) = .ok ()) :
    settledEnd x (fun _ => .ok ()) (fun _ => .ok ()) i = .ok () := by
  rcases settledEnd_kind x i h with ⟨delayS,hretried⟩ | ⟨exc,-,hfailed⟩
  · exact hretried _ _
  · exact hfailed _ _

include happ

theorem reaches_recover (i : Interrupt Exn) :
    Reaches (fun _ => True) (fun c => acts c = true) (recover x i) (recoveryPath x i) := by
  refine (reaches_settled x (settling_acts x hord) hord happ i).congr ?_
  cases hfirst : first (recoveryPath x i) with
  | ok u =>
    rw [first_append_of_ok hfirst,settledEnd_ok x i hfirst]
    rfl
  | error e => rw [first_append,hfirst]

end Recovery

theorem quiet_unapplied (happ : x.applyDeliveryActions = false) : Only Quiet (execute x) := by
  have hnone : ∀ p : Run V Unit, Only Quiet (whenApplied x p) := by
    intro p
    simp only [whenApplied,happ,Bool.false_eq_true,if_false]
    exact only_pure ()
  have hfail : ∀ exc error, Only Quiet (failDelivery x exc error) := by
    intro exc error
    simp only [failDelivery,happ,Bool.false_eq_true,if_false]
    exact only_pure true
  refine only_handle ?_ (only_recover x attending_quiet (fun _ _ => hnone _) (fun _ _ _ => rfl)
    hfail (hnone _))
  exact only_bind (quiet_process x) fun _ => only_bind (hnone _) fun _ =>
    only_bind (quiet_announce x) fun _ => only_assign _

section Samples

/-- Every call returns, and the handler returns 7. -/
def calm : Env ℤ where
  outcome _ := .ok ()
  handler := .ok (some 7)
  predicate _ := .ok true
  transform _ := .ok (some 7)
  isStopping _ _ := false
  cancelRequested := false
  retryPolicy _ _ := .ok ⟨.fail,none⟩
  copyMeta _ := .ok ()
  succeededMeta := .ok ()
  copyPayload := .ok ()
  copyOriginalMeta := .ok ()
  copyEnvelope := .ok ()
  copyResult := .ok ()

/-- One sink, one dead-letter sink and one event handler. -/
def resize : TaskSpec where
  appName := "images"
  name := "resize"
  sourceName := some "queue"
  before := 0
  afterSuccess := 0
  onFailure := 0
  emitTargets := [.binding {sink := {name := "thumbnails"}}]
  deadLetterSinks := [{name := "failed"}]
  eventHandlers := 1
  capture := none

def executing (env : Env ℤ) : Executor ℤ where
  task := resize
  delivery := ⟨some 3,none,0,false⟩
  env := env
  applyDeliveryActions := true

end Samples

section Settled
variable (hord : x.delivery.managed = false) (happ : x.applyDeliveryActions = true)

/-- What the try block does once everything before the acknowledgement returned. -/
def acknowledge : Run V Unit := do
  await x .ack
  announce x
  assign fun o => {o with completion := .succeeded, terminal := true}

/-- Where an execution was interrupted, and what it called. -/
inductive Course (x : Executor V) : List (Call V) → Prop
  | processing {i : Interrupt Exn} {before : List (Call V)} (o : ExecutionOutcome V) :
      first (processPath x) = .error i → (∀ c ∈ before, Quiet c) →
      Course x (before++((recover x i).run o).calls)
  | acknowledging {i : Interrupt Exn} {before : List (Call V)} (o : ExecutionOutcome V) :
      first (processPath x) = .ok () → x.env.outcome .ack = .error i →
      (∀ c ∈ before, Quiet c) → Course x (before++.ack::((recover x i).run o).calls)
  | announcing {i : Interrupt Exn} {before after : List (Call V)} (o : ExecutionOutcome V) :
      first (processPath x) = .ok () → x.env.outcome .ack = .ok () →
      first (announcePath x) = .error i → (∀ c ∈ before, Quiet c) → (∀ c ∈ after, Quiet c) →
      Course x (before++.ack::(after++((recover x i).run o).calls))
  | succeeded {before after : List (Call V)} :
      first (processPath x) = .ok () → x.env.outcome .ack = .ok () →
      first (announcePath x) = .ok () → (∀ c ∈ before, Quiet c) → (∀ c ∈ after, Quiet c) →
      Course x (before++.ack::after)

theorem calls_of_interrupted {i : Interrupt Exn} (h : ((attemptDelivery x).run {}).result = .error i) :
    calls x = ((attemptDelivery x).run {}).calls++
      ((recover x i).run ((attemptDelivery x).run {}).state).calls := by
  rw [calls,execute,handle_of_error h]
  rfl

theorem calls_of_returned {u : Unit} (h : ((attemptDelivery x).run {}).result = .ok u) :
    calls x = ((attemptDelivery x).run {}).calls := by
  rw [calls,execute,handle_of_ok h]

include hord happ

theorem attemptDelivery_of_processed {result : Option V}
    (h : ((process x).run {}).result = .ok result) :
    (attemptDelivery x).run {} =
      ((acknowledge x).run ((process x).run {}).state).andThen ((process x).run {}).calls := by
  have hrest : (whenApplied x (applySuccess x result) >>= fun _ => announce x >>= fun _ =>
      assign fun o => {o with completion := .succeeded, terminal := true}) = acknowledge x := by
    simp only [whenApplied,applySuccess,happ,hord,if_true,Bool.false_eq_true,if_false]
    rfl
  rw [← hrest]
  exact bind_of_ok h

theorem course : Course x (calls x) := by
  have hquiet : ∀ c ∈ ((process x).run {}).calls, Quiet c := quiet_process x {}
  have hproc := (yields_process x {} trivial).1
  cases hp : ((process x).run {}).result with
  | error i =>
    have hrun : (attemptDelivery x).run {} = ⟨.error i,((process x).run {}).state,
        ((process x).run {}).calls⟩ := bind_of_error hp
    rw [hp] at hproc
    rw [calls_of_interrupted x (i := i) (by rw [hrun]),hrun]
    exact .processing _ hproc.symm hquiet
  | ok result =>
    rw [hp] at hproc
    have hrun := attemptDelivery_of_processed x hord happ hp
    generalize ((process x).run {}).state = o at hrun
    generalize ((process x).run {}).calls = before at hrun hquiet
    cases hack : x.env.outcome .ack with
    | error i =>
      have hawait : (acknowledge x).run o = ⟨.error i,o,[.ack]⟩ := bind_of_error hack
      rw [hawait] at hrun
      rw [calls_of_interrupted x (i := i) (by rw [hrun]; rfl),hrun]
      change Course x ((before++[.ack])++_)
      rw [List.append_assoc]
      exact .acknowledging o hproc.symm hack hquiet
    | ok u =>
      have hafter : ∀ c ∈ ((announce x).run o).calls, Quiet c := quiet_announce x o
      have hann := (yields_announce x (I := fun _ => True) o trivial).1
      have hawait : (acknowledge x).run o = ((announce x >>= fun _ =>
          assign fun o => {o with completion := .succeeded, terminal := true}).run o).andThen
            [.ack] := bind_of_ok hack
      cases ha : ((announce x).run o).result with
      | error i =>
        rw [ha] at hann
        rw [bind_of_error ha] at hawait
        rw [hawait] at hrun
        rw [calls_of_interrupted x (i := i) (by rw [hrun]; rfl),hrun]
        change Course x ((before++([.ack]++((announce x).run o).calls))++_)
        rw [List.append_assoc,List.append_assoc]
        exact .announcing _ hproc.symm hack hann.symm hquiet hafter
      | ok v =>
        rw [ha] at hann
        rw [bind_of_ok ha] at hawait
        rw [hawait] at hrun
        rw [calls_of_returned x (u := ()) (by rw [hrun]; rfl),hrun]
        change Course x (before++([.ack]++(((announce x).run o).calls++[])))
        rw [List.append_nil]
        exact .succeeded hproc.symm hack hann.symm hquiet hafter

theorem acts_reached : (∃ c ∈ calls x, acts c = true) ↔ (first (processPath x) = .ok () ∨
    ∃ i, first (processPath x) = .error i ∧ first (recoveryPath x i) = .ok ()) := by
  generalize hcalls : calls x = cs
  have hcourse := course x hord happ
  rw [hcalls] at hcourse
  cases hcourse with
  | processing o hproc hq =>
    rw [acts_append_quiet hq,reaches_recover x hord happ _ o trivial]
    simp [hproc]
  | acknowledging o hproc hi hq =>
    rw [acts_append_quiet hq]
    exact iff_of_true (acts_ack _) (.inl hproc)
  | announcing o hproc hok hi hq hq' =>
    rw [acts_append_quiet hq]
    exact iff_of_true (acts_ack _) (.inl hproc)
  | succeeded hproc hok hann hq hq' =>
    rw [acts_append_quiet hq]
    exact iff_of_true (acts_ack _) (.inl hproc)

/-- The try block of an ordinary delivery. -/
def tryPath : List (Outcome Exn Unit) := processPath x++x.env.outcome .ack::announcePath x

theorem yields_try : Yields (fun _ => True) (attemptDelivery x) (tryPath x) := by
  refine yields_bind (yields_process x) fun result _ => ?_
  refine yields_bind (l := [x.env.outcome .ack]) ?_ fun _ _ => ?_
  · simp only [whenApplied,applySuccess,happ,hord,if_true,Bool.false_eq_true,if_false]
    exact yields_await x _
  · refine (yields_bind (yields_announce x) fun _ _ => yields_assign fun _ _ => trivial).congr ?_
    exact List.append_nil _

theorem only_try : Only (fun c => c = .ack ∨ Quiet c) (attemptDelivery x) := by
  have hquiet : ∀ c : Call V, Quiet c → c = .ack ∨ Quiet c := fun _ => .inr
  refine only_bind ((quiet_process x).mono hquiet) fun _ => only_bind ?_ fun _ =>
    only_bind ((quiet_announce x).mono hquiet) fun _ => only_assign _
  simp only [whenApplied,applySuccess,happ,hord,if_true,Bool.false_eq_true,if_false]
  exact only_call (.inl rfl)

/-- Such a call is made exactly when it is what the interruption leads to. -/
theorem settled_kind {q : Call V → Prop} {retried : Option ℚ → Outcome Exn Unit}
    {failed : Exn → Outcome Exn Unit} (h : Settling x q retried failed) {i : Interrupt Exn}
    (hpath : first (recoveryPath x i) = .ok ()) (o : ExecutionOutcome V) :
    (∃ c ∈ ((recover x i).run o).calls, q c) ↔ settledEnd x retried failed i = .ok () := by
  rw [reaches_settled x h hord happ i o trivial,first_append_of_ok hpath,first_singleton]

omit happ

theorem settleFailure_calls (exc : Exn) (error : Option ExecutionErrorDetail)
    (o : ExecutionOutcome V) : ((settleFailure x exc error).run o).calls =
      match x.env.outcome (.fail exc) with
      | .error (.raised _) => [.fail exc,.retry none]
      | _ => [.fail exc] := by
  have hawait : ((await x (.fail exc)).run o).result = x.env.outcome (.fail exc) := rfl
  simp only [settleFailure,hord,Bool.false_eq_true,if_false]
  unfold attempt
  cases hf : x.env.outcome (.fail exc) with
  | ok u =>
    rw [hf] at hawait
    rw [handle_of_ok (a := true) (by rw [bind_of_ok hawait]; rfl),bind_of_ok hawait]
    rfl
  | error i =>
    rw [hf] at hawait
    rw [handle_of_error (i := i) (by rw [bind_of_error hawait]),bind_of_error hawait]
    cases i with
    | cancelled => rfl
    | raised e =>
      change [Call.fail exc]++((await x (.retry none) >>= fun _ => pure false).run o).calls = _
      cases hr : x.env.outcome (.retry none) with
      | ok u =>
        have hretry : ((await x (.retry none)).run o).result = .ok u := hr
        rw [bind_of_ok hretry]
        rfl
      | error j =>
        have hretry : ((await x (.retry none)).run o).result = .error j := hr
        rw [bind_of_error hretry]
        rfl

omit hord in
theorem awaits_iff {I : ExecutionOutcome V → Prop} {q : Call V → Prop} {c : Call V}
    {o : Outcome Exn Unit} (h : q c ↔ o = .ok ()) : Reaches I q (await x c) [o] := by
  intro s _
  rw [first_singleton,← h]
  change (∃ d ∈ [c],q d) ↔ _
  simp

def Retry (c : Call V) : Prop := ∃ delayS, c = .retry delayS

/-- A call to `fail` that is cancelled. -/
def CutFail (c : Call V) : Prop := ∃ exc, c = .fail exc ∧ x.env.outcome c = .error .cancelled

/-- Whether a failing is followed by a retry: only an exception falls back to one. -/
def fallback : Outcome Exn Unit → Outcome Exn Unit
  | .error (.raised _) => .ok ()
  | _ => .error .cancelled

def cut : Outcome Exn Unit → Outcome Exn Unit
  | .error .cancelled => .ok ()
  | _ => .error .cancelled

theorem settling_retry :
    Settling x Retry (fun _ => .ok ()) fun exc => fallback (x.env.outcome (.fail exc)) where
  quiet c hq := by
    rintro ⟨delayS,rfl⟩
    cases hq
  retry _ delayS := awaits_iff x (iff_of_true ⟨delayS,rfl⟩ rfl)
  fail _ exc error := by
    intro o _
    rw [settleFailure_calls x hord,first_singleton]
    cases x.env.outcome (.fail exc) with
    | ok u => simp [Retry,fallback]
    | error i => cases i <;> simp [Retry,fallback]

theorem settling_cutFail :
    Settling x (CutFail x) (fun _ => .error .cancelled) fun exc => cut (x.env.outcome (.fail exc)) where
  quiet c hq := by
    rintro ⟨exc,rfl,-⟩
    cases hq
  retry _ delayS := awaits_iff x (by simp [CutFail])
  fail _ exc error := by
    intro o _
    rw [settleFailure_calls x hord,first_singleton]
    cases hf : x.env.outcome (.fail exc) with
    | ok u => simp [CutFail,cut,hf]
    | error i => cases i <;> simp [CutFail,cut,hf]

/-- The delivery is settled; an exception in the try block leads to a retry or a failure, and
a cancellation of the try block, or of the failing itself, to a retry. -/
structure Settled : Prop where
  acted : ∃ c ∈ calls x, acts c = true
  failed : ∀ exc, ((attemptDelivery x).run {}).result = .error (.raised exc) →
    ∃ c ∈ calls x, Retry c ∨ ∃ exc, c = .fail exc
  cancelled : ((attemptDelivery x).run {}).result = .error .cancelled → ∃ c ∈ calls x, Retry c
  cutFail : (∃ c ∈ calls x, CutFail x c) → ∃ c ∈ calls x, Retry c

omit hord in
theorem acts_iff (c : Call V) : acts c = true ↔ c = .ack ∨ Retry c ∨ ∃ exc, c = .fail exc := by
  cases c <;> simp [acts,Retry]

include happ

theorem result_try (i : Interrupt Exn) :
    ((attemptDelivery x).run {}).result = .error i ↔ first (tryPath x) = .error i := by
  rw [← (yields_try x hord happ {} trivial).1,void_error]

/-- The except clauses settle what the try block left. -/
theorem calls_kind {q : Call V → Prop} (hq : ∀ c, Quiet c → ¬q c) (hack : ¬q .ack)
    {i : Interrupt Exn} (h : first (tryPath x) = .error i) : (∃ c ∈ calls x, q c) ↔
      ∃ c ∈ ((recover x i).run ((attemptDelivery x).run {}).state).calls, q c := by
  rw [calls_of_interrupted x ((result_try x hord happ i).mpr h)]
  constructor
  · rintro ⟨c,hc,hqc⟩
    rcases List.mem_append.mp hc with hc | hc
    · rcases only_try x hord happ {} c hc with rfl | hquiet
      · exact absurd hqc hack
      · exact absurd hqc (hq c hquiet)
    · exact ⟨c,hc,hqc⟩
  · rintro ⟨c,hc,hqc⟩
    exact ⟨c,List.mem_append_right _ hc,hqc⟩

/-- Once the try block is over, nothing is retried and nothing failed. -/
theorem settled_of_ok (h : first (tryPath x) = .ok ()) : Settled x := by
  have hno : ∀ i, ((attemptDelivery x).run {}).result ≠ .error i := by
    intro i hi
    rw [(result_try x hord happ i).mp hi] at h
    cases h
  refine ⟨(acts_reached x hord happ).mpr (.inl (first_append_ok.mp h).1),
    fun exc hexc => absurd hexc (hno _),fun hc => absurd hc (hno _),?_⟩
  rintro ⟨c,hc,exc,rfl,-⟩
  cases hr : ((attemptDelivery x).run {}).result with
  | error i => exact absurd hr (hno i)
  | ok u =>
    rw [calls_of_returned x hr] at hc
    rcases only_try x hord happ {} _ hc with hack | hquiet
    · cases hack
    · cases hquiet

theorem settled_of_error {i : Interrupt Exn} (h : first (tryPath x) = .error i) :
    Settled x ↔ first (recoveryPath x i) = .ok () ∧
      settledEnd x (fun _ => .ok ()) (fun exc => dropped (x.env.outcome (.fail exc))) i = .ok () := by
  have hresult := (result_try x hord happ i).mpr h
  generalize ho : ((attemptDelivery x).run {}).state = o
  have hacts := reaches_recover x hord happ i o trivial
  have hretry := calls_kind x hord happ (settling_retry x hord).quiet (by simp [Retry]) h
  have hcut := calls_kind x hord happ (settling_cutFail x hord).quiet (by simp [CutFail]) h
  have hagain := calls_kind x (q := fun c => Retry c ∨ ∃ exc, c = .fail exc) hord happ
    (fun c hc hq => quiet_acts hc ((acts_iff c).mpr (.inr hq))) (by simp [Retry]) h
  rw [ho] at hretry hcut hagain
  have hsame : (∃ c ∈ ((recover x i).run o).calls, Retry c ∨ ∃ exc, c = .fail exc) ↔
      first (recoveryPath x i) = .ok () := by
    rw [← hacts]
    constructor
    · rintro ⟨c,hc,hq⟩
      exact ⟨c,hc,(acts_iff c).mpr (.inr hq)⟩
    · rintro ⟨c,hc,hact⟩
      exact ⟨c,hc,((acts_iff c).mp hact).resolve_left (recover_ne_ack x hord i o c hc)⟩
  rw [hsame] at hagain
  have hpath : Settled x → first (recoveryPath x i) = .ok () := by
    intro hs
    rw [← hagain]
    cases i with
    | raised exc => exact hs.failed exc hresult
    | cancelled =>
      obtain ⟨c,hc,hr⟩ := hs.cancelled hresult
      exact ⟨c,hc,.inl hr⟩
  have hacted : first (recoveryPath x i) = .ok () → ∃ c ∈ calls x, acts c = true := by
    intro hp
    obtain ⟨c,hc,hq⟩ := hagain.mpr hp
    exact ⟨c,hc,(acts_iff c).mpr (.inr hq)⟩
  by_cases hp : first (recoveryPath x i) = .ok ()
  · rw [settled_kind x hord happ (settling_retry x hord) hp] at hretry
    rw [settled_kind x hord happ (settling_cutFail x hord) hp] at hcut
    rcases settledEnd_kind x i hp with ⟨delayS,hkind⟩ | ⟨exc,rfl,hkind⟩
    · rw [hkind] at hretry ⊢
      refine iff_of_true ?_ ⟨hp,rfl⟩
      exact ⟨hacted hp,fun _ _ => hagain.mpr hp,fun _ => hretry.mpr rfl,fun _ => hretry.mpr rfl⟩
    · rw [hkind] at hretry hcut ⊢
      have hnot : ((attemptDelivery x).run {}).result ≠ .error .cancelled := by
        rw [hresult]
        exact fun he => by cases he
      constructor
      · intro hs
        refine ⟨hp,?_⟩
        have hfall := fun hc => hretry.mp (hs.cutFail (hcut.mpr hc))
        cases hf : x.env.outcome (.fail exc) with
        | ok u => rfl
        | error j =>
          rw [hf] at hfall
          cases j with
          | raised e => rfl
          | cancelled => cases hfall rfl
      · rintro ⟨-,hdropped⟩
        refine ⟨hacted hp,fun _ _ => hagain.mpr hp,fun hc => absurd hc hnot,fun hc => ?_⟩
        have hcancelled := hcut.mp hc
        cases hf : x.env.outcome (.fail exc) with
        | ok u =>
          rw [hf] at hcancelled
          cases hcancelled
        | error j =>
          rw [hf] at hcancelled hdropped
          cases j with
          | raised e => cases hcancelled
          | cancelled => cases hdropped
  · exact iff_of_false (fun hs => hp (hpath hs)) fun hr => hp hr.1

omit happ in
/-- An ordinary delivery is settled as it should be exactly when nothing between the first
interruption and its settlement interrupts again, and the failing it leads to is not cancelled. -/
theorem settles_iff : Settled x ↔ x.applyDeliveryActions = true ∧
    ∀ i, first (tryPath x) = .error i → first (recoveryPath x i) = .ok () ∧
      settledEnd x (fun _ => .ok ()) (fun exc => dropped (x.env.outcome (.fail exc))) i = .ok () := by
  cases happ : x.applyDeliveryActions with
  | false =>
    constructor
    · rintro ⟨⟨c,hc,hact⟩,-⟩
      exact absurd hact (quiet_acts (quiet_unapplied x happ {} c hc))
    · rintro ⟨h,-⟩
      cases h
  | true =>
    cases h : first (tryPath x) with
    | ok u => exact iff_of_true (settled_of_ok x hord happ h) ⟨rfl,fun i hi => by cases hi⟩
    | error i =>
      rw [settled_of_error x hord happ h]
      constructor
      · rintro hs
        refine ⟨rfl,fun j hj => ?_⟩
        cases hj
        exact hs
      · rintro ⟨-,hs⟩
        exact hs i rfl

end Settled

/-- The handler is cancelled. -/
def cancelledHandler : Env ℤ := {calm with handler := .error .cancelled}

/-- The cancelled handler leads to a retry. -/
theorem cancelledHandler_settles : (executing cancelledHandler).delivery.managed = false ∧
    first (tryPath (executing cancelledHandler)) = .error .cancelled ∧
    Settled (executing cancelledHandler) := by
  refine ⟨rfl,rfl,(settles_iff (executing cancelledHandler) rfl).mpr ⟨rfl,fun i hi => ?_⟩⟩
  cases hi
  exact ⟨rfl,rfl⟩

/-- The handler raises, the policy gives up, and the payload cannot be copied for
the dead-letter sink. -/
def uncopyable : Env ℤ :=
  {calm with
    handler := .error (.raised (.plain "RuntimeError"))
    copyPayload := .error (.plain "TypeError")}

/-- No settlement is called. -/
theorem uncopyable_unsettled : ¬Settled (executing uncopyable) := by
  have hnone : (calls (executing uncopyable)).countP acts = 0 := by decide +kernel
  rintro ⟨⟨c,hc,hact⟩,-⟩
  exact List.countP_eq_zero.mp hnone c hc hact

section Once

theorem countP_effective_quiet {l : List (Call V)} (hq : ∀ c ∈ l, Quiet c) :
    l.countP (effective x) = 0 :=
  List.countP_eq_zero.mpr fun c hc => by simp [quiet_effective x (hq c hc)]

theorem ineffective_of_quiet {α : Type} {p : Run V α} (h : Only Quiet p) :
    Only (fun c => effective x c = false) p := h.mono fun _ => quiet_effective x

variable (hord : x.delivery.managed = false)
include hord

variable (delayS : Option ℚ)

theorem once_settleRetry (error : Option ExecutionErrorDetail) :
    AtMost 1 (effective x) (whenApplied x (settleRetry x delayS error)) := by
  refine atMost_ite ?_ (atMost_only (only_pure ()))
  simp only [settleRetry,hord,Bool.false_eq_true,if_false]
  exact atMost_call _ _

variable (exc : Exn)

/-- A failing that raises is not effective, and only then the delivery is retried. -/
theorem once_settleFailure (error : Option ExecutionErrorDetail) :
    AtMost 1 (effective x) (settleFailure x exc error) := by
  simp only [settleFailure,hord,Bool.false_eq_true,if_false]
  intro o
  have hawait : ((await x (.fail exc)).run o).result = x.env.outcome (.fail exc) := rfl
  unfold attempt
  cases hf : x.env.outcome (.fail exc) with
  | ok u =>
    rw [hf] at hawait
    rw [handle_of_ok (a := true) (by rw [bind_of_ok hawait]; rfl),bind_of_ok hawait]
    exact List.countP_le_length
  | error i =>
    rw [hf] at hawait
    have hnot : effective x (.fail exc) = false := by
      simp [effective,hf,Except.isOk,Except.toBool]
    rw [handle_of_error (i := i) (by rw [bind_of_error hawait]),bind_of_error hawait]
    cases i with
    | cancelled => exact List.countP_le_length
    | raised e =>
      change List.countP (effective x) ([.fail exc]++_) ≤ 1
      rw [List.countP_append,List.countP_singleton,hnot]
      have hretry : AtMost 1 (effective x) (await x (.retry none) >>= fun _ => pure false) :=
        atMost_bind_quiet (atMost_call _ _) fun _ => only_pure _
      simpa using hretry ((await x (.fail exc)).run o).state

theorem once_applyRetry (error : Option ExecutionErrorDetail) :
    AtMost 1 (effective x) (applyRetry x delayS error) :=
  atMost_bind_right (ineffective_of_quiet x (quiet_checkpoint x _ _)) fun _ =>
    atMost_bind_quiet (once_settleRetry x hord delayS error) fun _ =>
      ineffective_of_quiet x (quiet_checkpoint x _ _)

theorem once_failDelivery (error : Option ExecutionErrorDetail) :
    AtMost 1 (effective x) (failDelivery x exc error) := by
  refine atMost_ite ?_ (atMost_only (only_pure _))
  refine atMost_bind_right (ineffective_of_quiet x (quiet_checkpoint x _ _)) fun _ => ?_
  refine atMost_bind_quiet (once_settleFailure x hord exc error) fun _ => ?_
  exact ineffective_of_quiet x (only_bind (quiet_checkpoint x _ _) fun _ => only_pure _)

theorem once_retryLater : AtMost 1 (effective x) (retryLater x delayS) := by
  refine atMost_bind_right (only_assign _) fun _ => ?_
  refine atMost_bind_right (silent_executionError) fun error => ?_
  refine atMost_bind_quiet (once_applyRetry x hord delayS error) fun _ => ?_
  exact ineffective_of_quiet x (only_bind (quiet_emit x _) fun _ => quiet_captureFailure x)

theorem once_retryOriginal : AtMost 1 (effective x) (retryOriginal x) := by
  refine atMost_bind_right (only_assign _) fun _ => ?_
  refine atMost_bind_right (silent_executionError) fun error => ?_
  refine atMost_bind_quiet (once_applyRetry x hord none error) fun _ => ?_
  exact ineffective_of_quiet x (only_bind (quiet_emit x _) fun _ => only_pure _)

theorem once_finishFailed : AtMost 1 (effective x) (finishFailed x exc) := by
  refine atMost_bind_right (silent_executionError) fun error => ?_
  refine atMost_bind_quiet (once_failDelivery x hord exc error) fun _ => ?_
  exact ineffective_of_quiet x (only_bind (only_assign _) fun _ =>
    only_bind (quiet_emit x _) fun _ => quiet_captureFailure x)

theorem once_published (published : Bool) :
    AtMost 1 (effective x)
      ((if published then deadLettered x else retryOriginal x) >>= fun published =>
        if published then finishFailed x exc else captureFailure x) := by
  have hend : ∀ published : Bool, AtMost 1 (effective x)
      (if published then finishFailed x exc else captureFailure x) := fun _ =>
    atMost_ite (once_finishFailed x hord exc)
      (atMost_only (ineffective_of_quiet x (quiet_captureFailure x)))
  cases published with
  | true => exact atMost_bind_right (ineffective_of_quiet x (quiet_deadLettered x)) hend
  | false =>
    refine atMost_bind_left (P := fun published => published = true)
      (once_retryOriginal x hord) ?_ (fun published _ => hend published) ?_
    · intro o published hr hpub
      have hfalse := returns_retryOriginal x (I := fun _ => True) ⟨o,trivial,hr⟩
      rw [hpub] at hfalse
      cases hfalse
    · intro published hpub
      rw [if_neg hpub]
      exact ineffective_of_quiet x (quiet_captureFailure x)

theorem once_failTerminally (failure : FailureInfo) :
    AtMost 1 (effective x) (failTerminally x exc failure) := by
  unfold failTerminally publishIfConfigured
  split
  · simp only [publishDeadLetter,bind_bind]
    refine atMost_bind_right (only_assign _) fun _ => ?_
    refine atMost_bind_right (only_lift _) fun _ => atMost_bind_right (only_lift _) fun _ => ?_
    exact atMost_bind_right (ineffective_of_quiet x (quiet_publishAttempt x failure))
      fun published => once_published x hord exc published
  · rw [bind_bind]
    exact atMost_bind_right (only_assign _) fun _ => once_finishFailed x hord exc

/-- The except clauses settle at most once with effect. -/
theorem once_recover (i : Interrupt Exn) : AtMost 1 (effective x) (recover x i) := by
  cases i with
  | raised exc =>
    refine atMost_bind_right (only_assign _) fun _ => ?_
    refine atMost_bind_right (only_lift _) fun failure => ?_
    refine atMost_bind_right (only_assign _) fun _ => ?_
    refine atMost_bind_right (silent_snapshotCaptureEnvelope x)
      fun _ => ?_
    refine atMost_bind_right (only_assign _) fun _ => ?_
    refine atMost_bind_right (ineffective_of_quiet x (quiet_checkpoint x _ _)) fun _ => ?_
    refine atMost_bind_right (ineffective_of_quiet x (quiet_runFailureHooks x)) fun _ => ?_
    refine atMost_bind_right (ineffective_of_quiet x (quiet_checkpoint x _ _)) fun _ => ?_
    refine atMost_bind_right (only_lift _) fun action => ?_
    exact atMost_ite (once_retryLater x hord _) (once_failTerminally x hord exc failure)
  | cancelled =>
    have hsettle : AtMost 1 (effective x) (whenApplied x (settleCancelled x)) := by
      refine atMost_ite ?_ (atMost_only (only_pure ()))
      refine atMost_bind_right (silent_executionError) fun error => ?_
      simp only [hord,Bool.false_eq_true,if_false]
      exact atMost_call _ _
    refine atMost_bind_right (only_assign _) fun _ => ?_
    refine atMost_bind_quiet ?_ fun _ => only_lift _
    refine atMost_bind_right (only_assign _) fun _ => ?_
    refine atMost_bind_right (silent_snapshotCaptureEnvelope x)
      fun _ => ?_
    refine atMost_bind_right (only_assign _) fun _ => ?_
    refine atMost_bind_right (ineffective_of_quiet x (quiet_emit x _)) fun _ => ?_
    refine atMost_bind_quiet hsettle fun _ => ineffective_of_quiet x ?_
    exact only_bind (only_ite (quiet_emit x _) (only_pure ())) fun _ => quiet_captureFailure x

end Once

/-- At most one settlement returns, and none follows an acknowledgement that did. -/
structure SettledOnce : Prop where
  once : (calls x).countP (effective x) ≤ 1
  final : .ack ∈ calls x → x.env.outcome .ack = .ok () →
    ∀ c ∈ calls x, (∀ delayS, c ≠ .retry delayS) ∧ ∀ exc, c ≠ .fail exc

theorem acts_settles_again (hact : acts c = true) (hne : c ≠ .ack) :
    ¬((∀ delayS, c ≠ .retry delayS) ∧ ∀ exc, c ≠ .fail exc) := by
  rintro ⟨hretry,hfail⟩
  cases c with
  | ack => exact hne rfl
  | retry delayS => exact hretry delayS rfl
  | fail exc => exact hfail exc rfl
  | _ => cases hact

theorem quiet_not_again (hq : ¬acts c = true) :
    (∀ delayS, c ≠ .retry delayS) ∧ ∀ exc, c ≠ .fail exc := by
  constructor
  · rintro delayS rfl
    exact hq rfl
  · rintro exc rfl
    exact hq rfl

theorem settledOnce_of_single {before after : List (Call V)} (h : calls x = before++.ack::after)
    (hb : ∀ c ∈ before, Quiet c) (ha : ∀ c ∈ after, ¬acts c = true) : SettledOnce x := by
  constructor
  · have hafter : after.countP (effective x) = 0 :=
      List.countP_eq_zero.mpr fun c hc => by simp [effective,ha c hc]
    rw [h,List.countP_append,List.countP_cons,countP_effective_quiet x hb,hafter]
    split <;> omega
  · intro _ _ c hc
    rw [h] at hc
    rcases List.mem_append.mp hc with hc | hc
    · exact quiet_not_again (quiet_acts (hb c hc))
    · rcases List.mem_cons.mp hc with rfl | hc
      · simp
      · exact quiet_not_again (ha c hc)

/-- A delivery is settled twice exactly when it was acknowledged, what follows
the acknowledgement was interrupted, and the settlement of that interruption is
reached. -/
theorem settledOnce_iff (hord : x.delivery.managed = false) :
    SettledOnce x ↔ ¬(x.applyDeliveryActions = true ∧ first (processPath x) = .ok () ∧
      x.env.outcome .ack = .ok () ∧
      ∃ i, first (announcePath x) = .error i ∧ first (recoveryPath x i) = .ok ()) := by
  cases happ : x.applyDeliveryActions with
  | false =>
    have hquiet : ∀ c ∈ calls x, Quiet c := quiet_unapplied x happ {}
    refine iff_of_true ⟨?_,?_⟩ (by simp)
    · rw [countP_effective_quiet x hquiet]
      exact Nat.zero_le 1
    · intro hack
      cases hquiet _ hack
  | true =>
    generalize hcalls : calls x = cs
    have hcourse := course x hord happ
    rw [hcalls] at hcourse
    cases hcourse with
    | @processing i before o hproc hq =>
      refine iff_of_true ⟨?_,?_⟩ (by simp [hproc])
      · rw [hcalls,List.countP_append,countP_effective_quiet x hq]
        have hone := once_recover x hord i o
        omega
      · intro hack
        rw [hcalls] at hack
        rcases List.mem_append.mp hack with hack | hack
        · cases hq _ hack
        · exact absurd rfl (recover_ne_ack x hord i o _ hack)
    | @acknowledging i before o hproc hi hq =>
      refine iff_of_true ⟨?_,?_⟩ (by simp [hi])
      · have hnot : effective x .ack = false := by
          simp [effective,hi,Except.isOk,Except.toBool]
        have hone := once_recover x hord i o
        rw [hcalls,List.countP_append,List.countP_cons,countP_effective_quiet x hq,hnot]
        simp only [Bool.false_eq_true,if_false]
        omega
      · intro _ hok
        rw [hi] at hok
        cases hok
    | @announcing i before after o hproc hok hi hq hq' =>
      have hreach := reaches_recover x hord happ i o trivial
      constructor
      · rintro hs ⟨-,-,-,j,hj,hrec⟩
        rw [hi] at hj
        cases hj
        obtain ⟨c,hc,hact⟩ := hreach.mpr hrec
        have hin : c ∈ calls x := by
          rw [hcalls]
          simp [hc]
        refine acts_settles_again hact (recover_ne_ack x hord i o c hc) ?_
        refine hs.final ?_ hok c hin
        rw [hcalls]
        simp
      · intro hno
        have hrec : ¬first (recoveryPath x i) = .ok () := by
          intro hrec
          exact hno ⟨rfl,hproc,hok,i,hi,hrec⟩
        refine settledOnce_of_single x hcalls hq ?_
        intro c hc
        rcases List.mem_append.mp hc with hc | hc
        · exact quiet_acts (hq' c hc)
        · intro hact
          exact hrec (hreach.mp ⟨c,hc,hact⟩)
    | succeeded hproc hok hann hq hq' =>
      refine iff_of_true ?_ (by simp [hann])
      exact settledOnce_of_single x hcalls hq fun c hc => quiet_acts (hq' c hc)

/-- A calm execution settles once. -/
theorem calm_settledOnce : (executing calm).delivery.managed = false ∧
    SettledOnce (executing calm) := by
  have hann : first (announcePath (executing calm)) = .ok () := rfl
  exact ⟨rfl,(settledOnce_iff (executing calm) rfl).mpr (by simp [hann])⟩

/-- The handler of the success event is cancelled. -/
def lateCancel : Env ℤ :=
  {calm with
    outcome := fun c =>
      match c with
      | .eventHandler .succeeded _ => .error .cancelled
      | _ => .ok ()}

/-- The ack is followed by a retry. -/
theorem lateCancel_settled_twice : ¬SettledOnce (executing lateCancel) := by
  have htwo : (calls (executing lateCancel)).countP (effective (executing lateCancel)) = 2 := by
    decide +kernel
  intro h
  have hone := h.once
  rw [htwo] at hone
  omega

end OneStep.DeliverySettlement
