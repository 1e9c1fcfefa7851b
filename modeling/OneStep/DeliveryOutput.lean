import OneStep.DeliverySettlement

/-!
# Output before acknowledgement

Order of the calls of one execution, for ordinary and managed deliveries: a
success is reported only after every selected sink took the result, and a
failure only after the policy gave up and every dead-letter sink took the
envelope. The last part, that a failing dead-letter sink leads to a retry of the
original, needs that nothing interrupts on the way to that retry.
-/
namespace OneStep.DeliveryOutput
open Coroutine ExecutionModel DeliveryModel DeliveryExecutor DeliveryPaths DeliverySettlement

variable {V : Type} (x : Executor V)

section Sends

def isSend : Call V → Bool
  | .send _ _ _ _ => true
  | _ => false

/-- The first send failed with an error that a second one may cure. -/
def Resendable (position : ℕ) (sink : Sink) (body : Option V) : Prop :=
  ∃ e exc, x.env.outcome (.send position 0 sink body) = .error (.raised e) ∧
    e.connector = some exc ∧ isRetryableConnectorError exc = true

/-- At most two sends, the second only after a retryable connector error, and a
normal return only if the last of them succeeded. -/
def SendContract (position : ℕ) (sink : Sink) (body : Option V)
    (r : Ended (ExecutionOutcome V) (Call V) Exn Unit) : Prop :=
  (r.calls.filter isSend = [.send position 0 sink body] ∧
    (r.result = .ok () → x.env.outcome (.send position 0 sink body) = .ok ())) ∨
  (r.calls.filter isSend = [.send position 0 sink body,.send position 1 sink body] ∧
    Resendable x position sink body ∧
    (r.result = .ok () → x.env.outcome (.send position 1 sink body) = .ok ()))

theorem lastTry_run (position : ℕ) (sink : Sink) (body : Option V) (tries : ℕ)
    (s : ExecutionOutcome V) :
    (sendTries x position sink body 1 tries).run s =
      ⟨x.env.outcome (.send position tries sink body),s,[.send position tries sink body]⟩ := by
  have hawait : ((await x (.send position tries sink body)).run s).result =
      x.env.outcome (.send position tries sink body) := rfl
  unfold sendTries attempt
  cases ho : x.env.outcome (.send position tries sink body) with
  | ok u =>
    rw [ho] at hawait
    rw [handle_of_ok hawait]
    exact congrArg (fun o => (⟨o,s,_⟩ : Ended _ _ _ _)) ho
  | error i =>
    rw [ho] at hawait
    rw [handle_of_error hawait]
    cases i with
    | cancelled => rfl
    | raised e =>
      cases he : e.connector with
      | none => simp only [he]; rfl
      | some exc => simp only [he,or_true,if_true]; rfl

/-- One send or two, the second only after an error that it may cure; the last one tells
whether the whole returns. -/
theorem sendToSink_ends (position : ℕ) (sink : Sink) (body : Option V) (s : ExecutionOutcome V)
    {r : Ended (ExecutionOutcome V) (Call V) Exn Unit} (hr : (sendToSink x position sink body).run s = r) :
    (r.calls.filter isSend = [.send position 0 sink body] ∧
      (r.result = .ok () ↔ x.env.outcome (.send position 0 sink body) = .ok ())) ∨
    (r.calls.filter isSend = [.send position 0 sink body,.send position 1 sink body] ∧
      Resendable x position sink body ∧
      (r.result = .ok () ↔ x.env.outcome (.send position 1 sink body) = .ok ())) := by
  have hawait : ((await x (.send position 0 sink body)).run s).result =
      x.env.outcome (.send position 0 sink body) := rfl
  rw [← hr]
  unfold sendToSink sendAttempts sendTries attempt
  cases ho : x.env.outcome (.send position 0 sink body) with
  | ok u =>
    rw [ho] at hawait
    rw [handle_of_ok hawait]
    exact .inl ⟨rfl,iff_of_true ho rfl⟩
  | error i =>
    rw [ho] at hawait
    rw [handle_of_error hawait]
    cases i with
    | cancelled => exact .inl ⟨rfl,iff_of_false nofun nofun⟩
    | raised e =>
      cases he : e.connector with
      | none =>
        simp only [he]
        exact .inl ⟨rfl,iff_of_false nofun nofun⟩
      | some exc =>
        by_cases hretry : isRetryableConnectorError exc = false
        · simp only [he,hretry,true_or,if_true]
          exact .inl ⟨rfl,iff_of_false nofun nofun⟩
        · have hresend : Resendable x position sink body :=
            ⟨e,exc,ho,he,by simpa using hretry⟩
          have hskip : ¬(isRetryableConnectorError exc = false ∨ 1 = 0) := by
            simp [hretry]
          by_cases hnow : connectorRetryDelay exc sink.pollIntervalS ≤ 0 ∨
              x.env.isStopping position 0 = true
          · simp only [he]
            rw [if_neg hskip,if_pos hnow,lastTry_run]
            exact .inr ⟨rfl,hresend,.rfl⟩
          · simp only [he]
            rw [if_neg hskip,if_neg hnow]
            have hwait := waitForShutdown_run x position 0
              ((await x (.send position 0 sink body)).run s).state
            cases hw : waitOutcome (x.env.outcome (.waitForShutdown position 0)) with
            | error i =>
              rw [hw] at hwait
              rw [bind_of_error (by rw [hwait]),hwait]
              exact .inl ⟨rfl,iff_of_false nofun nofun⟩
            | ok timedOut =>
              rw [hw] at hwait
              rw [bind_of_ok (by rw [hwait]),hwait]
              cases timedOut with
              | true =>
                simp only [if_true]
                rw [lastTry_run]
                exact .inr ⟨rfl,hresend,.rfl⟩
              | false => exact .inl ⟨rfl,iff_of_false nofun nofun⟩

theorem sendToSink_contract (position : ℕ) (sink : Sink) (body : Option V)
    (s : ExecutionOutcome V) :
    SendContract x position sink body ((sendToSink x position sink body).run s) :=
  (sendToSink_ends x position sink body s rfl).imp (fun h => ⟨h.1,h.2.mp⟩)
    fun h => ⟨h.1,h.2.1,h.2.2.mp⟩

end Sends

section Kinds

/-- An acknowledgement, or its managed counterpart. -/
def succeeds : Call V → Bool
  | .ack => true
  | .completeExecution completion => completion.status = .succeeded
  | _ => false

def fails : Call V → Bool
  | .fail _ => true
  | .completeExecution completion => completion.status = .failed
  | _ => false

def retries : Call V → Bool
  | .retry _ => true
  | .completeExecution completion => completion.status = .retrying
  | _ => false

/-- The sink and the body of a send that succeeded. -/
def accepted : Call V → Option (Sink × Option V)
  | .send position tries sink body =>
    match x.env.outcome (.send position tries sink body) with
    | .ok () => some (sink,body)
    | .error _ => none
  | _ => none

/-- A dead-letter sink that raised. -/
def Rejected (c : Call V) : Prop :=
  ∃ position sink envelope e, c = .deadLetter position sink envelope ∧
    x.env.outcome c = .error (.raised e)

variable (c : Call V)

theorem quiet_not_succeeds (h : Quiet c) : ¬succeeds c = true := by
  cases c <;> simp_all [Quiet,settlement,succeeds]

theorem quiet_not_fails (h : Quiet c) : ¬fails c = true := by
  cases c <;> simp_all [Quiet,settlement,fails]

theorem attending_not_fails (h : Attending c) : ¬fails c = true :=
  quiet_not_fails c (attending_quiet c h)

theorem quiet_not_retries (h : Quiet c) : ¬retries c = true := by
  cases c <;> simp_all [Quiet,settlement,retries]

theorem plain_not_accepted (h : Plain c) : accepted x c = none := by
  cases c with
  | send position tries sink body => exact h.elim
  | _ => rfl

theorem plain_not_rejected (h : Plain c) : ¬Rejected x c := by
  rintro ⟨position,sink,envelope,e,rfl,-⟩
  exact h

end Kinds

section Completions
variable {P : Call V → Prop}

theorem only_completeManagedExecution {status : CompletionStatus} {result : Option V}
    {error : Option ExecutionErrorDetail} {delayS : Option ℚ}
    (h : ∀ completion : ExecutionCompletion (Option V), completion.status = status →
      P (.completeExecution completion)) :
    Only P (completeManagedExecution x status result error delayS) := by
  unfold completeManagedExecution
  cases hbuild : buildCompletion x status result error delayS with
  | error e => exact only_lift _
  | ok completion =>
    have hstatus : completion.status = status := by
      unfold buildCompletion at hbuild
      split at hbuild
      · cases hbuild
      · split at hbuild
        · cases hbuild
        · exact congrArg ExecutionCompletion.status (Except.ok.inj hbuild).symm
    rw [ofExcept_ok_bind]
    refine only_attempt (only_bind (only_call (h completion hstatus)) fun _ => only_pure _)
      fun e => ?_
    exact only_ite (only_pure _) (only_lift _)

variable (hretry : ∀ delayS, P (.retry delayS))
  (hretrying : ∀ completion : ExecutionCompletion (Option V), completion.status = .retrying →
    P (.completeExecution completion))
include hretry hretrying

theorem only_settleRetry (delayS : Option ℚ) (error : Option ExecutionErrorDetail) :
    Only P (whenApplied x (settleRetry x delayS error)) := by
  refine only_ite (only_ite ?_ (only_call (hretry delayS))) (only_pure ())
  exact only_bind (only_completeManagedExecution x hretrying) fun _ => only_pure _

theorem only_settleCancelled
    (hcancelled : ∀ completion : ExecutionCompletion (Option V), completion.status = .cancelled →
      P (.completeExecution completion)) : Only P (whenApplied x (settleCancelled x)) := by
  refine only_ite (only_bind silent_executionError fun error => ?_) (only_pure ())
  refine only_ite (only_bind (only_completeManagedExecution x ?_) fun _ => only_pure _)
    (only_call (hretry none))
  intro completion hstatus
  unfold managedStatus at hstatus
  split at hstatus
  · exact hcancelled completion hstatus
  · exact hretrying completion hstatus

theorem only_failDelivery (hattend : ∀ c, Attending c → P c) (hfail : ∀ exc, P (.fail exc))
    (hfailed : ∀ completion : ExecutionCompletion (Option V), completion.status = .failed →
      P (.completeExecution completion)) (exc : Exn) (error : Option ExecutionErrorDetail) :
    Only P (failDelivery x exc error) := by
  refine only_ite (only_bind ((attending_checkpoint x _ _).mono hattend) fun _ => only_bind ?_ fun _ =>
    only_bind ((attending_checkpoint x _ _).mono hattend) fun _ => only_pure _) (only_pure _)
  unfold settleFailure
  refine only_ite ?_ ?_
  · refine only_attempt (only_bind (only_completeManagedExecution x hfailed) fun _ => only_pure _)
      fun _ => ?_
    exact only_bind (only_completeManagedExecution x hretrying) fun _ => only_pure _
  · refine only_attempt (only_bind (only_call (hfail exc)) fun _ => only_pure _) fun _ => ?_
    exact only_bind (only_call (hretry none)) fun _ => only_pure _

end Completions

section Success

theorem filterMap_accepted (l : List (Call V)) :
    l.filterMap (accepted x) = (l.filter isSend).filterMap (accepted x) := by
  induction l with
  | nil => rfl
  | cons c l ih =>
    cases c with
    | send position tries sink body =>
      rw [List.filter_cons_of_pos rfl,List.filterMap_cons,List.filterMap_cons,ih]
    | _ => simpa [isSend,List.filterMap_cons,accepted] using ih

theorem accepted_ok {position tries : ℕ} {sink : Sink} {body : Option V}
    (h : x.env.outcome (.send position tries sink body) = .ok ()) :
    accepted x (.send position tries sink body) = some (sink,body) := by
  simp only [accepted,h]

theorem collects_sendToSink (position : ℕ) (sink : Sink) (body : Option V) :
    Collects (accepted x) (sendToSink x position sink body) [(sink,body)] := by
  intro s u hu
  rw [filterMap_accepted]
  rcases sendToSink_contract x position sink body s with ⟨hcalls,hok⟩ |
    ⟨hcalls,⟨e,exc,herr,-,-⟩,hok⟩
  · rw [hcalls,List.filterMap_cons,accepted_ok x (hok hu)]
    rfl
  · have hfirst : accepted x (.send position 0 sink body) = none := by
      simp only [accepted,herr]
    rw [hcalls,List.filterMap_cons,hfirst,List.filterMap_cons,accepted_ok x (hok hu)]
    rfl

theorem collects_sendPrepared (i : ℕ) (rest : List (Sink × Option V)) :
    Collects (accepted x) (sendPrepared x i rest) rest := by
  induction rest generalizing i with
  | nil => exact collects_only (only_pure ())
  | cons p rest ih =>
    exact collects_bind (l := []) (collects_only (only_assign _)) fun _ _ =>
      collects_bind (collects_sendToSink x i p.1 p.2) fun _ _ => ih (i+1)

theorem collects_plain {α : Type} {p : Run V α} (h : Only Plain p) : Collects (accepted x) p [] :=
  collects_only (h.mono (plain_not_accepted x))

/-- The sinks and bodies a result is sent as. -/
def emitted (result : Option V) : List (Sink × Option V) :=
  if result.isSome then prepared x result 0 (selected x 0 x.task.emitTargets) else []

theorem collects_emitResult (result : Option V) :
    Collects (accepted x) (emitResult x result) (emitted x result) := by
  unfold emitResult emitted
  by_cases hsome : result.isSome = true
  · by_cases htargets : x.task.emitTargets = []
    · rw [if_neg (by simp [htargets]),if_pos hsome,htargets]
      exact collects_only (only_pure ())
    · rw [if_pos ⟨hsome,htargets⟩,if_pos hsome]
      have hplain : Collects (accepted x) (emitSelected x result)
          ([]++([]++([]++([]++([]++([]++([]++([]++([]++
            prepared x result 0 (selected x 0 x.task.emitTargets)))))))))) := by
        refine collects_bind (collects_only (only_assign _)) fun _ _ =>
          collects_bind (collects_plain x (plain_checkpoint x _ _)) fun _ _ =>
          collects_bind (collects_plain x (only_selectEmitBindings x (fun _ => trivial) _ _)) fun bindings hb =>
          collects_bind (collects_only (only_assign _)) fun _ _ =>
          collects_bind (collects_plain x (plain_checkpoint x _ _)) fun _ _ =>
          collects_bind (collects_only (only_assign _)) fun _ _ =>
          collects_bind (collects_plain x (plain_checkpoint x _ _)) fun _ _ =>
          collects_bind (collects_plain x (only_prepareEmitEnvelopes x (fun _ => trivial) _ _ _)) fun ps hps =>
          collects_bind (collects_plain x (plain_checkpoint x _ _)) fun _ _ => ?_
        rw [returns_prepareEmitEnvelopes x hps,returns_selectEmitBindings x hb]
        exact collects_sendPrepared x 0 _
      exact hplain
  · rw [if_neg (by simp [hsome]),if_neg hsome]
    exact collects_only (only_pure ())

variable {result : Option V}

theorem collects_process (h : x.env.handler = .ok result) :
    Collects (accepted x) (process x) (emitted x result) := by
  have hcheckpoint : ∀ phase transition, Collects (accepted x) (checkpoint x phase transition) [] :=
    fun _ _ => collects_plain x (plain_checkpoint x _ _)
  have hassign : ∀ f, Collects (accepted x) (assign f : Run V Unit) [] :=
    fun _ => collects_only (only_assign _)
  have hcalls : Collects (accepted x) (process x)
      ([]++([]++([]++([]++([]++([]++([]++([]++([]++([]++([]++([]++([]++([]++([]++
        (emitted x result++([]++([]++[])))))))))))))))))) := by
    refine collects_bind (collects_plain x (only_call trivial)) fun _ _ =>
      collects_bind (collects_plain x (plain_emit x _)) fun _ _ =>
      collects_bind (hassign _) fun _ _ => collects_bind (hcheckpoint _ _) fun _ _ =>
      collects_bind (collects_plain x (plain_runHooks x _ _)) fun _ _ =>
      collects_bind (hcheckpoint _ _) fun _ _ => collects_bind (hassign _) fun _ _ =>
      collects_bind (hcheckpoint _ _) fun _ _ =>
      collects_bind (collects_plain x (only_call trivial)) fun returned hreturned =>
      collects_bind (hassign _) fun _ _ => collects_bind (hcheckpoint _ _) fun _ _ =>
      collects_bind (hassign _) fun _ _ => collects_bind (hcheckpoint _ _) fun _ _ =>
      collects_bind (collects_plain x (plain_runHooks x _ _)) fun _ _ =>
      collects_bind (hcheckpoint _ _) fun _ _ => ?_
    have hsame : returned = result := by
      have hok := returns_call hreturned
      rw [h] at hok
      exact (Except.ok.inj hok).symm
    rw [hsame]
    exact collects_bind (collects_emitResult x result) fun _ _ =>
      collects_bind (hassign _) fun _ _ => collects_bind (hcheckpoint _ _) fun _ _ =>
      collects_only (only_pure _)
  exact hcalls.congr (by simp)

theorem performs_handler : Performs .handler (process x) := by
  iterate 8 refine performs_bind_right fun _ => ?_
  exact performs_bind_left (performs_call _ _)

theorem performs_afterSuccess {i : ℕ} (hi : i < x.task.afterSuccess) :
    Performs (.hook .afterSuccess i) (process x) := by
  iterate 13 refine performs_bind_right fun _ => ?_
  exact performs_bind_left (performs_forEach (List.mem_range.mpr hi) (performs_call _ _))

theorem returns_process (h : Returns (fun _ => True) (process x) result) :
    x.env.handler = .ok result := by
  obtain ⟨s,-,hr⟩ := h
  iterate 8 obtain ⟨_,-,hr⟩ := bind_result hr
  obtain ⟨returned,hreturned,hr⟩ := bind_result hr
  iterate 9 obtain ⟨_,-,hr⟩ := bind_result hr
  have hsame : returned = result := Except.ok.inj hr
  rw [← hsame]
  exact hreturned

/-- The handler and the success hooks returned, and all selected sinks took the
result. -/
def Delivered (pre : List (Call V)) : Prop :=
  ∃ result, x.env.handler = .ok result ∧ .handler ∈ pre ∧
    (∀ i < x.task.afterSuccess, .hook .afterSuccess i ∈ pre ∧
      x.env.outcome (.hook .afterSuccess i) = .ok ()) ∧
    (result.isSome → pre.filterMap (accepted x) =
      prepared x result 0 (selected x 0 x.task.emitTargets))

theorem delivered_process {s : ExecutionOutcome V} {after : List (Call V)}
    (h : ((process x).run s).result = .ok result) (hafter : ∀ c ∈ after, accepted x c = none) :
    Delivered x (((process x).run s).calls++after) := by
  have hresult := returns_process x ⟨s,trivial,h⟩
  have hpath : first (processPath x) = .ok () := by
    rw [← (yields_process x s trivial).1,h]
    rfl
  refine ⟨result,hresult,List.mem_append_left _ (performs_handler x s _ h),?_,?_⟩
  · intro i hi
    refine ⟨List.mem_append_left _ (performs_afterSuccess x hi s _ h),?_⟩
    refine first_ok_iff.mp hpath _ ?_
    have hmem : x.env.outcome (.hook .afterSuccess i) ∈
        hooksPath x .afterSuccess x.task.afterSuccess :=
      List.mem_map.mpr ⟨i,List.mem_range.mpr hi,rfl⟩
    simp [processPath,hmem]
  · intro hsome
    rw [List.filterMap_append,collects_process x hresult s _ h,
      List.filterMap_eq_nil_iff.mpr hafter,List.append_nil,emitted,if_pos hsome]

theorem only_success {P : Call V → Prop} (hplain : ∀ c, Plain c → P c) (hack : P .ack)
    (hsucceeded : ∀ completion : ExecutionCompletion (Option V), completion.status = .succeeded →
      P (.completeExecution completion)) (result : Option V) :
    Only P (whenApplied x (applySuccess x result) >>= fun _ => announce x >>= fun _ =>
      assign fun o => {o with completion := .succeeded, terminal := true}) := by
  refine only_bind (only_ite (only_ite ?_ (only_call hack)) (only_pure ())) fun _ =>
    only_bind ((plain_announce x).mono hplain) fun _ => only_assign _
  exact only_bind (only_completeManagedExecution x hsucceeded) fun _ => only_pure _

theorem attempt_delivered {s : ExecutionOutcome V} {pre post : List (Call V)} {c : Call V}
    (h : ((attemptDelivery x).run s).calls = pre++c::post) (hc : succeeds c = true) :
    Delivered x pre := by
  have hnone : ∀ d ∈ ((process x).run s).calls, ¬succeeds d = true :=
    (quiet_process x).mono quiet_not_succeeds s
  cases hp : ((process x).run s).result with
  | error i =>
    have hrun : (attemptDelivery x).run s = ⟨.error i,((process x).run s).state,
        ((process x).run s).calls⟩ := bind_of_error hp
    have hin : c ∈ ((process x).run s).calls := by
      rw [hrun] at h
      rw [show ((process x).run s).calls = pre++c::post from h]
      simp
    exact absurd hc (hnone c hin)
  | ok result =>
    have hrun : (attemptDelivery x).run s = _ := bind_of_ok hp
    rw [hrun] at h
    rcases split_append h with ⟨pre',rfl,hrest⟩ | ⟨post',hproc,-⟩
    · refine delivered_process x hp fun d hd => ?_
      refine only_success x (plain_not_accepted x) rfl (fun _ _ => rfl) result
        ((process x).run s).state d ?_
      rw [hrest]
      exact List.mem_append_left _ hd
    · refine absurd hc (hnone c ?_)
      rw [hproc]
      simp

theorem recover_not_succeeds (i : Interrupt Exn) :
    Only (fun c => ¬succeeds c = true) (recover x i) := by
  have hretrying : ∀ completion : ExecutionCompletion (Option V), completion.status = .retrying →
      ¬succeeds (.completeExecution completion) = true := fun _ h => by simp [succeeds,h]
  have hattend : ∀ c : Call V, Attending c → ¬succeeds c = true :=
    fun c hc => quiet_not_succeeds c (attending_quiet c hc)
  exact only_recover x hattend (only_settleRetry x (fun _ => by simp [succeeds]) hretrying)
    (fun _ _ _ => by simp [succeeds])
    (only_failDelivery x (fun _ => by simp [succeeds]) hretrying hattend
      (fun _ => by simp [succeeds]) fun _ h => by simp [succeeds,h])
    (only_settleCancelled x (fun _ => by simp [succeeds]) hretrying
      fun _ h => by simp [succeeds,h]) i

end Success

section Failure

/-- The policy gave up on the exception that ended the try block, and every
dead-letter sink took the envelope. -/
def GivenUp (pre : List (Call V)) : Prop :=
  ∃ exc failure action, ((attemptDelivery x).run {}).result = .error (.raised exc) ∧
    FailureInfo.fromException exc (failureKind exc) = .ok failure ∧
    x.env.retryPolicy exc failure = .ok action ∧ action.decision = .fail ∧
    ∀ position sink, x.task.deadLetterSinks[position]? = some sink →
      .deadLetter position sink (deadLetter x failure) ∈ pre ∧
      x.env.outcome (.deadLetter position sink (deadLetter x failure)) = .ok ()

theorem givenUp_append (l m : List (Call V)) (h : GivenUp x m) : GivenUp x (l++m) := by
  obtain ⟨exc,failure,action,hexc,hfailure,haction,hfail,hsinks⟩ := h
  refine ⟨exc,failure,action,hexc,hfailure,haction,hfail,fun position sink hsink => ?_⟩
  exact ⟨List.mem_append_right _ (hsinks position sink hsink).1,(hsinks position sink hsink).2⟩

variable {sink : Sink}

theorem performs_sendDeadLetters (envelope : DeadLetter V) {sinks : List Sink} {k : ℕ}
    (hk : sinks[k]? = some sink) (i : ℕ) :
    Performs (.deadLetter (i+k) sink envelope) (sendDeadLetters x envelope i sinks) := by
  induction sinks generalizing i k with
  | nil => simp at hk
  | cons sink' sinks ih =>
    cases k with
    | zero =>
      have hsink : sink' = sink := by simpa using hk
      rw [hsink,Nat.add_zero]
      exact performs_bind_left (performs_call _ _)
    | succ k =>
      have hrest : sinks[k]? = some sink := by simpa using hk
      rw [show i+(k+1) = (i+1)+k by omega]
      exact performs_bind_right fun _ => ih hrest (i+1)

theorem mem_deadLetterPath (failure : FailureInfo) {sinks : List Sink} {k : ℕ}
    (hk : sinks[k]? = some sink) (i : ℕ) :
    x.env.outcome (.deadLetter (i+k) sink (deadLetter x failure)) ∈
      deadLetterPath x failure i sinks := by
  induction sinks generalizing i k with
  | nil => simp at hk
  | cons sink' sinks ih =>
    cases k with
    | zero =>
      have hsink : sink' = sink := by simpa using hk
      rw [hsink]
      exact List.mem_cons_self
    | succ k =>
      have hrest : sinks[k]? = some sink := by simpa using hk
      rw [show i+(k+1) = (i+1)+k by omega]
      exact List.mem_cons_of_mem _ (ih hrest (i+1))

/-- Publishing returns true only after every sink took the envelope. -/
theorem published_accepted {failure : FailureInfo} {s : ExecutionOutcome V}
    (h : ((publishAttempt x failure).run s).result = .ok true) {position : ℕ}
    (hsink : x.task.deadLetterSinks[position]? = some sink) :
    .deadLetter position sink (deadLetter x failure) ∈ ((publishAttempt x failure).run s).calls ∧
      x.env.outcome (.deadLetter position sink (deadLetter x failure)) = .ok () := by
  have hpath : deadLetterOutcome x failure = .ok () := by
    rcases returns_publishAttempt x (I := fun _ => True) ⟨s,trivial,h⟩ with ⟨-,hok⟩ | ⟨hfalse,-⟩
    · exact hok
    · cases hfalse
  have hsend := (yields_sendDeadLetters x failure 0 x.task.deadLetterSinks (I := fun _ => True) s
    trivial).1
  rw [show first _ = deadLetterOutcome x failure from rfl,hpath] at hsend
  obtain ⟨u,hu⟩ := void_ok.mp hsend
  have hperforms : Performs (.deadLetter position sink (deadLetter x failure)) (do
      sendDeadLetters x (deadLetter x failure) 0 x.task.deadLetterSinks
      return true : Run V Bool) :=
    performs_bind_left (by simpa using performs_sendDeadLetters x (deadLetter x failure) hsink 0)
  constructor
  · unfold publishAttempt attempt
    rw [handle_of_ok (a := true) (by rw [bind_of_ok hu]; rfl)]
    exact hperforms s true (by rw [bind_of_ok hu]; rfl)
  · refine first_ok_iff.mp hpath _ ?_
    simpa using mem_deadLetterPath x failure hsink 0

variable (exc : Exn)

theorem undone_retry (delayS : Option ℚ) (error : Option ExecutionErrorDetail) :
    Only (fun c => ¬fails c = true) (whenApplied x (settleRetry x delayS error)) :=
  only_settleRetry x (fun _ => by simp [fails]) (fun _ h => by simp [fails,h]) delayS error

theorem only_plain_fails {α : Type} {p : Run V α} (h : Only Quiet p) :
    Only (fun c => ¬fails c = true) p := h.mono quiet_not_fails

theorem guarded_published {failure : FailureInfo} {action : RetryAction}
    (hexc : ((attemptDelivery x).run {}).result = .error (.raised exc))
    (hfailure : FailureInfo.fromException exc (failureKind exc) = .ok failure)
    (haction : x.env.retryPolicy exc failure = .ok action) (hdecision : action.decision = .fail) :
    Guarded (fun c => fails c = true) (GivenUp x) (failTerminally x exc failure) := by
  unfold failTerminally publishIfConfigured
  split
  · simp only [publishDeadLetter,bind_bind]
    refine guarded_bind (givenUp_append x) (only_assign _) fun _ _ _ => .inr ?_
    refine guarded_bind (givenUp_append x) (only_lift _) fun _ _ _ => .inr ?_
    refine guarded_bind (givenUp_append x) (only_lift _) fun _ _ _ => .inr ?_
    refine guarded_bind (givenUp_append x) (only_plain_fails (quiet_publishAttempt x failure))
      fun s published hpublished => ?_
    cases published with
    | true =>
      refine .inl fun m => ⟨exc,failure,action,hexc,hfailure,haction,hdecision,?_⟩
      intro position sink hsink
      have hdone := published_accepted x hpublished hsink
      exact ⟨List.mem_append_left _ hdone.1,hdone.2⟩
    | false =>
      refine .inr (guarded_bind (givenUp_append x)
        (only_retryOriginal x attending_not_fails (undone_retry x)) fun t again hagain => .inr ?_)
      rw [returns_retryOriginal x (I := fun _ => True) ⟨t,trivial,hagain⟩]
      exact guarded_never (only_plain_fails (quiet_captureFailure x))
  · intro s pre c post _ _
    refine ⟨exc,failure,action,hexc,hfailure,haction,hdecision,?_⟩
    intro position sink hsink
    simp_all

theorem guarded_handleFailure (hexc : ((attemptDelivery x).run {}).result = .error (.raised exc)) :
    Guarded (fun c => fails c = true) (GivenUp x) (handleFailure x exc (failureKind exc)) := by
  unfold handleFailure
  cases hfailure : FailureInfo.fromException exc (failureKind exc) with
  | error e => exact guarded_never (only_lift _)
  | ok failure =>
    rw [ofExcept_ok_bind]
    refine guarded_bind (givenUp_append x) (only_assign _) fun _ _ _ => .inr ?_
    refine guarded_bind (givenUp_append x) (silent_snapshotCaptureEnvelope x)
      fun _ _ _ => .inr ?_
    refine guarded_bind (givenUp_append x) (only_assign _) fun _ _ _ => .inr ?_
    refine guarded_bind (givenUp_append x) (only_plain_fails (quiet_checkpoint x _ _))
      fun _ _ _ => .inr ?_
    refine guarded_bind (givenUp_append x) (only_plain_fails (quiet_runFailureHooks x))
      fun _ _ _ => .inr ?_
    refine guarded_bind (givenUp_append x) (only_plain_fails (quiet_checkpoint x _ _))
      fun _ _ _ => .inr ?_
    cases haction : x.env.retryPolicy exc failure with
    | error e => exact guarded_never (only_lift _)
    | ok action =>
      rw [ofExcept_ok_bind]
      split
      · exact guarded_never (only_retryLater x attending_not_fails (undone_retry x) _)
      · rename_i hretry
        have hdecision : action.decision = .fail := by
          cases h : action.decision with
          | retry => exact absurd h hretry
          | fail => rfl
        exact guarded_published x exc hexc hfailure haction hdecision

theorem attempt_not_fails : Only (fun c => ¬fails c = true) (attemptDelivery x) :=
  only_bind (only_plain_fails (quiet_process x)) fun _ =>
    only_success x (fun c hc => quiet_not_fails c (plain_quiet c hc)) (by simp [fails])
      (fun _ h => by simp [fails,h]) _

theorem cancelled_not_fails : Only (fun c => ¬fails c = true) (recover x .cancelled) := by
  refine only_bind (only_assign _) fun _ => only_bind ?_ fun _ => only_lift _
  exact only_handleCancelled x attending_not_fails (only_settleCancelled x
    (fun _ => by simp [fails]) (fun _ h => by simp [fails,h]) fun _ h => by simp [fails,h])

/-- A failure comes after the decision to give up and the dead letters. -/
theorem recover_givenUp {i : Interrupt Exn} {s : ExecutionOutcome V} {pre post : List (Call V)}
    {c : Call V} (hi : ((attemptDelivery x).run {}).result = .error i)
    (h : ((recover x i).run s).calls = pre++c::post) (hc : fails c = true) : GivenUp x pre := by
  cases i with
  | cancelled =>
    have hin : c ∈ ((recover x .cancelled).run s).calls := by
      rw [h]
      simp
    exact absurd hc (cancelled_not_fails x s c hin)
  | raised exc =>
    have hguard : Guarded (fun c => fails c = true) (GivenUp x) (recover x (.raised exc)) :=
      guarded_bind (givenUp_append x) (only_assign _) fun _ _ _ =>
        .inr (guarded_handleFailure x exc hi)
    exact hguard s pre c post h hc

end Failure

section Attempt

/-- A lost lease is logged and dropped. -/
def leaseOutcome : Outcome Exn Unit → Outcome Exn Unit
  | .error (.raised e) => if e.leaseLost then .ok () else .error (.raised e)
  | o => o

/-- What reports the success, for either kind of delivery. -/
def successPath : List (Outcome Exn Unit) :=
  match x.env.handler with
  | .error _ => []
  | .ok result =>
    if x.delivery.managed then
      [raises x.env.copyResult,
        leaseOutcome (x.env.outcome (.completeExecution ⟨.succeeded,result,none,none⟩))]
    else [x.env.outcome .ack]

/-- Everything in the try block. -/
def attemptPath : List (Outcome Exn Unit) := processPath x++(successPath x++announcePath x)

variable {I : ExecutionOutcome V → Prop}

theorem yields_complete (completion : ExecutionCompletion (Option V)) :
    Yields I (attempt (do
        await x (.completeExecution completion)
        return true)
      fun e => if e.leaseLost then pure false else interrupt (.raised e) : Run V Bool)
      [leaseOutcome (x.env.outcome (.completeExecution completion))] := by
  have hsend : Yields I (do
      await x (.completeExecution completion)
      return true : Run V Bool) [x.env.outcome (.completeExecution completion)] :=
    yields_bind (yields_await x _) fun _ _ => yields_pure _
  refine (yields_attempt hsend fun e _ => yields_ite (c := e.leaseLost = true) (yields_pure false)
    (yields_lift (.error (.raised e)))).congr ?_
  rw [first_singleton]
  cases x.env.outcome (.completeExecution completion) with
  | ok u => rfl
  | error i =>
    cases i with
    | cancelled => rfl
    | raised e =>
      simp only [caught,leaseOutcome]
      split <;> rfl

theorem yields_applySuccess (happ : x.applyDeliveryActions = true) {result : Option V}
    (h : x.env.handler = .ok result) :
    Yields I (whenApplied x (applySuccess x result)) (successPath x) := by
  simp only [whenApplied,applySuccess,successPath,happ,h,if_true]
  refine yields_ite ?_ (yields_await x _)
  unfold completeManagedExecution buildCompletion
  simp only [if_true,Option.any_none,Bool.false_eq_true,if_false]
  cases x.env.copyResult with
  | error e =>
    rw [ofExcept_error_bind]
    exact yields_lift _
  | ok u =>
    rw [ofExcept_ok_bind]
    exact yields_bind (yields_complete x _) fun _ _ => yields_pure ()

theorem yields_attemptDelivery (happ : x.applyDeliveryActions = true) :
    Yields (fun _ => True) (attemptDelivery x) (attemptPath x) := by
  refine yields_bind (yields_process x) fun result hresult => ?_
  refine yields_bind (yields_applySuccess x happ (returns_process x hresult)) fun _ _ => ?_
  refine (yields_bind (yields_announce x) fun _ _ =>
    yields_assign fun _ _ => trivial).congr ?_
  exact List.append_nil _

end Attempt

section DeadLetters

/-- What follows the attempt to publish. -/
def afterPublishing (exc : Exn) (published : Bool) : Run V Unit :=
  (if published then deadLettered x else retryOriginal x) >>= fun published =>
    if published then finishFailed x exc else captureFailure x

/-- The try block raises, the policy gives up, and a dead-letter sink raises. -/
structure DeadLetterFails (exc : Exn) (failure : FailureInfo) : Prop where
  interrupted : first (attemptPath x) = .error (.raised exc)
  described : FailureInfo.fromException exc (failureKind exc) = .ok failure
  decided : first (decisionPath x exc failure) = .ok ()
  givenUp : ∃ action, x.env.retryPolicy exc failure = .ok action ∧ action.decision = .fail
  copied : raises x.env.copyPayload = .ok () ∧ raises x.env.copyOriginalMeta = .ok ()
  raised : ∃ e, deadLetterOutcome x failure = .error (.raised e)

theorem not_rejected_of_ne {c : Call V}
    (h : ∀ position sink envelope, c ≠ .deadLetter position sink envelope) : ¬Rejected x c := by
  rintro ⟨position,sink,envelope,e,rfl,-⟩
  exact h position sink envelope rfl

theorem attempt_not_rejected : Only (fun c => ¬Rejected x c) (attemptDelivery x) := by
  refine only_bind (only_process x (plain_not_rejected x) fun _ _ _ _ => ?_) fun _ => ?_
  · exact not_rejected_of_ne x (by simp)
  · exact only_success x (plain_not_rejected x) (not_rejected_of_ne x (by simp))
      (fun _ _ => not_rejected_of_ne x (by simp)) _

theorem attending_not_rejected (c : Call V) (h : Attending c) : ¬Rejected x c :=
  plain_not_rejected x c (attending_plain c h)

theorem retry_not_rejected (delayS : Option ℚ) (error : Option ExecutionErrorDetail) :
    Only (fun c => ¬Rejected x c) (whenApplied x (settleRetry x delayS error)) :=
  only_settleRetry x (fun _ => not_rejected_of_ne x (by simp))
    (fun _ _ => not_rejected_of_ne x (by simp)) delayS error

theorem finishFailed_not_rejected (exc : Exn) : Only (fun c => ¬Rejected x c) (finishFailed x exc) :=
  only_finishFailed x (attending_not_rejected x) (only_failDelivery x
    (fun _ => not_rejected_of_ne x (by simp)) (fun _ _ => not_rejected_of_ne x (by simp))
    (attending_not_rejected x) (fun _ => not_rejected_of_ne x (by simp))
    (fun _ _ => not_rejected_of_ne x (by simp)) exc)

theorem afterPublishing_not_rejected (exc : Exn) (published : Bool) :
    Only (fun c => ¬Rejected x c) (afterPublishing x exc published) :=
  only_bind (only_ite (only_deadLettered x (attending_not_rejected x))
    (only_retryOriginal x (attending_not_rejected x) (retry_not_rejected x))) fun _ =>
    only_ite (finishFailed_not_rejected x exc)
      ((attending_captureFailure x).mono (attending_not_rejected x))

/-- Sending stops at the first sink that raises. -/
theorem rejected_sendDeadLetters (failure : FailureInfo) (i : ℕ) (sinks : List Sink) :
    Only (fun c => Rejected x c → ∃ e, first (deadLetterPath x failure i sinks) = .error (.raised e))
      (sendDeadLetters x (deadLetter x failure) i sinks) := by
  induction sinks generalizing i with
  | nil => exact only_pure ()
  | cons sink sinks ih =>
    refine only_bind_yields (only_call ?_) (yields_await x _) fun hok _ _ => ?_
    · rintro ⟨position,sink',envelope,e,-,he⟩
      exact ⟨e,by rw [deadLetterPath,he]; rfl⟩
    · rw [first_singleton] at hok
      rw [deadLetterPath,hok]
      exact ih (i+1)

theorem rejected_publishAttempt (failure : FailureInfo) :
    Only (fun c => Rejected x c → ∃ e, deadLetterOutcome x failure = .error (.raised e))
      (publishAttempt x failure) :=
  only_attempt (only_bind (rejected_sendDeadLetters x failure 0 _) fun _ => only_pure _)
    fun _ => only_pure _

theorem always_rejected_send {failure : FailureInfo} {i : ℕ} {sinks : List Sink} {e : Exn}
    (h : first (deadLetterPath x failure i sinks) = .error (.raised e)) :
    Always (Rejected x) (sendDeadLetters x (deadLetter x failure) i sinks) := by
  induction sinks generalizing i with
  | nil => cases h
  | cons sink sinks ih =>
    rw [deadLetterPath] at h
    cases ho : x.env.outcome (.deadLetter i sink (deadLetter x failure)) with
    | error j =>
      rw [ho] at h
      have hj : j = .raised e := Except.error.inj h
      refine always_bind (always_call ⟨i,sink,_,e,rfl,?_⟩)
      rw [ho,hj]
    | ok u =>
      rw [ho] at h
      intro s
      obtain ⟨c,hc,hr⟩ := ih h s
      have hrun : (sendDeadLetters x (deadLetter x failure) i (sink::sinks)).run s = _ :=
        bind_of_ok (p := await x _) ho
      rw [hrun]
      exact ⟨c,List.mem_append_right _ hc,hr⟩

theorem always_rejected_publish {failure : FailureInfo} {e : Exn}
    (h : deadLetterOutcome x failure = .error (.raised e)) :
    Always (Rejected x) (publishAttempt x failure) :=
  always_attempt (always_bind (always_rejected_send x h))

theorem failTerminally_eq (exc : Exn) (failure : FailureInfo) (h : x.task.deadLetterSinks ≠ []) :
    failTerminally x exc failure = (do
      assign fun o => {o with deliveryAction := some .deadLetter}
      ofExcept x.env.copyPayload
      ofExcept x.env.copyOriginalMeta
      let published ← publishAttempt x failure
      afterPublishing x exc published) := by
  unfold failTerminally publishIfConfigured publishDeadLetter afterPublishing
  simp only [if_pos h,bind_bind]

variable {exc : Exn} {failure : FailureInfo}

theorem DeadLetterFails.configured (h : DeadLetterFails x exc failure) :
    x.task.deadLetterSinks ≠ [] := by
  intro hnil
  obtain ⟨e,he⟩ := h.raised
  rw [deadLetterOutcome,hnil] at he
  cases he

theorem DeadLetterFails.leads (h : DeadLetterFails x exc failure) :
    Leads (fun _ => True) Quiet (handleFailure x exc (failureKind exc))
      (Public (publicFailure failure (some exc)))
      (publishAttempt x failure >>= afterPublishing x exc) := by
  obtain ⟨action,haction,hdecision⟩ := h.givenUp
  have hdecided := h.decided
  rw [decisionPath,← List.singleton_append,first_append_ok,first_append_ok] at hdecided
  obtain ⟨hentered,hhooks,hcompleted⟩ := hdecided
  have hcompleted' : first [reached x .failureHook .completed] = .ok () := by
    rw [← List.singleton_append,first_append_ok] at hcompleted
    exact hcompleted.1
  have hpolicy : ¬action.decision = .retry := by
    rw [hdecision]
    exact fun h => by cases h
  unfold handleFailure
  rw [h.described,ofExcept_ok_bind]
  refine leads_assign (K := fun _ => True) (fun _ _ => trivial) ?_
  refine leads_bind (silent_snapshotCaptureEnvelope x)
    (yields_snapshotCaptureEnvelope x fun _ _ => trivial) rfl fun _ _ => ?_
  refine leads_assign (K := Public (publicFailure failure (some exc))) (fun _ _ => rfl) ?_
  refine leads_bind (quiet_checkpoint x _ _) (yields_checkpoint x _ _) hentered fun _ _ => ?_
  refine leads_bind (quiet_runFailureHooks x) (yields_runFailureHooks x) hhooks fun _ _ => ?_
  refine leads_bind (quiet_checkpoint x _ _) (yields_checkpoint x _ _) hcompleted' fun _ _ => ?_
  rw [haction,ofExcept_ok_bind,if_neg hpolicy,failTerminally_eq x exc failure h.configured]
  refine leads_assign (K := Public (publicFailure failure (some exc))) (fun _ ho => ho) ?_
  refine leads_bind (only_lift _) (yields_ofExcept _) (by rw [h.copied.1]; rfl) fun _ _ => ?_
  refine leads_bind (only_lift _) (yields_ofExcept _) (by rw [h.copied.2]; rfl) fun _ _ => ?_
  exact leads_refl _

theorem DeadLetterFails.calls (happ : x.applyDeliveryActions = true)
    (h : DeadLetterFails x exc failure) :
    ∃ before s, (∀ c ∈ before, ¬retries c = true) ∧ (∃ c ∈ before, Rejected x c) ∧
      Public (publicFailure failure (some exc)) s ∧
      calls x = before++((afterPublishing x exc false).run s).calls := by
  have hattempt := (yields_attemptDelivery x happ {} trivial).1
  rw [h.interrupted,void_error] at hattempt
  have hrecover : Leads (fun _ => True) Quiet (recover x (.raised exc))
      (Public (publicFailure failure (some exc)))
      (publishAttempt x failure >>= afterPublishing x exc) :=
    leads_assign (K := fun _ => True) (fun _ _ => trivial) (h.leads x)
  obtain ⟨before,s,hquiet,hpublic,hlead⟩ := hrecover ((attemptDelivery x).run {}).state trivial
  obtain ⟨e,he⟩ := h.raised
  have hyields := yields_publishAttempt x failure
    (I := Public (publicFailure failure (some exc))) s hpublic
  rw [he] at hyields
  obtain ⟨published,hpublished⟩ := void_ok.mp hyields.1
  have hfalse : published = false := by
    rcases returns_publishAttempt x (I := fun _ => True) ⟨s,trivial,hpublished⟩ with
      ⟨-,hok⟩ | ⟨hfalse,-⟩
    · rw [he] at hok
      cases hok
    · exact hfalse
  rw [hfalse] at hpublished
  have htried : ∀ c ∈ ((attemptDelivery x).run {}).calls, ¬retries c = true :=
    only_bind ((quiet_process x).mono quiet_not_retries) (fun _ =>
      only_success x (fun c hc => quiet_not_retries c (plain_quiet c hc)) (by simp [retries])
        (fun _ hs => by simp [retries,hs]) _) {}
  rw [bind_of_ok hpublished] at hlead
  refine ⟨((attemptDelivery x).run {}).calls++(before++((publishAttempt x failure).run s).calls),
    ((publishAttempt x failure).run s).state,?_,?_,hyields.2,?_⟩
  · intro c hc
    rcases List.mem_append.mp hc with hc | hc
    · exact htried c hc
    · rcases List.mem_append.mp hc with hc | hc
      · exact quiet_not_retries c (hquiet c hc)
      · exact quiet_not_retries c (quiet_publishAttempt x failure s c hc)
  · obtain ⟨c,hc,hrejected⟩ := always_rejected_publish x he s
    exact ⟨c,by simp [hc],hrejected⟩
  · rw [calls_of_interrupted x hattempt,hlead]
    simp [Ended.andThen]

theorem rejected_handleFailure (hattempt : first (attemptPath x) = .error (.raised exc)) :
    Only (fun c => Rejected x c → ∃ failure, DeadLetterFails x exc failure)
      (handleFailure x exc (failureKind exc)) := by
  have hplain : ∀ {α : Type} {p : Run V α}, Only Plain p →
      Only (fun c => Rejected x c → ∃ failure, DeadLetterFails x exc failure) p :=
    fun h => h.mono fun c hc hr => absurd hr (plain_not_rejected x c hc)
  unfold handleFailure
  cases hfailure : FailureInfo.fromException exc (failureKind exc) with
  | error e => exact only_lift _
  | ok failure =>
    rw [ofExcept_ok_bind]
    refine only_bind (only_assign _) fun _ => ?_
    refine only_bind (silent_snapshotCaptureEnvelope x) fun _ => ?_
    refine only_bind (only_assign _) fun _ => ?_
    refine only_bind_yields (hplain (plain_checkpoint x _ _)) (yields_checkpoint x _ _)
      fun hentered _ _ => ?_
    refine only_bind_yields (hplain (plain_runFailureHooks x)) (yields_runFailureHooks x)
      fun hhooks _ _ => ?_
    refine only_bind_yields (hplain (plain_checkpoint x _ _)) (yields_checkpoint x _ _)
      fun hcompleted _ _ => ?_
    cases haction : x.env.retryPolicy exc failure with
    | error e => exact only_lift _
    | ok action =>
      rw [ofExcept_ok_bind]
      by_cases hretry : action.decision = .retry
      · rw [if_pos hretry]
        exact (only_retryLater x (attending_not_rejected x) (retry_not_rejected x) _).mono
          fun c hc hr => absurd hr hc
      · have hdecision : action.decision = .fail := by
          cases h : action.decision with
          | retry => exact absurd h hretry
          | fail => rfl
        have hdecided : first (decisionPath x exc failure) = .ok () := by
          rw [decisionPath,← List.singleton_append,first_append_ok,first_append_ok]
          refine ⟨hentered,hhooks,?_⟩
          rw [← List.singleton_append,first_append_ok,haction]
          exact ⟨hcompleted,rfl⟩
        rw [if_neg hretry]
        by_cases hsinks : x.task.deadLetterSinks = []
        · unfold failTerminally publishIfConfigured
          rw [if_neg (by simp [hsinks])]
          refine only_bind (only_bind (only_assign _) fun _ => only_pure _) fun published => ?_
          refine only_ite ?_ (hplain (plain_captureFailure x))
          exact (finishFailed_not_rejected x exc).mono fun c hc hr => absurd hr hc
        · rw [failTerminally_eq x exc failure hsinks]
          refine only_bind (only_assign _) fun _ => ?_
          refine only_bind_yields (only_lift _) (yields_ofExcept _) fun hpayload _ _ => ?_
          refine only_bind_yields (only_lift _) (yields_ofExcept _) fun hmeta _ _ => ?_
          rw [first_singleton] at hpayload hmeta
          refine only_bind ((rejected_publishAttempt x failure).mono fun c hc hr => ?_)
            fun published => (afterPublishing_not_rejected x exc published).mono
              fun c hc hr => absurd hr hc
          exact ⟨failure,hattempt,hfailure,hdecided,⟨action,haction,hdecision⟩,
            ⟨hpayload,hmeta⟩,hc hr⟩

theorem rejected_deadLetterFails (happ : x.applyDeliveryActions = true) {c : Call V}
    (hc : c ∈ calls x) (hr : Rejected x c) : ∃ exc failure, DeadLetterFails x exc failure := by
  have hyields := (yields_attemptDelivery x happ {} trivial).1
  cases hres : ((attemptDelivery x).run {}).result with
  | ok u =>
    rw [calls_of_returned x hres] at hc
    exact absurd hr (attempt_not_rejected x _ c hc)
  | error i =>
    rw [hres] at hyields
    rw [calls_of_interrupted x hres] at hc
    rcases List.mem_append.mp hc with hc | hc
    · exact absurd hr (attempt_not_rejected x _ c hc)
    · cases i with
      | raised exc =>
        have honly : Only (fun c => Rejected x c → ∃ failure, DeadLetterFails x exc failure)
            (recover x (.raised exc)) :=
          only_bind (only_assign _) fun _ => rejected_handleFailure x hyields.symm
        exact ⟨exc,honly _ c hc hr⟩
      | cancelled =>
        have honly : Only (fun c => ¬Rejected x c) (recover x .cancelled) := by
          refine only_bind (only_assign _) fun _ => only_bind ?_ fun _ => only_lift _
          exact only_handleCancelled x (attending_not_rejected x) (only_settleCancelled x
            (fun _ => not_rejected_of_ne x (by simp)) (fun _ _ => not_rejected_of_ne x (by simp))
            fun _ _ => not_rejected_of_ne x (by simp))
        exact absurd hr (honly _ c hc)

end DeadLetters

section Contract

/-- A success is reported after the output, a failure after the decision to give
up and the dead letters, a dead-letter sink that raises is followed by a retry,
and each sink is sent to at most twice. -/
structure OutputFirst : Prop where
  success : ∀ pre c post, calls x = pre++c::post → succeeds c = true → Delivered x pre
  failure : ∀ pre c post, calls x = pre++c::post → fails c = true → GivenUp x pre
  retried : ∀ pre c post, calls x = pre++c::post → Rejected x c → ∃ d ∈ post, retries d = true
  sends : ∀ position sink body s,
    SendContract x position sink body ((sendToSink x position sink body).run s)

theorem success_delivered {pre post : List (Call V)} {c : Call V} (h : calls x = pre++c::post)
    (hc : succeeds c = true) : Delivered x pre := by
  cases hres : ((attemptDelivery x).run {}).result with
  | ok u =>
    rw [calls_of_returned x hres] at h
    exact attempt_delivered x h hc
  | error i =>
    rw [calls_of_interrupted x hres] at h
    rcases split_append h with ⟨pre',-,hrest⟩ | ⟨post',hattempt,-⟩
    · refine absurd hc (recover_not_succeeds x i ((attemptDelivery x).run {}).state c ?_)
      rw [hrest]
      simp
    · exact attempt_delivered x hattempt hc

theorem failure_givenUp {pre post : List (Call V)} {c : Call V} (h : calls x = pre++c::post)
    (hc : fails c = true) : GivenUp x pre := by
  cases hres : ((attemptDelivery x).run {}).result with
  | ok u =>
    rw [calls_of_returned x hres] at h
    refine absurd hc (attempt_not_fails x {} c ?_)
    rw [h]
    simp
  | error i =>
    rw [calls_of_interrupted x hres] at h
    rcases split_append h with ⟨pre',rfl,hrest⟩ | ⟨post',hattempt,-⟩
    · exact givenUp_append x _ _ (recover_givenUp x hres hrest hc)
    · refine absurd hc (attempt_not_fails x {} c ?_)
      rw [hattempt]
      simp

theorem always_retries (happ : x.applyDeliveryActions = true)
    (error : Option ExecutionErrorDetail) :
    Always (fun c => retries c = true) (whenApplied x (settleRetry x none error)) := by
  simp only [whenApplied,settleRetry,happ,if_true]
  split
  · exact always_bind (always_attempt (always_bind (always_call rfl)))
  · exact always_call rfl

theorem reaches_afterPublishing (happ : x.applyDeliveryActions = true) {exc : Exn}
    {failure : FailureInfo} :
    Reaches (Public (publicFailure failure (some exc))) (fun c => retries c = true)
      (afterPublishing x exc false) (settlementPath x failure (some exc)) := by
  refine reaches_bind_only (reaches_retryOriginal x quiet_not_retries (always_retries x happ))
    fun published hpublished => ?_
  rw [returns_retryOriginal x hpublished]
  exact (quiet_captureFailure x).mono quiet_not_retries

/-- The order holds exactly when nothing interrupts between a dead-letter sink
that raised and the retry of the original: the error can be described and the
checkpoint before the retry is passed. -/
theorem outputFirst_iff (happ : x.applyDeliveryActions = true) :
    OutputFirst x ↔ ∀ exc failure, DeadLetterFails x exc failure →
      first (settlementPath x failure (some exc)) = .ok () := by
  constructor
  · intro h exc failure hfails
    obtain ⟨before,s,hbefore,⟨c,hc,hrejected⟩,hpublic,hcalls⟩ := hfails.calls x happ
    obtain ⟨pre,post,hsplit⟩ := List.append_of_mem hc
    rw [hsplit,List.append_assoc] at hcalls
    obtain ⟨d,hd,hretries⟩ := h.retried pre c _ hcalls hrejected
    refine (reaches_afterPublishing x happ s hpublic).mp ⟨d,?_,hretries⟩
    rcases List.mem_append.mp hd with hd | hd
    · refine absurd hretries (hbefore d ?_)
      rw [hsplit]
      simp [hd]
    · exact hd
  · intro h
    refine ⟨fun _ _ _ => success_delivered x,fun _ _ _ => failure_givenUp x,?_,
      sendToSink_contract x⟩
    intro pre c post hcalls hrejected
    have hin : c ∈ calls x := by
      rw [hcalls]
      simp
    obtain ⟨exc,failure,hfails⟩ := rejected_deadLetterFails x happ hin hrejected
    obtain ⟨before,s,hbefore,-,hpublic,hshape⟩ := hfails.calls x happ
    obtain ⟨d,hd,hretries⟩ := (reaches_afterPublishing x happ s hpublic).mpr (h exc failure hfails)
    rw [hshape] at hcalls
    rcases split_append hcalls with ⟨pre',-,hrest⟩ | ⟨post',-,hpost⟩
    · refine absurd hrejected (afterPublishing_not_rejected x exc false s c ?_)
      rw [hrest]
      simp
    · refine ⟨d,?_,hretries⟩
      rw [hpost]
      exact List.mem_append_right _ hd

end Contract

/-- A calm execution sends its output first. -/
theorem calm_outputFirst : (executing calm).applyDeliveryActions = true ∧
    OutputFirst (executing calm) := by
  have hreturns : first (attemptPath (executing calm)) = .ok () := rfl
  refine ⟨rfl,(outputFirst_iff (executing calm) rfl).mpr fun exc failure hfails => ?_⟩
  have hraises := hfails.interrupted
  rw [hreturns] at hraises
  cases hraises

/-- The handler raises an error of a connector without a backend name, and the
dead-letter sink raises. -/
def nameless : Env ℤ :=
  {calm with
    handler := .error (.raised {
      typeName := "ConnectorOperationError"
      message := .ok "lost connection"
      connector := some {backend := "", operation := .send, kind := .disconnected}})
    outcome := fun c =>
      match c with
      | .deadLetter _ _ _ => .error (.raised (.plain "OSError"))
      | _ => .ok ()}

/-- The sink raised and nothing was retried, because the error detail cannot be
built. -/
theorem nameless_not_retried : ¬OutputFirst (executing nameless) := by
  have hnone : (calls (executing nameless)).countP retries = 0 := by decide +kernel
  have hsome : (calls (executing nameless)).countP (fun c =>
      match c with
      | .deadLetter _ _ _ => true
      | _ => false) = 1 := by decide +kernel
  intro h
  obtain ⟨c,hc,hdead⟩ := List.countP_pos_iff.mp (hsome ▸ Nat.one_pos)
  obtain ⟨pre,post,hcalls⟩ := List.append_of_mem hc
  have hrejected : Rejected (executing nameless) c := by
    cases c with
    | deadLetter position sink envelope => exact ⟨position,sink,envelope,_,rfl,rfl⟩
    | _ => cases hdead
  obtain ⟨d,hd,hretries⟩ := h.retried pre c post hcalls hrejected
  refine List.countP_eq_zero.mp hnone d ?_ hretries
  rw [hcalls]
  simp [hd]

end OneStep.DeliveryOutput
