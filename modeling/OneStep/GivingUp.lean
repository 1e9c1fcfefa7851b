import OneStep.DeliverySettlement

/-!
# Giving up on a delivery

`MaxAttempts` gives up on a delivery by the attempts its envelope carries. Then
the dead-letter sinks take the envelope and the delivery is failed; it is
retried all the same when a sink or the failing itself raises. Where neither
does, an execution whose handler raises calls the handler at most once and never
retries.
-/
namespace OneStep.GivingUp
open Coroutine ExecutionModel DeliveryModel DeliveryExecutor DeliveryPaths DeliverySettlement

/-- The constructor refuses a bound below one. -/
structure MaxAttempts where
  maxAttempts : ℕ
  delayS : Option ℚ := none
  positive : 1 ≤ maxAttempts

def MaxAttempts.onError (p : MaxAttempts) (attempts : ℤ) : RetryAction :=
  let nextAttempt := attempts+1
  if nextAttempt < p.maxAttempts then ⟨.retry,p.delayS⟩ else ⟨.fail,none⟩

variable {V : Type} (x : Executor V)

def isHandler : Call V → Bool
  | .handler => true
  | _ => false

/-- The handler raises, and nothing is cancelled. -/
structure Raising : Prop where
  handler : ∃ exc, x.env.handler = .error (.raised exc)
  uncancelled : ∀ c, x.env.outcome c ≠ .error .cancelled

/-- The policy gives up, every dead-letter sink takes the envelope, and failing
the delivery does not raise. -/
structure GivesUp : Prop where
  policy : ∀ exc failure, x.env.retryPolicy exc failure = .ok ⟨.fail,none⟩
  published : ∀ failure e, deadLetterOutcome x failure ≠ .error (.raised e)
  failing : ∀ exc e, x.env.outcome (.fail exc) ≠ .error (.raised e)

/-- The calls of the except clauses when the policy gives up. -/
def closing : Call V → Bool
  | .checkpoint _ _ | .eventHandler _ _ | .hook _ _ | .deadLetter _ _ _ | .capture | .fail _ => true
  | _ => false

section Processing

theorem first_ne_cancelled {l : List (Outcome Exn Unit)} (h : ∀ o ∈ l, o ≠ .error .cancelled) :
    first l ≠ .error .cancelled := fun hfirst => h _ (mem_of_first hfirst) rfl

theorem raises_ne_cancelled {α : Type} (o : Except Exn α) :
    raises o ≠ (.error .cancelled : Outcome Exn Unit) := by
  cases o with
  | ok a => exact nofun
  | error e => exact nofun

theorem dropped_ne_cancelled {o : Outcome Exn Unit} (h : o ≠ .error .cancelled) :
    dropped o ≠ .error .cancelled := by
  cases o with
  | ok u => exact h
  | error i =>
    cases i with
    | raised e => exact nofun
    | cancelled => exact h

/-- The outcomes up to the handler. -/
def startPath : List (Outcome Exn Unit) :=
  x.env.outcome .startProcessing::(emitPath x .started++
    reached x .beforeHook .entered::(hooksPath x .before x.task.before++
    [reached x .beforeHook .completed,reached x .handler .entered]))

theorem startPath_ne_cancelled (h : Raising x) : first (startPath x) ≠ .error .cancelled := by
  refine first_ne_cancelled fun o ho => ?_
  simp only [startPath,emitPath,hooksPath,reached,List.mem_cons,List.mem_append,List.mem_map,
    List.not_mem_nil,or_false] at ho
  rcases ho with rfl | (rfl | ⟨i,-,rfl⟩) | rfl | ⟨i,-,rfl⟩ | rfl | rfl
  · exact h.uncancelled _
  · exact raises_ne_cancelled _
  · exact dropped_ne_cancelled (h.uncancelled _)
  · exact h.uncancelled _
  · exact h.uncancelled _
  · exact h.uncancelled _
  · exact h.uncancelled _

theorem processPath_raised (h : Raising x) :
    ∃ exc, first (processPath x) = .error (.raised exc) := by
  obtain ⟨exc,hexc⟩ := h.handler
  have hpath : ∃ rest, processPath x = startPath x++.error (.raised exc)::rest := by
    simp only [processPath,startPath,hexc,List.cons_append,List.append_assoc]
    exact ⟨_,rfl⟩
  obtain ⟨rest,hrest⟩ := hpath
  have hstart := startPath_ne_cancelled x h
  rw [hrest,first_append]
  cases hfirst : first (startPath x) with
  | ok u => exact ⟨exc,rfl⟩
  | error i =>
    cases i with
    | raised e => exact ⟨e,rfl⟩
    | cancelled => exact absurd hfirst hstart

theorem process_raised (h : Raising x) :
    ∃ exc, ((process x).run {}).result = .error (.raised exc) := by
  obtain ⟨exc,hexc⟩ := processPath_raised x h
  have hyields := (yields_process x {} trivial).1
  rw [hexc] at hyields
  exact ⟨exc,void_error.mp hyields⟩

theorem unhandled_emit (kind : TaskEventKind) :
    Only (fun c => isHandler c = false) (emit x kind) :=
  only_bind (only_lift _) fun _ => only_forEach fun _ => only_suppress (only_call rfl)

theorem unhandled_runHooks (kind : HookKind) (count : ℕ) :
    Only (fun c => isHandler c = false) (runHooks x kind count) :=
  only_forEach fun _ => only_call rfl

theorem once_handler {α : Type} (h : Raising x) (f : Option V → Run V α) :
    AtMost 1 isHandler (call .handler x.env.handler >>= f) := by
  obtain ⟨exc,hexc⟩ := h.handler
  intro s
  have hcall : ((call .handler x.env.handler : Run V _).run s).result = .error (.raised exc) := hexc
  rw [bind_of_error hcall]
  exact List.countP_le_length

theorem process_handler_once (h : Raising x) : AtMost 1 isHandler (process x) :=
  atMost_bind_right (only_call rfl) fun _ => atMost_bind_right (unhandled_emit x _) fun _ =>
    atMost_bind_right (only_assign _) fun _ => atMost_bind_right (only_call rfl) fun _ =>
    atMost_bind_right (unhandled_runHooks x _ _) fun _ =>
    atMost_bind_right (only_call rfl) fun _ => atMost_bind_right (only_assign _) fun _ =>
    atMost_bind_right (only_call rfl) fun _ => once_handler x h _

end Processing

section Closing

theorem attending_closing (c : Call V) (h : Attending c) : closing c = true := by
  cases c with
  | checkpoint phase transition => rfl
  | eventHandler kind index => rfl
  | hook kind index => rfl
  | capture => rfl
  | _ => exact h.elim

theorem closing_captureFailure : Only (fun c => closing c = true) (captureFailure x) :=
  (attending_captureFailure x).mono attending_closing

variable (hord : x.delivery.managed = false)
  (hfail : ∀ exc e, x.env.outcome (.fail exc) ≠ .error (.raised e))
  (hpublish : ∀ failure e, deadLetterOutcome x failure ≠ .error (.raised e))
include hord hfail

theorem closing_settleFailure (exc : Exn) (error : Option ExecutionErrorDetail) :
    Only (fun c => closing c = true) (settleFailure x exc error) := by
  simp only [settleFailure,hord,Bool.false_eq_true,if_false]
  intro o c hc
  have hawait : ((await x (.fail exc)).run o).result = x.env.outcome (.fail exc) := rfl
  cases hf : x.env.outcome (.fail exc) with
  | ok u =>
    rw [hf] at hawait
    unfold attempt at hc
    rw [handle_of_ok (a := true) (by rw [bind_of_ok hawait]; rfl),bind_of_ok hawait] at hc
    rw [List.mem_singleton.mp hc]
    rfl
  | error i =>
    cases i with
    | raised e => exact absurd hf (hfail exc e)
    | cancelled =>
      rw [hf] at hawait
      unfold attempt at hc
      rw [handle_of_error (i := .cancelled) (by rw [bind_of_error hawait]),
        bind_of_error hawait] at hc
      rw [List.mem_singleton.mp hc]
      rfl

theorem closing_finishFailed (exc : Exn) : Only (fun c => closing c = true) (finishFailed x exc) := by
  refine only_finishFailed x attending_closing fun error => only_ite ?_ (only_pure _)
  exact only_bind (only_call rfl) fun _ => only_bind (closing_settleFailure x hord hfail exc error)
    fun _ => only_bind (only_call rfl) fun _ => only_pure _

omit hord hfail in
include hpublish in
theorem closing_publishIfConfigured (failure : FailureInfo) :
    Only (fun c => closing c = true) (publishIfConfigured x failure) := by
  refine only_ite (only_bind (only_assign _) fun _ => ?_)
    (only_bind (only_assign _) fun _ => only_pure _)
  refine only_bind (only_lift _) fun _ => only_bind (only_lift _) fun _ => ?_
  refine only_bind_returned (only_publishAttempt x (fun _ _ _ => rfl) failure) fun published hpub => ?_
  rcases returns_publishAttempt x hpub with ⟨rfl,-⟩ | ⟨-,e,he⟩
  · exact only_deadLettered x attending_closing
  · exact absurd he (hpublish failure e)

include hpublish in
/-- A policy that gives up leaves the decided delay unused. -/
theorem closing_recover
    (hpolicy : ∀ exc failure, ∃ delayS, x.env.retryPolicy exc failure = .ok ⟨.fail,delayS⟩)
    (exc : Exn) :
    Only (fun c => closing c = true) (recover x (.raised exc)) := by
  refine only_bind (only_assign _) fun _ => only_bind (only_lift _) fun failure => ?_
  refine only_bind (only_assign _) fun _ => only_bind (silent_snapshotCaptureEnvelope x) fun _ => ?_
  refine only_bind (only_assign _) fun _ => only_bind (only_call rfl) fun _ => ?_
  refine only_bind (only_forEach fun _ => only_suppress (only_call rfl)) fun _ => ?_
  refine only_bind (only_call rfl) fun _ => ?_
  obtain ⟨delayS,hdecided⟩ := hpolicy exc failure
  rw [hdecided,ofExcept_ok_bind,if_neg (by simp)]
  refine only_bind (closing_publishIfConfigured x hpublish failure) fun published => ?_
  exact only_ite (closing_finishFailed x hord hfail exc) (closing_captureFailure x)

end Closing

section Calls
variable (hord : x.delivery.managed = false) (hraise : Raising x) (hgive : GivesUp x)
include hord hraise hgive

theorem calls_given_up : ∃ before after, calls x = before++after ∧
    before.countP isHandler ≤ 1 ∧ (∀ c ∈ before, Quiet c) ∧ ∀ c ∈ after, closing c = true := by
  obtain ⟨exc,hexc⟩ := process_raised x hraise
  have hrun : (attemptDelivery x).run {} = ⟨.error (.raised exc),((process x).run {}).state,
      ((process x).run {}).calls⟩ := bind_of_error hexc
  have hcalls := calls_of_interrupted x (i := .raised exc) (by rw [hrun])
  rw [hrun] at hcalls
  exact ⟨_,_,hcalls,process_handler_once x hraise {},quiet_process x {},
    closing_recover x hord hgive.failing hgive.published (fun exc failure => ⟨_,hgive.policy exc failure⟩)
      exc _⟩

theorem handler_once : (calls x).countP isHandler ≤ 1 := by
  obtain ⟨before,after,hcalls,honce,-,hclosing⟩ := calls_given_up x hord hraise hgive
  have hnone : after.countP isHandler = 0 := by
    refine List.countP_eq_zero.mpr fun c hc hhandler => ?_
    have hclose := hclosing c hc
    cases c <;> simp_all [closing,isHandler]
  rw [hcalls,List.countP_append]
  omega

theorem settled_by_fail {c : Call V} (hc : c ∈ calls x) (hact : acts c = true) :
    ∃ exc, c = .fail exc := by
  obtain ⟨before,after,hcalls,-,hquiet,hclosing⟩ := calls_given_up x hord hraise hgive
  rw [hcalls] at hc
  rcases List.mem_append.mp hc with hc | hc
  · exact absurd hact (quiet_acts (hquiet c hc))
  · have hclose := hclosing c hc
    cases c with
    | fail exc => exact ⟨exc,rfl⟩
    | ack => cases hclose
    | retry delayS => cases hclose
    | _ => cases hact

theorem fail_reached (happ : x.applyDeliveryActions = true)
    (hpath : ∀ exc, first (processPath x) = .error (.raised exc) →
      first (failurePath x exc) = .ok ()) : ∃ exc, .fail exc ∈ calls x := by
  obtain ⟨exc,hexc⟩ := processPath_raised x hraise
  obtain ⟨c,hc,hact⟩ := (acts_reached x hord happ).mpr (.inr ⟨.raised exc,hexc,hpath exc hexc⟩)
  obtain ⟨exc',rfl⟩ := settled_by_fail x hord hraise hgive hc hact
  exact ⟨exc',hc⟩

end Calls

end OneStep.GivingUp
