import OneStep.DeliveryOutput
import OneStep.GivingUp
import Mathlib.Algebra.Order.Field.Rat

/-!
# Manual runs

`run_task_once` executes one synthetic delivery, again and again, until it is acknowledged
or no longer asks for a retry. The retry policy gives up by the attempts of the delivery,
which count the retries. But a dead-letter sink that raises has the delivery retried all
the same, whatever the policy says, and no broker stands between this retry and the next
pass of the loop.
-/
namespace OneStep.ManualRuns
open Coroutine DeliveryModel DeliveryExecutor DeliveryPaths GivingUp
open DeliveryOutput (only_settleRetry only_settleCancelled only_failDelivery)
open DeliverySettlement (quiet_acts reaches_recover recover_ne_ack calls_of_interrupted
  calls_of_returned)

section Policies

/-- A retry policy that gives up when the attempts reach its bound. -/
structure RetryPolicy where
  onError : ℤ → Exn → FailureInfo → Except Exn RetryAction
  bound : ℕ
  positive : 1 ≤ bound
  givesUp : ∀ attempts exc failure, (bound : ℤ) ≤ attempts+1 →
    ∃ delayS, onError attempts exc failure = .ok ⟨.fail,delayS⟩

def maxAttempts (p : MaxAttempts) : RetryPolicy where
  onError attempts _ _ := .ok (p.onError attempts)
  bound := p.maxAttempts
  positive := p.positive
  givesUp attempts _ _ h := ⟨none,by
    simp only [MaxAttempts.onError]
    rw [if_neg (by omega)]⟩

inductive Jitter where
  | none | full | equal

/-- The constructor refuses other values. -/
structure ExponentialBackoff where
  maxAttempts : ℕ
  minDelayS : ℚ
  maxDelayS : ℚ
  multiplier : ℚ
  jitter : Jitter
  positive : 1 ≤ maxAttempts
  nonneg : 0 ≤ minDelayS
  ordered : minDelayS ≤ maxDelayS
  growing : 0 < multiplier

/-- `uniform` is what `random.uniform` draws. -/
def ExponentialBackoff.onError (p : ExponentialBackoff) (uniform : ℚ → ℚ → ℚ) (attempts : ℤ) :
    RetryAction :=
  let nextAttempt := attempts+1
  if p.maxAttempts ≤ nextAttempt then ⟨.fail,none⟩
  else
    let delay := min (p.minDelayS*p.multiplier^attempts) p.maxDelayS
    ⟨.retry,some (match p.jitter with
      | .none => delay
      | .full => uniform 0 delay
      | .equal => uniform (max 0 (delay-delay/2)) (min p.maxDelayS (delay+delay/2)))⟩

def exponentialBackoff (p : ExponentialBackoff) (uniform : ℚ → ℚ → ℚ) : RetryPolicy where
  onError attempts _ _ := .ok (p.onError uniform attempts)
  bound := p.maxAttempts
  positive := p.positive
  givesUp attempts _ _ h := ⟨none,by
    simp only [ExponentialBackoff.onError]
    rw [if_pos h]⟩

end Policies

section Model

variable {V : Type}

/-- `_SyntheticManualRunDelivery`. -/
structure SyntheticDelivery (V : Type) where
  body : Option V
  metadata : Option V
  attempts : ℤ := 0
  acked : Bool := false
  failed : Bool := false
  retryRequested : Bool := false
  retryDelayS : Option ℚ := none

/-- What the methods of the delivery return: a retry copies the envelope. -/
def answers (env : Env V) : Call V → Outcome Exn Unit
  | .startProcessing | .checkpoint _ _ | .ack | .fail _ => .ok ()
  | .retry _ => raises (env.copyPayload.bind fun _ => env.copyOriginalMeta)
  | c => env.outcome c

/-- What a call does to the delivery; a retry whose copy raises ends the run. -/
def SyntheticDelivery.receive (d : SyntheticDelivery V) : Call V → SyntheticDelivery V
  | .ack => {d with acked := true}
  | .retry delayS => {d with retryRequested := true, retryDelayS := delayS, attempts := d.attempts+1}
  | .fail _ => {d with failed := true}
  | _ => d

/-- How `run_task_once` ends: it returns, or it raises for one of three reasons. -/
inductive Ending where
  | complete (attemptedCount : ℕ)
  | interrupted (i : Interrupt Exn)
  | failed (attemptedCount : ℕ)
  | unfinished

structure Manual (V : Type) where
  delivery : SyntheticDelivery V
  attemptedCount : ℕ := 0
  calls : List (Call V) := []

variable (task : TaskSpec) (policy : RetryPolicy)

/-- The execution of the delivery by the runner. -/
def manualExecutor (d : SyntheticDelivery V) (env : Env V) : Executor V where
  task := task
  delivery := ⟨d.body,d.metadata,d.attempts,false⟩
  env := {env with outcome := answers env, retryPolicy := policy.onError d.attempts}
  applyDeliveryActions := true

variable (envs : ℕ → Env V)

/-- One pass of the loop, and how the run ends if it does. -/
def pass (s : Manual V) : Manual V × Option Ending :=
  let e := (execute (manualExecutor task policy s.delivery (envs s.attemptedCount))).run {}
  let d := e.calls.foldl SyntheticDelivery.receive s.delivery
  let t : Manual V := ⟨d,s.attemptedCount+1,s.calls++e.calls⟩
  match e.result with
  | .error i => (t,some (.interrupted i))
  | .ok () =>
    if d.acked then (t,some (.complete t.attemptedCount))
    else if d.retryRequested then ({t with delivery := {d with retryRequested := false}},none)
    else (t,some (if d.failed then .failed t.attemptedCount else .unfinished))

/-- The loop, for at most so many passes. -/
def runLoop : ℕ → Manual V → Option (Ending × Manual V)
  | 0,_ => none
  | fuel+1,s =>
    match pass task policy envs s with
    | (t,some ending) => some (ending,t)
    | (t,none) => runLoop fuel t

/-- `run_task_once` of a task whose source supports manual runs. -/
def runTaskOnce (payload metadata : V) (fuel : ℕ) : Option (Ending × Manual V) :=
  runLoop task policy envs fuel {delivery := {body := some payload, metadata := some metadata}}

/-- The run returns or raises, with at most so many executions of the handler. -/
def EndsWithin (n : ℕ) (payload metadata : V) : Prop :=
  ∃ fuel ending t, runTaskOnce task policy envs payload metadata fuel = some (ending,t) ∧
    t.calls.countP isHandler ≤ n

/-- No dead-letter sink raises. -/
def Delivers (env : Env V) : Prop :=
  ∀ i sink letter e, env.outcome (.deadLetter i sink letter) ≠ .error (.raised e)

end Model

section Handler

variable {V : Type} (x : Executor V)

theorem unhandled_attending (c : Call V) (h : Attending c) : isHandler c = false := by
  cases c with
  | handler => exact h.elim
  | _ => rfl

theorem unhandled_routing (c : Call V) (h : Routing c) : isHandler c = false := by
  cases c with
  | handler => exact h.elim
  | _ => rfl

/-- The handler is called once before the acknowledgement. -/
theorem process_once : AtMost 1 isHandler (process x) := by
  refine atMost_bind_right (only_call rfl) fun _ => atMost_bind_right (unhandled_emit x _) fun _ => ?_
  refine atMost_bind_right (only_assign _) fun _ => atMost_bind_right (only_call rfl) fun _ => ?_
  refine atMost_bind_right (unhandled_runHooks x _ _) fun _ => ?_
  refine atMost_bind_right (only_call rfl) fun _ => atMost_bind_right (only_assign _) fun _ => ?_
  refine atMost_bind_right (only_call rfl) fun _ => atMost_bind_quiet (atMost_call _ _) fun result => ?_
  refine only_bind (only_assign _) fun _ => only_bind (only_call rfl) fun _ => ?_
  refine only_bind (only_assign _) fun _ => only_bind (only_call rfl) fun _ => ?_
  refine only_bind (unhandled_runHooks x _ _) fun _ => only_bind (only_call rfl) fun _ => ?_
  refine only_bind (only_emitResult x unhandled_routing (fun _ _ _ _ => rfl) result) fun _ => ?_
  exact only_bind (only_assign _) fun _ => only_bind (only_call rfl) fun _ => only_pure _

theorem unhandled_announce : Only (fun c => isHandler c = false) (announce x) :=
  only_bind (only_call rfl) fun _ => only_bind (only_lift _) fun _ => unhandled_emit x _

/-- The except clauses do not call the handler. -/
theorem unhandled_recover (i : Interrupt Exn) : Only (fun c => isHandler c = false) (recover x i) :=
  only_recover x unhandled_attending (only_settleRetry x (fun _ => rfl) fun _ _ => rfl)
    (fun _ _ _ => rfl) (only_failDelivery x (fun _ => rfl) (fun _ _ => rfl) unhandled_attending
      (fun _ => rfl) fun _ _ => rfl)
    (only_settleCancelled x (fun _ => rfl) (fun _ _ => rfl) fun _ _ => rfl) i

variable (hord : x.delivery.managed = false)
include hord

theorem attemptDelivery_once : AtMost 1 isHandler (attemptDelivery x) := by
  refine atMost_bind_quiet (process_once x) fun result => only_bind (only_ite ?_ (only_pure ())) fun _ =>
    only_bind (unhandled_announce x) fun _ => only_assign _
  simp only [applySuccess,hord,Bool.false_eq_true,if_false]
  exact only_call rfl

/-- One execution calls the handler at most once. -/
theorem calls_once : (calls x).countP isHandler ≤ 1 := by
  have honce := attemptDelivery_once x hord {}
  cases hend : ((attemptDelivery x).run {}).result with
  | ok u => rwa [calls_of_returned x hend]
  | error i =>
    rw [calls_of_interrupted x hend,List.countP_append,
      countP_of_only (unhandled_recover x i) _]
    omega

omit hord in
theorem recover_cancelled (o : ExecutionOutcome V) :
    ∃ i, ((recover x .cancelled).run o).result = .error i := by
  change ∃ i, ((handleCancelled x >>= fun _ => interrupt .cancelled).run
    {o with failureStage := some o.activeStage}).result = .error i
  generalize ({o with failureStage := some o.activeStage} : ExecutionOutcome V) = o'
  cases hend : ((handleCancelled x).run o').result with
  | ok u =>
    rw [bind_of_ok hend]
    exact ⟨.cancelled,rfl⟩
  | error i =>
    rw [bind_of_error hend]
    exact ⟨i,rfl⟩

theorem unretried_attemptDelivery :
    Only (fun c => ∀ delayS, c ≠ .retry delayS) (attemptDelivery x) := by
  have hquiet : ∀ c : Call V, Quiet c → ∀ delayS, c ≠ .retry delayS := by
    rintro c hc delayS rfl
    cases hc
  refine only_bind ((quiet_process x).mono hquiet) fun _ => only_bind (only_ite ?_ (only_pure ()))
    fun _ => only_bind ((quiet_announce x).mono hquiet) fun _ => only_assign _
  simp only [applySuccess,hord,Bool.false_eq_true,if_false]
  exact only_call fun _ h => by cases h

/-- An execution that returns has not retried, when the policy gives up and the dead-letter
sinks take the envelope. -/
theorem unretried (hfail : ∀ exc e, x.env.outcome (.fail exc) ≠ .error (.raised e))
    (hpublish : ∀ failure e, deadLetterOutcome x failure ≠ .error (.raised e))
    (hpolicy : ∀ exc failure, ∃ delayS, x.env.retryPolicy exc failure = .ok ⟨.fail,delayS⟩)
    {u : Unit} (hend : ((execute x).run {}).result = .ok u) (delayS : Option ℚ) :
    .retry delayS ∉ calls x := by
  intro hretry
  have hattempt := unretried_attemptDelivery x hord {}
  cases hresult : ((attemptDelivery x).run {}).result with
  | ok u =>
    rw [calls_of_returned x hresult] at hretry
    exact hattempt _ hretry delayS rfl
  | error i =>
    rw [calls_of_interrupted x hresult] at hretry
    rcases List.mem_append.mp hretry with hretry | hretry
    · exact hattempt _ hretry delayS rfl
    · cases i with
      | raised exc => cases closing_recover x hord hfail hpublish hpolicy exc _ _ hretry
      | cancelled =>
        obtain ⟨i,hi⟩ := recover_cancelled x ((attemptDelivery x).run {}).state
        rw [execute,handle_of_error hresult] at hend
        cases hi.symm.trans hend

end Handler

section Runs

variable {V : Type} {task : TaskSpec} {policy : RetryPolicy} {envs : ℕ → Env V} {s t : Manual V}

theorem published_of_delivers (x : Executor V) (h : Delivers x.env) (failure : FailureInfo) (e : Exn) :
    deadLetterOutcome x failure ≠ .error (.raised e) := by
  have hpath : ∀ (sinks : List Sink) (i : ℕ),
      .error (.raised e) ∉ deadLetterPath x failure i sinks := by
    intro sinks
    induction sinks with
    | nil => exact fun _ => List.not_mem_nil
    | cons sink sinks ih =>
      intro i hmem
      rcases List.mem_cons.mp hmem with heq | hmem
      · exact h i sink _ e heq.symm
      · exact ih (i+1) hmem
  exact fun hfirst => hpath _ 0 (mem_of_first hfirst)

/-- Each pass that asks for another one adds to the attempts. -/
structure Counted (s : Manual V) : Prop where
  attempts : (s.attemptedCount : ℤ) ≤ s.delivery.attempts
  unrequested : s.delivery.retryRequested = false
  handled : s.calls.countP isHandler ≤ s.attemptedCount

theorem receive_all (calls : List (Call V)) (d : SyntheticDelivery V) :
    d.attempts ≤ (calls.foldl SyntheticDelivery.receive d).attempts ∧
      (d.retryRequested = false → (calls.foldl SyntheticDelivery.receive d).retryRequested = true →
        d.attempts+1 ≤ (calls.foldl SyntheticDelivery.receive d).attempts ∧
          ∃ delayS, .retry delayS ∈ calls) := by
  induction calls generalizing d with
  | nil => exact ⟨le_rfl,fun hold hnew => by rw [List.foldl_nil,hold] at hnew; cases hnew⟩
  | cons c calls ih =>
    obtain ⟨hle,hnew⟩ := ih (d.receive c)
    rw [List.foldl_cons]
    cases c with
    | retry delayS =>
      have hadded : d.attempts+1 ≤ (calls.foldl SyntheticDelivery.receive
          (d.receive (.retry delayS))).attempts := hle
      exact ⟨by omega,fun _ _ => ⟨hadded,delayS,List.mem_cons_self⟩⟩
    | _ =>
      refine ⟨hle,fun hold hreq => ?_⟩
      obtain ⟨hadded,delayS,hmem⟩ := hnew hold hreq
      exact ⟨hadded,delayS,List.mem_cons_of_mem _ hmem⟩

theorem receive_acked {calls : List (Call V)} {d : SyntheticDelivery V} (h : .ack ∉ calls)
    (hd : d.acked = false) : (calls.foldl SyntheticDelivery.receive d).acked = false := by
  induction calls generalizing d with
  | nil => exact hd
  | cons c calls ih =>
    rw [List.mem_cons,not_or] at h
    apply ih h.2
    cases c with
    | ack => exact absurd rfl h.1
    | _ => exact hd

theorem receive_requested {calls : List (Call V)} {d : SyntheticDelivery V} {delayS : Option ℚ}
    (h : d.retryRequested = true ∨ .retry delayS ∈ calls) :
    (calls.foldl SyntheticDelivery.receive d).retryRequested = true := by
  induction calls generalizing d with
  | nil => exact h.resolve_right List.not_mem_nil
  | cons c calls ih =>
    apply ih
    rw [List.mem_cons] at h
    rcases h with h | rfl | h
    · cases c with
      | retry delayS => exact .inl rfl
      | _ => exact .inl h
    · exact .inl rfl
    · exact .inr h

/-- A pass calls the handler at most once, and is the last one when the policy must give up. -/
theorem Counted.pass (h : Counted s) :
    (pass task policy envs s).1.attemptedCount = s.attemptedCount+1 ∧
    (pass task policy envs s).1.calls.countP isHandler ≤ s.attemptedCount+1 ∧
    ((pass task policy envs s).2 = none → Counted (pass task policy envs s).1 ∧
      (Delivers (envs s.attemptedCount) → s.delivery.attempts+1 < policy.bound)) := by
  have honce := calls_once (manualExecutor task policy s.delivery (envs s.attemptedCount)) rfl
  have hreceived := (receive_all (calls (manualExecutor task policy s.delivery
    (envs s.attemptedCount))) s.delivery).2 h.unrequested
  have hunretried := @unretried V (manualExecutor task policy s.delivery (envs s.attemptedCount)) rfl
    (fun _ _ => nofun)
  unfold calls at honce hreceived hunretried
  unfold ManualRuns.pass
  generalize (execute (manualExecutor task policy s.delivery (envs s.attemptedCount))).run {} = e
    at honce hreceived hunretried ⊢
  have hhandled : (s.calls++e.calls).countP isHandler ≤ s.attemptedCount+1 := by
    have hold := h.handled
    rw [List.countP_append]
    omega
  dsimp only
  split
  · exact ⟨rfl,hhandled,nofun⟩
  · next hend =>
      split
      · exact ⟨rfl,hhandled,nofun⟩
      · split
        · next hrequested =>
            obtain ⟨hadded,delayS,hretry⟩ := hreceived hrequested
            have hattempts := h.attempts
            refine ⟨rfl,hhandled,fun _ => ⟨⟨?_,rfl,hhandled⟩,fun hdelivers => ?_⟩⟩
            · push_cast
              exact le_trans (by omega) hadded
            · by_contra hbound
              refine hunretried ?_ (fun exc failure => policy.givesUp _ exc failure (by omega)) hend
                delayS hretry
              exact published_of_delivers _ hdelivers
        · exact ⟨rfl,hhandled,nofun⟩

/-- The run ends within the bound of its policy. -/
theorem Counted.run (hdelivers : ∀ i, Delivers (envs i)) {fuel : ℕ} (h : Counted s)
    (hcount : s.attemptedCount < policy.bound) (hfuel : policy.bound ≤ fuel+s.attemptedCount) :
    ∃ ending t, runLoop task policy envs fuel s = some (ending,t) ∧
      t.calls.countP isHandler ≤ policy.bound := by
  induction fuel generalizing s with
  | zero => omega
  | succ fuel ih =>
    obtain ⟨hpassed,hhandled,hon⟩ := @Counted.pass V task policy envs s h
    rw [runLoop]
    generalize ManualRuns.pass task policy envs s = out at hpassed hhandled hon ⊢
    obtain ⟨t,ending⟩ := out
    cases ending with
    | some ending => exact ⟨ending,t,rfl,by dsimp only at hhandled; omega⟩
    | none =>
      obtain ⟨hcounted,hbound⟩ := hon rfl
      have hless := hbound (hdelivers _)
      have hattempts := h.attempts
      dsimp only at hpassed hcounted
      exact ih hcounted (by omega) (by omega)

/-- A manual run returns or raises after at most as many executions of the handler as the
policy has attempts, when no dead-letter sink raises. -/
theorem run_ends (task : TaskSpec) (policy : RetryPolicy) (envs : ℕ → Env V)
    (hdelivers : ∀ i, Delivers (envs i)) (payload metadata : V) :
    EndsWithin task policy envs policy.bound payload metadata := by
  have hstart : Counted
      ({delivery := {body := some payload, metadata := some metadata}} : Manual V) :=
    ⟨le_rfl,rfl,le_rfl⟩
  obtain ⟨ending,t,hrun,hhandled⟩ :=
    @Counted.run V task policy envs _ hdelivers policy.bound hstart policy.positive le_rfl
  exact ⟨policy.bound,ending,t,hrun,hhandled⟩

theorem pass_on (h : (pass task policy envs s).2 = none) :
    s.delivery.attempts ≤ (pass task policy envs s).1.delivery.attempts ∧
      (pass task policy envs s).1.delivery.acked = false := by
  have hle := (receive_all (calls (manualExecutor task policy s.delivery (envs s.attemptedCount)))
    s.delivery).1
  unfold calls at hle
  unfold pass at h ⊢
  dsimp only at h ⊢
  split at h
  · cases h
  · split at h
    · cases h
    · next hacked =>
        rw [if_neg hacked]
        split at h
        · next hrequested =>
            rw [if_pos hrequested]
            exact ⟨hle,Bool.eq_false_iff.mpr hacked⟩
        · cases h

/-- A dead-letter sink that always raises. -/
def refusing : Env ℤ :=
  {DeliverySettlement.calm with
    handler := .error (.raised (.plain "ValueError"))
    outcome := fun
      | .deadLetter _ _ _ => .error (.raised (.plain "ConnectionError"))
      | _ => .ok ()}

def once : RetryPolicy := maxAttempts ⟨1,none,le_rfl⟩

/-- Always ends, with a retry among its calls. -/
def Retries {α : Type} (I : ExecutionOutcome ℤ → Prop) (p : Run ℤ α) : Prop :=
  Yields I p [] ∧ Reaches I (fun c => c = .retry none) p []

section Refused
variable {α β : Type} {I : ExecutionOutcome ℤ → Prop} {p : Run ℤ α} {f : α → Run ℤ β}

theorem retries_bind (hquiet : Only Quiet p) (hp : Yields I p [])
    (hf : ∀ a, Returns I p a → Retries I (f a)) : Retries I (p >>= f) := by
  refine ⟨yields_bind hp fun a ha => (hf a ha).1,reaches_bind (hquiet.mono ?_) hp fun a ha => (hf a ha).2⟩
  rintro c hc rfl
  cases hc

theorem retries_then (hp : Retries I p)
    (hf : ∀ a, Returns I p a → Only Quiet (f a) ∧ Yields I (f a) []) : Retries I (p >>= f) := by
  refine ⟨yields_bind hp.1 fun a ha => (hf a ha).2,
    reaches_bind_only hp.2 fun a ha => (hf a ha).1.mono ?_⟩
  rintro c hc rfl
  cases hc

theorem retries_assign {J : ExecutionOutcome ℤ → Prop} {g : ExecutionOutcome ℤ → ExecutionOutcome ℤ}
    (h : ∀ o, J (g o)) (hp : Retries J p) : Retries (fun _ => True) (assign g >>= fun _ => p) :=
  ⟨fun o _ => ⟨(hp.1 (g o) (h o)).1,trivial⟩,reaches_assign (fun o _ => h o) hp.2⟩

theorem yields_fine {l : List (Outcome Exn Unit)} (h : Yields I p l) (hl : first l = .ok ()) :
    Yields I p [] := fun s hs => ⟨(h s hs).1.trans hl,(h s hs).2⟩

/-- The execution of a delivery that the sink refuses. -/
def refused (d : SyntheticDelivery ℤ) : Executor ℤ :=
  manualExecutor DeliverySettlement.resize once d refusing

def reported : PublicFailure := publicFailure ⟨.error,"ValueError",""⟩ (some (.plain "ValueError"))

variable {d : SyntheticDelivery ℤ}

theorem retries_original : Retries (Public reported) (retryOriginal (refused d)) := by
  have hdetail : raises (errorDetail reported none) = .ok () := raises_ok.mpr (by decide +kernel)
  refine retries_bind (only_assign _) (yields_assign fun _ ho => ho) fun _ _ => ?_
  refine retries_bind silent_executionError
    (yields_fine (yields_executionError _) (by rw [hdetail]; rfl)) fun error _ => ?_
  refine retries_then (retries_bind (quiet_checkpoint _ _ _)
    (yields_fine (yields_checkpoint _ _ _) rfl) fun _ _ => ?_) fun _ _ => ⟨?_,?_⟩
  · refine retries_then ⟨yields_fine (yields_await _ (.retry none)) rfl,
      reaches_always (always_call rfl)⟩ fun _ _ => ⟨quiet_checkpoint _ _ _,?_⟩
    exact yields_fine (yields_checkpoint _ _ _) rfl
  · exact only_bind (quiet_emit _ _) fun _ => only_pure _
  · exact yields_bind (yields_fine (yields_emit _ .retried) rfl) fun _ _ => yields_pure _

theorem retries_failTerminally : Retries (Public reported)
    (failTerminally (refused d) (.plain "ValueError") ⟨.error,"ValueError",""⟩) := by
  unfold failTerminally publishIfConfigured
  rw [if_pos (by simp [refused,manualExecutor,DeliverySettlement.resize])]
  simp only [publishDeadLetter,bind_bind]
  refine retries_bind (only_assign _) (yields_assign fun _ ho => ho) fun _ _ => ?_
  refine retries_bind (only_lift _) (yields_fine (yields_ofExcept _) rfl) fun _ _ => ?_
  refine retries_bind (only_lift _) (yields_fine (yields_ofExcept _) rfl) fun _ _ => ?_
  refine retries_bind (quiet_publishAttempt _ _) (yields_fine (yields_publishAttempt _ _) rfl)
    fun published hpublished => ?_
  rcases returns_publishAttempt _ hpublished with ⟨-,htaken⟩ | ⟨rfl,-⟩
  · cases htaken
  · refine retries_then retries_original fun published hpublished => ?_
    rw [DeliverySettlement.returns_retryOriginal _ hpublished]
    rw [if_neg Bool.false_ne_true]
    exact ⟨quiet_captureFailure _,fun o ho => ⟨rfl,ho⟩⟩

theorem retries_recover (hpolicy : (refused d).env.retryPolicy = fun _ _ => .ok ⟨.fail,none⟩) :
    Retries (fun _ => True) (recover (refused d) (.raised (.plain "ValueError"))) := by
  have hinfo : FailureInfo.fromException (.plain "ValueError")
      (if (Exn.plain "ValueError").timeout then .timeout else .error) =
        .ok ⟨.error,"ValueError",""⟩ := rfl
  refine retries_bind (only_assign _) (yields_assign fun _ _ => trivial) fun _ _ => ?_
  unfold handleFailure
  rw [hinfo,ofExcept_ok_bind]
  refine retries_bind (only_assign _) (yields_assign fun _ _ => trivial) fun _ _ => ?_
  refine retries_bind (silent_snapshotCaptureEnvelope _)
    (yields_snapshotCaptureEnvelope _ fun _ _ => trivial) fun _ _ => ?_
  refine retries_assign (J := Public reported) (fun _ => rfl) ?_
  refine retries_bind (quiet_checkpoint _ _ _) (yields_fine (yields_checkpoint _ _ _) rfl) fun _ _ => ?_
  refine retries_bind (quiet_runFailureHooks _) (yields_fine (yields_runFailureHooks _) rfl)
    fun _ _ => ?_
  refine retries_bind (quiet_checkpoint _ _ _) (yields_fine (yields_checkpoint _ _ _) rfl) fun _ _ => ?_
  rw [hpolicy,ofExcept_ok_bind,if_neg (by decide)]
  exact retries_failTerminally

end Refused

theorem pass_refused {s : Manual ℤ} (hattempts : 0 ≤ s.delivery.attempts)
    (hacked : s.delivery.acked = false) :
    (pass DeliverySettlement.resize once (fun _ => refusing) s).2 = none := by
  have hpolicy : (refused s.delivery).env.retryPolicy = fun _ _ => .ok ⟨.fail,none⟩ := by
    funext exc failure
    simp only [refused,manualExecutor,once,maxAttempts,MaxAttempts.onError]
    rw [if_neg (by push_cast; omega)]
  have hraised : ((attemptDelivery (refused s.delivery)).run {}).result =
      .error (.raised (.plain "ValueError")) := rfl
  obtain ⟨hends,hretries⟩ := retries_recover hpolicy
  have hretried := (hretries ((attemptDelivery (refused s.delivery)).run {}).state trivial).mpr rfl
  have hended := (hends ((attemptDelivery (refused s.delivery)).run {}).state trivial).1
  obtain ⟨u,hu⟩ := void_ok.mp hended
  have hresult : ((execute (refused s.delivery)).run {}).result = .ok () := by
    rw [execute,handle_of_error hraised]
    exact hu
  have hcalls := calls_of_interrupted (refused s.delivery) hraised
  have hrequested : .retry none ∈ calls (refused s.delivery) := by
    obtain ⟨c,hc,rfl⟩ := hretried
    rw [hcalls]
    exact List.mem_append_right _ hc
  have hquiet : .ack ∉ ((attemptDelivery (refused s.delivery)).run {}).calls := by
    have hprocess : ((process (refused s.delivery)).run {}).result =
        .error (.raised (.plain "ValueError")) := rfl
    rw [attemptDelivery,bind_of_error hprocess]
    exact fun hack => by cases quiet_process (refused s.delivery) {} _ hack
  have hunacked : .ack ∉ calls (refused s.delivery) := by
    rw [hcalls,List.mem_append,not_or]
    exact ⟨hquiet,fun hack => recover_ne_ack _ rfl _ _ _ hack rfl⟩
  have hacked' := receive_acked hunacked hacked
  have hrequested' := receive_requested (d := s.delivery) (.inr hrequested)
  unfold calls refused at hacked' hrequested'
  unfold refused at hresult
  simp [pass,hresult,hacked',hrequested']

/-- The run goes on for ever, although the policy has given up at once. -/
theorem refused_forever :
    ¬EndsWithin DeliverySettlement.resize once (fun _ => refusing) once.bound 3 0 := by
  rintro ⟨fuel,ending,t,hrun,-⟩
  have hnone : ∀ (fuel : ℕ) (s : Manual ℤ), 0 ≤ s.delivery.attempts → s.delivery.acked = false →
      runLoop DeliverySettlement.resize once (fun _ => refusing) fuel s = none := by
    intro fuel
    induction fuel with
    | zero => exact fun _ _ _ => rfl
    | succ fuel ih =>
      intro s hattempts hacked
      have hon := pass_refused hattempts hacked
      obtain ⟨hadded,hacked⟩ := pass_on hon
      rw [runLoop]
      generalize pass DeliverySettlement.resize once (fun _ => refusing) s = out
        at hon hadded hacked ⊢
      obtain ⟨t,ending⟩ := out
      cases hon
      exact ih t (hattempts.trans hadded) hacked
  rw [runTaskOnce,hnone fuel _ le_rfl rfl] at hrun
  cases hrun

/-- The handler raises each time, and the dead-letter sink takes the envelope. -/
def failing : Env ℤ :=
  {DeliverySettlement.calm with handler := .error (.raised (.plain "RuntimeError"))}

def twice : RetryPolicy := maxAttempts ⟨2,none,Nat.two_pos⟩

/-- The first pass is retried, and the second one ends the run. -/
theorem failing_ends : EndsWithin DeliverySettlement.resize twice (fun _ => failing) 2 3 0 :=
  run_ends _ twice _ (fun _ _ _ _ _ => by simp [failing,DeliverySettlement.calm]) 3 0

end Runs

end OneStep.ManualRuns
