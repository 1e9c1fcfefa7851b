import OneStep.ExecutionHistory
import OneStep.GivingUp

/-!
# Workers over the execution backend

Workers of one task fetch leases, execute the handler on them and complete the
executions. A claim advances the attempts of its execution, and the source hands
the task all of them but the last; the policy compares what it is handed. So the
budget of `MaxAttempts` is spent by claims: one that is released before it was
started, or whose lease ran out first, is paid for like one that ran.
-/
namespace OneStep.ExecutionWorkers
open Coroutine ExecutionModel ExecutionBackend ExecutionLifecycle ExecutionInvariant
open ExecutionHistory KeyedTable DeliveryModel DeliveryExecutor DeliveryPaths GivingUp
open ExecutionRuns hiding Op perform Step Reached World Event start

variable {V J : Type}

/-- What a source passes to `claim`. -/
structure PostgresExecutionSource where
  namespaceName : String
  taskName : String
  batchSize : ℤ
  leaseDurationS : ℚ
  workerId : String

/-- The workers of one task. Adding the correlation ids to a copy of the
metadata is the codec's business. -/
structure Workers (V J : Type) where
  backend : Backend (Option V) J
  correlated : Option V → UUID → UUID → Option V
  task : TaskSpec
  policy : MaxAttempts

/-- An execution under way, with the calls it has not made. -/
structure Running (V : Type) where
  executor : Executor V
  rest : List (Call V)

structure PostgresExecutionDelivery (V : Type) where
  lease : ExecutionLease (Option V)
  metadata : Option V
  attempts : ℤ
  running : Option (Running V) := none
  completed : Bool := false

/-- The backend, the deliveries the workers hold, and the handler calls made so
far, each as its execution and attempt. -/
structure Fleet (V J : Type) where
  world : ExecutionRuns.World J
  held : List (PostgresExecutionDelivery V) := []
  begun : List (UUID × UUID) := []

inductive Op (V J : Type) where
  | submit (request : ExecutionRequest (Option V)) (encoded : EncodedSubmission J) (id : UUID)
  | requestCancel (namespaceName : String) (id : UUID) (reason : Option String)
  | fetch (source : PostgresExecutionSource) (limit : ℤ) (uuids : ℕ → UUID × UUID)
  | start (i : ℕ) (env : Env V)
  | advance (i : ℕ)
  | disturb (i : ℕ) (applied : Bool)
  | heartbeat (i : ℕ) (leaseDurationS : ℚ)
  | releaseUnstarted (i : ℕ)
  | lost (i : ℕ)

section Steps
variable [DecidableEq J] (w : Workers V J)

/-- The delivery `fetch` makes of a lease. -/
def delivered (lease : ExecutionLease (Option V)) : PostgresExecutionDelivery V where
  lease := lease
  metadata := w.correlated lease.execution.metadata lease.execution.id lease.attemptId
  attempts := max 0 (lease.execution.attempts-1)

def executing (d : PostgresExecutionDelivery V) (env : Env V) : Executor V where
  task := w.task
  delivery := ⟨d.lease.execution.payload,d.metadata,d.attempts,true⟩
  env := {env with retryPolicy := fun _ _ => .ok (w.policy.onError d.attempts)}
  applyDeliveryActions := true

/-- One call of the backend, at the time of its transaction. -/
def Fleet.call (f : Fleet V J) (now : Instant) (op : ExecutionRuns.Op (Option V) J) :
    Reply (Option V) × Fleet V J :=
  let r := ExecutionRuns.perform w.backend now f.world.tables op
  (r.1,{f with world := ⟨now,r.2⟩})

def PostgresExecutionDelivery.completing (d : PostgresExecutionDelivery V)
    (c : ExecutionCompletion (Option V)) : ExecutionRuns.Op (Option V) J :=
  .complete d.lease.execution.id d.lease.attemptId d.lease.leaseToken c

/-- The exception a backend error is for the runtime. -/
def raisedBy : BackendError → Exn
  | .valueError m => .valueError m
  | .staleExecutionLease m =>
    {typeName := "StaleExecutionLease", message := .ok m, leaseLost := true}
  | .executionConflict m => {typeName := "ExecutionConflict", message := .ok m}
  | .executionEncodingError m => {typeName := "ExecutionEncodingError", message := .ok m}
  | .integrityError => .plain "IntegrityError"
  | .databaseError => .plain "DBAPIError"

/-- What `complete_execution` makes of the answer of the backend; a delivery
that is completed does not ask. -/
def completeExecution (d : PostgresExecutionDelivery V) (c : ExecutionCompletion (Option V))
    (now : Instant) (t : Tables J) : Outcome Exn Unit :=
  if d.completed then .ok ()
  else
    match (complete w.backend d.lease.execution.id d.lease.attemptId d.lease.leaseToken c now t).1 with
    | .ok x =>
      if c.status = .succeeded ∧ x.status = .cancelled then .error .cancelled else .ok ()
    | .error e => .error (.raised (raisedBy e))

/-- The answer is an execution. -/
def accepted : Reply V → Bool
  | .execution _ => true
  | _ => false

/-- What one awaited call of an execution does outside of it. -/
def Fleet.await (f : Fleet V J) (now : Instant) (i : ℕ) (d : PostgresExecutionDelivery V) :
    Call V → Fleet V J
  | .handler => {f with
      held := f.held.set i d
      begun := f.begun++[(d.lease.execution.id,d.lease.attemptId)]}
  | .completeExecution c =>
    if d.completed then {f with held := f.held.set i d}
    else
      let r := f.call w now (d.completing c)
      {r.2 with held := f.held.set i {d with completed := accepted r.1}}
  | _ => {f with held := f.held.set i d}

def perform (f : Fleet V J) (now : Instant) : Op V J → Option (Fleet V J)
  | .submit request encoded id => some (f.call w now (.submit request encoded id)).2
  | .requestCancel n id reason => some (f.call w now (.requestCancel n id reason)).2
  | .fetch source limit uuids =>
    let r := f.call w now (.claim source.namespaceName [source.taskName]
      (min limit source.batchSize) source.leaseDurationS source.workerId uuids)
    match r.1 with
    | .leases leases => some {r.2 with held := f.held++leases.map (delivered w)}
    | _ => some r.2
  | .start i env => do
    let d ← f.held[i]?
    if d.running.isSome then none
    else
      let d' := {d with running := some ⟨executing w d env,calls (executing w d env)⟩}
      some {f with held := f.held.set i d'}
  | .advance i => do
    let d ← f.held[i]?
    let r ← d.running
    match r.rest with
    | [] => some {f with held := f.held.eraseIdx i}
    | c::rest => some (f.await w now i {d with running := some {r with rest := rest}} c)
  | .disturb i applied => do
    let d ← f.held[i]?
    let r ← d.running
    match r.rest with
    | .completeExecution c::rest =>
      let d' := {d with running := some {r with rest := rest}}
      let f' := if applied && !d.completed then (f.call w now (d.completing c)).2 else f
      some {f' with held := f.held.set i d'}
    | _ => none
  | .heartbeat i leaseDurationS => do
    let d ← f.held[i]?
    if d.running.isSome then
      some (f.call w now
        (.heartbeat d.lease.execution.id d.lease.attemptId d.lease.leaseToken leaseDurationS)).2
    else none
  | .releaseUnstarted i => do
    let d ← f.held[i]?
    if d.running.isSome then none
    else
      let r := f.call w now
        (.release d.lease.execution.id d.lease.attemptId d.lease.leaseToken)
      some {r.2 with held := f.held.eraseIdx i}
  | .lost i => some {f with held := f.held.eraseIdx i}

/-- A completion ends as the backend answered it, or by an exception when the
connection broke or the wait was cancelled. -/
def Answered (f : Fleet V J) (now : Instant) : Op V J → Prop
  | .advance i => ∀ d r c rest, f.held[i]? = some d → d.running = some r →
      r.rest = .completeExecution c::rest →
      r.executor.env.outcome (.completeExecution c) = completeExecution w d c now f.world.tables
  | .disturb i _ => ∀ d r c rest, f.held[i]? = some d → d.running = some r →
      r.rest = .completeExecution c::rest →
      ∃ e, r.executor.env.outcome (.completeExecution c) = .error e
  | _ => True

/-- Database time never goes back. -/
def Step (f : Fleet V J) (l : Instant × Op V J) (f' : Fleet V J) : Prop :=
  f.world.clock ≤ l.1 ∧ perform w f l.1 l.2 = some f' ∧ Answered w f l.1 l.2

/-- Reached from empty tables by any clients and any workers of the task. -/
def Reached (f : Fleet V J) : Prop :=
  ∃ clock, Transition.Reachable ⟨ExecutionRuns.start clock,[],[]⟩ (Step w) f

end Steps

/-- The handler starts of an execution. -/
def starts (f : Fleet V J) (id : UUID) : ℕ := f.begun.countP fun p => p.1 = id

/-- The claims of an execution for which the handler was not started. -/
def unstarted (f : Fleet V J) (id : UUID) : ℕ :=
  (attemptsOf f.world.tables id).countP fun a => (id,a.id) ∉ f.begun

section Policy
variable (w : Workers V J) (d : PostgresExecutionDelivery V) (env : Env V)

/-- Not a completion as failed. -/
def Spares (c : Call V) : Prop := ∀ completion, c = .completeExecution completion →
  completion.status ≠ .failed

theorem quiet_spares (c : Call V) (h : Quiet c) : Spares c := by
  rintro completion rfl
  cases h

theorem only_completeManagedExecution (x : Executor V) {status : CompletionStatus}
    (hs : status ≠ .failed) (result : Option V) (error : Option ExecutionErrorDetail)
    (delayS : Option ℚ) : Only Spares (completeManagedExecution x status result error delayS) := by
  refine only_bind_returned (only_lift _) fun completion hret => ?_
  have hstatus : completion.status = status := by
    obtain ⟨s,-,hs⟩ := hret
    unfold buildCompletion at hs
    split at hs
    · cases hs
    · split at hs
      · cases hs
      · cases hs
        rfl
  refine only_attempt (only_bind (only_call ?_) fun _ => only_pure _) fun e => ?_
  · rintro c hc
    cases hc
    rw [hstatus]
    exact hs
  · exact only_ite (only_pure _) (only_lift _)

/-- While the policy asks for a retry, no completion is one as failed. -/
theorem spares_calls (h : (w.policy.onError d.attempts).decision = .retry) :
    ∀ c ∈ calls (executing w d env), Spares c := by
  have hretry : ∀ delayS error,
      Only Spares (whenApplied (executing w d env) (settleRetry (executing w d env) delayS error)) :=
    fun delayS error => only_bind
      (only_completeManagedExecution _ (by decide) none error delayS) fun _ => only_pure _
  have hcancel : Only Spares
      (whenApplied (executing w d env) (settleCancelled (executing w d env))) := by
    refine only_bind silent_executionError fun error => ?_
    refine only_bind (only_completeManagedExecution _ ?_ none error _) fun _ => only_pure _
    unfold managedStatus
    split
    · decide
    · decide
  have hsuccess : ∀ result, Only Spares
      (whenApplied (executing w d env) (applySuccess (executing w d env) result)) :=
    fun result => only_bind
      (only_completeManagedExecution _ (by decide) result none none) fun _ => only_pure _
  have hrecover : ∀ i, Only Spares (recover (executing w d env) i) := by
    intro i
    cases i with
    | cancelled =>
      exact only_bind (only_assign _) fun _ => only_bind (only_handleCancelled _
        (fun c hc => quiet_spares c (attending_quiet c hc)) hcancel) fun _ => only_lift _
    | raised exc =>
      refine only_bind (only_assign _) fun _ => only_bind (only_lift _) fun failure => ?_
      refine only_bind (only_assign _) fun _ =>
        only_bind (silent_snapshotCaptureEnvelope _) fun _ => ?_
      refine only_bind (only_assign _) fun _ =>
        only_bind ((quiet_checkpoint _ _ _).mono quiet_spares) fun _ => ?_
      refine only_bind ((quiet_runFailureHooks _).mono quiet_spares) fun _ =>
        only_bind ((quiet_checkpoint _ _ _).mono quiet_spares) fun _ => ?_
      have hpolicy : (executing w d env).env.retryPolicy exc failure =
          .ok (w.policy.onError d.attempts) := rfl
      rw [hpolicy,ofExcept_ok_bind,if_pos h]
      exact only_retryLater _ (fun c hc => quiet_spares c (attending_quiet c hc)) hretry _
  refine only_handle ?_ hrecover {}
  exact only_bind ((quiet_process _).mono quiet_spares) fun result =>
    only_bind (hsuccess result) fun _ =>
    only_bind ((quiet_announce _).mono quiet_spares) fun _ => only_assign _

theorem failed_of_policy {completion : ExecutionCompletion (Option V)}
    (hc : .completeExecution completion ∈ calls (executing w d env))
    (hfail : completion.status = .failed) : (w.policy.maxAttempts : ℤ) ≤ d.attempts+1 := by
  by_contra hlt
  have hretry : (w.policy.onError d.attempts).decision = .retry := by
    simp only [MaxAttempts.onError,if_pos (not_le.mp hlt)]
  exact spares_calls w d env hretry _ hc completion rfl hfail

end Policy

section Accounts
variable [DecidableEq J] {w : Workers V J} {f f' : Fleet V J} {now : Instant} {op : Op V J}

/-- The same delivery, with calls of its execution. -/
structure Continues (w : Workers V J) (d d' : PostgresExecutionDelivery V) : Prop where
  lease : d'.lease = d.lease
  attempts : d'.attempts = d.attempts
  calls : ∀ r', d'.running = some r' → (∃ r, d.running = some r ∧ ∀ c ∈ r'.rest, c ∈ r.rest) ∨
    ∃ env, r'.rest = calls (executing w d env)

omit [DecidableEq J] in
theorem Continues.refl (d : PostgresExecutionDelivery V) : Continues w d d where
  lease := rfl
  attempts := rfl
  calls r' hr' := .inl ⟨r',hr',fun _ hc => hc⟩

/-- A completion comes from an execution that has it to make. -/
def Sent (f : Fleet V J) : ExecutionRuns.Op (Option V) J → Prop
  | .complete id attemptId token c => ∃ d ∈ f.held, ∃ r, d.running = some r ∧
      .completeExecution c ∈ r.rest ∧ d.lease.execution.id = id ∧ d.lease.attemptId = attemptId ∧
      d.lease.leaseToken = token
  | _ => True

/-- A delivery held after a call was held before or made of a lease it returned. -/
def Comes (w : Workers V J) (f : Fleet V J) (reply : Reply (Option V))
    (d' : PostgresExecutionDelivery V) : Prop :=
  (∃ d ∈ f.held, Continues w d d') ∨
    ∃ leases, reply = .leases leases ∧ ∃ lease ∈ leases, d' = delivered w lease

/-- A step makes at most one call of the backend. -/
inductive Stepped (w : Workers V J) (f : Fleet V J) (now : Instant) (f' : Fleet V J) : Prop
  | stays : f'.world = f.world → (∀ d' ∈ f'.held, ∃ d ∈ f.held, Continues w d d') →
      Stepped w f now f'
  | calls (bop : ExecutionRuns.Op (Option V) J) : f'.world = (f.call w now bop).2.world →
      Sent f bop → (∀ d' ∈ f'.held, Comes w f (f.call w now bop).1 d') → Stepped w f now f'

omit [DecidableEq J] in
theorem continues_set {d d' : PostgresExecutionDelivery V} {i : ℕ} (hd : f.held[i]? = some d)
    (h : Continues w d d') : ∀ x ∈ f.held.set i d', ∃ y ∈ f.held, Continues w y x := by
  intro x hx
  rcases List.mem_or_eq_of_mem_set hx with hx | rfl
  · exact ⟨x,hx,.refl x⟩
  · exact ⟨d,List.mem_of_getElem? hd,h⟩

omit [DecidableEq J] in
theorem continues_rest {d : PostgresExecutionDelivery V} {r : Running V} {c : Call V}
    {rest : List (Call V)} (hr : d.running = some r) (hrest : r.rest = c::rest)
    (completed : Bool) :
    Continues w d {d with running := some {r with rest := rest}, completed := completed} where
  lease := rfl
  attempts := rfl
  calls := by
    rintro r' ⟨⟩
    refine .inl ⟨r,hr,fun c hc => ?_⟩
    rw [hrest]
    exact List.mem_cons_of_mem _ hc

theorem stepped_call (bop : ExecutionRuns.Op (Option V) J) (hsent : Sent f bop)
    (hworld : f'.world = (f.call w now bop).2.world)
    (hheld : ∀ d' ∈ f'.held, ∃ d ∈ f.held, Continues w d d') : Stepped w f now f' :=
  .calls bop hworld hsent fun d' hd' => .inl (hheld d' hd')

theorem perform_stepped (h : perform w f now op = some f') : Stepped w f now f' := by
  have hkeep : ∀ d' ∈ f.held, ∃ d ∈ f.held, Continues w d d' := fun d hd => ⟨d,hd,.refl d⟩
  have herase : ∀ i, ∀ d' ∈ f.held.eraseIdx i, ∃ d ∈ f.held, Continues w d d' :=
    fun i d hd => ⟨d,List.mem_of_mem_eraseIdx hd,.refl d⟩
  cases op with
  | submit request encoded id =>
    cases h
    exact stepped_call (.submit request encoded id) trivial rfl hkeep
  | requestCancel n id reason =>
    cases h
    exact stepped_call (.requestCancel n id reason) trivial rfl hkeep
  | fetch source limit uuids =>
    simp only [perform] at h
    split at h
    · next leases hleases =>
        cases h
        refine .calls (.claim source.namespaceName [source.taskName]
          (min limit source.batchSize) source.leaseDurationS source.workerId uuids) rfl trivial ?_
        intro d' hd'
        rcases List.mem_append.mp hd' with hd' | hd'
        · exact .inl ⟨d',hd',.refl d'⟩
        · obtain ⟨lease,hlease,rfl⟩ := List.mem_map.mp hd'
          exact .inr ⟨leases,hleases,lease,hlease,rfl⟩
    · cases h
      exact stepped_call (.claim source.namespaceName [source.taskName]
        (min limit source.batchSize) source.leaseDurationS source.workerId uuids) trivial rfl hkeep
  | start i env =>
    obtain ⟨d,hd,h⟩ := Option.bind_eq_some_iff.mp h
    split at h
    · cases h
    · next hidle =>
        cases h
        refine .stays rfl (continues_set hd ⟨rfl,rfl,?_⟩)
        rintro r' ⟨⟩
        exact .inr ⟨env,rfl⟩
  | advance i =>
    obtain ⟨d,hd,h⟩ := Option.bind_eq_some_iff.mp h
    obtain ⟨r,hr,h⟩ := Option.bind_eq_some_iff.mp h
    split at h
    · cases h
      exact .stays rfl (herase i)
    · next c rest hrest =>
        cases h
        have hcont := fun completed => continues_set hd (continues_rest (w := w) hr hrest completed)
        unfold Fleet.await
        split
        · exact .stays rfl (hcont d.completed)
        · next completion _ =>
            split
            · exact .stays rfl (hcont d.completed)
            · refine stepped_call (d.completing completion) ?_ rfl (hcont _)
              exact ⟨d,List.mem_of_getElem? hd,r,hr,by rw [hrest]; exact List.mem_cons_self,
                rfl,rfl,rfl⟩
        · exact .stays rfl (hcont d.completed)
  | disturb i applied =>
    obtain ⟨d,hd,h⟩ := Option.bind_eq_some_iff.mp h
    obtain ⟨r,hr,h⟩ := Option.bind_eq_some_iff.mp h
    split at h
    · next c rest hrest =>
        have hcont := continues_set hd (continues_rest (w := w) hr hrest d.completed)
        cases h
        split_ifs with hcall
        · refine stepped_call (d.completing c) ?_ rfl hcont
          exact ⟨d,List.mem_of_getElem? hd,r,hr,by rw [hrest]; exact List.mem_cons_self,
            rfl,rfl,rfl⟩
        · exact .stays rfl hcont
    · cases h
  | heartbeat i leaseDurationS =>
    obtain ⟨d,hd,h⟩ := Option.bind_eq_some_iff.mp h
    split at h
    · cases h
      exact stepped_call (.heartbeat d.lease.execution.id d.lease.attemptId d.lease.leaseToken
        leaseDurationS) trivial rfl hkeep
    · cases h
  | releaseUnstarted i =>
    obtain ⟨d,hd,h⟩ := Option.bind_eq_some_iff.mp h
    split at h
    · cases h
    · cases h
      exact stepped_call (.release d.lease.execution.id d.lease.attemptId d.lease.leaseToken)
        trivial rfl (herase i)
  | lost i =>
    cases h
    exact .stays rfl (herase i)

/-- What the fleet keeps: each delivery is one claim of its execution, handed
the number of the claims before; a delivery about to be failed has used up the
budget, and so has a failed execution. -/
structure Accounts (w : Workers V J) (f : Fleet V J) : Prop where
  reached : ExecutionRuns.Reached w.backend f.world
  held : ∀ d ∈ f.held, ∃ a ∈ f.world.tables.attempts, a.id = d.lease.attemptId ∧
    a.executionId = d.lease.execution.id ∧ (a.attemptNo : ℤ) = d.attempts+1
  failing : ∀ d ∈ f.held, ∀ r, d.running = some r → ∀ c, .completeExecution c ∈ r.rest →
    c.status = .failed → (w.policy.maxAttempts : ℤ) ≤ d.attempts+1
  failed : ∀ row ∈ f.world.tables.executions, row.status = .failed →
    w.policy.maxAttempts ≤ row.attempts

theorem Accounts.continued (h : Accounts w f) {d d' : PostgresExecutionDelivery V}
    (hd : d ∈ f.held) (hcont : Continues w d d') : ∀ r', d'.running = some r' →
      ∀ c, .completeExecution c ∈ r'.rest → c.status = .failed →
        (w.policy.maxAttempts : ℤ) ≤ d'.attempts+1 := by
  intro r' hr' c hc hfail
  rw [hcont.attempts]
  rcases hcont.calls r' hr' with ⟨r,hr,hsub⟩ | ⟨env,hcalls⟩
  · exact h.failing d hd r hr c (hsub _ hc) hfail
  · rw [hcalls] at hc
    exact failed_of_policy w d env hc hfail

omit [DecidableEq J] in
theorem idle_failing (d : PostgresExecutionDelivery V) (h : d.running = none) :
    ∀ r, d.running = some r → ∀ c, .completeExecution c ∈ r.rest → c.status = .failed →
      (w.policy.maxAttempts : ℤ) ≤ d.attempts+1 := by
  intro r hr
  rw [h] at hr
  cases hr

theorem step_accounts (h : Accounts w f) {l : Instant × Op V J} (hstep : Step w f l f') :
    Accounts w f' := by
  obtain ⟨hclock,hperf,-⟩ := hstep
  cases perform_stepped hperf with
  | stays hworld hheld =>
    refine ⟨hworld ▸ h.reached,?_,?_,hworld ▸ h.failed⟩
    · intro d' hd'
      obtain ⟨d,hd,hcont⟩ := hheld d' hd'
      rw [hworld,hcont.lease,hcont.attempts]
      exact h.held d hd
    · intro d' hd'
      obtain ⟨d,hd,hcont⟩ := hheld d' hd'
      exact h.continued hd hcont
  | calls bop hworld hsent hheld =>
    have hbstep : ExecutionRuns.Step w.backend f.world
        ⟨l.1,bop,(f.call w l.1 bop).1⟩ f'.world := by
      rw [hworld]
      exact ⟨hclock,rfl,rfl⟩
    have hlaw := reached_resultLaw h.reached
    refine ⟨h.reached.run (.single hbstep),?_,?_,?_⟩
    · intro d' hd'
      rcases hheld d' hd' with ⟨d,hd,hcont⟩ | ⟨leases,hleases,lease,hlease,rfl⟩
      · obtain ⟨a,ha,haid,haexec,hano⟩ := h.held d hd
        obtain ⟨a',ha',haid',haexec',hano'⟩ := step_keeps hlaw hbstep ha
        rw [hcont.lease,hcont.attempts,← haid,← haexec,← hano,← hano']
        exact ⟨a',ha',haid',haexec',rfl⟩
      · have hgranted := (perform_leases (u := f'.world.tables) hlaw.1
          (by rw [← hleases,hworld]; rfl) lease hlease).2
        obtain ⟨a,ha,haid,haexec,hano⟩ := hgranted
        have hpos := attempt_positive (h.reached.run (.single hbstep)) ha
        refine ⟨a,ha,haid,haexec,?_⟩
        simp only [delivered]
        omega
    · intro d' hd'
      rcases hheld d' hd' with ⟨d,hd,hcont⟩ | ⟨leases,hleases,lease,hlease,rfl⟩
      · exact h.continued hd hcont
      · exact idle_failing _ rfl
    · intro row' hr' hfail
      rcases step_failed h.reached hbstep hr' hfail with
        ⟨row,hr,hrow,hattempts⟩ | ⟨attemptId,token,c,hop,hc,a,ha,haid,hano⟩
      · rw [hattempts]
        exact h.failed row hr hrow
      · dsimp only at hop
        subst hop
        obtain ⟨d,hd,r,hrun,hcall,-,hattempt,-⟩ := hsent
        obtain ⟨a₀,ha₀,haid₀,-,hano₀⟩ := h.held d hd
        have hsame : a = a₀ :=
          eq_of_key hlaw.1.attemptIds ha ha₀ (haid.trans (hattempt.symm.trans haid₀.symm))
        have hbudget := h.failing d hd r hrun c hcall hc
        rw [← hano₀,← hsame,hano] at hbudget
        exact_mod_cast hbudget

theorem reached_accounts (h : Reached w f) : Accounts w f := by
  obtain ⟨clock,hr⟩ := h
  refine hr.invariant ?_ fun f l f' hf hstep => step_accounts hf hstep
  refine ⟨reached_start clock,?_,?_,?_⟩
  · intro d hd
    cases hd
  · intro d hd
    cases hd
  · intro row hrow
    cases hrow

omit [DecidableEq J] in
/-- Each attempt whose handler was started accounts for a start of its own. -/
theorem starts_ge (hf : Sound f.world.tables) (id : UUID) :
    (attemptsOf f.world.tables id).countP (fun a => (id,a.id) ∈ f.begun) ≤ starts f id := by
  have hnodup : ((attemptsOf f.world.tables id).map AttemptRow.id).Nodup :=
    (List.filter_sublist.map AttemptRow.id).nodup hf.attemptIds
  rw [List.countP_eq_length_filter,starts,List.countP_eq_length_filter]
  have hpairs : (((attemptsOf f.world.tables id).filter fun a => (id,a.id) ∈ f.begun).map
      fun a => (id,a.id)).Nodup := by
    have hsub := (List.filter_sublist (l := attemptsOf f.world.tables id)
      (p := fun a => (id,a.id) ∈ f.begun)).map AttemptRow.id
    have hids := hsub.nodup hnodup
    have hinj : Function.Injective fun x : UUID => (id,x) := fun x y h => (Prod.mk.inj h).2
    have hmap := hids.map hinj
    rwa [List.map_map] at hmap
  have hsub : ∀ p ∈ ((attemptsOf f.world.tables id).filter fun a => (id,a.id) ∈ f.begun).map
      (fun a => (id,a.id)), p ∈ f.begun.filter fun p => p.1 = id := by
    intro p hp
    obtain ⟨a,ha,rfl⟩ := List.mem_map.mp hp
    have hbegun := (List.mem_filter.mp ha).2
    exact List.mem_filter.mpr ⟨by simpa using hbegun,by simp⟩
  have hle := (List.subperm_of_subset hpairs hsub).length_le
  rwa [List.length_map] at hle

/-- Every claim is paid for. The attempts of an execution are its claims, a
delivery is handed the number of those before its own, and a failed execution
has had as many as the policy allows, each of which either started the handler
or was spent without it. -/
theorem budget_spent (h : Reached w f) :
    (∀ row ∈ f.world.tables.executions,
      row.attempts = (attemptsOf f.world.tables row.id).length ∧
        (row.status = .failed → w.policy.maxAttempts ≤ row.attempts ∧
          w.policy.maxAttempts ≤ starts f row.id+unstarted f row.id)) ∧
    ∀ d ∈ f.held, ∃ a ∈ attemptsOf f.world.tables d.lease.execution.id,
      a.id = d.lease.attemptId ∧ (a.attemptNo : ℤ) = d.attempts+1 := by
  have hacc := reached_accounts h
  constructor
  · intro row hr
    have hlength : row.attempts = (attemptsOf f.world.tables row.id).length := by
      have hlen := congrArg List.length (Throughout.row (reached_lease hacc.reached) hr).numbered
      simpa using hlen.symm
    refine ⟨hlength,fun hfail => ?_⟩
    have hbudget := hacc.failed row hr hfail
    have hstarts := starts_ge (reached_resultLaw hacc.reached).1 row.id
    have hsplit := List.length_eq_countP_add_countP
      (fun a : AttemptRow => (row.id,a.id) ∈ f.begun) (l := attemptsOf f.world.tables row.id)
    have hunstarted : unstarted f row.id = (attemptsOf f.world.tables row.id).countP
        (fun a => decide (¬decide ((row.id,a.id) ∈ f.begun) = true)) := by
      unfold unstarted
      simp
    exact ⟨hbudget,by omega⟩
  · intro d hd
    obtain ⟨a,ha,haid,haexec,hano⟩ := hacc.held d hd
    exact ⟨a,mem_group.mpr ⟨ha,haexec⟩,haid,hano⟩

end Accounts

section Samples

/-- At most two attempts. -/
def twice : Workers ℤ (Option ℤ) where
  backend := integers
  correlated metadata _ _ := metadata
  task := {
    appName := "media", name := "resize", sourceName := some "executions"
    before := 0, afterSuccess := 0, onFailure := 0
    emitTargets := [], deadLetterSinks := [], eventHandlers := 0, capture := none}
  policy := ⟨2,none,by decide⟩

/-- The handler raises; every other call returns. -/
def raising : Env ℤ where
  outcome _ := .ok ()
  handler := .error (.raised (.plain "RuntimeError"))
  predicate _ := .ok true
  transform _ := .ok none
  isStopping _ _ := false
  cancelRequested := false
  retryPolicy _ _ := .ok ⟨.fail,none⟩
  copyMeta _ := .ok ()
  succeededMeta := .ok ()
  copyPayload := .ok ()
  copyOriginalMeta := .ok ()
  copyEnvelope := .ok ()
  copyResult := .ok ()

/-- In time, and every completion returns as the backend lets it. -/
def undisturbed (f : Fleet ℤ (Option ℤ)) (l : Instant × Op ℤ (Option ℤ)) : Bool :=
  decide (f.world.clock ≤ l.1) &&
    match l.2 with
    | .advance i =>
      match (f.held[i]?).bind fun d => d.running.map fun r => (d,r) with
      | some (d,⟨x,.completeExecution c::_⟩) =>
        (completeExecution twice d c l.1 f.world.tables).isOk &&
          (x.env.outcome (.completeExecution c)).isOk
      | _ => true
    | .disturb _ _ => false
    | _ => true

theorem eq_of_isOk {o o' : Outcome Exn Unit} (h : o.isOk = true) (h' : o'.isOk = true) : o = o' := by
  cases o with
  | error i => cases h
  | ok u => cases o' with
    | error i => cases h'
    | ok u' => rfl

theorem undisturbed_answered (f : Fleet ℤ (Option ℤ)) (l : Instant × Op ℤ (Option ℤ))
    (h : undisturbed f l = true) : f.world.clock ≤ l.1 ∧ Answered twice f l.1 l.2 := by
  obtain ⟨now,op⟩ := l
  unfold undisturbed at h
  rw [Bool.and_eq_true,decide_eq_true_eq] at h
  refine ⟨h.1,?_⟩
  cases op with
  | advance i =>
    intro d r c rest hd hr hrest
    have hboth := h.2
    obtain ⟨x,calls⟩ := r
    dsimp only at hrest
    subst hrest
    simp only [hd,hr,Option.bind_some,Option.map_some,Bool.and_eq_true] at hboth
    exact eq_of_isOk hboth.2 hboth.1
  | disturb i applied => cases h.2
  | _ => trivial

theorem undisturbed_reached {ls : List (Instant × Op ℤ (Option ℤ))} {f : Fleet ℤ (Option ℤ)}
    (h : Transition.runs (fun f l => perform twice f l.1 l.2) undisturbed
      ⟨ExecutionRuns.start 0,[],[]⟩ ls = some f) : Reached twice f := by
  refine ⟨0,ls,(Transition.run_of_runs undisturbed_answered h).mono fun f l f' hs => ?_⟩
  exact ⟨hs.2.1,hs.1,hs.2.2⟩

def submitting : Op ℤ (Option ℤ) :=
  .submit {namespaceName := "default", taskName := "resize", payload := some 7, metadata := none}
    ⟨some 7,none,"7"⟩ 1

def fetching (attemptId token : UUID) : Op ℤ (Option ℤ) :=
  .fetch ⟨"default","resize",10,30,"worker"⟩ 1 fun _ => (attemptId,token)

/-- Executes what was fetched to its end. -/
def executed (now : Instant) : List (Instant × Op ℤ (Option ℤ)) :=
  (now,.start 0 raising)::List.replicate 11 (now,.advance 0)

def failedTwice : List (Instant × Op ℤ (Option ℤ)) :=
  [(1,submitting),(2,fetching 11 12)]++executed 3++[(4,fetching 21 22)]++executed 5

def releasedOnce : List (Instant × Op ℤ (Option ℤ)) :=
  [(1,submitting),(2,fetching 11 12),(3,.releaseUnstarted 0),(4,fetching 21 22)]++executed 5

/-- The status, the attempts and the handler starts of each execution. -/
def summary (f : Fleet ℤ (Option ℤ)) : List (ExecutionStatus × ℕ × ℕ) :=
  f.world.tables.executions.map fun row => (row.status,row.attempts,starts f row.id)

end Samples

/-- Two claims, both of which start the handler. -/
theorem failedTwice_spent : ∃ f, Reached twice f ∧ summary f = [(.failed,2,2)] ∧
    ∀ row ∈ f.world.tables.executions, row.status = .failed →
      2 ≤ row.attempts ∧ 2 ≤ starts f row.id+unstarted f row.id := by
  have hrun : (Transition.runs (fun f l => perform twice f l.1 l.2) undisturbed
      ⟨ExecutionRuns.start 0,[],[]⟩ failedTwice).map summary = some [(.failed,2,2)] := by
    decide +kernel
  obtain ⟨f,hf,hsummary⟩ := Option.map_eq_some_iff.mp hrun
  have hreached := undisturbed_reached hf
  exact ⟨f,hreached,hsummary,fun row hr => ((budget_spent hreached).1 row hr).2⟩

/-- The first claim is released unstarted; the second starts the handler, which
raises, and the execution is failed. -/
theorem releasedOnce_failed : ∃ f, Reached twice f ∧ ∃ row ∈ f.world.tables.executions,
    row.status = .failed ∧ starts f row.id < twice.policy.maxAttempts := by
  have hrun : (Transition.runs (fun f l => perform twice f l.1 l.2) undisturbed
      ⟨ExecutionRuns.start 0,[],[]⟩ releasedOnce).map summary = some [(.failed,2,1)] := by
    decide +kernel
  obtain ⟨f,hf,hsummary⟩ := Option.map_eq_some_iff.mp hrun
  refine ⟨f,undisturbed_reached hf,?_⟩
  have hmem : (ExecutionStatus.failed,2,1) ∈ summary f := by
    rw [hsummary]
    exact List.mem_singleton_self _
  obtain ⟨row,hr,heq⟩ := List.mem_map.mp hmem
  obtain ⟨hstatus,hrest⟩ := Prod.mk.inj heq
  refine ⟨row,hr,hstatus,?_⟩
  rw [(Prod.mk.inj hrest).2]
  decide

end OneStep.ExecutionWorkers
