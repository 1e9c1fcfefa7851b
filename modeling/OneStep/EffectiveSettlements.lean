import OneStep.DeliverySettlement

/-!
# Settlements that return

A settlement counts once its call has returned: a retry whose delay is cancelled has put
nothing back. For each part of the except clauses, the outcomes on the way to a settlement
that returns, the settlement itself being the last of them.
-/
namespace OneStep.EffectiveSettlements
open Coroutine ExecutionModel DeliveryModel DeliveryExecutor DeliveryPaths DeliverySettlement

variable {V : Type} (x : Executor V)

section Outcomes

/-- Failing the delivery, or the retry that follows when that raises. -/
def failedOutcome (exc : Exn) : Outcome Exn Unit :=
  caught (x.env.outcome (.fail exc)) fun _ => x.env.outcome (.retry none)

/-- The settlement once the policy has given up: a dead-letter sink that fails leads to a
retry. -/
def terminalOutcome (exc : Exn) (failure : FailureInfo) : Outcome Exn Unit :=
  if x.task.deadLetterSinks ≠ [] then
    match deadLetterOutcome x failure with
    | .ok () => failedOutcome x exc
    | .error (.raised _) => x.env.outcome (.retry none)
    | .error .cancelled => .error .cancelled
  else failedOutcome x exc

def decidedOutcome (exc : Exn) (failure : FailureInfo) : Outcome Exn Unit :=
  match x.env.retryPolicy exc failure with
  | .error e => .error (.raised e)
  | .ok action =>
    if action.decision = .retry then x.env.outcome (.retry action.delayS)
    else terminalOutcome x exc failure

/-- The settlement an interruption leads to, if nothing interrupts on the way. -/
def settledOutcome : Interrupt Exn → Outcome Exn Unit
  | .cancelled => x.env.outcome (.retry none)
  | .raised exc =>
    match FailureInfo.fromException exc (failureKind exc) with
    | .error e => .error (.raised e)
    | .ok failure => decidedOutcome x exc failure

end Outcomes

section Parts
variable {I : ExecutionOutcome V → Prop}

abbrev Effective (c : Call V) : Prop := effective x c = true

variable {c : Call V}

theorem quiet_not_effective (h : Quiet c) : ¬Effective x c := by
  rw [Effective,quiet_effective x h]
  nofun

theorem isOk_iff {o : Outcome Exn Unit} : o.isOk = true ↔ o = .ok () := by
  cases o with
  | ok u => exact iff_of_true rfl rfl
  | error i => exact iff_of_false nofun nofun

theorem effective_iff (h : acts c = true) : Effective x c ↔ x.env.outcome c = .ok () := by
  rw [Effective,effective,h,Bool.true_and]
  exact isOk_iff

theorem reaches_await (h : acts c = true) :
    Reaches I (Effective x) (await x c) [x.env.outcome c] := by
  intro o _
  rw [first_singleton,← effective_iff x h]
  change (∃ d ∈ [c],Effective x d) ↔ _
  simp

variable (hord : x.delivery.managed = false) (happ : x.applyDeliveryActions = true)
include hord

theorem reaches_settleFailure (exc : Exn) (error : Option ExecutionErrorDetail) :
    Reaches I (Effective x) (settleFailure x exc error) [failedOutcome x exc] := by
  intro o _
  rw [first_singleton]
  simp only [settleFailure,hord,Bool.false_eq_true,if_false,failedOutcome]
  unfold attempt
  cases hf : x.env.outcome (.fail exc) with
  | ok u =>
    have hcall : ((await x (.fail exc)).run o).result = .ok u := hf
    rw [handle_of_ok (a := true) (by rw [bind_of_ok hcall]; rfl),bind_of_ok hcall]
    exact iff_of_true ⟨.fail exc,List.mem_cons_self,(effective_iff x rfl).mpr hf⟩ rfl
  | error i =>
    have hcall : ((await x (.fail exc)).run o).result = .error i := hf
    have hnot : ¬Effective x (.fail exc) := by
      rw [effective_iff x rfl,hf]
      exact fun h => by cases h
    rw [handle_of_error (i := i) (by rw [bind_of_error hcall]),bind_of_error hcall]
    cases i with
    | cancelled =>
      refine iff_of_false ?_ fun h => by cases h
      rintro ⟨c,hc,heff⟩
      rw [List.mem_singleton.mp hc] at heff
      exact hnot heff
    | raised e =>
      have hretry : Reaches (fun _ => True) (Effective x) (do
          await x (.retry none)
          return false) [x.env.outcome (.retry none)] :=
        reaches_bind_only (reaches_await x rfl) fun _ _ => only_pure _
      rw [caught,← first_singleton (x.env.outcome (.retry none)),← hretry o trivial]
      constructor
      · rintro ⟨c,hc,heff⟩
        rcases List.mem_cons.mp hc with rfl | hc
        · exact absurd heff hnot
        · exact ⟨c,hc,heff⟩
      · rintro ⟨c,hc,heff⟩
        exact ⟨c,List.mem_cons_of_mem _ hc,heff⟩

theorem settling_effective :
    Settling x (Effective x) (fun delayS => x.env.outcome (.retry delayS)) (failedOutcome x) where
  quiet _ := quiet_not_effective x
  retry _ _ := reaches_await x rfl
  fail _ := reaches_settleFailure x hord

omit hord in
theorem settledEnd_effective (i : Interrupt Exn) :
    settledEnd x (fun delayS => x.env.outcome (.retry delayS)) (failedOutcome x) i =
      settledOutcome x i := by
  cases i <;> rfl

include happ

/-- An except clause settles the delivery exactly when nothing interrupts, the settlement
included. -/
theorem reaches_recover (i : Interrupt Exn) :
    Reaches (fun _ => True) (Effective x) (recover x i) (recoveryPath x i++[settledOutcome x i]) := by
  rw [← settledEnd_effective]
  exact reaches_settled x (settling_effective x hord) hord happ i

end Parts

section Whole

/-- From the start to the return of the acknowledgement. -/
def acknowledgedPath : List (Outcome Exn Unit) := processPath x++[x.env.outcome .ack]

/-- From what interrupts it to the return of the settlement that follows. -/
def recoveredPath (i : Interrupt Exn) : List (Outcome Exn Unit) :=
  recoveryPath x i++[settledOutcome x i]

theorem effective_append_quiet {before after : List (Call V)} (hq : ∀ c ∈ before, Quiet c) :
    (∃ c ∈ before++after, Effective x c) ↔ ∃ c ∈ after, Effective x c := by
  constructor
  · rintro ⟨c,hc,heff⟩
    rcases List.mem_append.mp hc with hc | hc
    · exact absurd heff (quiet_not_effective x (hq c hc))
    · exact ⟨c,hc,heff⟩
  · rintro ⟨c,hc,heff⟩
    exact ⟨c,List.mem_append_right _ hc,heff⟩

/-- A settlement returns exactly when the acknowledgement does, or when nothing interrupts
what follows an interruption up to the return of its settlement. -/
theorem effective_exists_iff (hord : x.delivery.managed = false)
    (happ : x.applyDeliveryActions = true) : (∃ c ∈ calls x, Effective x c) ↔
      first (acknowledgedPath x) = .ok () ∨
        ∃ i, first (acknowledgedPath x) = .error i ∧ first (recoveredPath x i) = .ok () := by
  unfold acknowledgedPath
  have hack : x.env.outcome .ack = .ok () → Effective x .ack := (effective_iff x rfl).mpr
  generalize hcalls : calls x = cs
  have hcourse := course x hord happ
  rw [hcalls] at hcourse
  cases hcourse with
  | @processing i before o hproc hq =>
    have hfront : first (processPath x++[x.env.outcome .ack]) = .error i := by
      rw [first_append,hproc]
    rw [effective_append_quiet x hq,reaches_recover x hord happ i o trivial,hfront]
    simp [recoveredPath]
  | @acknowledging i before o hproc hi hq =>
    have hnot : ¬Effective x .ack := by
      rw [effective_iff x rfl,hi]
      nofun
    have htail : (∃ c ∈ Call.ack::((recover x i).run o).calls, Effective x c) ↔
        ∃ c ∈ ((recover x i).run o).calls, Effective x c := by
      rw [List.exists_mem_cons_iff]
      exact or_iff_right hnot
    rw [effective_append_quiet x hq,htail,reaches_recover x hord happ i o trivial,
      first_append_of_ok hproc,first_singleton,hi]
    simp [recoveredPath]
  | @announcing i before after o hproc hok hi hq hq' =>
    rw [effective_append_quiet x hq,first_append_of_ok hproc,first_singleton]
    exact iff_of_true ⟨.ack,List.mem_cons_self,hack hok⟩ (.inl hok)
  | @succeeded before after hproc hok hann hq hq' =>
    rw [effective_append_quiet x hq,first_append_of_ok hproc,first_singleton]
    exact iff_of_true ⟨.ack,List.mem_cons_self,hack hok⟩ (.inl hok)

end Whole

end OneStep.EffectiveSettlements
