import OneStep.InflightPaths
import OneStep.ReporterTelemetry
import OneStep.WorkItems

/-!
# The in-flight gauge of a task

Executions of one task run at the same time and await their calls in any order; the reporter
sees their events as they come. The gauge is the number of executions that were counted in and
have not ended, in every state, as long as each of them is counted out by its last call.
-/
namespace OneStep.InflightGauge
open Coroutine DeliveryModel DeliveryExecutor InflightPaths ReporterTelemetry Transition

variable {V F : Type}

section Gauge

/-- What an execution is still to await, and whether it was counted in. -/
structure Execution (V : Type) where
  pending : List (Call V)
  started : Bool := false

structure Gauged (V F : Type) where
  bucket : TaskMetricsState F := {}
  executions : List (Execution V) := []

inductive Act (V F : Type) where
  | execute (delivery : Delivery V) (env : Env V) (applyDeliveryActions : Bool)
  | step (i : ℕ) (durationS : Option F) (failure : Option FailureKind)
  | rotate

variable (task : TaskSpec) (reporter : ℕ)

def executor (delivery : Delivery V) (env : Env V) (applyDeliveryActions : Bool) : Executor V where
  task := task
  delivery := delivery
  env := reporting reporter env
  applyDeliveryActions := applyDeliveryActions

/-- What the reporter does with a call, which is an event for it or none. -/
def heard (durationS : Option F) (failure : Option FailureKind) (bucket : TaskMetricsState F) :
    Call V → TaskMetricsState F
  | .eventHandler kind i =>
    if i = reporter then record ⟨kind,task.name,durationS,failure⟩ bucket else bucket
  | _ => bucket

/-- The call that is awaited returns. -/
def Execution.advance (e : Execution V) : Execution V where
  pending := e.pending.tail
  started := e.started || e.pending.head?.any fun c => sign reporter c = some .up

def Execution.inFlight (e : Execution V) : Bool := e.started && !e.pending.isEmpty

def perform (s : Gauged V F) : Act V F → Option (Gauged V F)
  | .execute delivery env applyDeliveryActions => some {s with
      executions := s.executions++[⟨calls (executor task reporter delivery env applyDeliveryActions),false⟩]}
  | .step i durationS failure =>
    match s.executions[i]? with
    | none => none
    | some e => e.pending.head?.map fun c =>
      ⟨heard task reporter durationS failure s.bucket c,s.executions.modify i (Execution.advance reporter)⟩
  | .rotate => some {s with bucket := s.bucket.rotated}

/-- The gauge is the number of executions in flight, and zero once all have ended. -/
def Agrees (s : Gauged V F) : Prop :=
  s.bucket.inflight = s.executions.countP Execution.inFlight ∧
    ((∀ e ∈ s.executions, e.pending = []) → s.bucket.inflight = 0)

/-- Only exact executions begin, and the reporter is the last event handler. -/
def Begins (_ : Gauged V F) : Act V F → Prop
  | .execute delivery env applyDeliveryActions =>
    task.eventHandlers = reporter+1 ∧ Exact (executor task reporter delivery env applyDeliveryActions)
  | _ => True

end Gauge

section Runs

variable {task : TaskSpec} {reporter : ℕ}

/-- Where an execution stands: nothing to come moves the gauge, or it is to be counted in and
out again, or out. -/
inductive Shape (reporter : ℕ) : Execution V → Prop where
  | steady {pending : List (Call V)} {started : Bool} : (∀ c ∈ pending, ¬Gauge reporter c) →
      (started = true → pending = []) → Shape reporter ⟨pending,started⟩
  | waiting {pre mid : List (Call V)} {up down : Call V} : Moves reporter .up up →
      Moves reporter .down down → (∀ c ∈ pre++mid, ¬Gauge reporter c) →
      Shape reporter ⟨pre++up::(mid++[down]),false⟩
  | running {mid : List (Call V)} {down : Call V} : Moves reporter .down down →
      (∀ c ∈ mid, ¬Gauge reporter c) → Shape reporter ⟨mid++[down],true⟩

theorem shape_calls {l : List (Call V)} (h : InflightPaths.Gauged reporter l) :
    Shape reporter ⟨l,false⟩ := by
  rcases h with hsteady | ⟨pre,up,mid,down,rfl,hup,hdown,hquiet⟩
  · exact .steady hsteady nofun
  · exact .waiting hup hdown hquiet

theorem record_inflight (event : TaskEvent F) (bucket : TaskMetricsState F) :
    (record event bucket).inflight = match signOf event.kind with
      | some .up => bucket.inflight+1
      | some .down => bucket.inflight-1
      | none => bucket.inflight := by
  have htimeout : ∀ s : TaskMetricsState F, (recordTimeout event s).inflight = s.inflight := by
    intro s
    unfold recordTimeout
    split <;> rfl
  unfold record
  cases event.kind with
  | retried => exact htimeout _
  | failed => exact htimeout _
  | _ => rfl

theorem heard_inflight (durationS : Option F) (failure : Option FailureKind)
    (bucket : TaskMetricsState F) (c : Call V) :
    (heard task reporter durationS failure bucket c).inflight = match sign reporter c with
      | some .up => bucket.inflight+1
      | some .down => bucket.inflight-1
      | none => bucket.inflight := by
  cases c with
  | eventHandler kind i =>
    rw [heard,sign]
    split
    · exact record_inflight _ _
    · rfl
  | _ => rfl

theorem advance_steady {c : Call V} {rest : List (Call V)} {started : Bool} (h : ¬Gauge reporter c) :
    Execution.advance reporter ⟨c::rest,started⟩ = ⟨rest,started⟩ := by
  have hnone : sign reporter c = none := not_not.mp h
  have hup : (decide (sign reporter c = some .up)) = false := by
    rw [hnone]
    rfl
  change Execution.mk rest (started || decide (sign reporter c = some .up)) = _
  rw [hup,Bool.or_false]

theorem shape_advance {c : Call V} {rest : List (Call V)} {started : Bool}
    (h : Shape reporter ⟨c::rest,started⟩) :
    Shape reporter (Execution.advance reporter ⟨c::rest,started⟩) ∧
      ((sign reporter c = none ∧ (Execution.advance reporter ⟨c::rest,started⟩).inFlight =
          (⟨c::rest,started⟩ : Execution V).inFlight) ∨
        (sign reporter c = some .up ∧ (⟨c::rest,started⟩ : Execution V).inFlight = false ∧
          (Execution.advance reporter ⟨c::rest,started⟩).inFlight = true) ∨
        (sign reporter c = some .down ∧ (⟨c::rest,started⟩ : Execution V).inFlight = true ∧
          (Execution.advance reporter ⟨c::rest,started⟩).inFlight = false)) := by
  generalize hpending : c::rest = pending at h
  cases h with
  | steady hsteady hstarted =>
    subst hpending
    have hc := hsteady c List.mem_cons_self
    have hidle : started = false := by
      cases started with
      | false => rfl
      | true => cases hstarted rfl
    rw [advance_steady hc]
    refine ⟨.steady (fun d hd => hsteady d (List.mem_cons_of_mem _ hd)) ?_,.inl ⟨not_not.mp hc,?_⟩⟩
    · rw [hidle]
      exact nofun
    · rw [hidle]
      rfl
  | @waiting pre mid up down hup hdown hquiet =>
    cases pre with
    | nil =>
      obtain ⟨rfl,rfl⟩ := List.cons.inj hpending
      have hadvance : Execution.advance reporter ⟨c::(mid++[down]),false⟩ = ⟨mid++[down],true⟩ := by
        change Execution.mk (mid++[down]) (false || decide (sign reporter c = some .up)) = _
        rw [hup,Bool.false_or]
        rfl
      rw [List.nil_append,hadvance]
      refine ⟨.running hdown hquiet,.inr (.inl ⟨hup,rfl,?_⟩)⟩
      cases mid <;> rfl
    | cons d pre =>
      obtain ⟨rfl,rfl⟩ := List.cons.inj hpending
      have hc := hquiet c List.mem_cons_self
      rw [List.cons_append,advance_steady hc]
      refine ⟨.waiting hup hdown fun d hd => hquiet d (List.mem_cons_of_mem _ hd),?_⟩
      exact .inl ⟨not_not.mp hc,rfl⟩
  | @running mid down hdown hquiet =>
    cases mid with
    | nil =>
      obtain ⟨rfl,rfl⟩ := List.cons.inj hpending
      refine ⟨.steady (fun d hd => absurd hd List.not_mem_nil) fun _ => rfl,?_⟩
      exact .inr (.inr ⟨hdown,rfl,rfl⟩)
    | cons d mid =>
      obtain ⟨rfl,rfl⟩ := List.cons.inj hpending
      have hc := hquiet c List.mem_cons_self
      rw [List.cons_append,advance_steady hc]
      refine ⟨.running hdown fun d hd => hquiet d (List.mem_cons_of_mem _ hd),.inl ⟨not_not.mp hc,?_⟩⟩
      cases mid <;> rfl

structure Counted (reporter : ℕ) (s : Gauged V F) : Prop where
  shapes : ∀ e ∈ s.executions, Shape reporter e
  counted : s.bucket.inflight = s.executions.countP Execution.inFlight

theorem agrees_of_counted {s : Gauged V F} (h : Counted reporter s) : Agrees s := by
  refine ⟨h.counted,fun hended => ?_⟩
  rw [h.counted,List.countP_eq_zero]
  intro e he
  rw [Execution.inFlight,hended e he,List.isEmpty_nil,Bool.not_true,Bool.and_false]
  exact Bool.false_ne_true

theorem mem_modify {f : Execution V → Execution V} {l : List (Execution V)} {i : ℕ} {e : Execution V}
    (h : e ∈ l.modify i f) : e ∈ l ∨ ∃ old, l[i]? = some old ∧ e = f old := by
  obtain ⟨j,hj⟩ := List.mem_iff_getElem?.mp h
  rw [List.getElem?_modify] at hj
  obtain ⟨old,hold,rfl⟩ := Option.map_eq_some_iff.mp hj
  split
  · next heq =>
      subst heq
      exact .inr ⟨old,hold,rfl⟩
  · exact .inl (List.mem_of_getElem? hold)

/-- A step of an execution keeps the count. -/
theorem counted_step {s t : Gauged V F} {i : ℕ} {durationS : Option F} {failure : Option FailureKind}
    (h : Counted reporter s) (hstep : perform task reporter s (.step i durationS failure) = some t) :
    Counted reporter t := by
  rw [perform] at hstep
  cases hi : s.executions[i]? with
  | none =>
    rw [hi] at hstep
    cases hstep
  | some e =>
    obtain ⟨pending,started⟩ := e
    cases pending with
    | nil =>
      rw [hi] at hstep
      cases hstep
    | cons c rest =>
      rw [hi] at hstep
      cases hstep
      have hmem : (⟨c::rest,started⟩ : Execution V) ∈ s.executions := List.mem_of_getElem? hi
      obtain ⟨hshape,hgauge⟩ := shape_advance (h.shapes _ hmem)
      refine ⟨fun e he => ?_,?_⟩
      · rcases mem_modify he with hold | ⟨old,hold,rfl⟩
        · exact h.shapes e hold
        · obtain rfl := Option.some.inj (hold.symm.trans hi)
          exact hshape
      · have hcount := WorkItems.countP_modify (p := Execution.inFlight)
          (f := Execution.advance reporter) hi
        change (heard _ _ _ _ _ c).inflight = _
        rw [heard_inflight,h.counted]
        rcases hgauge with ⟨hsign,hsame⟩ | ⟨hsign,hbefore,hafter⟩ | ⟨hsign,hbefore,hafter⟩
        · rw [hsame] at hcount
          rw [hsign]
          exact (Nat.add_right_cancel hcount).symm
        · rw [hbefore,hafter,if_neg Bool.false_ne_true,if_pos rfl] at hcount
          rw [hsign]
          exact hcount.symm
        · rw [hbefore,hafter,if_neg Bool.false_ne_true,if_pos rfl] at hcount
          rw [hsign]
          exact Nat.sub_eq_of_eq_add hcount.symm

/-- Executions that are each counted out by their last call, at the same time in any order: the
gauge is the number of those in flight, and zero once all have ended. -/
theorem inflight_exact (task : TaskSpec) (reporter : ℕ) (acts : List (Act V F))
    (h : EachStep (perform task reporter) (Begins task reporter) {} acts) :
    Throughout (perform task reporter) Agrees {} acts := by
  refine throughout_of_eachStep (J := Counted reporter) h ?_ (fun s hs => agrees_of_counted hs)
    ⟨fun _ he => absurd he List.not_mem_nil,rfl⟩
  intro s act t hs hstep hbegins
  cases act with
  | execute delivery env applyDeliveryActions =>
    cases hstep
    obtain ⟨hlast,hexact⟩ := hbegins
    have hregistered : Registered reporter
        (executor task reporter delivery env applyDeliveryActions) :=
      ⟨hlast,fun kind => if_pos rfl⟩
    refine ⟨fun e he => ?_,?_⟩
    · rcases List.mem_append.mp he with hold | hnew
      · exact hs.shapes e hold
      · rw [List.mem_singleton.mp hnew]
        exact shape_calls (gauged_execute _ hregistered hexact)
    · rw [List.countP_append]
      exact hs.counted
  | step i durationS failure => exact counted_step hs hstep
  | rotate =>
    cases hstep
    exact ⟨hs.shapes,hs.counted⟩

end Runs

section Examples

/-- Every call returns, and the handler ends as told. -/
def plainEnv (handler : Outcome Exn (Option ℕ)) (cancelRequested : Bool) : Env ℕ where
  outcome := fun _ => .ok ()
  handler := handler
  predicate := fun _ => .ok true
  transform := fun _ => .ok none
  isStopping := fun _ _ => false
  cancelRequested := cancelRequested
  retryPolicy := fun _ _ => .ok ⟨.retry,none⟩
  copyMeta := fun _ => .ok ()
  succeededMeta := .ok ()
  copyPayload := .ok ()
  copyOriginalMeta := .ok ()
  copyEnvelope := .ok ()
  copyResult := .ok ()

def plainTask : TaskSpec := ⟨"app","task",none,0,0,0,[],[],1,none⟩

/-- The second execution begins and goes on, and meanwhile the first comes to its end. -/
def overlapping : List (Act ℕ ℕ) :=
  .execute ⟨none,none,0,false⟩ (plainEnv (.ok none) false) true::
    .execute ⟨some 5,none,1,false⟩ (plainEnv (.ok (some 7)) false) true::
    (List.replicate 4 (.step 1 none none)++List.replicate 13 (.step 0 none none)++[.rotate])

/-- The first has ended, and the gauge counts the second. -/
theorem overlapping_exact : Throughout (perform plainTask 0) Agrees ({} : Gauged ℕ ℕ) overlapping ∧
    (runs (perform plainTask 0) (fun _ _ => true) ({} : Gauged ℕ ℕ) overlapping).map (fun s =>
      (s.bucket.inflight,s.executions.map fun e => e.pending.isEmpty)) = some (1,[true,false]) := by
  refine ⟨inflight_exact plainTask 0 _ fun t ht => ⟨⟨rfl,trivial⟩,fun u hu => ⟨⟨rfl,trivial⟩,?_⟩⟩,
    by decide +kernel⟩
  refine eachStep_of_mem (fun act hact s => ?_) u
  rcases List.mem_append.mp hact with hact | hact
  · rcases List.mem_append.mp hact with hact | hact <;> rw [List.eq_of_mem_replicate hact] <;> trivial
  · rw [List.mem_singleton.mp hact]
    trivial

/-- A managed execution that is cancelled on request ends, and the gauge stays at one. -/
theorem cancelled_stays : ∃ s, runs (perform plainTask 0) (fun _ _ => true) ({} : Gauged ℕ ℕ)
      (.execute ⟨none,none,0,true⟩ (plainEnv (.error .cancelled) true) true::
        List.replicate 8 (.step 0 none none)) = some s ∧
    (∀ e ∈ s.executions, e.pending = []) ∧ s.bucket.inflight = 1 ∧ ¬Agrees s := by
  have hsummary : (runs (perform plainTask 0) (fun _ _ => true) ({} : Gauged ℕ ℕ)
      (.execute ⟨none,none,0,true⟩ (plainEnv (.error .cancelled) true) true::
        List.replicate 8 (.step 0 none none))).map (fun s =>
          (s.bucket.inflight,s.executions.all fun e => e.pending.isEmpty)) = some (1,true) := by
    decide +kernel
  obtain ⟨s,hs,hsame⟩ := Option.map_eq_some_iff.mp hsummary
  obtain ⟨hinflight,hended⟩ := Prod.mk.inj hsame
  have hempty : ∀ e ∈ s.executions, e.pending = [] := fun e he =>
    List.isEmpty_iff.mp (List.all_eq_true.mp hended e he)
  refine ⟨s,hs,hempty,hinflight,fun hagrees => ?_⟩
  rw [hagrees.2 hempty] at hinflight
  cases hinflight

end Examples

end OneStep.InflightGauge
