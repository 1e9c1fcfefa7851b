import OneStep.EffectiveSettlements
import OneStep.FetchedDeliveries
import OneStep.RequeueStores

/-!
# Stopping while deliveries are retried

A runner takes deliveries from a store and executes each of them in a task of its own. When
the runner ends, a task may be anywhere: it has been cancelled at most at one of its awaits,
or has not come to its end. What a task has done to its delivery are the settlements among
the calls that have returned by then.
-/
namespace OneStep.StoppedRetries
open Coroutine DeliveryModel DeliveryExecutor DeliveryPaths DeliverySettlement EffectiveSettlements
  FetchedDeliveries HandedOut RequeueStores TaskRunner Transition

section Releases
variable {D : Type} {r : Runner} {n : ℕ} {c : Fetching D} {ds : List D}

/-- What is released is among the deliveries. -/
def ReleaseIn (ds : List D) (a : Act D) : Prop := ∀ cycle j d, a = .release cycle j d → d ∈ ds

theorem releaseIn_suspend {α : Type} (point : Point) (o : Outcome Exn α) :
    Only (ReleaseIn ds) (call (.suspend point) o : Loop D α) :=
  only_call nofun

variable (phase : TaskRunner.Phase)

theorem releaseIn_resolveFetchTask (done : Bool) :
    Only (ReleaseIn ds) (resolveFetchTask r c phase done) := by
  refine only_attempt (releaseIn_suspend _ _) fun e => ?_
  cases e.connector with
  | none => exact only_lift _
  | some exc =>
    refine only_ite (only_lift _) (only_bind ?_ fun _ => only_pure _)
    refine only_ite (only_pure _) (only_attempt (releaseIn_suspend _ _) fun e => ?_)
    exact only_ite (only_pure _) (only_lift _)

theorem returns_resolveFetchTask {phase : TaskRunner.Phase} {done : Bool}
    (h : Returns (fun _ => True) (resolveFetchTask r c phase done) ds) :
    ∀ d ∈ ds, d ∈ c.returned := by
  obtain ⟨s,-,hr⟩ := h
  unfold resolveFetchTask attempt at hr
  cases ha : ((awaitFetchTask c phase done).run s).result with
  | ok ds' =>
    rw [handle_of_ok ha,ha] at hr
    cases hr
    have hend : c.fetchEnd = .ok ds := by
      unfold awaitFetchTask at ha
      change (if done = false ∧ c.interrupted phase = true then .error .cancelled else c.fetchEnd) = _ at ha
      split at ha
      · cases ha
      · exact ha
    rw [returned_eq hend]
    exact fun d hd => hd
  | error i =>
    rw [handle_of_error ha] at hr
    have hnone : ds = [] := by
      cases i with
      | cancelled => cases hr
      | raised e =>
        cases hc : e.connector with
        | none =>
          simp only [hc] at hr
          cases hr
        | some exc =>
          simp only [hc] at hr
          by_cases hretry : isRetryableConnectorError exc = false
          · rw [if_pos hretry] at hr
            cases hr
          · rw [if_neg hretry] at hr
            obtain ⟨_,_,hpure⟩ := bind_result hr
            exact (Except.ok.inj hpure).symm
    rw [hnone]
    exact fun d hd => absurd hd List.not_mem_nil

theorem releaseIn_releaseUnstartedDeliveries (i : ℕ) {all : List D} (h : ∀ d ∈ ds, d ∈ all) :
    Only (ReleaseIn all) (releaseUnstartedDeliveries n c phase i ds) := by
  induction ds generalizing i with
  | nil => exact only_pure ()
  | cons d ds ih =>
    refine only_bind (only_suppress (only_call ?_)) fun _ =>
      ih (i+1) fun d' hd' => h d' (List.mem_cons_of_mem _ hd')
    intro cycle j d' hd'
    cases hd'
    exact h d List.mem_cons_self

theorem releaseIn_resolved (done : Bool) :
    Only (ReleaseIn c.returned) (do
      let deliveries ← resolveFetchTask r c phase done
      releaseUnstartedDeliveries n c phase 0 deliveries) :=
  only_bind_returned (releaseIn_resolveFetchTask phase done) fun _ hds =>
    releaseIn_releaseUnstartedDeliveries phase 0 (returns_resolveFetchTask hds)

theorem releaseIn_startFetch (limit : ℕ) : Only (ReleaseIn c.returned) (startFetch r n c limit) := by
  have hrecover : Only (ReleaseIn c.returned) (cancelOrReleaseFetch r n c (doneAtRecovery c)) :=
    only_ite (releaseIn_suspend _ _) (releaseIn_resolved .recovery _)
  have hattempt : Only (ReleaseIn c.returned) (fetchAttempt r n c) := by
    refine only_bind (releaseIn_suspend _ _) fun _ => only_ite (only_bind ?_ fun _ => only_pure _) ?_
    · exact only_ite (releaseIn_suspend _ _) (releaseIn_resolved .attempt _)
    · refine only_bind_returned (releaseIn_resolveFetchTask _ _) fun ds hds => ?_
      refine only_ite (only_bind ?_ fun _ => only_pure _) (only_pure _)
      exact releaseIn_releaseUnstartedDeliveries _ _ (returns_resolveFetchTask hds)
  refine only_bind (only_assign _) fun _ => only_bind (only_call nofun) fun _ => ?_
  refine only_ensure (only_onCancelled hattempt hrecover) ?_
  exact only_bind (only_assign _) fun _ => only_ite (only_pure _) (releaseIn_suspend _ _)

theorem releaseIn_afterFetch (it : Iteration D) (s : RunnerState) (ds : List D) :
    Only (ReleaseIn ([] : List D)) (afterFetch r n it s ds) := by
  cases ds with
  | nil => exact only_ite (only_pure _) (only_bind (releaseIn_suspend _ _) fun _ => only_pure _)
  | cons d ds =>
    refine only_bind (only_forEach fun i => ?_) fun _ => only_bind ?_ fun _ => only_pure _
    · exact only_bind (only_lift _) fun _ => only_forEach fun _ => only_suppress (only_call nofun)
    · generalize 0 = i
      induction d::ds generalizing i with
      | nil => exact only_pure ()
      | cons e es ih =>
        refine only_bind (only_bind (only_assign _) fun _ => ?_) fun _ => ih (i+1)
        exact only_ite (only_call nofun) (only_pure _)

/-- A fetch that hands its batch straight to the loop, or hands over nothing. -/
def Direct (r : Runner) (c : Fetching D) : Prop :=
  c.stopped = true ∨ c.returned = [] ∨
    c.wait = .fetch ∧ c.stopRequested = false ∧ HandedOver r c c.returned.length

theorem Direct.keeps (h : Direct r c) : Keeps r c := by
  rcases h with h | h | ⟨hwait,hstop,hover⟩
  · exact .inl h
  · exact .inr (.inl h)
  · refine .inr (.inr ?_)
    rw [hwait]
    simp only [hstop,Bool.false_eq_true,if_false]
    exact hover

theorem Direct.fetchCycle {it : Iteration D} (h : Direct r it.fetching) (s : RunnerState) :
    Only (ReleaseIn ([] : List D)) (fetchCycle r n it s) := by
  refine only_bind ?_ fun ds => releaseIn_afterFetch it s ds
  unfold fetchDeliveries
  split
  · exact only_pure _
  · next hstopped =>
      rcases h with h | h | ⟨hwait,hstop,hover⟩
      · exact absurd h hstopped
      · rw [← h]
        exact releaseIn_startFetch _
      · cases hend : it.fetching.fetchEnd with
        | error i =>
          have hnone : it.fetching.returned = [] := by
            rw [Fetching.returned,hend]
          rw [← hnone]
          exact releaseIn_startFetch _
        | ok ds =>
          have hattempt := ends_takeFetched (r := r) (n := n) hend hwait hstop
          have hfetched := ends_returned (r.concurrency-s.inflight) hattempt (.inr hover.1)
          intro t a ha cycle j d hrelease
          have hin : (cycle,j,d) ∈ ((startFetch r n it.fetching (r.concurrency-s.inflight)).run t).calls.filterMap
              handled := mem_handled.mpr (.inr (hrelease ▸ ha))
          rw [(hfetched t).2] at hin
          exact absurd hin List.not_mem_nil

theorem direct_iteration {it : Iteration D} (h : Direct r it.fetching) :
    Only (ReleaseIn ([] : List D)) (iteration r n it) := by
  refine only_bind (only_assign _) fun _ => only_bind only_current fun s => ?_
  refine only_ite ?_ (only_ite ?_ ?_)
  · refine only_ite (only_bind (releaseIn_suspend _ _) fun _ => only_pure _) ?_
    exact only_bind (only_assign _) fun _ => only_bind (releaseIn_suspend _ _) fun _ => only_pure _
  · refine only_ite (only_bind (releaseIn_suspend _ _) fun _ => only_pure _) ?_
    refine only_bind (only_assign _) fun _ => only_attempt
      (only_bind (releaseIn_suspend _ _) fun _ => only_pure _) fun e => ?_
    exact only_ite (only_pure _) (only_lift _)
  · refine only_bind (only_assign _) fun _ => only_bind ?_ fun _ => only_bind (only_assign _) fun _ => ?_
    · exact only_ite (releaseIn_suspend _ _) (only_pure _)
    · exact only_ite (only_bind (releaseIn_suspend _ _) fun _ => only_pure _) (h.fetchCycle s)

theorem direct_runLoop {its : List (Iteration D)} (h : ∀ it ∈ its, Direct r it.fetching) (n : ℕ) :
    Only (ReleaseIn ([] : List D)) (runLoop r n its) := by
  induction its generalizing n with
  | nil => exact only_pure ()
  | cons it its ih =>
    refine only_bind (direct_iteration (h it List.mem_cons_self)) fun goOn => ?_
    exact only_ite (ih (fun it hit => h it (List.mem_cons_of_mem _ hit)) (n+1)) (only_pure ())

theorem direct_run {its : List (Iteration D)} (h : ∀ it ∈ its, Direct r it.fetching)
    (drained : Outcome Exn Unit) (s : RunnerState) {cycle j : ℕ} {d : D} :
    .release cycle j d ∉ ((run r its drained).run s).calls := by
  intro hin
  have honly : Only (ReleaseIn ([] : List D)) (run r its drained) := by
    refine only_ensure (direct_runLoop h 0) ?_
    exact only_bind (only_assign _) fun _ => only_bind only_current fun s =>
      only_ite (only_pure _) (releaseIn_suspend _ _)
  exact absurd (honly s _ hin cycle j d rfl) List.not_mem_nil

end Releases

section Shutdown
variable {σ β κ V : Type}

/-- The operation that a call on a delivery amounts to. -/
def settles (i : ℕ) : Call V → Option (HandedOut.Op β)
  | .ack => some (.ack i)
  | .retry _ => some (.retry i)
  | .fail _ => some (.fail i)
  | _ => none

/-- A run of a runner over a store until it has ended. Deliveries go by their number; the
operations on the store, of this and of other parties, are in the order in which they took
effect. Of a task it is known how many of its calls have returned. -/
structure Shutdown (q : Store σ β κ) (V : Type) (start : σ) where
  runner : Runner
  iterations : List (Iteration ℕ)
  drained : Outcome Exn Unit
  executor : ℕ → Executor V
  passed : ℕ → ℕ
  ops : List (HandedOut.Op β)
  final : σ
  stores : Run q.Step start ops final
  ordinary : ∀ i, (executor i).delivery.managed = false
  applied : ∀ i, (executor i).applyDeliveryActions = true
  fetched : ∀ i < (q.handed final).length, ∃ cycle limit ds,
    .fetch cycle limit ds ∈ ((run runner iterations drained).run {}).calls ∧ i ∈ ds
  executed : ∀ cycle j i, .execute cycle j i ∈ ((run runner iterations drained).run {}).calls →
    ops.filter (fun op => op.delivery = some i) =
      (((calls (executor i)).take (passed i)).filter (effective (executor i))).filterMap (settles i)
  released : ∀ cycle j i, .release cycle j i ∈ ((run runner iterations drained).run {}).calls →
    (∀ it ∈ iterations, ∀ phase, it.fetching.release phase j = .ok ()) → .release i ∈ ops

variable {q : Store σ β κ} {start : σ}

/-- The calls of the runner. -/
def Shutdown.log (d : Shutdown q V start) : List (Act ℕ) :=
  ((run d.runner d.iterations d.drained).run {}).calls

/-- Everything that was handed out can be fetched again, unless it was acked or failed. -/
def Shutdown.Kept (d : Shutdown q V start) : Prop :=
  ∀ (i : ℕ) k, (q.handed d.final)[i]? = some k → q.available d.final k ∨
    ∃ j : ℕ, (q.handed d.final)[j]? = some k ∧ (.ack j ∈ d.ops ∨ .fail j ∈ d.ops)

/-- The settlement of a task returns, and has returned when the runner ends. -/
structure SettledInTime (x : Executor V) (passed : ℕ) : Prop where
  behind : ∀ c ∈ (calls x).drop passed, ¬acts c = true
  returns : first (acknowledgedPath x) = .ok () ∨
    ∃ i, first (acknowledgedPath x) = .error i ∧ first (recoveredPath x i) = .ok ()

/-- Every task that was started settles its delivery in time. -/
def Shutdown.InTime (d : Shutdown q V start) : Prop :=
  ∀ cycle j i, .execute cycle j i ∈ d.log → SettledInTime (d.executor i) (d.passed i)

theorem settled_op (d : Shutdown q V start) (h : d.InTime) {cycle j i : ℕ}
    (hin : .execute cycle j i ∈ d.log) : ∃ op ∈ d.ops, op.delivery = some i ∧
      (op.ends = some i ∨ op = .retry i) := by
  obtain ⟨hbehind,hreturns⟩ := h cycle j i hin
  obtain ⟨c,hc,heff⟩ := (effective_exists_iff (d.executor i) (d.ordinary i) (d.applied i)).mpr hreturns
  have hacts : acts c = true := (Bool.and_eq_true_iff.mp heff).1
  have htaken : c ∈ (calls (d.executor i)).take (d.passed i) := by
    rw [← List.take_append_drop (d.passed i) (calls (d.executor i))] at hc
    exact (List.mem_append.mp hc).resolve_right fun hdrop => hbehind c hdrop hacts
  obtain ⟨op,hop,hends⟩ : ∃ op : HandedOut.Op β, settles i c = some op ∧
      (op.ends = some i ∨ op = .retry i) := by
    cases c with
    | ack => exact ⟨_,rfl,.inl rfl⟩
    | retry delayS => exact ⟨_,rfl,.inr rfl⟩
    | fail exc => exact ⟨_,rfl,.inl rfl⟩
    | _ => cases hacts
  have hmem : op ∈ d.ops.filter fun op => op.delivery = some i := by
    rw [d.executed cycle j i hin]
    exact List.mem_filterMap.mpr ⟨c,List.mem_filter.mpr ⟨htaken,heff⟩,hop⟩
  obtain ⟨hops,hdelivery⟩ := List.mem_filter.mp hmem
  exact ⟨op,hops,of_decide_eq_true hdelivery,hends⟩

/-- A lawful store keeps what it handed out when every delivery is executed in time, or
released with an effect. -/
theorem kept_of_lawful {puts : HandedOut.Op β → Bool} {I : σ → Prop} (hq : Lawful q puts I)
    (hI : I start) (hnone : q.handed start = []) (hretry : ∀ i, puts (.retry i) = true)
    (d : Shutdown q V start) (hkeeps : ∀ it ∈ d.iterations, Keeps d.runner it.fetching)
    (htime : d.InTime) (hrelease : ∀ cycle j i, .release cycle j i ∈ d.log →
      .release i ∈ d.ops ∧ puts (.release i) = true) : d.Kept := by
  have hall : ∀ i < (q.handed d.final).length, ∃ op ∈ d.ops, op.delivery = some i ∧
      (op.ends = some i ∨ puts op = true) := by
    intro i hi
    obtain ⟨cycle,limit,ds,hfetch,hin⟩ := d.fetched i hi
    obtain ⟨j,hj⟩ := List.getElem?_of_mem hin
    rcases settles_run hkeeps d.drained {} cycle limit ds hfetch j i hj
      with hexecute | hreleased
    · obtain ⟨op,hop,hdelivery,hends | rfl⟩ := settled_op d htime hexecute
      · exact ⟨op,hop,hdelivery,.inl hends⟩
      · exact ⟨_,hop,hdelivery,.inr (hretry i)⟩
    · obtain ⟨hop,hputs⟩ := hrelease cycle j i hreleased
      exact ⟨_,hop,rfl,.inr hputs⟩
  intro i k hk
  rcases hq.available hI hnone d.stores hall hk with h | ⟨j,hj,op,hop,hends⟩
  · exact .inl h
  · refine .inr ⟨j,hj,?_⟩
    cases op with
    | ack n =>
      cases hends
      exact .inl hop
    | fail n =>
      cases hends
      exact .inr hop
    | _ => cases hends

end Shutdown

/-- When a runner has ended, what a memory queue or a table queue handed out can be fetched
again unless it was acked or failed: provided that no fetch loses or, over a memory queue,
releases its batch, that over a table the releases return, and that every task settles its
delivery in time. -/
theorem shutdown_keeps {V β μ ρ κ : Type} [LinearOrder κ] :
    (∀ (cfg : MemoryQueue.Settings) (d : Shutdown (@memoryStore β μ cfg) V {}),
      (∀ it ∈ d.iterations, Direct d.runner it.fetching) → d.InTime → d.Kept) ∧
    ∀ (q : RequeuingTable ρ κ) (rows : List ρ)
      (d : Shutdown (tableStore q.toTableQueue) V {rows := rows}),
      (∀ it ∈ d.iterations, Keeps d.runner it.fetching ∧
        ∀ phase j, it.fetching.release phase j = .ok ()) → d.InTime → d.Kept := by
  constructor
  · intro cfg d hdirect htime
    refine kept_of_lawful memory_lawful trivial rfl (fun _ => rfl) d
      (fun it hit => (hdirect it hit).keeps) htime fun cycle j i hin => ?_
    exact absurd hin (direct_run hdirect d.drained {})
  · intro q rows d hkeeps htime
    refine kept_of_lawful (table_lawful q) (fun _ hk => absurd hk List.not_mem_nil) rfl (fun _ => rfl) d
      (fun it hit => (hkeeps it hit).1) htime fun cycle j i hin => ⟨?_,rfl⟩
    exact d.released cycle j i hin fun it hit phase => (hkeeps it hit).2 phase j

section Samples

/-- The handler raises, and the delay of the retry is cancelled. -/
def delayedRetry : Env ℤ :=
  {calm with
    handler := .error (.raised (.plain "RuntimeError"))
    retryPolicy := fun _ _ => .ok ⟨.retry,some 5⟩
    outcome := fun c =>
      match c with
      | .retry (some _) => .error .cancelled
      | _ => .ok ()}

/-- One delivery is fetched, and the app stops. -/
def loneFetch : List (Iteration ℕ) :=
  [cycling {undisturbed with fetchEnd := .ok [0]},
    {cycling {undisturbed with stopped := true} with isStopping := true}]

theorem loneFetch_direct : ∀ it ∈ loneFetch, Direct single it.fetching := by
  intro it hit
  rcases List.mem_cons.mp hit with rfl | hit
  · exact .inr (.inr ⟨rfl,rfl,rfl,rfl,fun _ _ => rfl⟩)
  · rw [List.mem_singleton.mp hit]
    exact .inl rfl

theorem loneFetch_executes {cycle j i : ℕ}
    (h : .execute cycle j i ∈ ((run single loneFetch (.ok ())).run {}).calls) : i = 0 := by
  have hhandled : ((run single loneFetch (.ok ())).run {}).calls.filterMap handled = [(0,0,0)] := rfl
  have hmem := mem_handled.mpr (.inl h)
  rw [hhandled,List.mem_singleton] at hmem
  cases hmem
  rfl

/-- One fetch of one delivery, whose task comes to its end. -/
def lone {σ β κ : Type} {q : Store σ β κ} {start : σ} (env : Env ℤ) (ops : List (HandedOut.Op β))
    (final : σ) (stores : Run q.Step start ops final) (one : (q.handed final).length = 1)
    (executed : ops.filter (fun op => op.delivery = some 0) =
      ((calls (executing env)).filter (effective (executing env))).filterMap (settles 0)) :
    Shutdown q ℤ start where
  runner := single
  iterations := loneFetch
  drained := .ok ()
  executor _ := executing env
  passed _ := (calls (executing env)).length
  ops := ops
  final := final
  stores := stores
  ordinary _ := rfl
  applied _ := rfl
  fetched := by
    intro i hi
    rw [one,Nat.lt_one_iff] at hi
    rw [hi]
    exact ⟨0,1,[0],List.mem_cons_self,List.mem_cons_self⟩
  executed := by
    intro cycle j i hin
    rw [loneFetch_executes hin,List.take_length]
    exact executed
  released := fun cycle j i hin => absurd hin (direct_run loneFetch_direct (.ok ()) {})

def dueRows : RequeuingTable (ℕ × Bool) ℕ where
  key := Prod.fst
  selects := Prod.snd
  claim row := (row.1,false)
  ack row := (row.1,false)
  nack row := (row.1,true)
  batchSize := 100
  claim_key _ := rfl
  ack_key _ := rfl
  nack_key _ := rfl
  claimed _ := rfl
  returned _ := rfl

/-- What the delivery of row 0 leaves: it stays claimed. -/
theorem dueRows_fetch : performTable dueRows.toTableQueue {rows := [(0,true)]} (.fetch 1) =
    some {rows := [(0,false)],rowRefs := [0]} := by
  simp [performTable,claimedKeys,updateRow,dueRows]

theorem delayedRetry_ineffective :
    (calls (executing delayedRetry)).filter (effective (executing delayedRetry)) = [] := by
  have hnone : (calls (executing delayedRetry)).countP (effective (executing delayedRetry)) = 0 := by
    decide +kernel
  exact List.filter_eq_nil_iff.mpr (List.countP_eq_zero.mp hnone)

/-- The one cancellation lands in the delay of a retry: the envelope is gone, and the row
stays claimed, although the task came to its end before the runner did. -/
theorem cancelled_delay_strands :
    (∃ d : Shutdown (@memoryStore ℕ Unit {}) ℤ {}, ¬d.Kept) ∧
      ∃ d : Shutdown (tableStore dueRows.toTableQueue) ℤ {rows := [(0,true)]}, ¬d.Kept := by
  have hnone {β : Type} {ops : List (HandedOut.Op β)}
      (h : ops.filter (fun op => op.delivery = some 0) = []) :
      ops.filter (fun op => op.delivery = some 0) =
        ((calls (executing delayedRetry)).filter (effective (executing delayedRetry))).filterMap
          (settles 0) := by
    rw [delayedRetry_ineffective,h]
    rfl
  constructor
  · refine ⟨lone delayedRetry [.send ⟨3,(),0⟩,.fetch 1] ⟨[],1,[⟨0,⟨3,(),0⟩⟩]⟩
      (.cons rfl (.cons rfl (.nil _))) rfl (hnone rfl),fun hkept => ?_⟩
    rcases hkept 0 0 rfl with ⟨e,he,_⟩ | ⟨j,_,hops⟩
    · exact absurd he List.not_mem_nil
    · simp [lone] at hops
  · refine ⟨lone delayedRetry [.fetch 1] {rows := [(0,false)],rowRefs := [0]}
      (.cons dueRows_fetch (.nil _)) rfl (hnone rfl),fun hkept => ?_⟩
    rcases hkept 0 0 rfl with ⟨row,hrow,_,hdue⟩ | ⟨j,_,hops⟩
    · rw [List.mem_singleton.mp hrow] at hdue
      cases hdue
    · simp [lone] at hops

theorem cancelledHandler_effective :
    (calls (executing cancelledHandler)).filter (effective (executing cancelledHandler)) =
      [.retry none] := by
  with_unfolding_all rfl

theorem cancelledHandler_inTime :
    SettledInTime (executing cancelledHandler) (calls (executing cancelledHandler)).length := by
  refine ⟨fun c hc => ?_,.inr ⟨.cancelled,rfl,rfl⟩⟩
  rw [List.drop_length] at hc
  exact absurd hc List.not_mem_nil

/-- The app stops, and the handler of the one delivery is cancelled: it goes back to either
store. -/
theorem shutdown_keeps_cancelled :
    (∃ d : Shutdown (@memoryStore ℕ Unit {}) ℤ {}, d.Kept ∧ d.ops = [.send ⟨3,(),0⟩,.fetch 1,.retry 0]) ∧
      ∃ d : Shutdown (tableStore dueRows.toTableQueue) ℤ {rows := [(0,true)]},
        d.Kept ∧ d.ops = [.fetch 1,.retry 0] := by
  have hop {β : Type} {ops : List (HandedOut.Op β)}
      (h : ops.filter (fun op => op.delivery = some 0) = [.retry 0]) :
      ops.filter (fun op => op.delivery = some 0) =
        ((calls (executing cancelledHandler)).filter
          (effective (executing cancelledHandler))).filterMap (settles 0) := by
    rw [cancelledHandler_effective,h]
    rfl
  constructor
  · refine ⟨lone cancelledHandler [.send ⟨3,(),0⟩,.fetch 1,.retry 0]
      ⟨[⟨0,⟨3,(),1⟩⟩],1,[⟨0,⟨3,(),0⟩⟩]⟩
      (.cons rfl (.cons rfl (.cons rfl (.nil _)))) rfl (hop rfl),?_,rfl⟩
    exact (shutdown_keeps (ρ := ℕ) (κ := ℕ)).1 {} _ loneFetch_direct fun _ _ _ _ =>
      cancelledHandler_inTime
  · refine ⟨lone cancelledHandler [.fetch 1,.retry 0] {rows := [(0,true)],rowRefs := [0]}
      (.cons dueRows_fetch (.cons rfl (.nil _))) rfl (hop rfl),?_,rfl⟩
    exact (shutdown_keeps (β := ℕ) (μ := Unit)).2 dueRows _ _ (fun it hit =>
      ⟨(loneFetch_direct it hit).keeps,fun _ _ => by
        rcases List.mem_cons.mp hit with rfl | hit
        · rfl
        · rw [List.mem_singleton.mp hit]
          rfl⟩) fun _ _ _ _ => cancelledHandler_inTime

end Samples

end OneStep.StoppedRetries
