import OneStep.BrokerWorkers
import OneStep.Transition

/-!
# How often a message is executed

A worker counts the attempts of a message by the envelope it decodes from the
stored bytes, and every broker hands these bytes out again as they were. So the
bound of `MaxAttempts` is kept where no retry is needed to keep it: when the
stored attempts already exhaust it. A Redis stream moreover hands out entries
that are still being executed, as many times as the task runs at once.
-/
namespace OneStep.BoundedRetries
open Coroutine DeliveryModel DeliveryExecutor DeliveryPaths GivingUp JsonValues BrokerWorkers
open DeliverySettlement (acts)
open KafkaDeliveries (Record KafkaTopic)
open KafkaTracker (TopicPartition)
open Transition (Reachable)

variable {B M C : Type} [DecidableEq M] (broker : Broker B M C) (task : Task)

/-- The attempts seen by the deliveries of a message, in order. -/
def seen (w : Worker B M) (m : M) : List ℤ := (w.delivered.filter fun d => d.1 = m).map Prod.snd

/-- The handler is executed at most `n` times for a message before it is failed,
and its k-th delivery carries at least k-1 attempts. -/
structure Bounded (n : ℕ) (w : Worker B M) : Prop where
  executions : ∀ m, w.executed.count m ≤ n
  attempts : ∀ m (k : ℕ) a, (seen w m)[k]? = some a → (k : ℤ) ≤ a

/-- The handler of every delivery raises, and nothing is cancelled. -/
def Raises : Op C → Prop
  | .fetch _ envs => ∀ i e, Raising (executing task e (envs i))
  | _ => True

/-- Dead-letter sinks take the envelope of every delivery, and failing does not raise. -/
def Gives : Op C → Prop
  | .fetch _ envs => ∀ i e,
      (∀ failure exc, deadLetterOutcome (executing task e (envs i)) failure ≠ .error (.raised exc)) ∧
        ∀ exc e', (envs i).outcome (.fail exc) ≠ .error (.raised e')
  | _ => True

/-- Nothing interrupts the way from the failure of a delivery to its settlement. -/
def Settles : Op C → Prop
  | .fetch _ envs => ∀ i e exc, first (processPath (executing task e (envs i))) = .error (.raised exc) →
      first (failurePath (executing task e (envs i)) exc) = .ok ()
  | _ => True

/-- The stored attempts of every message exhaust the policy. -/
def Exhausted : Prop :=
  ∀ m e, broker.decode m = some e → (task.policy.maxAttempts : ℤ) ≤ e.attempts+1

def Step (w : Worker B M) (op : Op C) (w' : Worker B M) : Prop :=
  perform broker task w op = some w' ∧ Raises task op ∧ Gives task op

section Steps
variable {broker task} {w w' : Worker B M} {op : Op C}

theorem split_at {α : Type} {l : List α} {i : ℕ} {a : α} (h : l[i]? = some a) :
    ∃ pre post, l = pre++a::post ∧ (∀ b, l.set i b = pre++b::post) ∧ l.eraseIdx i = pre++post := by
  obtain ⟨hi,ha⟩ := List.getElem?_eq_some_iff.mp h
  refine ⟨l.take i,l.drop (i+1),?_,fun b => ?_,?_⟩
  · rw [← ha,← List.drop_eq_getElem_cons hi,List.take_append_drop]
  · rw [List.set_eq_take_append_cons_drop,if_pos hi]
  · rw [List.eraseIdx_eq_take_drop_succ]

/-- What a worker can do. -/
inductive Stepped (broker : Broker B M C) (task : Task) (w : Worker B M) :
    Op C → Worker B M → Prop
  | serve {c : C} {b : B} : broker.serve w.broker c = some b →
      Stepped broker task w (.serve c) {w with broker := b}
  | fetch {c : C} {envs : ℕ → Env Json} {taken : List M} {b : B} :
      w.inflight.length < task.concurrency →
      broker.fetch w.broker (task.concurrency-w.inflight.length) c = some (taken,b) →
      Stepped broker task w (.fetch c envs) (w.deliver task envs b
        (taken.filterMap fun m => (broker.decode m).map fun e => (m,e)))
  | ended {i : ℕ} {pre post : List (Running M)} {r : Running M} :
      w.inflight = pre++r::post → r.rest = [] →
      Stepped broker task w (.advance i) {w with inflight := pre++post}
  | awaits {i : ℕ} {pre post : List (Running M)} {r : Running M} {c : Call Json}
      {rest : List (Call Json)} : w.inflight = pre++r::post → r.rest = c::rest →
      Stepped broker task w (.advance i)
        {w.await broker r.message r.executor.env c with inflight := pre++{r with rest := rest}::post}

theorem await_inflight (m : M) (env : Env Json) (c : Call Json) :
    (w.await broker m env c).inflight = w.inflight := by
  cases c <;> rfl

theorem perform_stepped (h : perform broker task w op = some w') : Stepped broker task w op w' := by
  cases op with
  | serve c =>
    obtain ⟨b,hb,rfl⟩ := Option.map_eq_some_iff.mp h
    exact .serve hb
  | fetch c envs =>
    rw [perform] at h
    split at h
    · next hlt =>
        obtain ⟨fetched,hf,rfl⟩ := Option.map_eq_some_iff.mp h
        exact .fetch hlt hf
    · cases h
  | advance i =>
    obtain ⟨r,hr,rfl⟩ := Option.map_eq_some_iff.mp h
    obtain ⟨pre,post,hsplit,hset,herase⟩ := split_at hr
    cases hrest : r.rest with
    | nil =>
      dsimp only
      rw [herase]
      exact .ended hsplit hrest
    | cons c rest =>
      dsimp only [Worker.resume]
      rw [await_inflight,hset]
      exact .awaits hsplit hrest

end Steps

section Accounts
variable {broker task} {w w' : Worker B M} {op : Op C}

def deliveries (w : Worker B M) (m : M) : ℕ := (w.delivered.map Prod.fst).count m

/-- The handler calls of the message still to be made. -/
def handlersLeft (m : M) (rs : List (Running M)) : ℕ :=
  (rs.map fun r => if r.message = m then r.rest.countP isHandler else 0).sum

/-- An execution that ends in a failing that returns, if it settles at all. -/
structure EndsFailed (r : Running M) : Prop where
  settles : ∀ c ∈ r.rest, acts c = true → ∃ exc, c = .fail exc
  failing : ∀ exc, r.executor.env.outcome (.fail exc) = .ok ()

structure Accounted (broker : Broker B M C) (w : Worker B M) : Prop where
  decoded : ∀ d ∈ w.delivered, ∃ e, broker.decode d.1 = some e ∧ d.2 = e.attempts
  running : ∀ r ∈ w.inflight, EndsFailed r
  executed : ∀ m, w.executed.count m+handlersLeft m w.inflight ≤ deliveries w m

theorem handlersLeft_append (m : M) (rs rs' : List (Running M)) :
    handlersLeft m (rs++rs') = handlersLeft m rs+handlersLeft m rs' := by
  simp [handlersLeft]

theorem handlersLeft_cons (m : M) (r : Running M) (rs : List (Running M)) :
    handlersLeft m (r::rs) =
      (if r.message = m then r.rest.countP isHandler else 0)+handlersLeft m rs := by
  simp [handlersLeft]

theorem deliveries_deliver (w : Worker B M) (envs : ℕ → Env Json) (b : B)
    (ds : List (M × Envelope)) (m : M) :
    deliveries (w.deliver task envs b ds) m = deliveries w m+(ds.map Prod.fst).count m := by
  simp [deliveries,Worker.deliver,List.map_map,Function.comp_def]

omit [DecidableEq M] in
theorem givesUp_of_exhausted {envs : ℕ → Env Json} {c : C} (hexhausted : Exhausted broker task)
    (hgives : Gives task (.fetch c envs)) {m : M} {e : Envelope} (he : broker.decode m = some e)
    (i : ℕ) : GivesUp (executing task e (envs i)) := by
  have hspent := hexhausted m e he
  refine ⟨fun exc failure => ?_,(hgives i e).1,(hgives i e).2⟩
  simp only [executing,MaxAttempts.onError]
  rw [if_neg (by omega)]

omit [DecidableEq M] in
theorem endsFailed_started {envs : ℕ → Env Json} {c : C} (hexhausted : Exhausted broker task)
    (hraises : Raises task (.fetch c envs)) (hgives : Gives task (.fetch c envs)) {m : M}
    {e : Envelope} (he : broker.decode m = some e) (i : ℕ) :
    EndsFailed (started task m e (envs i)) := by
  have hgive := givesUp_of_exhausted hexhausted hgives he i
  have hraise := hraises i e
  constructor
  · intro c hc hact
    exact settled_by_fail _ rfl hraise hgive hc hact
  · intro exc
    have hfail := hgive.failing exc
    have hcancel := hraise.uncancelled (.fail exc)
    change (envs i).outcome (.fail exc) = .ok ()
    change ∀ e', (envs i).outcome (.fail exc) ≠ .error (.raised e') at hfail
    change (envs i).outcome (.fail exc) ≠ .error .cancelled at hcancel
    cases ho : (envs i).outcome (.fail exc) with
    | ok u => rfl
    | error j =>
      cases j with
      | raised e' => exact absurd ho (hfail e')
      | cancelled => exact absurd ho hcancel

theorem handlersLeft_started {ds : List (M × Envelope)} (m : M) (envs : ℕ → Env Json)
    (honce : ∀ d ∈ ds, ∀ i, (calls (executing task d.2 (envs i))).countP isHandler ≤ 1) :
    handlersLeft m (ds.mapIdx fun i d => started task d.1 d.2 (envs i)) ≤
      (ds.map Prod.fst).count m := by
  induction ds generalizing envs with
  | nil => exact le_rfl
  | cons d ds ih =>
    have hd := honce d List.mem_cons_self 0
    have hds := ih (fun i => envs (i+1)) fun d' hd' i => honce d' (List.mem_cons_of_mem _ hd') (i+1)
    have hhead : (if (started task d.1 d.2 (envs 0)).message = m then
        (started task d.1 d.2 (envs 0)).rest.countP isHandler else 0) ≤
          if d.1 == m then 1 else 0 := by
      by_cases hm : d.1 = m
      · simpa [started,hm] using hd
      · simp [started,hm]
    rw [List.mapIdx_cons,handlersLeft_cons,List.map_cons,List.count_cons]
    omega

omit [DecidableEq M] in
theorem mem_decoded {taken : List M} {d : M × Envelope}
    (h : d ∈ taken.filterMap fun m => (broker.decode m).map fun e => (m,e)) :
    broker.decode d.1 = some d.2 := by
  obtain ⟨m,-,hm⟩ := List.mem_filterMap.mp h
  obtain ⟨e,he,rfl⟩ := Option.map_eq_some_iff.mp hm
  exact he

theorem await_cases (broker : Broker B M C) (w : Worker B M) {r : Running M} {c : Call Json} {rest : List (Call Json)}
    (hr : EndsFailed r) (hrest : r.rest = c::rest) :
    (isHandler c = true ∧ w.await broker r.message r.executor.env c =
        {w with executed := if r.message ∈ w.failed then w.executed else w.executed++[r.message]}) ∨
      (∃ exc, c = .fail exc ∧ w.await broker r.message r.executor.env c =
        {w with
          broker := broker.fail w.broker r.message true
          failed := w.failed++[r.message]}) ∨
      (isHandler c = false ∧ acts c = false ∧ w.await broker r.message r.executor.env c = w) := by
  have hmem : c ∈ r.rest := by
    rw [hrest]
    exact List.mem_cons_self
  have hsettles := hr.settles c hmem
  cases c with
  | handler => exact .inl ⟨rfl,rfl⟩
  | fail exc =>
    refine .inr (.inl ⟨exc,rfl,?_⟩)
    simp only [Worker.await,hr.failing exc]
    rfl
  | ack =>
    obtain ⟨exc,he⟩ := hsettles rfl
    cases he
  | retry delayS =>
    obtain ⟨exc,he⟩ := hsettles rfl
    cases he
  | _ => exact .inr (.inr ⟨rfl,rfl,rfl⟩)

omit [DecidableEq M] in
theorem EndsFailed.tail {r : Running M} {c : Call Json} {rest : List (Call Json)}
    (hr : EndsFailed r) (hrest : r.rest = c::rest) : EndsFailed {r with rest := rest} := by
  refine ⟨fun c' hc' => hr.settles c' ?_,hr.failing⟩
  rw [hrest]
  exact List.mem_cons_of_mem _ hc'

theorem Accounted.step (hexhausted : Exhausted broker task) (h : Accounted broker w)
    (hstep : Step broker task w op w') : Accounted broker w' := by
  obtain ⟨hperform,hraises,hgives⟩ := hstep
  cases perform_stepped hperform with
  | serve hb => exact ⟨h.decoded,h.running,h.executed⟩
  | @fetch c envs taken b hlt hf =>
    have hdecoded : ∀ d ∈ taken.filterMap fun m => (broker.decode m).map fun e => (m,e),
        broker.decode d.1 = some d.2 := fun d hd => mem_decoded hd
    generalize (taken.filterMap fun m => (broker.decode m).map fun e => (m,e)) = ds at hdecoded ⊢
    constructor
    · intro d hd
      rcases List.mem_append.mp hd with hd | hd
      · exact h.decoded d hd
      · obtain ⟨d',hd',rfl⟩ := List.mem_map.mp hd
        exact ⟨d'.2,hdecoded d' hd',rfl⟩
    · intro r hr
      rcases List.mem_append.mp hr with hr | hr
      · exact h.running r hr
      · obtain ⟨i,hi,rfl⟩ := List.mem_mapIdx.mp hr
        exact endsFailed_started hexhausted hraises hgives
          (hdecoded _ (List.getElem_mem hi)) i
    · intro m
      have honce : ∀ d ∈ ds, ∀ i, (calls (executing task d.2 (envs i))).countP isHandler ≤ 1 :=
        fun d hd i => handler_once _ rfl (hraises i d.2)
          (givesUp_of_exhausted hexhausted hgives (hdecoded d hd) i)
      have hnew := handlersLeft_started m envs honce
      have hold := h.executed m
      rw [deliveries_deliver]
      simp only [Worker.deliver,handlersLeft_append]
      omega
  | @ended i pre post r hsplit hrest =>
    refine ⟨h.decoded,fun r' hr' => h.running r' ?_,fun m => ?_⟩
    · rw [hsplit]
      exact List.mem_append.mpr ((List.mem_append.mp hr').imp id (List.mem_cons_of_mem _))
    · have hold := h.executed m
      rw [hsplit,handlersLeft_append,handlersLeft_cons] at hold
      simp only [handlersLeft_append]
      change w.executed.count m+_ ≤ deliveries w m
      omega
  | @awaits i pre post r c rest hsplit hrest =>
    have hr : EndsFailed r := h.running r (by simp [hsplit])
    have hold := h.executed
    simp only [hsplit,handlersLeft_append,handlersLeft_cons,hrest,List.countP_cons] at hold
    have hrunning : ∀ r' ∈ pre++{r with rest := rest}::post, EndsFailed r' := by
      intro r' hr'
      rcases List.mem_append.mp hr' with hr' | hr'
      · exact h.running r' (by simp [hsplit,hr'])
      · rcases List.mem_cons.mp hr' with rfl | hr'
        · exact hr.tail hrest
        · exact h.running r' (by simp [hsplit,hr'])
    rcases await_cases broker w hr hrest with
      ⟨hhandler,he⟩ | ⟨exc,rfl,he⟩ | ⟨hhandler,-,he⟩
    · rw [he]
      refine ⟨h.decoded,hrunning,fun m => ?_⟩
      have hm := hold m
      change List.count m (if r.message ∈ w.failed then w.executed else w.executed++[r.message])+
        handlersLeft m (pre++{r with rest := rest}::post) ≤ deliveries w m
      simp only [handlersLeft_append,handlersLeft_cons]
      rw [hhandler] at hm
      by_cases hmessage : r.message = m
      · simp only [hmessage,if_true] at hm ⊢
        split
        · omega
        · simp only [List.count_append,List.count_singleton_self]
          omega
      · have hcount : List.count m [r.message] = 0 := by simp [hmessage]
        simp only [hmessage,if_false] at hm ⊢
        split
        · omega
        · simp only [List.count_append,hcount]
          omega
    · rw [he]
      refine ⟨h.decoded,hrunning,fun m => ?_⟩
      have hm := hold m
      change List.count m w.executed+handlersLeft m (pre++{r with rest := rest}::post) ≤
        deliveries w m
      simp only [handlersLeft_append,handlersLeft_cons]
      simpa [isHandler] using hm
    · rw [he]
      refine ⟨h.decoded,hrunning,fun m => ?_⟩
      have hm := hold m
      rw [hhandler] at hm
      change List.count m w.executed+handlersLeft m (pre++{r with rest := rest}::post) ≤
        deliveries w m
      simp only [handlersLeft_append,handlersLeft_cons]
      simpa using hm

theorem seen_length (w : Worker B M) (m : M) : (seen w m).length = deliveries w m := by
  simp only [seen,deliveries,List.length_map,List.count,List.countP_map]
  rw [List.countP_eq_length_filter]
  rfl

theorem bounded_of_deliveries (hexhausted : Exhausted broker task) (h : Accounted broker w)
    (hfew : ∀ m, deliveries w m ≤ task.policy.maxAttempts) :
    Bounded task.policy.maxAttempts w := by
  constructor
  · intro m
    have hexec := h.executed m
    have hm := hfew m
    omega
  · intro m k a hk
    obtain ⟨hlt,ha⟩ := List.getElem?_eq_some_iff.mp hk
    have hmem : a ∈ seen w m := by
      rw [← ha]
      exact List.getElem_mem hlt
    obtain ⟨d,hd,rfl⟩ := List.mem_map.mp hmem
    obtain ⟨e,he,hattempts⟩ := h.decoded d (List.mem_of_mem_filter hd)
    have hspent := hexhausted _ _ he
    have hm := hfew m
    rw [seen_length] at hlt
    omega

theorem accounted_init (b : B) : Accounted broker ({broker := b} : Worker B M) := by
  constructor
  · intro d hd
    exact absurd hd List.not_mem_nil
  · intro r hr
    exact absurd hr List.not_mem_nil
  · intro m
    exact Nat.zero_le _

omit [DecidableEq M] in
theorem map_fst_decoded (taken : List M) :
    (taken.filterMap fun m => (broker.decode m).map fun e => (m,e)).map Prod.fst =
      taken.filter fun m => (broker.decode m).isSome := by
  induction taken with
  | nil => rfl
  | cons m taken ih =>
    rw [List.filterMap_cons,List.filter_cons]
    cases hm : broker.decode m with
    | none => simpa using ih
    | some e => simpa using ih

theorem count_decoded_le (broker : Broker B M C) (taken : List M) (m : M) :
    ((taken.filterMap fun m => (broker.decode m).map fun e => (m,e)).map Prod.fst).count m ≤
      taken.count m := by
  rw [map_fst_decoded]
  exact List.filter_sublist.count_le m

theorem deliverable_count_le (broker : Broker B M C) (taken : List M) (m : M) :
    (((deliverable broker.decode taken).filterMap fun m =>
      (broker.decode m).map fun e => (m,e)).map Prod.fst).count m ≤ taken.count m := by
  refine (count_decoded_le broker _ m).trans ?_
  unfold deliverable
  split
  · exact le_rfl
  · exact Nat.zero_le _

end Accounts

section RabbitMQ
variable {settings : RabbitMQSettings} {body : ℕ → Raw} {task : Task}
  {w w' : Worker RabbitMQQueue ℕ} {op : Op RabbitMQChoice}

/-- A message is in one place: ready, with the consumer, or handed out. -/
structure OnePlace (w : Worker RabbitMQQueue ℕ) : Prop where
  once : ∀ m, deliveries w m+w.broker.ready.count m+w.broker.consumerMessages.count m ≤ 1
  fresh : ∀ m, w.broker.published ≤ m →
    deliveries w m+w.broker.ready.count m+w.broker.consumerMessages.count m = 0

theorem OnePlace.keep (h : OnePlace w)
    (hle : ∀ m, deliveries w' m+w'.broker.ready.count m+w'.broker.consumerMessages.count m ≤
      deliveries w m+w.broker.ready.count m+w.broker.consumerMessages.count m)
    (hpublished : w'.broker.published = w.broker.published) : OnePlace w' := by
  constructor
  · intro m
    have honce := h.once m
    have hm := hle m
    omega
  · intro m hm
    rw [hpublished] at hm
    have hfresh := h.fresh m hm
    have hm := hle m
    omega

theorem OnePlace.serve {c : RabbitMQChoice} {q : RabbitMQQueue} (h : OnePlace w)
    (hserve : w.broker.serve settings c = some q) : OnePlace {w with broker := q} := by
  cases c with
  | publish =>
    cases hserve
    have hcount : ∀ m, [w.broker.published].count m = if m = w.broker.published then 1 else 0 := by
      intro m
      by_cases hm : m = w.broker.published
      · simp [hm]
      · simp [hm,Ne.symm hm]
    constructor
    · intro m
      change deliveries w m+(w.broker.ready++[w.broker.published]).count m+
        w.broker.consumerMessages.count m ≤ 1
      rw [List.count_append,hcount]
      split
      · next hm =>
          have hfresh := h.fresh m (by omega)
          omega
      · have honce := h.once m
        omega
    · intro m hm
      change w.broker.published+1 ≤ m at hm
      have hfresh := h.fresh m (by omega)
      change deliveries w m+(w.broker.ready++[w.broker.published]).count m+
        w.broker.consumerMessages.count m = 0
      rw [List.count_append,hcount,if_neg (by omega)]
      omega
  | push i =>
    obtain ⟨n,hn,rfl⟩ := Option.map_eq_some_iff.mp hserve
    have hmem : n ∈ w.broker.ready := List.mem_of_getElem? hn
    unfold RabbitMQQueue.onMessage
    split
    · refine h.keep (fun m => ?_) rfl
      have herase : (w.broker.ready.erase n).count m+[n].count m = w.broker.ready.count m := by
        have hperm := (List.perm_cons_erase hmem).count_eq m
        rw [hperm]
        simp only [List.count_cons,List.count_nil]
        omega
      change deliveries w m+(w.broker.ready.erase n).count m+
        (w.broker.consumerMessages++[n]).count m ≤ _
      rw [List.count_append]
      omega
    · exact ⟨h.once,h.fresh⟩

theorem OnePlace.step (ha : Accounted (rabbitMQ settings body) w) (h : OnePlace w)
    (hstep : Step (rabbitMQ settings body) task w op w') : OnePlace w' := by
  cases perform_stepped hstep.1 with
  | serve hb => exact h.serve hb
  | @fetch c envs taken q hlt hf =>
    change w.broker.fetch settings body _ = some (taken,q) at hf
    unfold RabbitMQQueue.fetch at hf
    split at hf
    · cases hf
    · cases hf
      refine h.keep (fun m => ?_) rfl
      rw [deliveries_deliver]
      have hcount := deliverable_count_le (rabbitMQ settings body)
        (w.broker.consumerMessages.take
          (max 1 (min (task.concurrency-w.inflight.length) settings.batchSize))) m
      have hsplit := congrArg (List.count m) (List.take_append_drop
        (max 1 (min (task.concurrency-w.inflight.length) settings.batchSize))
        w.broker.consumerMessages)
      rw [List.count_append] at hsplit
      simp only [Worker.deliver]
      exact (Nat.add_le_add_right (Nat.add_le_add_right
        (Nat.add_le_add_left hcount _) _) _).trans (by omega)
  | ended hsplit hrest => exact ⟨h.once,h.fresh⟩
  | @awaits i pre post r c rest hsplit hrest =>
    have hr := ha.running r (by simp [hsplit])
    rcases await_cases (rabbitMQ settings body) w hr hrest with
      ⟨-,he⟩ | ⟨exc,-,he⟩ | ⟨-,-,he⟩
    · rw [he]
      exact ⟨h.once,h.fresh⟩
    · rw [he]
      exact ⟨h.once,h.fresh⟩
    · rw [he]
      exact ⟨h.once,h.fresh⟩

theorem onePlace_init : OnePlace {broker := {}} :=
  ⟨fun m => by simp [deliveries],fun m _ => by simp [deliveries]⟩

theorem rabbitMQ_few (hexhausted : Exhausted (rabbitMQ settings body) task)
    (h : Reachable {broker := {}} (Step (rabbitMQ settings body) task) w) :
    Accounted (rabbitMQ settings body) w ∧ ∀ m, deliveries w m ≤ 1 := by
  have hinv := h.invariant (I := fun w => Accounted (rabbitMQ settings body) w ∧ OnePlace w)
    ⟨accounted_init _,onePlace_init⟩
    fun _ _ _ hI hstep => ⟨hI.1.step hexhausted hstep,hI.2.step hI.1 hstep⟩
  refine ⟨hinv.1,fun m => ?_⟩
  have honce := hinv.2.once m
  omega

end RabbitMQ

section Kafka
variable {batchSize : ℕ} {log : Record → RecordData} {task : Task}
  {w w' : Worker KafkaTopic Record} {op : Op (List Record)} {position : TopicPartition → ℕ}

/-- The consumer has moved past every record it handed out, each of them once. -/
structure ReadOnce (w : Worker KafkaTopic Record) : Prop where
  passed : ∀ r, 0 < deliveries w r → r.offset < w.broker.position r.tp
  once : ∀ r, deliveries w r ≤ 1

theorem readRecords_advances {p p' : TopicPartition → ℕ} {rs : List Record}
    (h : readRecords p rs = some p') (tp : TopicPartition) : p tp ≤ p' tp := by
  induction rs generalizing p with
  | nil =>
    cases h
    exact le_rfl
  | cons r rs ih =>
    rw [readRecords] at h
    split at h
    · next hoffset =>
        have hrest := ih h
        by_cases htp : tp = r.tp
        · rw [htp,Function.update_self] at hrest
          rw [htp]
          omega
        · rwa [Function.update_of_ne htp] at hrest
    · cases h

theorem readRecords_once {p p' : TopicPartition → ℕ} {rs : List Record}
    (h : readRecords p rs = some p') (r : Record) :
    rs.count r ≤ 1 ∧ (0 < rs.count r → p r.tp ≤ r.offset ∧ r.offset < p' r.tp) := by
  induction rs generalizing p with
  | nil => simp
  | cons r' rs ih =>
    rw [readRecords] at h
    split at h
    · next hoffset =>
        obtain ⟨honce,hin⟩ := ih h
        have hadvances := readRecords_advances h
        rw [List.count_cons]
        by_cases hr : r' = r
        · subst hr
          have hnone : rs.count r' = 0 := by
            by_contra hne
            have hbounds := hin (Nat.pos_of_ne_zero hne)
            rw [Function.update_self] at hbounds
            omega
          have hmoved := hadvances r'.tp
          rw [Function.update_self] at hmoved
          simp only [beq_self_eq_true,if_true,hnone]
          omega
        · simp only [beq_iff_eq,hr,if_false,Nat.add_zero]
          refine ⟨honce,fun hpos => ?_⟩
          have hbounds := hin hpos
          by_cases htp : r.tp = r'.tp
          · rw [htp,Function.update_self] at hbounds
            rw [htp]
            omega
          · rwa [Function.update_of_ne htp] at hbounds
    · cases h

theorem ReadOnce.step (ha : Accounted (kafka batchSize log) w) (h : ReadOnce w)
    (hstep : Step (kafka batchSize log) task w op w') : ReadOnce w' := by
  cases perform_stepped hstep.1 with
  | serve hb => cases hb
  | @fetch polled envs taken k hlt hf =>
    change kafkaFetch batchSize log w.broker _ polled = some (taken,k) at hf
    unfold kafkaFetch at hf
    split at hf
    · obtain ⟨p,hp,hpair⟩ := Option.map_eq_some_iff.mp hf
      cases hpair
      have hcount := deliverable_count_le (kafka batchSize log) polled
      constructor
      · intro r hr
        rw [deliveries_deliver] at hr
        have hle := hcount r
        have hadvances := readRecords_advances hp r.tp
        change r.offset < p r.tp
        rcases Nat.eq_zero_or_pos (polled.count r) with hnone | hread
        · have hpassed := h.passed r (Nat.pos_of_ne_zero fun hzero => ?_)
          · omega
          · rw [hzero,Nat.zero_add] at hr
            exact absurd (hr.trans_le hle) (by omega)
        · exact ((readRecords_once hp r).2 hread).2
      · intro r
        rw [deliveries_deliver]
        have hle := hcount r
        have hold := h.once r
        obtain ⟨honce,hin⟩ := readRecords_once hp r
        refine (Nat.add_le_add_left hle _).trans ?_
        rcases Nat.eq_zero_or_pos (polled.count r) with hnone | hread
        · omega
        · have hnew : deliveries w r = 0 := by
            by_contra hne
            have hpassed := h.passed r (Nat.pos_of_ne_zero hne)
            have hbounds := hin hread
            omega
          omega
    · cases hf
  | ended hsplit hrest => exact ⟨h.passed,h.once⟩
  | @awaits i pre post r c rest hsplit hrest =>
    have hr := ha.running r (by simp [hsplit])
    rcases await_cases (kafka batchSize log) w hr hrest with
      ⟨-,he⟩ | ⟨exc,-,he⟩ | ⟨-,-,he⟩
    · rw [he]
      exact ⟨h.passed,h.once⟩
    · rw [he]
      refine ⟨fun r' hr' => ?_,h.once⟩
      change r'.offset < (w.broker.ackRecord r.message true).2.position r'.tp
      rw [KafkaDeliveries.ackRecord_position]
      exact h.passed r' hr'
    · rw [he]
      exact ⟨h.passed,h.once⟩

theorem kafka_few (hexhausted : Exhausted (kafka batchSize log) task)
    (h : Reachable {broker := KafkaDeliveries.opened position} (Step (kafka batchSize log) task) w) :
    Accounted (kafka batchSize log) w ∧ ∀ r, deliveries w r ≤ 1 := by
  have hinit : ReadOnce {broker := KafkaDeliveries.opened position} :=
    ⟨fun r hr => absurd hr (Nat.lt_irrefl 0),fun r => Nat.zero_le 1⟩
  have hinv := h.invariant (I := fun w => Accounted (kafka batchSize log) w ∧ ReadOnce w)
    ⟨accounted_init _,hinit⟩
    fun _ _ _ hI hstep => ⟨hI.1.step hexhausted hstep,hI.2.step hI.1 hstep⟩
  exact ⟨hinv.1,hinv.2.once⟩

end Kafka

section Redis
variable {batchSize : ℕ} {data : ℕ → Option Raw} {task : Task}
  {w w' : Worker RedisStream ℕ} {op : Op Unit}

def isFail : Call Json → Bool
  | .fail _ => true
  | _ => false

/-- An execution of the message that has not failed it yet. -/
def opens (m : ℕ) (r : Running ℕ) : Bool := decide (r.message = m) && r.rest.any isFail

/-- A pending entry is handed out only while executions of it are under way. -/
structure UnderWay (task : Task) (w : Worker RedisStream ℕ) : Prop where
  nodup : (w.broker.pending++w.broker.unread).Nodup
  added : ∀ m ∈ w.broker.pending++w.broker.unread, m < w.broker.added
  unseen : ∀ m, m ∈ w.broker.unread ∨ w.broker.added ≤ m → deliveries w m = 0
  opened : ∀ m ∈ w.broker.pending, deliveries w m ≤ w.inflight.countP (opens m)
  room : w.inflight.length ≤ task.concurrency
  few : ∀ m, deliveries w m ≤ task.concurrency

theorem opens_started {ds : List (ℕ × Envelope)} (m : ℕ) (envs : ℕ → Env Json)
    (hfail : ∀ d ∈ ds, ∀ i, ∃ exc, .fail exc ∈ calls (executing task d.2 (envs i))) :
    (ds.mapIdx fun i d => started task d.1 d.2 (envs i)).countP (opens m) =
      (ds.map Prod.fst).count m := by
  induction ds generalizing envs with
  | nil => rfl
  | cons d ds ih =>
    have hds := ih (fun i => envs (i+1)) fun d' hd' i => hfail d' (List.mem_cons_of_mem _ hd') (i+1)
    obtain ⟨exc,hexc⟩ := hfail d List.mem_cons_self 0
    have hany : (calls (executing task d.2 (envs 0))).any isFail = true :=
      List.any_eq_true.mpr ⟨_,hexc,rfl⟩
    have hhead : opens m (started task d.1 d.2 (envs 0)) = (d.1 == m) := by
      simp only [opens,started,hany,Bool.and_true]
      rfl
    rw [List.mapIdx_cons,List.countP_cons,List.map_cons,List.count_cons,hds,hhead]

theorem UnderWay.deliver {q : RedisStream} {envs : ℕ → Env Json} {ds : List (ℕ × Envelope)}
    (h : UnderWay task w)
    (hfail : ∀ d ∈ ds, ∀ i, ∃ exc, .fail exc ∈ calls (executing task d.2 (envs i)))
    (hperm : q.pending++q.unread = w.broker.pending++w.broker.unread)
    (hadded : q.added = w.broker.added)
    (hread : ∀ m ∈ q.unread, m ∈ w.broker.unread)
    (hin : ∀ m ∈ ds.map Prod.fst, m ∈ q.pending)
    (hroom : w.inflight.length+ds.length ≤ task.concurrency) :
    UnderWay task (w.deliver task envs q ds) := by
  have hnodup : (q.pending++q.unread).Nodup := by
    rw [hperm]
    exact h.nodup
  have hlength : (w.deliver task envs q ds).inflight.length ≤ task.concurrency := by
    simpa [Worker.deliver] using hroom
  have hnone : ∀ m, m ∉ q.pending → (ds.map Prod.fst).count m = 0 := fun m hm =>
    List.count_eq_zero.mpr fun hmem => hm (hin m hmem)
  have hopened : ∀ m ∈ q.pending, deliveries (w.deliver task envs q ds) m ≤
      (w.deliver task envs q ds).inflight.countP (opens m) := by
    intro m hm
    rw [deliveries_deliver]
    simp only [Worker.deliver,List.countP_append,opens_started m envs hfail]
    have hall : m ∈ w.broker.pending++w.broker.unread := by
      rw [← hperm]
      exact List.mem_append_left _ hm
    rcases List.mem_append.mp hall with hold | hold
    · have hopened := h.opened m hold
      omega
    · rw [h.unseen m (.inl hold)]
      omega
  refine ⟨hnodup,fun m hm => ?_,fun m hm => ?_,hopened,hlength,fun m => ?_⟩
  · change m ∈ q.pending++q.unread at hm
    rw [hperm] at hm
    exact (h.added m hm).trans_eq hadded.symm
  · have hout : m ∉ q.pending := by
      intro hpending
      rcases hm with hm | hm
      · exact (List.nodup_append.mp hnodup).2.2 m hpending m hm rfl
      · have hlt := h.added m (by rw [← hperm]; exact List.mem_append_left _ hpending)
        change q.added ≤ m at hm
        omega
    have hunseen : deliveries w m = 0 := by
      refine h.unseen m (hm.imp (hread m) fun hle => ?_)
      change q.added ≤ m at hle
      omega
    rw [deliveries_deliver,hunseen,hnone m hout]
  · by_cases hm : m ∈ q.pending
    · exact (hopened m hm).trans (List.countP_le_length.trans hlength)
    · rw [deliveries_deliver,hnone m hm]
      exact h.few m

theorem UnderWay.fetch (batchSize : ℕ) {limit : ℕ} {taken : List ℕ} {q : RedisStream} {envs : ℕ → Env Json}
    (h : UnderWay task w) (hlt : w.inflight.length < task.concurrency)
    (hlimit : limit = task.concurrency-w.inflight.length)
    (hf : w.broker.fetch batchSize data limit = (taken,q))
    (hfail : ∀ i m e, decodeEntry data m = some e →
      ∃ exc, .fail exc ∈ calls (executing task e (envs i))) :
    UnderWay task (w.deliver task envs q
      (taken.filterMap fun m => ((redis batchSize data).decode m).map fun e => (m,e))) := by
  have hfail' : ∀ d ∈ taken.filterMap fun m => ((redis batchSize data).decode m).map fun e => (m,e),
      ∀ i, ∃ exc, .fail exc ∈ calls (executing task d.2 (envs i)) :=
    fun d hd i => hfail i d.1 d.2 (mem_decoded hd)
  have hmem : ∀ entries : List ℕ, ∀ m ∈ ((processMessages data entries).filterMap fun m =>
      ((redis batchSize data).decode m).map fun e => (m,e)).map Prod.fst, m ∈ entries := by
    intro entries m hm
    rw [map_fst_decoded] at hm
    exact List.mem_of_mem_filter (List.mem_of_mem_filter hm)
  have hroom : ∀ entries : List ℕ, entries.length ≤ max 1 (min limit batchSize) →
      w.inflight.length+((processMessages data entries).filterMap fun m =>
        ((redis batchSize data).decode m).map fun e => (m,e)).length ≤ task.concurrency := by
    intro entries hentries
    have hfilter := List.length_filterMap_le
      (fun m => ((redis batchSize data).decode m).map fun e => (m,e)) (processMessages data entries)
    have hprocess : (processMessages data entries).length ≤ entries.length :=
      List.length_filter_le _ _
    omega
  unfold RedisStream.fetch at hf
  dsimp only at hf
  split at hf
  · cases hf
    refine h.deliver hfail' rfl rfl (fun m hm => hm) (fun m hm => ?_) (hroom _ ?_)
    · exact List.mem_of_mem_take (hmem _ m hm)
    · rw [List.length_take]
      exact Nat.min_le_left _ _
  · cases hf
    refine h.deliver hfail' ?_ rfl (fun m hm => List.mem_of_mem_drop hm) (fun m hm => ?_) (hroom _ ?_)
    · simp
    · exact List.mem_append_right _ (hmem _ m hm)
    · rw [List.length_take]
      exact Nat.min_le_left _ _

theorem UnderWay.step (hexhausted : Exhausted (redis batchSize data) task)
    (ha : Accounted (redis batchSize data) w) (h : UnderWay task w)
    (hstep : Step (redis batchSize data) task w op w') (hsettles : Settles task op) :
    UnderWay task w' := by
  obtain ⟨hperform,hraises,hgives⟩ := hstep
  cases perform_stepped hperform with
  | @serve c q hb =>
    cases hb
    refine ⟨?_,fun m hm => ?_,fun m hm => ?_,h.opened,h.room,h.few⟩
    · change (w.broker.pending++(w.broker.unread++[w.broker.added])).Nodup
      rw [← List.append_assoc]
      refine List.nodup_append.mpr ⟨h.nodup,List.nodup_singleton _,fun m hm n hn => ?_⟩
      have hlt := h.added m hm
      rw [List.mem_singleton.mp hn]
      omega
    · change m ∈ w.broker.pending++(w.broker.unread++[w.broker.added]) at hm
      change m < w.broker.added+1
      rw [← List.append_assoc] at hm
      rcases List.mem_append.mp hm with hm | hm
      · have hlt := h.added m hm
        omega
      · rw [List.mem_singleton.mp hm]
        omega
    · change m ∈ w.broker.unread++[w.broker.added] ∨ w.broker.added+1 ≤ m at hm
      refine h.unseen m ?_
      rcases hm with hm | hm
      · rcases List.mem_append.mp hm with hm | hm
        · exact .inl hm
        · exact .inr (List.mem_singleton.mp hm).ge
      · exact .inr (by omega)
  | @fetch c envs taken q hlt hf =>
    refine h.fetch batchSize hlt rfl (Option.some.inj hf) fun i m e he => ?_
    have hgive := givesUp_of_exhausted hexhausted hgives he i
    exact fail_reached _ rfl (hraises i e) hgive rfl (hsettles i e)
  | @ended i pre post r hsplit hrest =>
    have hopened := h.opened
    have hroom := h.room
    rw [hsplit] at hroom
    simp only [hsplit,List.countP_append,List.countP_cons] at hopened
    refine ⟨h.nodup,h.added,h.unseen,fun m hm => ?_,?_,h.few⟩
    · have hm := hopened m hm
      have hclosed : opens m r = false := by simp [opens,hrest]
      rw [hclosed] at hm
      change deliveries w m ≤ (pre++post).countP (opens m)
      rw [List.countP_append]
      simpa using hm
    · simp only [List.length_append,List.length_cons] at hroom ⊢
      omega
  | @awaits i pre post r c rest hsplit hrest =>
    have hr := ha.running r (by simp [hsplit])
    have hopened := h.opened
    simp only [hsplit,List.countP_append,List.countP_cons] at hopened
    have hroom : (pre++{r with rest := rest}::post).length ≤ task.concurrency := by
      have hroom := h.room
      rw [hsplit] at hroom
      simpa using hroom
    have hsame : ∀ m, isFail c = false → opens m {r with rest := rest} = opens m r := by
      intro m hc
      simp [opens,hrest,hc]
    have hkeep : isFail c = false → ∀ m ∈ w.broker.pending,
        deliveries w m ≤ (pre++{r with rest := rest}::post).countP (opens m) := by
      intro hc m hm
      rw [List.countP_append,List.countP_cons,hsame m hc]
      exact hopened m hm
    rcases await_cases (redis batchSize data) w hr hrest with
      ⟨hhandler,he⟩ | ⟨exc,rfl,he⟩ | ⟨-,hact,he⟩
    · have hc : isFail c = false := by
        cases c <;> simp_all [isFail,isHandler]
      rw [he]
      exact ⟨h.nodup,h.added,h.unseen,hkeep hc,hroom,h.few⟩
    · rw [he]
      have hsub : List.Sublist (w.broker.pending.erase r.message++w.broker.unread)
          (w.broker.pending++w.broker.unread) :=
        List.erase_sublist.append (List.Sublist.refl _)
      refine ⟨hsub.nodup h.nodup,fun m hm => h.added m (hsub.mem hm),h.unseen,fun m hm => ?_,
        hroom,h.few⟩
      change m ∈ w.broker.pending.erase r.message at hm
      have hne := (List.Nodup.mem_erase_iff (List.nodup_append.mp h.nodup).1).mp hm
      have hm := hopened m hne.2
      have hother : ∀ rest', opens m {r with rest := rest'} = false := by
        intro rest'
        simp [opens,Ne.symm hne.1]
      change deliveries w m ≤ (pre++{r with rest := rest}::post).countP (opens m)
      rw [List.countP_append,List.countP_cons,hother rest]
      have hold : opens m r = false := hother r.rest
      rw [hold] at hm
      simpa using hm
    · have hc : isFail c = false := by
        cases c <;> simp_all [isFail,acts]
      rw [he]
      exact ⟨h.nodup,h.added,h.unseen,hkeep hc,hroom,h.few⟩

theorem redis_few (hexhausted : Exhausted (redis batchSize data) task)
    (h : Reachable {broker := {}}
      (fun w op w' => Step (redis batchSize data) task w op w' ∧ Settles task op) w) :
    Accounted (redis batchSize data) w ∧ ∀ m, deliveries w m ≤ task.concurrency := by
  have hinit : UnderWay task {broker := {}} :=
    ⟨List.nodup_nil,nofun,fun _ _ => rfl,nofun,Nat.zero_le _,fun _ => Nat.zero_le _⟩
  have hinv := h.invariant (I := fun w => Accounted (redis batchSize data) w ∧ UnderWay task w)
    ⟨accounted_init _,hinit⟩
    fun _ _ _ hI hstep => ⟨hI.1.step hexhausted hstep.1,hI.2.step hexhausted hI.1 hstep.1 hstep.2⟩
  exact ⟨hinv.1,hinv.2.few⟩

end Redis

/-- Where the stored attempts of every message exhaust the policy, no dead-letter
sink refuses an envelope and failing does not raise, the bound is kept; for a
Redis stream, also no failure may end unsettled, and the task may not run more
deliveries at once than the bound. -/
theorem executions_bounded (task : Task) :
    (∀ settings body w, Exhausted (rabbitMQ settings body) task →
      Reachable {broker := {}} (Step (rabbitMQ settings body) task) w →
      Bounded task.policy.maxAttempts w) ∧
    (∀ batchSize log position w, Exhausted (kafka batchSize log) task →
      Reachable {broker := KafkaDeliveries.opened position} (Step (kafka batchSize log) task) w →
      Bounded task.policy.maxAttempts w) ∧
    ∀ batchSize data w, Exhausted (redis batchSize data) task →
      task.concurrency ≤ task.policy.maxAttempts →
      Reachable {broker := {}}
        (fun w op w' => Step (redis batchSize data) task w op w' ∧ Settles task op) w →
      Bounded task.policy.maxAttempts w := by
  have hpositive := task.policy.positive
  refine ⟨fun settings body w hexhausted h => ?_,fun batchSize log position w hexhausted h => ?_,
    fun batchSize data w hexhausted hconcurrency h => ?_⟩
  · obtain ⟨haccounted,hfew⟩ := rabbitMQ_few hexhausted h
    exact bounded_of_deliveries hexhausted haccounted fun m => (hfew m).trans hpositive
  · obtain ⟨haccounted,hfew⟩ := kafka_few hexhausted h
    exact bounded_of_deliveries hexhausted haccounted fun m => (hfew m).trans hpositive
  · obtain ⟨haccounted,hfew⟩ := redis_few hexhausted h
    exact bounded_of_deliveries hexhausted haccounted fun m => (hfew m).trans hconcurrency

section Samples

/-- The handler raises; every other call returns. -/
def raising : Env Json where
  outcome _ := .ok ()
  handler := .error (.raised (.plain "RuntimeError"))
  predicate _ := .ok true
  transform _ := .ok none
  isStopping _ _ := false
  cancelRequested := false
  retryPolicy _ _ := .ok ⟨.fail,none⟩
  copyMeta _ := .ok ()
  succeededMeta := .ok ()
  copyPayload := .ok ()
  copyOriginalMeta := .ok ()
  copyEnvelope := .ok ()
  copyResult := .ok ()

/-- At most three attempts, one delivery at a time. -/
def thrice : Task where
  spec := {
    appName := "orders", name := "process", sourceName := some "jobs"
    before := 0, afterSuccess := 0, onFailure := 0
    emitTargets := [], deadLetterSinks := [], eventHandlers := 0, capture := none}
  policy := ⟨3,none,by decide⟩
  concurrency := 1

/-- A message stored with these attempts. -/
def stored (attempts : ℤ) : Raw :=
  .json (.obj [("body",.int 7),("meta",.obj []),("attempts",.int attempts)])

/-- Fetches once, and executes what it got to its end. -/
def round {C : Type} (c : C) (calls : ℕ) : List (Op C) :=
  .fetch c (fun _ => raising)::List.replicate calls (.advance 0)

def rounds {C : Type} (push : List (Op C)) (c : C) (n : ℕ) : List (Op C) :=
  (List.replicate n (push++round c 11)).flatten

def onRabbitMQ (n : ℕ) : List (Op RabbitMQChoice) :=
  .serve .publish::rounds [.serve (.push 0)] .publish n

def onKafka (n : ℕ) : List (Op (List Record)) := rounds [] [⟨⟨"orders",0⟩,0⟩] n

def onRedis (n : ℕ) : List (Op Unit) := .serve ()::rounds [] () n

theorem failurePath_thrice (e : Envelope) (exc : Exn)
    (h : first (processPath (executing thrice e raising)) = .error (.raised exc)) :
    first (failurePath (executing thrice e raising) exc) = .ok () := by
  have hexc : first (processPath (executing thrice e raising)) =
      .error (.raised (.plain "RuntimeError")) := rfl
  rw [hexc] at h
  cases h
  have hsettle : first (settlementPath (executing thrice e raising)
      ⟨.error,"RuntimeError",""⟩ (some (.plain "RuntimeError"))) = .ok () := by
    have hdetail : raises (errorDetail (publicFailure ⟨.error,"RuntimeError",""⟩
        (some (.plain "RuntimeError"))) none) = .ok () := raises_ok.mpr (by decide +kernel)
    rw [settlementPath,hdetail]
    rfl
  have hpath : failurePath (executing thrice e raising) (.plain "RuntimeError") =
      decisionPath (executing thrice e raising) (.plain "RuntimeError") ⟨.error,"RuntimeError",""⟩++
        decidedPath (executing thrice e raising) (.plain "RuntimeError")
          ⟨.error,"RuntimeError",""⟩ := rfl
  rw [hpath,first_append_ok]
  refine ⟨rfl,?_⟩
  unfold decidedPath
  simp only [executing]
  split
  · exact hsettle
  · exact hsettle

theorem rounds_fine {C : Type} {push : List (Op C)} {c : C} {n : ℕ}
    (hpush : ∀ op ∈ push, ∃ d, op = .serve d) :
    ∀ op ∈ rounds push c n, Raises thrice op ∧ Gives thrice op ∧ Settles thrice op := by
  intro op hop
  obtain ⟨l,hl,hop⟩ := List.mem_flatten.mp hop
  rw [List.eq_of_mem_replicate hl] at hop
  rcases List.mem_append.mp hop with hop | hop
  · obtain ⟨d,rfl⟩ := hpush op hop
    exact ⟨trivial,trivial,trivial⟩
  · rcases List.mem_cons.mp hop with rfl | hop
    · refine ⟨fun _ e => ⟨⟨_,rfl⟩,fun _ => nofun⟩,fun _ e => ⟨fun _ _ => nofun,fun _ _ => nofun⟩,
        fun _ e exc h => failurePath_thrice e exc h⟩
    · rw [List.eq_of_mem_replicate hop]
      exact ⟨trivial,trivial,trivial⟩

theorem runs_reachable {B M C : Type} [DecidableEq M] {broker : Broker B M C} {b : B}
    {ops : List (Op C)} {w : Worker B M}
    {step : Worker B M → Op C → Worker B M → Prop}
    (hstep : ∀ w op w', perform broker thrice w op = some w' →
      Raises thrice op ∧ Gives thrice op ∧ Settles thrice op → step w op w')
    (hfine : ∀ op ∈ ops, Raises thrice op ∧ Gives thrice op ∧ Settles thrice op)
    (h : Transition.runs (perform broker thrice) (fun _ _ => true) {broker := b} ops = some w) :
    Reachable {broker := b} step w :=
  ⟨ops,(Transition.run_of_labels hfine h).mono fun w op w' hs => hstep w op w' hs.1 hs.2⟩

theorem onRabbitMQ_fine (n : ℕ) :
    ∀ op ∈ onRabbitMQ n, Raises thrice op ∧ Gives thrice op ∧ Settles thrice op := by
  intro op hop
  rcases List.mem_cons.mp hop with rfl | hop
  · exact ⟨trivial,trivial,trivial⟩
  · exact rounds_fine (fun op hop => ⟨_,List.mem_singleton.mp hop⟩) op hop

theorem onKafka_fine (n : ℕ) :
    ∀ op ∈ onKafka n, Raises thrice op ∧ Gives thrice op ∧ Settles thrice op :=
  rounds_fine fun _ hop => absurd hop List.not_mem_nil

theorem onRedis_fine (n : ℕ) :
    ∀ op ∈ onRedis n, Raises thrice op ∧ Gives thrice op ∧ Settles thrice op := by
  intro op hop
  rcases List.mem_cons.mp hop with rfl | hop
  · exact ⟨trivial,trivial,trivial⟩
  · exact rounds_fine (fun _ hop => absurd hop List.not_mem_nil) op hop

end Samples

/-- A message stored with two attempts is failed by its first delivery. -/
theorem spent_bounded :
    (∃ w, Transition.runs (perform (rabbitMQ {} fun _ => stored 2) thrice) (fun _ _ => true)
      {broker := {}} (onRabbitMQ 1) = some w ∧ w.failed = [0] ∧ Bounded 3 w) ∧
    (∃ w, Transition.runs (perform (kafka 100 fun _ => {value := stored 2}) thrice)
      (fun _ _ => true) {broker := KafkaDeliveries.opened fun _ => 0} (onKafka 1) = some w ∧
        w.failed = [⟨⟨"orders",0⟩,0⟩] ∧ Bounded 3 w) ∧
    ∃ w, Transition.runs (perform (redis 100 fun _ => stored 2) thrice) (fun _ _ => true)
      {broker := {}} (onRedis 1) = some w ∧ w.failed = [0] ∧ Bounded 3 w := by
  have hspent : ∀ e, decodeEnvelope (stored 2) = some e → (3 : ℤ) ≤ e.attempts+1 := by
    intro e he
    cases he
    decide
  refine ⟨?_,?_,?_⟩
  · have hrun : (Transition.runs (perform (rabbitMQ {} fun _ => stored 2) thrice) (fun _ _ => true)
        {broker := {}} (onRabbitMQ 1)).map Worker.failed = some [0] := by decide +kernel
    obtain ⟨w,hw,hfailed⟩ := Option.map_eq_some_iff.mp hrun
    have hdecode : Exhausted (rabbitMQ {} fun _ => stored 2) thrice := fun _ e => hspent e
    refine ⟨w,hw,hfailed,(executions_bounded thrice).1 {} _ w hdecode ?_⟩
    exact runs_reachable (fun _ _ _ hp hfine => ⟨hp,hfine.1,hfine.2.1⟩) (onRabbitMQ_fine 1) hw
  · have hrun : (Transition.runs (perform (kafka 100 fun _ => {value := stored 2}) thrice)
        (fun _ _ => true) {broker := KafkaDeliveries.opened fun _ => 0} (onKafka 1)).map
          Worker.failed = some [⟨⟨"orders",0⟩,0⟩] := by decide +kernel
    obtain ⟨w,hw,hfailed⟩ := Option.map_eq_some_iff.mp hrun
    have hdecode : Exhausted (kafka 100 fun _ => {value := stored 2}) thrice := by
      intro m e he
      change decodeRecordEnvelope (fun _ => {value := stored 2}) m = some e at he
      obtain ⟨e',he',hattempts⟩ := decodeRecordEnvelope_attempts he
      rw [← hattempts]
      exact hspent e' he'
    refine ⟨w,hw,hfailed,(executions_bounded thrice).2.1 100 _ (fun _ => 0) w hdecode ?_⟩
    exact runs_reachable (fun _ _ _ hp hfine => ⟨hp,hfine.1,hfine.2.1⟩) (onKafka_fine 1) hw
  · have hrun : (Transition.runs (perform (redis 100 fun _ => stored 2) thrice) (fun _ _ => true)
        {broker := {}} (onRedis 1)).map Worker.failed = some [0] := by decide +kernel
    obtain ⟨w,hw,hfailed⟩ := Option.map_eq_some_iff.mp hrun
    have hdecode : Exhausted (redis 100 fun _ => stored 2) thrice := fun _ e => hspent e
    refine ⟨w,hw,hfailed,(executions_bounded thrice).2.2 100 _ w hdecode (by decide) ?_⟩
    exact runs_reachable (fun _ _ _ hp hfine => ⟨⟨hp,hfine.1,hfine.2.1⟩,hfine.2.2⟩)
      (onRedis_fine 1) hw

/-- A message stored with no attempts is executed a fourth time on every broker. -/
theorem redelivered_unbounded :
    (∃ w, Reachable {broker := {}} (fun w op w' =>
      perform (rabbitMQ {} fun _ => stored 0) thrice w op = some w' ∧ Raises thrice op) w ∧
        ¬Bounded thrice.policy.maxAttempts w) ∧
    (∃ w, Reachable {broker := KafkaDeliveries.opened fun _ => 0} (fun w op w' =>
      perform (kafka 100 fun _ => {value := stored 0}) thrice w op = some w' ∧ Raises thrice op) w ∧
        ¬Bounded thrice.policy.maxAttempts w) ∧
    ∃ w, Reachable {broker := {}} (fun w op w' =>
      perform (redis 100 fun _ => stored 0) thrice w op = some w' ∧ Raises thrice op) w ∧
        ¬Bounded thrice.policy.maxAttempts w := by
  have hfour : ∀ {B M : Type} [DecidableEq M] {w : Worker B M} {m : M},
      w.executed.count m = 4 → ¬Bounded thrice.policy.maxAttempts w := by
    intro B M _ w m hcount hbounded
    have hle := hbounded.executions m
    rw [hcount] at hle
    exact absurd hle (by decide)
  refine ⟨?_,?_,?_⟩
  · have hrun : (Transition.runs (perform (rabbitMQ {} fun _ => stored 0) thrice) (fun _ _ => true)
        {broker := {}} (onRabbitMQ 4)).map (fun w => w.executed.count 0) = some 4 := by
      decide +kernel
    obtain ⟨w,hw,hcount⟩ := Option.map_eq_some_iff.mp hrun
    exact ⟨w,runs_reachable (fun _ _ _ hp hfine => ⟨hp,hfine.1⟩) (onRabbitMQ_fine 4) hw,
      hfour hcount⟩
  · have hrun : (Transition.runs (perform (kafka 100 fun _ => {value := stored 0}) thrice)
        (fun _ _ => true) {broker := KafkaDeliveries.opened fun _ => 0} (onKafka 4)).map
          (fun w => w.executed.count ⟨⟨"orders",0⟩,0⟩) = some 4 := by decide +kernel
    obtain ⟨w,hw,hcount⟩ := Option.map_eq_some_iff.mp hrun
    exact ⟨w,runs_reachable (fun _ _ _ hp hfine => ⟨hp,hfine.1⟩) (onKafka_fine 4) hw,hfour hcount⟩
  · have hrun : (Transition.runs (perform (redis 100 fun _ => stored 0) thrice) (fun _ _ => true)
        {broker := {}} (onRedis 4)).map (fun w => w.executed.count 0) = some 4 := by
      decide +kernel
    obtain ⟨w,hw,hcount⟩ := Option.map_eq_some_iff.mp hrun
    exact ⟨w,runs_reachable (fun _ _ _ hp hfine => ⟨hp,hfine.1⟩) (onRedis_fine 4) hw,hfour hcount⟩

end OneStep.BoundedRetries
