import OneStep.Transition
import Mathlib.Data.List.Nodup
import Mathlib.Order.Nat
import Mathlib.Logic.Function.Basic
import Mathlib.Logic.Relation

/-!
# The telemetry sender and its waiters

Payloads are numbered as they are enqueued, and a waiter has the number of its payload. Of syncs
and heartbeats the latest is pending, and a payload that replaces it takes over its waiters;
metrics and events stand in queues that drop their oldest when they are full. A worker takes the
first pending payload, sends it, and then consumes it and resolves its waiters. A step here is
what runs between two points where a coroutine may wait.
-/
namespace OneStep.TelemetrySender
open Transition

section Payloads

inductive Latest where
  | sync | heartbeat
  deriving DecidableEq

inductive Queue where
  | metrics | events
  deriving DecidableEq

inductive Channel where
  | latest (k : Latest)
  | queue (q : Queue)
  deriving DecidableEq

structure Config where
  maxPendingMetricBatches : ℕ
  maxPendingEvents : ℕ
  eventBatchSize : ℕ

def Config.limit (config : Config) : Queue → ℕ
  | .metrics => config.maxPendingMetricBatches
  | .events => max 1 ((config.maxPendingEvents+config.eventBatchSize-1)/config.eventBatchSize)

inductive Outcome where
  | succeeded | failed | cancelled
  deriving DecidableEq

/-- What a worker is at: its task did not run yet, it looks for a payload, connects for one,
or has it with the transport, which may have accepted it. -/
inductive Worker where
  | created
  | looking
  | connecting (channel : Channel) (id : ℕ)
  | sending (channel : Channel) (id : ℕ) (accepted : Bool)
  deriving DecidableEq

/-- What happened: the payloads and the waiters made, what completed the waiters, what the
transport accepted, which payload replaced which, and of each close that settled the waiters
the first number after it was called. -/
structure History where
  enqueued : List (Channel × ℕ) := []
  created : List ℕ := []
  done : List (ℕ × Outcome) := []
  accepted : List (Channel × ℕ) := []
  replaced : List (ℕ × ℕ) := []
  closed : List ℕ := []

structure Sender where
  nextId : ℕ := 0
  waiters : ℕ → List ℕ := fun _ => []
  latest : Latest → Option ℕ := fun _ => none
  queue : Queue → List ℕ := fun _ => []
  workers : ℕ → Option Worker := fun _ => none
  nextWorker : ℕ := 0
  workerTask : Option ℕ := none
  stopRequested : Bool := false
  closers : ℕ → Option (ℕ × ℕ) := fun _ => none
  history : History := {}

end Payloads

section Waiters

def isDone (done : List (ℕ × Outcome)) (waiter : ℕ) : Bool :=
  done.any fun completion => completion.1 = waiter

/-- `_resolve_waiters` and `_fail_waiters`: each waiter that is not done gets the outcome. -/
def complete (outcome : Outcome) : List ℕ → List (ℕ × Outcome) → List (ℕ × Outcome)
  | [],done => done
  | waiter::waiters,done =>
    complete outcome waiters (if isDone done waiter then done else done++[(waiter,outcome)])

def Sender.settle (s : Sender) (outcome : Outcome) (id : ℕ) : Sender :=
  {s with
    waiters := Function.update s.waiters id []
    history := {s.history with done := complete outcome (s.waiters id) s.history.done}}

def Sender.settleAll (outcome : Outcome) : List ℕ → Sender → Sender
  | [],s => s
  | id::ids,s => Sender.settleAll outcome ids (s.settle outcome id)

def Sender.pendings (s : Sender) : List ℕ :=
  (s.latest .sync).toList++(s.latest .heartbeat).toList++s.queue .metrics++s.queue .events

end Waiters

section Steps

def Sender.start (s : Sender) : Sender :=
  match s.workerTask.bind s.workers with
  | some _ => s
  | none =>
    {s with
      stopRequested := false
      workers := Function.update s.workers s.nextWorker (some .created)
      workerTask := some s.nextWorker
      nextWorker := s.nextWorker+1}

def Sender.replaceLatest (s : Sender) (k : Latest) (id : ℕ) : Sender :=
  match s.latest k with
  | none => {s with latest := Function.update s.latest k (some id)}
  | some current =>
    {s with
      latest := Function.update s.latest k (some id)
      waiters := Function.update (Function.update s.waiters id
        (s.waiters current++s.waiters id)) current []
      history := {s.history with replaced := s.history.replaced++[(current,id)]}}

def Sender.applyQueueBackpressure (s : Sender) (limit : ℕ) (q : Queue) : Sender :=
  let overflow := (s.queue q).length-limit
  let dropped := (s.queue q).take overflow
  Sender.settleAll .failed dropped
    {s with queue := Function.update s.queue q ((s.queue q).drop overflow)}

/-- A new payload, with a waiter for who wants to know that it is delivered. -/
def Sender.create (s : Sender) (channel : Channel) (wait : Bool) : Sender :=
  let waiters := if wait then [s.nextId] else []
  {s with
    nextId := s.nextId+1
    waiters := Function.update s.waiters s.nextId waiters
    history := {s.history with
      enqueued := s.history.enqueued++[(channel,s.nextId)]
      created := s.history.created++waiters}}

def Sender.append (s : Sender) (q : Queue) (id : ℕ) : Sender :=
  {s with queue := Function.update s.queue q (s.queue q++[id])}

def Sender.place (config : Config) (s : Sender) (id : ℕ) : Channel → Sender
  | .latest k => s.replaceLatest k id
  | .queue q => (s.append q id).applyQueueBackpressure (config.limit q) q

def Sender.enqueue (config : Config) (s : Sender) (channel : Channel) (wait : Bool) : Sender :=
  (s.start.create channel wait).place config s.nextId channel

def Sender.peekPending (s : Sender) : Option (Channel × ℕ) :=
  match s.latest .sync with
  | some id => some (.latest .sync,id)
  | none =>
    match s.latest .heartbeat with
    | some id => some (.latest .heartbeat,id)
    | none =>
      match s.queue .metrics with
      | id::_ => some (.queue .metrics,id)
      | [] => (s.queue .events).head?.map fun id => (.queue .events,id)

def Sender.removeSent (s : Sender) (id : ℕ) : Channel → Sender
  | .latest k =>
    if s.latest k = some id then {s with latest := Function.update s.latest k none} else s
  | .queue q =>
    if (s.queue q).head? = some id then
      {s with queue := Function.update s.queue q (s.queue q).tail}
    else s

def Sender.consumeSent (s : Sender) (channel : Channel) (id : ℕ) : Sender :=
  (s.removeSent id channel).settle .succeeded id

def Sender.setWorker (s : Sender) (w : ℕ) (worker : Option Worker) : Sender :=
  {s with workers := Function.update s.workers w worker}

/-- The worker ends, and with it `_run` forgets the worker task. -/
def Sender.endWorker (s : Sender) (w : ℕ) : Sender :=
  {s.setWorker w none with workerTask := none}

/-- The rest of a close once its worker ended: what is still pending fails. -/
def Sender.finishClose (s : Sender) (before : ℕ) : Sender :=
  let s := Sender.settleAll .failed s.pendings s
  {s with
    latest := fun _ => none
    queue := fun _ => []
    history := {s.history with closed := s.history.closed++[before]}}

inductive Act where
  | enqueue (channel : Channel) (wait : Bool)
  | abandon (waiter : ℕ)
  | begin (w : ℕ)
  | peek (w : ℕ)
  | connect (w : ℕ) (connected : Bool)
  | accept (w : ℕ)
  | sent (w : ℕ)
  | raise (w : ℕ)
  | interrupt (w : ℕ)
  | close (c : ℕ)
  | resume (c : ℕ)
  | failClose (c : ℕ)

def Sender.perform (config : Config) (s : Sender) : Act → Option Sender
  | .enqueue channel wait => some (s.enqueue config channel wait)
  | .abandon waiter =>
    if waiter ∈ s.history.created then
      some {s with history := {s.history with done := complete .cancelled [waiter] s.history.done}}
    else none
  | .begin w =>
    match s.workers w with
    | some .created => some (s.setWorker w (some .looking))
    | _ => none
  | .peek w =>
    match s.workers w with
    | some .looking =>
      match s.peekPending with
      | some (channel,id) => some (s.setWorker w (some (.connecting channel id)))
      | none => some (if s.stopRequested then s.endWorker w else s)
    | _ => none
  | .connect w connected =>
    match s.workers w with
    | some (.connecting channel id) =>
      some (s.setWorker w (some (if connected then .sending channel id false else .looking)))
    | _ => none
  | .accept w =>
    match s.workers w with
    | some (.sending channel id false) =>
      some {s.setWorker w (some (.sending channel id true)) with
        history := {s.history with accepted := s.history.accepted++[(channel,id)]}}
    | _ => none
  | .sent w =>
    match s.workers w with
    | some (.sending channel id true) =>
      some ((s.consumeSent channel id).setWorker w (some .looking))
    | _ => none
  | .raise w =>
    match s.workers w with
    | some (.sending _ _ _) => some (s.setWorker w (some .looking))
    | _ => none
  | .interrupt w =>
    match s.workers w with
    | some .created => some (s.setWorker w none)
    | some _ => some (s.endWorker w)
    | none => none
  | .close c =>
    match s.closers c with
    | some _ => none
    | none =>
      let s := {s with stopRequested := true}
      match s.workerTask with
      | none => some (s.finishClose s.nextId)
      | some w => some {s with closers := Function.update s.closers c (some (s.nextId,w))}
  | .resume c =>
    match s.closers c with
    | none => none
    | some (before,w) =>
      if (s.workers w).isNone then
        some (Sender.finishClose {s with
          workerTask := none
          closers := Function.update s.closers c none} before)
      else none
  | .failClose c =>
    match s.closers c with
    | none => none
    | some (_,w) =>
      if (s.workers w).isNone then
        some {s with workerTask := none,closers := Function.update s.closers c none}
      else none

end Steps

section Truthful

/-- A later payload took the place of an earlier one, once or more. -/
def Replaces (history : History) : ℕ → ℕ → Prop :=
  Relation.TransGen fun old new => (old,new) ∈ history.replaced

/-- What each waiter is owed, and what bounds the queues. -/
structure Truthful (config : Config) (s : Sender) : Prop where
  once : (s.history.done.map Prod.fst).Nodup
  settled : ∀ before ∈ s.history.closed, ∀ waiter ∈ s.history.created, waiter < before →
    isDone s.history.done waiter = true
  accepted : ∀ waiter, (waiter,Outcome.succeeded) ∈ s.history.done →
    ∃ channel id, (channel,id) ∈ s.history.accepted ∧
      (id = waiter ∨ Replaces s.history waiter id)
  replaced : ∀ old new, (old,new) ∈ s.history.replaced → old < new ∧
    ∃ k : Latest, (.latest k,old) ∈ s.history.enqueued ∧ (.latest k,new) ∈ s.history.enqueued
  bounded : ∀ q, (s.queue q).length ≤ config.limit q

/-- A payload leaves its queue by a send that succeeded, by the backpressure of the payload
enqueued after it or by a close. -/
def Leaves (config : Config) (s : Sender) (a : Act) : Prop :=
  ∀ t, s.perform config a = some t → ∀ q, ∀ id ∈ s.queue q, id ∉ t.queue q →
    (∃ w, a = .sent w ∧ s.workers w = some (.sending (.queue q) id true)) ∨
    (∃ wait, a = .enqueue (.queue q) wait ∧
      id ∈ (s.queue q).take ((s.queue q).length+1-config.limit q)) ∨
    ∃ before, t.history.closed = s.history.closed++[before]

def sentOn (s : Sender) (q : Queue) : List ℕ :=
  s.history.accepted.filterMap fun sent => if sent.1 = .queue q then some sent.2 else none

/-- Metrics and events are sent in the order in which they were enqueued. -/
def InOrder (s : Sender) : Prop := ∀ q, (sentOn s q).Pairwise (· ≤ ·)

/-- A close does not forget a worker that was started while it waited for another. -/
def Remembers (s : Sender) : Act → Prop
  | .resume c | .failClose c => ∀ before w, s.closers c = some (before,w) →
      ∀ w', s.workerTask = some w' → s.workers w' = none
  | _ => True

end Truthful

section Settling

variable {outcome : Outcome} {s t u : Sender} {ids more : List ℕ} {done : List (ℕ × Outcome)}

theorem isDone_iff {waiter : ℕ} : isDone done waiter = true ↔ waiter ∈ done.map Prod.fst := by
  simp only [isDone,List.any_eq_true,decide_eq_true_eq,List.mem_map]

theorem isDone_mono {done' : List (ℕ × Outcome)} {waiter : ℕ} (h : ∀ e ∈ done, e ∈ done')
    (hdone : isDone done waiter = true) : isDone done' waiter = true := by
  obtain ⟨e,he,hkey⟩ := List.mem_map.mp (isDone_iff.mp hdone)
  exact isDone_iff.mpr (List.mem_map.mpr ⟨e,h e he,hkey⟩)

theorem complete_spec (outcome : Outcome) (waiters : List ℕ) (done : List (ℕ × Outcome)) :
    (∀ e ∈ done, e ∈ complete outcome waiters done) ∧
      (∀ waiter ∈ waiters, isDone (complete outcome waiters done) waiter = true) ∧
      ∀ e ∈ complete outcome waiters done, e ∈ done ∨ (e.2 = outcome ∧ e.1 ∈ waiters) := by
  induction waiters generalizing done with
  | nil => exact ⟨fun _ he => he,by simp,fun _ he => .inl he⟩
  | cons waiter waiters ih =>
    obtain ⟨hgrows,hall,honly⟩ :=
      ih (if isDone done waiter then done else done++[(waiter,outcome)])
    have hadded : ∀ e ∈ done,
        e ∈ if isDone done waiter then done else done++[(waiter,outcome)] := by
      intro e he
      split
      · exact he
      · exact List.mem_append_left _ he
    refine ⟨fun e he => hgrows e (hadded e he),?_,?_⟩
    · intro other hother
      rcases List.mem_cons.mp hother with rfl | hother
      · refine isDone_mono hgrows ?_
        split
        · next hdone => exact hdone
        · simp [isDone_iff]
      · exact hall other hother
    · intro e he
      rcases honly e he with he | ⟨ho,hmem⟩
      · split at he
        · exact .inl he
        · rcases List.mem_append.mp he with he | he
          · exact .inl he
          · rw [List.mem_singleton.mp he]
            exact .inr ⟨rfl,List.mem_cons_self⟩
      · exact .inr ⟨ho,List.mem_cons_of_mem _ hmem⟩

theorem complete_nodup (outcome : Outcome) (waiters : List ℕ) (h : (done.map Prod.fst).Nodup) :
    ((complete outcome waiters done).map Prod.fst).Nodup := by
  induction waiters generalizing done with
  | nil => exact h
  | cons waiter waiters ih =>
    refine ih ?_
    split
    · exact h
    · next hdone =>
        rw [List.map_append,List.nodup_append]
        refine ⟨h,by simp,?_⟩
        intro key hkey other hother heq
        rw [List.map_singleton,List.mem_singleton] at hother
        rw [heq,hother] at hkey
        exact hdone (isDone_iff.mpr hkey)

/-- Some payloads gave an outcome to their waiters, and have none since. -/
structure Settled (outcome : Outcome) (ids : List ℕ) (s t : Sender) : Prop where
  rest : t = {s with waiters := t.waiters,history := {s.history with done := t.history.done}}
  waiters : ∀ p, t.waiters p = if p ∈ ids then [] else s.waiters p
  once : (s.history.done.map Prod.fst).Nodup → (t.history.done.map Prod.fst).Nodup
  grows : ∀ e ∈ s.history.done, e ∈ t.history.done
  completes : ∀ p ∈ ids, ∀ waiter ∈ s.waiters p, isDone t.history.done waiter = true
  sources : ∀ e ∈ t.history.done, e ∈ s.history.done ∨
    (e.2 = outcome ∧ ∃ p ∈ ids, e.1 ∈ s.waiters p)

theorem Settled.refl (outcome : Outcome) (s : Sender) : Settled outcome [] s s where
  rest := rfl
  waiters := by simp
  once := id
  grows := fun _ he => he
  completes := by simp
  sources := fun _ he => .inl he

theorem Settled.trans (h : Settled outcome ids s t) (k : Settled outcome more t u) :
    Settled outcome (ids++more) s u where
  rest := by rw [k.rest,h.rest]
  waiters := by
    intro p
    rw [k.waiters,h.waiters]
    by_cases hmore : p ∈ more <;> by_cases hids : p ∈ ids <;> simp [hmore,hids]
  once := fun hs => k.once (h.once hs)
  grows := fun e he => k.grows e (h.grows e he)
  completes := by
    intro p hp waiter hw
    by_cases hids : p ∈ ids
    · exact isDone_mono k.grows (h.completes p hids waiter hw)
    · have hkept : t.waiters p = s.waiters p := by rw [h.waiters,if_neg hids]
      exact k.completes p ((List.mem_append.mp hp).resolve_left hids) waiter (hkept ▸ hw)
  sources := by
    intro e he
    rcases k.sources e he with he | ⟨ho,p,hp,hw⟩
    · rcases h.sources e he with he | ⟨ho,p,hp,hw⟩
      · exact .inl he
      · exact .inr ⟨ho,p,List.mem_append_left _ hp,hw⟩
    · refine .inr ⟨ho,p,List.mem_append_right _ hp,?_⟩
      rw [h.waiters] at hw
      split at hw
      · cases hw
      · exact hw

theorem settled_settle (outcome : Outcome) (s : Sender) (id : ℕ) :
    Settled outcome [id] s (s.settle outcome id) := by
  obtain ⟨hgrows,hall,honly⟩ := complete_spec outcome (s.waiters id) s.history.done
  refine ⟨rfl,?_,complete_nodup outcome _,hgrows,?_,?_⟩
  · intro p
    by_cases hp : p = id <;> simp [Sender.settle,hp]
  · intro p hp waiter hw
    rw [List.mem_singleton.mp hp] at hw
    exact hall waiter hw
  · intro e he
    rcases honly e he with he | ⟨ho,hw⟩
    · exact .inl he
    · exact .inr ⟨ho,id,List.mem_singleton_self _,hw⟩

theorem settled_settleAll (outcome : Outcome) (ids : List ℕ) (s : Sender) :
    Settled outcome ids s (Sender.settleAll outcome ids s) := by
  induction ids generalizing s with
  | nil => exact .refl outcome s
  | cons id ids ih => exact (settled_settle outcome s id).trans (ih _)

end Settling

section Inversion

variable {config : Config} {s t : Sender} {a : Act}

def Worker.held : Worker → Option (Channel × ℕ)
  | .created | .looking => none
  | .connecting channel id | .sending channel id _ => some (channel,id)

/-- A worker keeps the payload that it has or takes the first that is pending, of which the
transport accepted nothing. -/
def GoesOn (s : Sender) (old : Worker) (new : Option Worker) : Prop :=
  ∀ worker, new = some worker → (∀ channel id, worker ≠ .sending channel id true) ∧
    ∀ payload, worker.held = some payload → old.held = some payload ∨ s.peekPending = some payload

/-- All that a step may do. -/
inductive Does (config : Config) (s : Sender) : Act → Sender → Prop
  | enqueue (channel : Channel) (wait : Bool) :
      Does config s (.enqueue channel wait) (s.enqueue config channel wait)
  | abandon (waiter : ℕ) : Does config s (.abandon waiter)
      {s with history := {s.history with done := complete .cancelled [waiter] s.history.done}}
  | move {w : ℕ} {old : Worker} {new : Option Worker} (a : Act) (hold : s.workers w = some old)
      (hnew : GoesOn s old new) : Does config s a (s.setWorker w new)
  | idle (a : Act) : Does config s a s
  | finish {w : ℕ} {old : Worker} (a : Act) (hold : s.workers w = some old) :
      Does config s a (s.endWorker w)
  | accept {w : ℕ} {channel : Channel} {id : ℕ} (hw : s.workers w = some (.sending channel id false)) :
      Does config s (.accept w) {s.setWorker w (some (.sending channel id true)) with
        history := {s.history with accepted := s.history.accepted++[(channel,id)]}}
  | sent {w : ℕ} {channel : Channel} {id : ℕ} (hw : s.workers w = some (.sending channel id true)) :
      Does config s (.sent w) ((s.consumeSent channel id).setWorker w (some .looking))
  | close (c : ℕ) (htask : s.workerTask = none) :
      Does config s (.close c) (Sender.finishClose {s with stopRequested := true} s.nextId)
  | wait (c w : ℕ) : Does config s (.close c) {s with
      stopRequested := true
      closers := Function.update s.closers c (some (s.nextId,w))}
  | resume {c before w : ℕ} (hc : s.closers c = some (before,w)) : Does config s (.resume c)
      (Sender.finishClose {s with
        workerTask := none
        closers := Function.update s.closers c none} before)
  | failClose {c before w : ℕ} (hc : s.closers c = some (before,w)) : Does config s (.failClose c)
      {s with workerTask := none,closers := Function.update s.closers c none}

theorem goesOn_none (old : Worker) : GoesOn s old none := nofun

theorem goesOn_looking (old : Worker) : GoesOn s old (some .looking) := by
  rintro worker ⟨⟩
  exact ⟨nofun,nofun⟩

theorem does_of_perform (ht : s.perform config a = some t) : Does config s a t := by
  cases a with
  | enqueue channel wait =>
    cases ht
    exact .enqueue channel wait
  | abandon waiter =>
    simp only [Sender.perform] at ht
    split at ht
    · cases ht
      exact .abandon waiter
    · cases ht
  | begin w | raise w =>
    simp only [Sender.perform] at ht
    split at ht
    · next hold =>
        cases ht
        exact .move _ hold (goesOn_looking _)
    · cases ht
  | peek w =>
    simp only [Sender.perform] at ht
    split at ht
    · next hold =>
        split at ht
        · next channel id hpeek =>
            cases ht
            refine .move _ hold ?_
            rintro worker ⟨⟩
            exact ⟨nofun,fun payload hheld => .inr (hpeek.trans hheld)⟩
        · cases ht
          split
          · exact .finish _ hold
          · exact .idle _
    · cases ht
  | connect w connected =>
    simp only [Sender.perform] at ht
    split at ht
    · next hold =>
        cases ht
        refine .move _ hold ?_
        cases connected with
        | false => exact goesOn_looking _
        | true =>
          rintro worker ⟨⟩
          exact ⟨nofun,fun payload hheld => .inl hheld⟩
    · cases ht
  | accept w =>
    simp only [Sender.perform] at ht
    split at ht
    · next hw =>
        cases ht
        exact .accept hw
    · cases ht
  | sent w =>
    simp only [Sender.perform] at ht
    split at ht
    · next hw =>
        cases ht
        exact .sent hw
    · cases ht
  | interrupt w =>
    simp only [Sender.perform] at ht
    split at ht
    · next hold =>
        cases ht
        exact .move _ hold (goesOn_none _)
    · next hold =>
        cases ht
        exact .finish _ hold
    · cases ht
  | close c =>
    simp only [Sender.perform] at ht
    split at ht
    · cases ht
    · split at ht
      · next htask =>
          cases ht
          exact .close c htask
      · cases ht
        exact .wait c _
  | resume c | failClose c =>
    simp only [Sender.perform] at ht
    split at ht
    · cases ht
    · next hc =>
        split at ht
        · cases ht
          constructor
          exact hc
        · cases ht

end Inversion

section Soundness

def Sender.Pending (s : Sender) (p : ℕ) : Prop :=
  (∃ k, s.latest k = some p) ∨ ∃ q, p ∈ s.queue q

/-- What holds of the waiters, when the payloads of the given kind hold those not done. -/
structure Sound (P : ℕ → Prop) (s : Sender) : Prop where
  fresh : ∀ p, P p → p < s.nextId
  once : (s.history.done.map Prod.fst).Nodup
  held : ∀ waiter ∈ s.history.created, isDone s.history.done waiter = true ∨
    ∃ p, P p ∧ waiter ∈ s.waiters p
  own : ∀ p, ∀ waiter ∈ s.waiters p, waiter = p ∨ Replaces s.history waiter p
  delivered : ∀ waiter, (waiter,Outcome.succeeded) ∈ s.history.done →
    ∃ channel id, (channel,id) ∈ s.history.accepted ∧
      (id = waiter ∨ Replaces s.history waiter id)
  flight : ∀ w channel id, s.workers w = some (.sending channel id true) →
    (channel,id) ∈ s.history.accepted
  settled : ∀ before ∈ s.history.closed, before ≤ s.nextId ∧
    ∀ waiter ∈ s.history.created, waiter < before → isDone s.history.done waiter = true
  closers : ∀ c before w, s.closers c = some (before,w) → before ≤ s.nextId
  replaced : ∀ old new, (old,new) ∈ s.history.replaced → old < new ∧
    ∃ k : Latest, (.latest k,old) ∈ s.history.enqueued ∧ (.latest k,new) ∈ s.history.enqueued
  latest : ∀ k id, s.latest k = some id → (.latest k,id) ∈ s.history.enqueued

variable {config : Config} {s t : Sender} {P Q : ℕ → Prop} {ids : List ℕ} {outcome : Outcome}

theorem mem_pendings {p : ℕ} : p ∈ s.pendings ↔ s.Pending p := by
  simp only [Sender.pendings,List.mem_append,Option.mem_toList,Sender.Pending]
  constructor
  · rintro (((h | h) | h) | h)
    · exact .inl ⟨.sync,h⟩
    · exact .inl ⟨.heartbeat,h⟩
    · exact .inr ⟨.metrics,h⟩
    · exact .inr ⟨.events,h⟩
  · rintro (⟨k,h⟩ | ⟨q,h⟩)
    · cases k with
      | sync => exact .inl (.inl (.inl h))
      | heartbeat => exact .inl (.inl (.inr h))
    · cases q with
      | metrics => exact .inl (.inr h)
      | events => exact .inr h

theorem Sound.of_settled (h : Sound P s) (k : Settled outcome ids s t)
    (haccepted : outcome = .succeeded → ∀ id ∈ ids, ∃ channel, (channel,id) ∈ s.history.accepted)
    (hrest : ∀ p, P p → p ∉ ids → Q p) (hsub : ∀ p, Q p → P p) : Sound Q t := by
  have hform := k.rest
  refine ⟨?_,k.once h.once,?_,?_,?_,?_,?_,?_,?_,?_⟩
  · intro p hp
    rw [hform]
    exact h.fresh p (hsub p hp)
  · intro waiter hw
    rw [hform] at hw
    rcases h.held waiter hw with hdone | ⟨p,hp,hmem⟩
    · exact .inl (isDone_mono k.grows hdone)
    · by_cases hids : p ∈ ids
      · exact .inl (k.completes p hids waiter hmem)
      · refine .inr ⟨p,hrest p hp hids,?_⟩
        rw [k.waiters,if_neg hids]
        exact hmem
  · intro p waiter hw
    rw [k.waiters] at hw
    rw [hform]
    split at hw
    · cases hw
    · exact h.own p waiter hw
  · intro waiter hw
    rw [hform]
    rcases k.sources _ hw with hw | ⟨ho,p,hp,hmem⟩
    · exact h.delivered waiter hw
    · obtain ⟨channel,hsent⟩ := haccepted ho.symm p hp
      exact ⟨channel,p,hsent,(h.own p waiter hmem).imp Eq.symm id⟩
  · rw [hform]
    exact h.flight
  · intro before hb
    rw [hform] at hb
    obtain ⟨hle,hdone⟩ := h.settled before hb
    rw [hform]
    exact ⟨hle,fun waiter hw hlt => isDone_mono k.grows (hdone waiter hw hlt)⟩
  · rw [hform]
    exact h.closers
  · rw [hform]
    exact h.replaced
  · rw [hform]
    exact h.latest

theorem Sound.of_same (h : Sound P s) (hid : t.nextId = s.nextId) (hhistory : t.history = s.history)
    (hwaiters : t.waiters = s.waiters)
    (hworkers : ∀ w channel id, t.workers w = some (.sending channel id true) →
      s.workers w = some (.sending channel id true))
    (hclosers : ∀ c before w, t.closers c = some (before,w) → before ≤ s.nextId)
    (hlatest : ∀ k id, t.latest k = some id → s.latest k = some id) : Sound P t where
  fresh := hid ▸ h.fresh
  once := hhistory ▸ h.once
  held := hhistory ▸ hwaiters ▸ h.held
  own := hhistory ▸ hwaiters ▸ h.own
  delivered := hhistory ▸ h.delivered
  flight := hhistory ▸ fun w channel id hw => h.flight w channel id (hworkers w channel id hw)
  settled := hhistory ▸ hid ▸ h.settled
  closers := hid ▸ hclosers
  replaced := hhistory ▸ h.replaced
  latest := hhistory ▸ fun k id hk => h.latest k id (hlatest k id hk)

theorem Sound.weaken (h : Sound P s) (hPQ : ∀ p, P p ↔ Q p) : Sound Q s := by
  have heq : P = Q := funext fun p => propext (hPQ p)
  exact heq ▸ h

theorem Sound.setWorker (h : Sound P s) (w : ℕ) {worker : Option Worker}
    (hworker : ∀ channel id, worker = some (.sending channel id true) →
      (channel,id) ∈ s.history.accepted) : Sound P (s.setWorker w worker) := by
  refine ⟨h.fresh,h.once,h.held,h.own,h.delivered,?_,h.settled,h.closers,h.replaced,h.latest⟩
  intro w' channel id hw
  change Function.update s.workers w worker w' = _ at hw
  by_cases hsame : w' = w
  · subst hsame
    rw [Function.update_self] at hw
    exact hworker channel id hw
  · rw [Function.update_of_ne hsame] at hw
    exact h.flight w' channel id hw

theorem Sound.endWorker (h : Sound P s) (w : ℕ) : Sound P (s.endWorker w) :=
  (h.setWorker w (by simp)).of_same rfl rfl rfl (fun _ _ _ hw => hw) h.closers (fun _ _ hk => hk)

theorem Sound.forgetCloser (h : Sound P s) (c : ℕ) :
    Sound P {s with workerTask := none,closers := Function.update s.closers c none} := by
  refine h.of_same rfl rfl rfl (fun _ _ _ hw => hw) ?_ (fun _ _ hk => hk)
  intro c' before w hc
  change Function.update s.closers c none c' = _ at hc
  by_cases hsame : c' = c
  · rw [hsame,Function.update_self] at hc
    cases hc
  · rw [Function.update_of_ne hsame] at hc
    exact h.closers c' before w hc

theorem Sound.start (h : Sound P s) : Sound P s.start := by
  unfold Sender.start
  split
  · exact h
  · exact (h.setWorker s.nextWorker (by simp)).of_same rfl rfl rfl (fun _ _ _ hw => hw)
      h.closers (fun _ _ hk => hk)

theorem Sound.create (h : Sound P s) (channel : Channel) (wait : Bool) :
    Sound (fun p => p = s.nextId ∨ P p) (s.create channel wait) := by
  have hown : ∀ waiter ∈ (if wait then [s.nextId] else []), waiter = s.nextId := by
    cases wait <;> simp
  refine ⟨?_,h.once,?_,?_,h.delivered,h.flight,?_,?_,?_,?_⟩
  · rintro p (rfl | hp)
    · exact Nat.lt_succ_self _
    · exact Nat.lt_succ_of_lt (h.fresh p hp)
  · intro waiter hw
    rcases List.mem_append.mp hw with hw | hw
    · refine (h.held waiter hw).imp_right fun ⟨p,hp,hmem⟩ => ⟨p,.inr hp,?_⟩
      change waiter ∈ Function.update s.waiters s.nextId _ p
      rw [Function.update_of_ne (Nat.ne_of_lt (h.fresh p hp))]
      exact hmem
    · refine .inr ⟨s.nextId,.inl rfl,?_⟩
      change waiter ∈ Function.update s.waiters s.nextId _ s.nextId
      rw [Function.update_self]
      exact hw
  · intro p waiter hw
    change waiter ∈ Function.update s.waiters s.nextId _ p at hw
    by_cases hp : p = s.nextId
    · subst hp
      rw [Function.update_self] at hw
      exact .inl (hown waiter hw)
    · rw [Function.update_of_ne hp] at hw
      exact h.own p waiter hw
  · intro before hb
    obtain ⟨hle,hdone⟩ := h.settled before hb
    refine ⟨Nat.le_succ_of_le hle,?_⟩
    intro waiter hw hlt
    rcases List.mem_append.mp hw with hw | hw
    · exact hdone waiter hw hlt
    · exact absurd (hown waiter hw ▸ hlt) (Nat.not_lt_of_le hle)
  · exact fun c before w hc => Nat.le_succ_of_le (h.closers c before w hc)
  · intro old new hr
    obtain ⟨hlt,k,hold,hnew⟩ := h.replaced old new hr
    exact ⟨hlt,k,List.mem_append_left _ hold,List.mem_append_left _ hnew⟩
  · exact fun k id hk => List.mem_append_left _ (h.latest k id hk)

theorem Replaces.mono {history history' : History} {old new : ℕ}
    (hmem : ∀ e ∈ history.replaced, e ∈ history'.replaced) (h : Replaces history old new) :
    Replaces history' old new :=
  Relation.TransGen.mono (fun _ _ he => hmem _ he) _ _ h

variable {id : ℕ}

/-- The payload that replaces another takes over its waiters. -/
theorem Sound.replaceLatest {k : Latest} (h : Sound (fun p => p = id ∨ s.Pending p) s)
    (henqueued : (.latest k,id) ∈ s.history.enqueued) (hnew : ∀ p, s.Pending p → p < id) :
    Sound (s.replaceLatest k id).Pending (s.replaceLatest k id) := by
  have hlatest : ∀ k' p, Function.update s.latest k (some id) k' = some p →
      (.latest k',p) ∈ s.history.enqueued := by
    intro k' p hp
    by_cases hk : k' = k
    · subst hk
      rw [Function.update_self,Option.some.injEq] at hp
      exact hp ▸ henqueued
    · rw [Function.update_of_ne hk] at hp
      exact h.latest k' p hp
  have hpending : ∀ p, (s.replaceLatest k id).Pending p → p = id ∨ s.Pending p := by
    have hcases : ∀ p, (∃ k', Function.update s.latest k (some id) k' = some p) ∨
        (∃ q, p ∈ s.queue q) → p = id ∨ s.Pending p := by
      rintro p (⟨k',hp⟩ | hq)
      · by_cases hk : k' = k
        · subst hk
          rw [Function.update_self,Option.some.injEq] at hp
          exact .inl hp.symm
        · rw [Function.update_of_ne hk] at hp
          exact .inr (.inl ⟨k',hp⟩)
      · exact .inr (.inr hq)
    intro p hp
    refine hcases p ?_
    unfold Sender.replaceLatest at hp
    split at hp <;> exact hp
  have hremains : ∀ p, p = id ∨ s.Pending p → s.latest k ≠ some p →
      (s.replaceLatest k id).Pending p := by
    have hcases : ∀ p, p = id ∨ s.Pending p → s.latest k ≠ some p →
        (∃ k', Function.update s.latest k (some id) k' = some p) ∨ ∃ q, p ∈ s.queue q := by
      rintro p (rfl | ⟨k',hp⟩ | hq) hne
      · exact .inl ⟨k,Function.update_self ..⟩
      · refine .inl ⟨k',?_⟩
        by_cases hk : k' = k
        · exact absurd (hk ▸ hp) hne
        · rw [Function.update_of_ne hk]
          exact hp
      · exact .inr hq
    intro p hp hne
    have hslot := hcases p hp hne
    unfold Sender.replaceLatest
    split <;> exact hslot
  revert hpending hremains
  unfold Sender.replaceLatest
  split
  · next hnone =>
      intro hpending hremains
      refine ⟨fun p hp => h.fresh p (hpending p hp),h.once,?_,h.own,h.delivered,h.flight,
        h.settled,h.closers,h.replaced,hlatest⟩
      intro waiter hw
      exact (h.held waiter hw).imp_right fun ⟨p,hp,hmem⟩ =>
        ⟨p,hremains p hp (by simp [hnone]),hmem⟩
  · next current hcurrent =>
      intro hpending hremains
      have hlt : current < id := hnew current (.inl ⟨k,hcurrent⟩)
      have hgrows : ∀ e ∈ s.history.replaced, e ∈ s.history.replaced++[(current,id)] :=
        fun e he => List.mem_append_left _ he
      refine ⟨fun p hp => h.fresh p (hpending p hp),h.once,?_,?_,?_,h.flight,h.settled,h.closers,
        ?_,hlatest⟩
      · intro waiter hw
        refine (h.held waiter hw).imp_right ?_
        rintro ⟨p,hp,hmem⟩
        by_cases hsame : p = current
        · refine ⟨id,hremains id (.inl rfl) ?_,?_⟩
          · rw [hcurrent]
            exact fun heq => Nat.ne_of_lt hlt (Option.some.inj heq)
          · change waiter ∈ Function.update (Function.update s.waiters id _) current [] id
            rw [Function.update_of_ne (Nat.ne_of_gt hlt),Function.update_self]
            exact List.mem_append_left _ (hsame ▸ hmem)
        · refine ⟨p,hremains p hp ?_,?_⟩
          · rw [hcurrent]
            exact fun heq => hsame (Option.some.inj heq).symm
          · change waiter ∈ Function.update (Function.update s.waiters id _) current [] p
            rw [Function.update_of_ne hsame]
            by_cases hid : p = id
            · subst hid
              rw [Function.update_self]
              exact List.mem_append_right _ hmem
            · rw [Function.update_of_ne hid]
              exact hmem
      · intro p waiter hw
        change waiter ∈ Function.update (Function.update s.waiters id _) current [] p at hw
        by_cases hsame : p = current
        · rw [hsame,Function.update_self] at hw
          cases hw
        rw [Function.update_of_ne hsame] at hw
        by_cases hid : p = id
        · subst hid
          rw [Function.update_self] at hw
          have hstep : Replaces {s.history with replaced := s.history.replaced++[(current,p)]}
              current p := .single (by simp)
          rcases List.mem_append.mp hw with hw | hw
          · rcases h.own current waiter hw with rfl | hold
            · exact .inr hstep
            · exact .inr (Relation.TransGen.trans (hold.mono hgrows) hstep)
          · exact (h.own p waiter hw).imp_right fun hold => hold.mono hgrows
        · rw [Function.update_of_ne hid] at hw
          exact (h.own p waiter hw).imp_right fun hold => hold.mono hgrows
      · intro waiter hw
        obtain ⟨channel,p,hsent,hp⟩ := h.delivered waiter hw
        exact ⟨channel,p,hsent,hp.imp_right fun hold => hold.mono hgrows⟩
      · intro old new hr
        rcases List.mem_append.mp hr with hr | hr
        · exact h.replaced old new hr
        · cases List.mem_singleton.mp hr
          exact ⟨hlt,k,h.latest k current hcurrent,henqueued⟩

theorem update_queue_iff {queue : Queue → List ℕ} {q : Queue} {p : ℕ} :
    (∃ q', p ∈ Function.update queue q ids q') ↔ p ∈ ids ∨ ∃ q', q' ≠ q ∧ p ∈ queue q' := by
  constructor
  · rintro ⟨q',hp⟩
    by_cases hq : q' = q
    · subst hq
      rw [Function.update_self] at hp
      exact .inl hp
    · rw [Function.update_of_ne hq] at hp
      exact .inr ⟨q',hq,hp⟩
  · rintro (hp | ⟨q',hq,hp⟩)
    · exact ⟨q,by rwa [Function.update_self]⟩
    · exact ⟨q',by rwa [Function.update_of_ne hq]⟩

theorem pending_append (s : Sender) (q : Queue) (id p : ℕ) :
    (s.append q id).Pending p ↔ p = id ∨ s.Pending p := by
  have hqueue : (∃ q', p ∈ (s.append q id).queue q') ↔ p = id ∨ ∃ q', p ∈ s.queue q' := by
    unfold Sender.append
    rw [update_queue_iff,List.mem_append,List.mem_singleton]
    constructor
    · rintro ((hp | hp) | ⟨q',_,hp⟩)
      · exact .inr ⟨q,hp⟩
      · exact .inl hp
      · exact .inr ⟨q',hp⟩
    · rintro (hp | ⟨q',hp⟩)
      · exact .inl (.inr hp)
      · by_cases hq : q' = q
        · exact .inl (.inl (hq ▸ hp))
        · exact .inr ⟨q',hq,hp⟩
  unfold Sender.Pending
  rw [hqueue]
  exact or_left_comm

theorem Sound.append (h : Sound (fun p => p = id ∨ s.Pending p) s) (q : Queue) :
    Sound (s.append q id).Pending (s.append q id) :=
  (h.weaken fun p => (pending_append s q id p).symm).of_same rfl rfl rfl (fun _ _ _ hw => hw)
    h.closers (fun _ _ hk => hk)

theorem settled_applyQueueBackpressure (s : Sender) (limit : ℕ) (q : Queue) :
    Settled .failed ((s.queue q).take ((s.queue q).length-limit))
      {s with queue := Function.update s.queue q ((s.queue q).drop ((s.queue q).length-limit))}
      (s.applyQueueBackpressure limit q) :=
  settled_settleAll _ _ _

theorem queue_applyQueueBackpressure (s : Sender) (limit : ℕ) (q : Queue) :
    (s.applyQueueBackpressure limit q).queue =
      Function.update s.queue q ((s.queue q).drop ((s.queue q).length-limit)) := by
  rw [(settled_applyQueueBackpressure s limit q).rest]

theorem latest_applyQueueBackpressure (s : Sender) (limit : ℕ) (q : Queue) :
    (s.applyQueueBackpressure limit q).latest = s.latest := by
  rw [(settled_applyQueueBackpressure s limit q).rest]

theorem Sound.applyQueueBackpressure (h : Sound s.Pending s) (limit : ℕ) (q : Queue) :
    Sound (s.applyQueueBackpressure limit q).Pending (s.applyQueueBackpressure limit q) := by
  have hbetween : Sound s.Pending
      {s with queue := Function.update s.queue q ((s.queue q).drop ((s.queue q).length-limit))} :=
    h.of_same rfl rfl rfl (fun _ _ _ hw => hw) h.closers (fun _ _ hk => hk)
  refine hbetween.of_settled (settled_applyQueueBackpressure s limit q) (by simp) ?_ ?_
  · intro p hp htaken
    unfold Sender.Pending
    rw [latest_applyQueueBackpressure,queue_applyQueueBackpressure,update_queue_iff]
    refine hp.imp_right ?_
    rintro ⟨q',hp⟩
    by_cases hq : q' = q
    · subst hq
      rw [← List.take_append_drop ((s.queue q').length-limit) (s.queue q')] at hp
      exact .inl ((List.mem_append.mp hp).resolve_left htaken)
    · exact .inr ⟨q',hq,hp⟩
  · intro p hp
    unfold Sender.Pending at hp
    rw [latest_applyQueueBackpressure,queue_applyQueueBackpressure,update_queue_iff] at hp
    refine hp.imp_right ?_
    rintro (hp | ⟨q',_,hp⟩)
    · exact ⟨q,List.mem_of_mem_drop hp⟩
    · exact ⟨q',hp⟩

theorem start_eq (s : Sender) : s.start = {s with
    stopRequested := s.start.stopRequested
    workers := s.start.workers
    workerTask := s.start.workerTask
    nextWorker := s.start.nextWorker} := by
  unfold Sender.start
  split <;> rfl

theorem Sound.enqueue (h : Sound s.Pending s) (channel : Channel) (wait : Bool) :
    Sound (s.enqueue config channel wait).Pending (s.enqueue config channel wait) := by
  have hid : s.start.nextId = s.nextId := by rw [start_eq]
  have hpending : s.start.Pending = s.Pending := by
    rw [start_eq]
    rfl
  have hmade := h.start.create channel wait
  rw [hid] at hmade
  have hnew : ∀ p, s.Pending p → p < s.nextId := h.fresh
  have henqueued : (channel,s.nextId) ∈ (s.start.create channel wait).history.enqueued := by
    change _ ∈ s.start.history.enqueued++[(channel,s.start.nextId)]
    rw [hid]
    exact List.mem_append_right _ (List.mem_singleton_self _)
  have hsame : (s.start.create channel wait).Pending = s.Pending := hpending
  have hnow : Sound (fun p => p = s.nextId ∨ (s.start.create channel wait).Pending p)
      (s.start.create channel wait) := hsame ▸ hmade
  unfold Sender.enqueue
  cases channel with
  | latest k => exact hnow.replaceLatest henqueued (hsame ▸ hnew)
  | queue q => exact (hnow.append q).applyQueueBackpressure _ q

theorem removeSent_eq (s : Sender) (id : ℕ) (channel : Channel) :
    s.removeSent id channel = {s with
      latest := (s.removeSent id channel).latest
      queue := (s.removeSent id channel).queue} := by
  cases channel <;> simp only [Sender.removeSent] <;> split <;> rfl

variable {channel : Channel}

/-- What a send takes from the pending payloads is the payload that was sent. -/
theorem removeSent_latest (k : Latest) (p : ℕ) (h : (s.removeSent id channel).latest k = some p) :
    s.latest k = some p := by
  cases channel with
  | queue q =>
    simp only [Sender.removeSent] at h
    split at h <;> exact h
  | latest k' =>
    simp only [Sender.removeSent] at h
    split at h
    · change Function.update s.latest k' none k = _ at h
      by_cases hk : k = k'
      · rw [hk,Function.update_self] at h
        cases h
      · rw [Function.update_of_ne hk] at h
        exact h
    · exact h

theorem removeSent_queue (s : Sender) (id : ℕ) (channel : Channel) (q : Queue) :
    (s.removeSent id channel).queue q = s.queue q ∨
      channel = .queue q ∧ (s.queue q).head? = some id ∧
        (s.removeSent id channel).queue q = (s.queue q).tail := by
  cases channel with
  | latest k =>
    simp only [Sender.removeSent]
    split <;> exact .inl rfl
  | queue q' =>
    simp only [Sender.removeSent]
    split
    · next hhead =>
        by_cases hq : q = q'
        · subst hq
          exact .inr ⟨rfl,hhead,Function.update_self ..⟩
        · exact .inl (Function.update_of_ne hq ..)
    · exact .inl rfl

theorem pending_removeSent {p : ℕ} (hp : s.Pending p) (hne : p ≠ id) :
    (s.removeSent id channel).Pending p := by
  rcases hp with ⟨k,hp⟩ | ⟨q,hp⟩
  · refine .inl ⟨k,?_⟩
    cases channel with
    | queue q =>
      simp only [Sender.removeSent]
      split <;> exact hp
    | latest k' =>
      simp only [Sender.removeSent]
      split
      · next hlatest =>
          by_cases hk : k = k'
          · subst hk
            exact absurd (Option.some.inj (hp.symm.trans hlatest)) hne
          · change Function.update s.latest k' none k = _
            rw [Function.update_of_ne hk]
            exact hp
      · exact hp
  · refine .inr ⟨q,?_⟩
    rcases removeSent_queue s id channel q with hq | ⟨-,hhead,hq⟩
    · rwa [hq]
    · rw [hq]
      cases hs : s.queue q with
      | nil => simp [hs] at hp
      | cons first rest =>
        rw [hs] at hp hhead
        rcases List.mem_cons.mp hp with rfl | hp
        · exact absurd (Option.some.inj hhead) hne
        · exact hp

theorem Sound.consumeSent (h : Sound s.Pending s) (hsent : (channel,id) ∈ s.history.accepted) :
    Sound (s.consumeSent channel id).Pending (s.consumeSent channel id) := by
  have hbetween : Sound s.Pending (s.removeSent id channel) := by
    refine h.of_same ?_ ?_ ?_ ?_ ?_ removeSent_latest
    · rw [removeSent_eq]
    · rw [removeSent_eq]
    · rw [removeSent_eq]
    · rw [removeSent_eq]
      exact fun _ _ _ hw => hw
    · rw [removeSent_eq]
      exact h.closers
  have hhistory : (s.removeSent id channel).history = s.history := by rw [removeSent_eq]
  refine hbetween.of_settled (settled_settle .succeeded (s.removeSent id channel) id) ?_ ?_ ?_
  · intro _ p hp
    rw [List.mem_singleton.mp hp,hhistory]
    exact ⟨channel,hsent⟩
  · intro p hp hne
    exact pending_removeSent hp (by simpa using hne)
  · rintro p (⟨k,hp⟩ | ⟨q,hp⟩)
    · exact .inl ⟨k,removeSent_latest k p hp⟩
    · refine .inr ⟨q,?_⟩
      rcases removeSent_queue s id channel q with hq | ⟨-,-,hq⟩
      · exact hq ▸ hp
      · exact List.mem_of_mem_tail (hq ▸ hp)

/-- When a close comes to its end, every waiter is done. -/
theorem Sound.finishClose (h : Sound s.Pending s) {before : ℕ} (hbefore : before ≤ s.nextId) :
    Sound (s.finishClose before).Pending (s.finishClose before) := by
  have hsettled := settled_settleAll .failed s.pendings s
  have hdone : Sound (fun _ => False) (Sender.settleAll .failed s.pendings s) :=
    h.of_settled hsettled (by simp) (fun p hp hnot => hnot (mem_pendings.mpr hp))
      (fun _ hp => hp.elim)
  have hnone : ∀ p, ¬(s.finishClose before).Pending p := by
    rintro p (⟨k,hp⟩ | ⟨q,hp⟩)
    · cases hp
    · cases hp
  refine ⟨fun p hp => absurd hp (hnone p),hdone.once,?_,hdone.own,hdone.delivered,hdone.flight,
    ?_,hdone.closers,hdone.replaced,by simp [Sender.finishClose]⟩
  · intro waiter hw
    exact .inl ((hdone.held waiter hw).resolve_right fun ⟨_,hp,_⟩ => hp)
  · intro b hb
    rcases List.mem_append.mp hb with hb | hb
    · exact hdone.settled b hb
    · rw [List.mem_singleton.mp hb]
      refine ⟨?_,fun waiter hw _ => (hdone.held waiter hw).resolve_right fun ⟨_,hp,_⟩ => hp⟩
      change before ≤ (Sender.settleAll .failed s.pendings s).nextId
      rw [hsettled.rest]
      exact hbefore

theorem Sound.perform {a : Act} (h : Sound s.Pending s) (ht : s.perform config a = some t) :
    Sound t.Pending t := by
  cases does_of_perform ht with
  | enqueue channel wait => exact h.enqueue channel wait
  | abandon waiter =>
    obtain ⟨hgrows,-,honly⟩ := complete_spec .cancelled [waiter] s.history.done
    refine ⟨h.fresh,complete_nodup .cancelled _ h.once,?_,h.own,?_,h.flight,?_,h.closers,
      h.replaced,h.latest⟩
    · exact fun other hw => (h.held other hw).imp_left fun hd => isDone_mono hgrows hd
    · intro other hw
      rcases honly _ hw with hw | ⟨ho,-⟩
      · exact h.delivered other hw
      · cases ho
    · intro before hb
      obtain ⟨hle,hd⟩ := h.settled before hb
      exact ⟨hle,fun other hw hlt => isDone_mono hgrows (hd other hw hlt)⟩
  | move _ _ hnew => exact h.setWorker _ fun channel id heq => absurd rfl ((hnew _ heq).1 channel id)
  | idle => exact h
  | finish => exact h.endWorker _
  | @accept w channel id hw =>
    have hgrows : ∀ e ∈ s.history.accepted, e ∈ s.history.accepted++[(channel,id)] :=
      fun e he => List.mem_append_left _ he
    refine ⟨h.fresh,h.once,h.held,h.own,?_,?_,h.settled,h.closers,h.replaced,h.latest⟩
    · intro waiter hd
      obtain ⟨channel',id',hsent,hid⟩ := h.delivered waiter hd
      exact ⟨channel',id',hgrows _ hsent,hid⟩
    · intro w' channel' id' hw'
      change Function.update s.workers w _ w' = _ at hw'
      by_cases hsame : w' = w
      · subst hsame
        rw [Function.update_self] at hw'
        cases hw'
        exact List.mem_append_right _ (List.mem_singleton_self _)
      · rw [Function.update_of_ne hsame] at hw'
        exact hgrows _ (h.flight w' channel' id' hw')
  | sent hw => exact (h.consumeSent (h.flight _ _ _ hw)).setWorker _ (by simp)
  | close c =>
    have hstop : Sound s.Pending {s with stopRequested := true} :=
      h.of_same rfl rfl rfl (fun _ _ _ hw => hw) h.closers (fun _ _ hk => hk)
    exact Sound.finishClose hstop (Nat.le_refl _)
  | wait c w =>
    refine h.of_same rfl rfl rfl (fun _ _ _ hw => hw) ?_ (fun _ _ hk => hk)
    intro c' before w' hc
    change Function.update s.closers c _ c' = _ at hc
    by_cases hsame : c' = c
    · subst hsame
      rw [Function.update_self] at hc
      cases hc
      exact Nat.le_refl _
    · rw [Function.update_of_ne hsame] at hc
      exact h.closers c' before w' hc
  | resume hc => exact Sound.finishClose (h.forgetCloser _) (h.closers _ _ _ hc)
  | failClose => exact h.forgetCloser _

end Soundness

section Effects

variable {config : Config} {s t : Sender} {a : Act} {w : ℕ} {worker : Worker}

theorem place_frame (config : Config) (s : Sender) (id : ℕ) (channel : Channel) :
    (s.place config id channel).nextId = s.nextId ∧
      (s.place config id channel).workers = s.workers ∧
      (s.place config id channel).workerTask = s.workerTask ∧
      (s.place config id channel).history.accepted = s.history.accepted := by
  cases channel with
  | latest k =>
    simp only [Sender.place,Sender.replaceLatest]
    split <;> exact ⟨rfl,rfl,rfl,rfl⟩
  | queue q =>
    simp only [Sender.place]
    rw [(settled_applyQueueBackpressure (s.append q id) (config.limit q) q).rest]
    exact ⟨rfl,rfl,rfl,rfl⟩

theorem replaceLatest_queue (s : Sender) (k : Latest) (id : ℕ) :
    (s.replaceLatest k id).queue = s.queue := by
  unfold Sender.replaceLatest
  split <;> rfl

theorem consumeSent_eq (s : Sender) (channel : Channel) (id : ℕ) :
    s.consumeSent channel id = {s with
      waiters := (s.consumeSent channel id).waiters
      latest := (s.removeSent id channel).latest
      queue := (s.removeSent id channel).queue
      history := {s.history with done := (s.consumeSent channel id).history.done}} := by
  unfold Sender.consumeSent Sender.settle
  rw [removeSent_eq]

theorem finishClose_eq (s : Sender) (before : ℕ) : s.finishClose before = {s with
    waiters := (s.finishClose before).waiters
    latest := fun _ => none
    queue := fun _ => []
    history := {s.history with
      done := (s.finishClose before).history.done
      closed := s.history.closed++[before]}} := by
  have h := (settled_settleAll .failed s.pendings s).rest
  unfold Sender.finishClose
  rw [h]

theorem queue_perform (ht : s.perform config a = some t) (q : Queue) :
    t.queue q = s.queue q ∨
    (∃ w id, a = .sent w ∧ s.workers w = some (.sending (.queue q) id true) ∧
      (s.queue q).head? = some id ∧ t.queue q = (s.queue q).tail) ∨
    (∃ wait, a = .enqueue (.queue q) wait ∧ t.queue q = (s.queue q++[s.nextId]).drop
      ((s.queue q).length+1-config.limit q)) ∨
    t.queue q = [] ∧ ∃ before, t.history.closed = s.history.closed++[before] := by
  have hfinish : ∀ (u : Sender) before, u.history.closed = s.history.closed →
      (u.finishClose before).queue q = [] ∧
        ∃ b, (u.finishClose before).history.closed = s.history.closed++[b] := by
    intro u before hu
    rw [finishClose_eq]
    exact ⟨rfl,before,by rw [← hu]⟩
  cases does_of_perform ht with
  | enqueue channel wait =>
    have hstart : s.start.queue = s.queue := by rw [start_eq]
    cases channel with
    | latest k =>
      refine .inl ?_
      change ((s.start.create (.latest k) wait).replaceLatest k s.nextId).queue q = _
      rw [replaceLatest_queue]
      exact congrFun hstart q
    | queue q' =>
      change (Sender.applyQueueBackpressure _ (config.limit q') q').queue q = _ ∨ _
      by_cases hq : q = q'
      · subst hq
        refine .inr (.inr (.inl ⟨wait,rfl,?_⟩))
        change (Sender.applyQueueBackpressure _ (config.limit q) q).queue q = _
        rw [queue_applyQueueBackpressure,Function.update_self]
        have happend : ((s.start.create (.queue q) wait).append q s.nextId).queue q =
            s.queue q++[s.nextId] := by
          change Function.update s.start.queue q (s.start.queue q++[s.nextId]) q = _
          rw [Function.update_self,hstart]
        rw [happend,List.length_append,List.length_singleton]
      · refine .inl ?_
        rw [queue_applyQueueBackpressure,Function.update_of_ne hq]
        change Function.update s.start.queue q' _ q = _
        rw [Function.update_of_ne hq,hstart]
  | @sent w channel id hw =>
    change (s.consumeSent channel id).queue q = _ ∨ _
    rw [consumeSent_eq]
    rcases removeSent_queue s id channel q with hq | ⟨hchannel,hhead,hq⟩
    · exact .inl hq
    · refine .inr (.inl ⟨w,id,rfl,hchannel ▸ hw,hhead,?_⟩)
      change (s.consumeSent channel id).queue q = _
      rw [consumeSent_eq]
      exact hq
  | close c => exact .inr (.inr (.inr (hfinish {s with stopRequested := true} _ rfl)))
  | @resume c _ _ hc =>
    exact .inr (.inr (.inr (hfinish {s with
      workerTask := none
      closers := Function.update s.closers c none} _ rfl)))
  | abandon | move | idle | finish | accept | wait | failClose => exact .inl rfl

theorem latest_enqueue (config : Config) (s : Sender) (k : Latest) (wait : Bool) :
    (s.enqueue config (.latest k) wait).latest = Function.update s.latest k (some s.nextId) ∧
      (s.enqueue config (.latest k) wait).nextId = s.nextId+1 := by
  have hstart : s.start.latest = s.latest := by rw [start_eq]
  refine ⟨?_,?_⟩
  · rw [← hstart]
    change Sender.latest (Sender.replaceLatest _ k s.nextId) = _
    unfold Sender.replaceLatest
    split <;> rfl
  · rw [Sender.enqueue,(place_frame ..).1,start_eq]
    rfl

theorem latest_perform (ht : s.perform config a = some t) (k : Latest) :
    t.latest k = s.latest k ∨ (∃ wait, a = .enqueue (.latest k) wait) ∨
    (∃ w id, a = .sent w ∧ s.workers w = some (.sending (.latest k) id true) ∧
      s.latest k = some id) ∨
    (∃ c, a = .close c ∧ s.workerTask = none) ∨ ∃ c, a = .resume c := by
  cases does_of_perform ht with
  | enqueue channel wait =>
    cases channel with
    | queue q =>
      refine .inl ?_
      change (Sender.applyQueueBackpressure _ _ q).latest k = _
      rw [latest_applyQueueBackpressure]
      change s.start.latest k = _
      rw [start_eq]
    | latest k' =>
      by_cases hk : k = k'
      · subst hk
        exact .inr (.inl ⟨wait,rfl⟩)
      · rw [(latest_enqueue config s k' wait).1]
        exact .inl (Function.update_of_ne hk ..)
  | @sent w channel id hw =>
    have hlatest : ((s.consumeSent channel id).setWorker w (some .looking)).latest k =
        (s.removeSent id channel).latest k := by
      change (s.consumeSent channel id).latest k = _
      rw [consumeSent_eq]
    rw [hlatest]
    cases channel with
    | queue q =>
      simp only [Sender.removeSent]
      split <;> exact .inl rfl
    | latest k' =>
      simp only [Sender.removeSent]
      split
      · next hpending =>
          by_cases hk : k = k'
          · subst hk
            exact .inr (.inr (.inl ⟨w,id,rfl,hw,hpending⟩))
          · exact .inl (Function.update_of_ne hk ..)
      · exact .inl rfl
  | close c htask => exact .inr (.inr (.inr (.inl ⟨c,rfl,htask⟩)))
  | resume => exact .inr (.inr (.inr (.inr ⟨_,rfl⟩)))
  | abandon | move | idle | finish | accept | wait | failClose => exact .inl rfl

theorem bounded_perform (h : ∀ q, (s.queue q).length ≤ config.limit q)
    (ht : s.perform config a = some t) (q : Queue) : (t.queue q).length ≤ config.limit q := by
  have hq := h q
  rcases queue_perform ht q with heq | ⟨-,-,-,-,-,heq⟩ | ⟨-,-,heq⟩ | ⟨heq,-⟩
  · rw [heq]
    exact hq
  · rw [heq,List.length_tail]
    omega
  · rw [heq,List.length_drop,List.length_append,List.length_singleton]
    omega
  · rw [heq]
    exact Nat.zero_le _

theorem leaves (config : Config) (s : Sender) (a : Act) : Leaves config s a := by
  intro t ht q id hmem hgone
  rcases queue_perform ht q with heq | ⟨w,head,rfl,hw,hhead,heq⟩ | ⟨wait,rfl,heq⟩ | ⟨-,hclosed⟩
  · exact absurd (heq ▸ hmem) hgone
  · refine .inl ⟨w,rfl,?_⟩
    cases hs : s.queue q with
    | nil => simp [hs] at hmem
    | cons first rest =>
      rw [hs] at hmem hhead heq
      rcases List.mem_cons.mp hmem with rfl | hmem
      · cases hhead
        exact hw
      · exact absurd (heq ▸ hmem) hgone
  · refine .inr (.inl ⟨wait,rfl,?_⟩)
    by_contra htaken
    refine hgone ?_
    rw [heq,List.drop_append]
    refine List.mem_append_left _ ?_
    rw [← List.take_append_drop ((s.queue q).length+1-config.limit q) (s.queue q)] at hmem
    exact (List.mem_append.mp hmem).resolve_left htaken
  · exact .inr (.inr hclosed)

theorem update_workers {w' : ℕ} {new : Option Worker}
    (h : (s.setWorker w new).workers w' = some worker) :
    (w' = w ∧ new = some worker) ∨ s.workers w' = some worker := by
  change Function.update s.workers w new w' = _ at h
  by_cases hsame : w' = w
  · subst hsame
    rw [Function.update_self] at h
    exact .inl ⟨rfl,h⟩
  · rw [Function.update_of_ne hsame] at h
    exact .inr h

theorem start_workers (h : s.start.workers w = some worker) :
    worker = .created ∨ s.workers w = some worker := by
  unfold Sender.start at h
  split at h
  · exact .inr h
  · rcases update_workers (s := s) h with ⟨-,h⟩ | h
    · exact .inl (Option.some.inj h).symm
    · exact .inr h

/-- A payload that a worker has is one that it had or the first of the pending ones. -/
theorem held_perform (ht : s.perform config a = some t) {channel : Channel} {id : ℕ}
    (hw : t.workers w = some worker) (hheld : worker.held = some (channel,id)) :
    (∃ old, s.workers w = some old ∧ old.held = some (channel,id)) ∨
      s.peekPending = some (channel,id) := by
  have hkept : s.workers w = some worker →
      ∃ old, s.workers w = some old ∧ old.held = some (channel,id) := fun hw => ⟨worker,hw,hheld⟩
  cases does_of_perform ht with
  | enqueue channel' wait =>
    rw [Sender.enqueue,(place_frame ..).2.1] at hw
    rcases start_workers hw with rfl | hw
    · cases hheld
    · exact .inl (hkept hw)
  | @move w' old new _ hold hnew =>
    rcases update_workers hw with ⟨rfl,hother⟩ | hw
    · exact ((hnew worker hother).2 _ hheld).imp_left fun hhad => ⟨old,hold,hhad⟩
    · exact .inl (hkept hw)
  | @finish w' old _ hold =>
    rcases update_workers (s := s) hw with ⟨-,hother⟩ | hw
    · cases hother
    · exact .inl (hkept hw)
  | accept hold =>
    rcases update_workers (s := s) hw with ⟨rfl,hother⟩ | hw
    · cases hother
      exact .inl ⟨_,hold,hheld⟩
    · exact .inl (hkept hw)
  | sent =>
    rcases update_workers hw with ⟨-,hother⟩ | hw
    · cases hother
      cases hheld
    · rw [consumeSent_eq] at hw
      exact .inl (hkept hw)
  | close | resume =>
    rw [finishClose_eq] at hw
    exact .inl (hkept hw)
  | abandon | idle | wait | failClose => exact .inl (hkept hw)

/-- What the transport accepted, and what the next payload is numbered. -/
theorem accepted_perform (ht : s.perform config a = some t) :
    s.nextId ≤ t.nextId ∧ (t.history.accepted = s.history.accepted ∨
      ∃ w channel id, a = .accept w ∧ s.workers w = some (.sending channel id false) ∧
        t.history.accepted = s.history.accepted++[(channel,id)]) := by
  cases does_of_perform ht with
  | enqueue channel wait =>
    obtain ⟨hid,-,-,haccepted⟩ :=
      place_frame config (s.start.create channel wait) s.nextId channel
    rw [Sender.enqueue,hid,haccepted,start_eq]
    exact ⟨Nat.le_succ _,.inl rfl⟩
  | accept hw => exact ⟨Nat.le_refl _,.inr ⟨_,_,_,rfl,hw,rfl⟩⟩
  | sent =>
    rw [consumeSent_eq]
    exact ⟨Nat.le_refl _,.inl rfl⟩
  | close | resume =>
    rw [finishClose_eq]
    exact ⟨Nat.le_refl _,.inl rfl⟩
  | abandon | move | idle | finish | wait | failClose => exact ⟨Nat.le_refl _,.inl rfl⟩

/-- No worker but the one of the worker task is at work. -/
def Single (s : Sender) : Prop := ∀ w worker, s.workers w = some worker → s.workerTask = some w

theorem Single.setWorker {old : Worker} (h : Single s) (hold : s.workers w = some old)
    (new : Option Worker) : Single (s.setWorker w new) := by
  intro w' worker hw
  rcases update_workers hw with ⟨rfl,-⟩ | hw
  · exact h w' old hold
  · exact h w' worker hw

theorem Single.endWorker {old : Worker} (h : Single s) (hold : s.workers w = some old) :
    Single (s.endWorker w) := by
  intro w' worker hw
  rcases update_workers (s := s) hw with ⟨-,hnone⟩ | hw'
  · cases hnone
  · have heq : w' = w := Option.some.inj ((h w' worker hw').symm.trans (h w old hold))
    subst heq
    change Function.update s.workers w' none w' = _ at hw
    rw [Function.update_self] at hw
    cases hw

theorem Single.start (h : Single s) : Single s.start := by
  unfold Sender.start
  split
  · exact h
  · next hnone =>
      intro w worker hw
      rcases update_workers (s := s) hw with ⟨rfl,-⟩ | hw
      · rfl
      · rw [h w worker hw,Option.bind_some,hw] at hnone
        cases hnone

theorem single_perform (h : Single s) (hr : Remembers s a) (ht : s.perform config a = some t) :
    Single t := by
  have hforget : ∀ {c before w}, s.closers c = some (before,w) →
      (∀ w', s.workerTask = some w' → s.workers w' = none) →
      ∀ w' worker, s.workers w' ≠ some worker := by
    intro c before w _ hnone w' worker hw
    rw [hnone w' (h w' worker hw)] at hw
    cases hw
  cases does_of_perform ht with
  | enqueue channel wait =>
    obtain ⟨-,hworkers,htask,-⟩ :=
      place_frame config (s.start.create channel wait) s.nextId channel
    unfold Single Sender.enqueue
    rw [hworkers,htask]
    exact h.start
  | move _ hold | accept hold => exact h.setWorker hold _
  | finish _ hold => exact h.endWorker hold
  | @sent w channel id hold =>
    have hconsumed : Single (s.consumeSent channel id) := by
      rw [consumeSent_eq]
      exact h
    have hkept : (s.consumeSent channel id).workers w = some (.sending channel id true) := by
      rw [consumeSent_eq]
      exact hold
    exact hconsumed.setWorker hkept _
  | close =>
    rw [finishClose_eq]
    exact h
  | resume hc =>
    rw [finishClose_eq]
    exact fun w' worker hw => absurd hw (hforget hc (hr _ _ hc) w' worker)
  | failClose hc => exact fun w' worker hw => absurd hw (hforget hc (hr _ _ hc) w' worker)
  | abandon | idle | wait => exact h

end Effects

section Order

variable {config : Config} {s t : Sender} {a : Act}

/-- What was sent of a queue, what a worker has of it and what stands in it, in this order. -/
structure Ordered (s : Sender) : Prop where
  single : Single s
  line : ∀ q, (sentOn s q++s.queue q).Pairwise (· ≤ ·)
  fresh : ∀ q, ∀ p ∈ sentOn s q++s.queue q, p < s.nextId
  held : ∀ w worker q id, s.workers w = some worker → worker.held = some (.queue q,id) →
    id < s.nextId ∧ (∀ p ∈ sentOn s q, p ≤ id) ∧ ∀ p ∈ s.queue q, id ≤ p

theorem Ordered.inOrder (h : Ordered s) : InOrder s :=
  fun q => (List.pairwise_append.mp (h.line q)).1

theorem peekPending_queue {q : Queue} {id : ℕ} (h : s.peekPending = some (.queue q,id)) :
    ∃ rest, s.queue q = id::rest := by
  unfold Sender.peekPending at h
  split at h
  · cases h
  · split at h
    · cases h
    · split at h
      · next rest hq =>
          cases h
          exact ⟨rest,hq⟩
      · obtain ⟨first,hfirst,heq⟩ := Option.map_eq_some_iff.mp h
        cases heq
        exact List.head?_eq_some_iff.mp hfirst

theorem queue_sublist (ht : s.perform config a = some t) (q : Queue) :
    (t.queue q).Sublist (s.queue q) ∨
      (t.queue q).Sublist (s.queue q++[s.nextId]) ∧ s.nextId < t.nextId := by
  rcases queue_perform ht q with heq | ⟨-,-,-,-,-,heq⟩ | ⟨wait,rfl,heq⟩ | ⟨heq,-⟩
  · exact .inl (heq ▸ List.Sublist.refl _)
  · exact .inl (heq ▸ List.tail_sublist _)
  · refine .inr ⟨heq ▸ List.drop_sublist _ _,?_⟩
    cases ht
    rw [Sender.enqueue,(place_frame ..).1,start_eq]
    exact Nat.lt_succ_self _
  · exact .inl (heq ▸ List.nil_sublist _)

theorem Ordered.queue_new (h : Ordered s) (ht : s.perform config a = some t) {q : Queue} {p : ℕ}
    (hp : p ∈ t.queue q) : p < t.nextId ∧ (p ∈ s.queue q ∨ p = s.nextId) := by
  have hle := (accepted_perform ht).1
  have hold : ∀ p ∈ s.queue q, p < t.nextId :=
    fun p hp => (h.fresh q p (List.mem_append_right _ hp)).trans_le hle
  rcases queue_sublist ht q with hsub | ⟨hsub,hlt⟩
  · exact ⟨hold p (hsub.subset hp),.inl (hsub.subset hp)⟩
  · rcases List.mem_append.mp (hsub.subset hp) with hp | hp
    · exact ⟨hold p hp,.inl hp⟩
    · rw [List.mem_singleton.mp hp]
      exact ⟨hlt,.inr rfl⟩

theorem Ordered.queue_sorted (h : Ordered s) (ht : s.perform config a = some t) (q : Queue) :
    (t.queue q).Pairwise (· ≤ ·) := by
  have hold := (List.pairwise_append.mp (h.line q)).2.1
  rcases queue_sublist ht q with hsub | ⟨hsub,-⟩
  · exact hold.sublist hsub
  · refine List.Pairwise.sublist hsub (List.pairwise_append.mpr ⟨hold,by simp,?_⟩)
    intro p hp p' hp'
    rw [List.mem_singleton.mp hp']
    exact (h.fresh q p (List.mem_append_right _ hp)).le

/-- A payload that a worker takes comes after what was sent and before what stays queued. -/
theorem Ordered.held_next (h : Ordered s) (ht : s.perform config a = some t) {w : ℕ}
    {worker : Worker} {q : Queue} {id : ℕ} (hw : t.workers w = some worker)
    (hhas : worker.held = some (.queue q,id)) :
    id < s.nextId ∧ (∀ p ∈ sentOn s q, p ≤ id) ∧ ∀ p ∈ t.queue q, id ≤ p := by
  have hbefore : id < s.nextId ∧ (∀ p ∈ sentOn s q, p ≤ id) ∧ ∀ p ∈ s.queue q, id ≤ p := by
    rcases held_perform ht hw hhas with ⟨old,hold,hhad⟩ | hpeek
    · exact h.held w old q id hold hhad
    · obtain ⟨rest,hrest⟩ := peekPending_queue hpeek
      have hline := List.pairwise_append.mp (h.line q)
      rw [hrest] at hline ⊢
      refine ⟨h.fresh q id (by simp [hrest]),fun p hp => hline.2.2 p hp id List.mem_cons_self,?_⟩
      intro p hp
      rcases List.mem_cons.mp hp with rfl | hp
      · exact Nat.le_refl _
      · exact (List.pairwise_cons.mp hline.2.1).1 p hp
  obtain ⟨hlt,hsent,hall⟩ := hbefore
  refine ⟨hlt,hsent,?_⟩
  intro p hp
  rcases (h.queue_new ht hp).2 with hold | rfl
  · exact hall p hold
  · exact hlt.le

theorem Ordered.of_sent (h : Ordered s) (ht : s.perform config a = some t) (hsingle : Single t)
    (haccepted : t.history.accepted = s.history.accepted) : Ordered t := by
  have hle := (accepted_perform ht).1
  have hsent : ∀ q, sentOn t q = sentOn s q := fun q => by rw [sentOn,haccepted,sentOn]
  refine ⟨hsingle,?_,?_,?_⟩
  · intro q
    rw [hsent,List.pairwise_append]
    have hline := List.pairwise_append.mp (h.line q)
    refine ⟨hline.1,h.queue_sorted ht q,?_⟩
    intro p hp p' hp'
    rcases (h.queue_new ht hp').2 with hold | rfl
    · exact hline.2.2 p hp p' hold
    · exact (h.fresh q p (List.mem_append_left _ hp)).le
  · intro q p hp
    rw [hsent] at hp
    rcases List.mem_append.mp hp with hp | hp
    · exact (h.fresh q p (List.mem_append_left _ hp)).trans_le hle
    · exact (h.queue_new ht hp).1
  · intro w worker q id hw hhas
    obtain ⟨hlt,hbefore,hall⟩ := h.held_next ht hw hhas
    exact ⟨hlt.trans_le hle,hsent q ▸ hbefore,hall⟩

/-- The only worker sends the first of what is left. -/
theorem Ordered.accept (h : Ordered s) {w id : ℕ} {channel : Channel}
    (hw : s.workers w = some (.sending channel id false))
    (ht : s.perform config (.accept w) = some t) (hsingle : Single t) : Ordered t := by
  have hnext : ∀ w' worker q id', t.workers w' = some worker →
      worker.held = some (.queue q,id') →
      id' < s.nextId ∧ (∀ p ∈ sentOn s q, p ≤ id') ∧ ∀ p ∈ t.queue q, id' ≤ p :=
    fun _ _ _ _ hw' hhas => h.held_next ht hw' hhas
  simp only [Sender.perform,hw] at ht
  cases ht
  have hsent : ∀ q, sentOn {s.setWorker w (some (.sending channel id true)) with
      history := {s.history with accepted := s.history.accepted++[(channel,id)]}} q =
      sentOn s q++(if channel = .queue q then [id] else []) := by
    intro q
    simp only [sentOn,List.filterMap_append]
    by_cases hchannel : channel = .queue q <;> simp [hchannel]
  have hown : ∀ q, channel = .queue q → id < s.nextId ∧ (∀ p ∈ sentOn s q, p ≤ id) ∧
      ∀ p ∈ s.queue q, id ≤ p :=
    fun q hq => h.held w _ q id hw (by rw [Worker.held,hq])
  refine ⟨hsingle,?_,?_,?_⟩
  · intro q
    rw [hsent]
    have hline := List.pairwise_append.mp (h.line q)
    by_cases hq : channel = .queue q
    · obtain ⟨-,hbefore,hall⟩ := hown q hq
      rw [if_pos hq,List.append_assoc,List.pairwise_append]
      refine ⟨hline.1,List.pairwise_cons.mpr ⟨hall,hline.2.1⟩,?_⟩
      intro p hp p' hp'
      rcases List.mem_cons.mp hp' with rfl | hp'
      · exact hbefore p hp
      · exact hline.2.2 p hp p' hp'
    · rw [if_neg hq,List.append_nil]
      exact h.line q
  · intro q p hp
    rw [hsent] at hp
    by_cases hq : channel = .queue q
    · rw [if_pos hq,List.append_assoc] at hp
      rcases List.mem_append.mp hp with hp | hp
      · exact h.fresh q p (List.mem_append_left _ hp)
      · rcases List.mem_cons.mp hp with rfl | hp
        · exact (hown q hq).1
        · exact h.fresh q p (List.mem_append_right _ hp)
    · rw [if_neg hq,List.append_nil] at hp
      exact h.fresh q p hp
  · intro w' worker q id' hw' hhas
    obtain ⟨hlt,hbefore,hall⟩ := hnext w' worker q id' hw' hhas
    refine ⟨hlt,?_,hall⟩
    have hsame : w' = w := Option.some.inj
      ((hsingle w' worker hw').symm.trans (h.single w _ hw))
    subst hsame
    change Function.update s.workers w' _ w' = _ at hw'
    rw [Function.update_self] at hw'
    cases hw'
    cases hhas
    intro p hp
    rw [hsent,if_pos rfl] at hp
    rcases List.mem_append.mp hp with hp | hp
    · exact hbefore p hp
    · exact (List.mem_singleton.mp hp).le

theorem Ordered.perform (h : Ordered s) (hr : Remembers s a) (ht : s.perform config a = some t) :
    Ordered t := by
  have hsingle := single_perform h.single hr ht
  rcases (accepted_perform ht).2 with haccepted | ⟨w,channel,id,rfl,hw,-⟩
  · exact h.of_sent ht hsingle haccepted
  · exact h.accept hw ht hsingle

end Order

section Runs

variable {config : Config}

/-- A sender in which all is well but the order. -/
structure Settling (config : Config) (s : Sender) : Prop where
  sound : Sound s.Pending s
  bounded : ∀ q, (s.queue q).length ≤ config.limit q

theorem Settling.truthful {s : Sender} (h : Settling config s) : Truthful config s where
  once := h.sound.once
  settled := fun before hb waiter hw hlt => (h.sound.settled before hb).2 waiter hw hlt
  accepted := h.sound.delivered
  replaced := h.sound.replaced
  bounded := h.bounded

theorem Settling.perform {s t : Sender} {a : Act} (h : Settling config s)
    (ht : s.perform config a = some t) : Settling config t :=
  ⟨h.sound.perform ht,bounded_perform h.bounded ht⟩

theorem settling_init (config : Config) : Settling config {} := by
  have hpending : ∀ p, ¬Sender.Pending {} p := by
    rintro p (⟨k,hp⟩ | ⟨q,hp⟩) <;> cases hp
  refine ⟨⟨fun p hp => absurd hp (hpending p),?_,?_,?_,?_,?_,?_,?_,?_,?_⟩,?_⟩ <;> simp

theorem ordered_init : Ordered {} := by
  refine ⟨?_,?_,?_,?_⟩ <;> simp [Single,sentOn]

/-- What a sender reports is true in every state. -/
theorem truthful_run (config : Config) (acts : List Act) :
    Throughout (Sender.perform config) (Truthful config) {} acts :=
  throughout_of_invariant (fun _ _ _ h ht => Settling.perform h ht) (fun _ h => h.truthful)
    (settling_init config) acts

/-- The payloads are sent in order too, as long as no close forgets a worker. -/
theorem truthful_in_order (config : Config) (acts : List Act)
    (h : EachStep (Sender.perform config) Remembers {} acts) :
    Throughout (Sender.perform config) (fun s => Truthful config s ∧ InOrder s) {} acts ∧
      EachStep (Sender.perform config) (Leaves config) {} acts := by
  refine ⟨?_,eachStep_of_mem (fun act _ s => leaves config s act) {}⟩
  refine throughout_of_eachStep (J := fun s => Settling config s ∧ Ordered s) h ?_ ?_
    ⟨settling_init config,ordered_init⟩
  · rintro s a t ⟨hs,ho⟩ ht hr
    exact ⟨hs.perform ht,ho.perform hr ht⟩
  · exact fun s hs => ⟨hs.1.truthful,hs.2.inOrder⟩

end Runs

section Example

def usual : Config where
  maxPendingMetricBatches := 120
  maxPendingEvents := 1000
  eventBatchSize := 100

def remembers (s : Sender) : Act → Bool
  | .resume _ | .failClose _ => (s.workerTask.bind s.workers).isNone
  | _ => true

theorem remembers_sound (s : Sender) (a : Act) (h : remembers s a = true) : Remembers s a := by
  cases a with
  | resume c | failClose c =>
    intro before w _ w' hw'
    simpa [remembers,hw'] using h
  | _ => trivial

def sendOne (w : ℕ) : List Act := [.peek w,.connect w true,.accept w,.sent w]

/-- Two metric batches are sent, and a close waits for the worker to end. -/
def flushed : List Act :=
  [.enqueue (.queue .metrics) true,.enqueue (.queue .metrics) true,.close 0,.begin 0]++
    sendOne 0++sendOne 0++[.peek 0,.resume 0]

/-- Both batches arrive in order. -/
theorem truthful_flushed :
    ((runs (Sender.perform usual) (fun _ _ => true) {} flushed).map fun s =>
      (sentOn s .metrics,s.history.done)) = some ([0,1],[(0,.succeeded),(1,.succeeded)]) ∧
    Throughout (Sender.perform usual) (fun s => Truthful usual s ∧ InOrder s) {} flushed ∧
      EachStep (Sender.perform usual) (Leaves usual) {} flushed :=
  ⟨by decide,truthful_in_order usual flushed (eachStep_of_checks remembers_sound (by decide))⟩

/-- A batch enqueued between the end of the worker and the end of the close starts a worker that
the close forgets; the next batch starts another, and the first repeats what the other sent. -/
def overtaking : List Act :=
  [.enqueue (.queue .metrics) false,.close 0,.begin 0]++sendOne 0++
    [.peek 0,.enqueue (.queue .metrics) false,.resume 0,
      .enqueue (.queue .metrics) false,.enqueue (.queue .metrics) false,.begin 1,.peek 1,.begin 2]++
    sendOne 2++sendOne 2++[.connect 1 true,.accept 1]

/-- The first batch arrives after later ones. -/
theorem overtaking_disorders :
    ¬(Throughout (Sender.perform usual) (fun s => Truthful usual s ∧ InOrder s) {} overtaking ∧
      EachStep (Sender.perform usual) (Leaves usual) {} overtaking) := by
  rintro ⟨hall,-⟩
  have hsent : ((runs (Sender.perform usual) (fun _ _ => true) {} overtaking).map fun s =>
      sentOn s .metrics) = some [0,2,3,2] := by decide
  obtain ⟨s,hs,hline⟩ := Option.map_eq_some_iff.mp hsent
  have horder := (hall.last hs).2 .metrics
  rw [hline] at horder
  exact absurd horder (by decide)

end Example

end OneStep.TelemetrySender
