import OneStep.Transition
import Mathlib.Tactic

/-!
# Settlements sent in batches

SQS deletes and Cloudflare acknowledgements are staged in a list and sent by
whoever flushes it: a settlement that fills the batch, the timer, or close. The
flush runs under a lock, a request at a time, and when one fails the list is kept.
An ack may then raise with its own entry still staged, and nothing takes the entry
out when the delivery is retried; a later flush sends it. Where no retry finds its
delivery staged, retried deliveries are never acknowledged afterwards.

Deliveries are told apart by their receipt handle or lease id. The calls on one
delivery come one after the other, and none of them follows its retry.
-/
namespace OneStep.BatchedSettlements
open Transition

/-- Who flushes: the settlement of a delivery, or the timer, close and the like. -/
inductive Caller where
  | settlement (m : ℕ)
  | flusher
  deriving DecidableEq

section SQS

inductive OnFail where
  | leave | release | delete
  deriving DecidableEq

/-- `flushAlways` stands for an interval that is not positive. -/
structure SQSSettings where
  deleteBatchSize : ℕ
  flushAlways : Bool
  onFail : OnFail
  sized : 1 ≤ deleteBatchSize ∧ deleteBatchSize ≤ 10

structure DeleteEntry where
  id : ℕ
  receiptHandle : ℕ
  deriving DecidableEq

/-- The flush under way, with the entries of its request when one is on its way. -/
structure SQSFlush where
  caller : Caller
  entries : Option (List DeleteEntry)
  deriving DecidableEq

/-- `retried` are the deliveries whose `retry` has returned. -/
structure SQSQueue where
  pendingDelete : List DeleteEntry := []
  deleteCounter : ℕ := 0
  flush : Option SQSFlush := none
  retried : List ℕ := []

/-- A response with the ids that failed, or an error or cancellation in its place. -/
inductive SQSResponse where
  | answered (failedIds : List ℕ)
  | raised

inductive SQSOp where
  | ack (m : ℕ)
  | fail (m : ℕ)
  | retry (m : ℕ) (ok : Bool)
  | releaseUnstarted (m : ℕ) (ok : Bool)
  | flushDeletes
  | request
  | respond (r : SQSResponse)

/-- What was done in which state, and the handles of the request that was sent. -/
structure SQSEvent where
  before : SQSQueue
  op : SQSOp
  deleted : List ℕ

variable (s : SQSSettings)

/-- `stage_delete`, once it has the lock. -/
def SQSQueue.stageDelete (q : SQSQueue) (m : ℕ) : SQSQueue :=
  let pending := q.pendingDelete++[⟨q.deleteCounter+1,m⟩]
  {q with
    pendingDelete := pending
    deleteCounter := q.deleteCounter+1
    flush := if s.deleteBatchSize ≤ pending.length ∨ s.flushAlways then
      some ⟨.settlement m,none⟩ else none}

/-- One turn of the loop of `_flush_locked` up to the request. -/
def SQSQueue.request (q : SQSQueue) (caller : Caller) : List ℕ × SQSQueue :=
  if q.pendingDelete.isEmpty then ([],{q with flush := none})
  else
    let entries := q.pendingDelete.take (min 10 s.deleteBatchSize)
    (entries.map DeleteEntry.receiptHandle,{q with flush := some ⟨caller,some entries⟩})

/-- The rest of the turn; a flush that raises ends. -/
def SQSQueue.respond (q : SQSQueue) (caller : Caller) (entries : List DeleteEntry) :
    SQSResponse → SQSQueue
  | .answered [] =>
    {q with pendingDelete := q.pendingDelete.drop entries.length, flush := some ⟨caller,none⟩}
  | .answered failedIds =>
    {q with
      pendingDelete := entries.filter (fun e => failedIds.contains e.id)++
        q.pendingDelete.drop entries.length
      flush := none}
  | .raised => {q with flush := none}

def SQSQueue.busy (q : SQSQueue) (m : ℕ) : Bool := q.flush.any fun f => f.caller = .settlement m

/-- An ack or fail that has the lock, on a delivery that was not retried. -/
def SQSQueue.stageable (q : SQSQueue) (m : ℕ) : Bool := q.flush.isNone && !q.retried.contains m

def SQSQueue.perform (q : SQSQueue) : SQSOp → Option (List ℕ × SQSQueue)
  | .ack m => if q.stageable m then some ([],q.stageDelete s m) else none
  | .fail m =>
    if s.onFail = .delete then
      if q.stageable m then some ([],q.stageDelete s m) else none
    else some ([],q)
  | .retry m ok =>
    if q.busy m then none
    else some ([],if ok then {q with retried := m::q.retried} else q)
  | .releaseUnstarted _ _ => some ([],q)
  | .flushDeletes =>
    if q.flush.isNone then some ([],{q with flush := some ⟨.flusher,none⟩}) else none
  | .request =>
    match q.flush with
    | some ⟨caller,none⟩ => some (q.request s caller)
    | _ => none
  | .respond r =>
    match q.flush with
    | some ⟨caller,some entries⟩ => some ([],q.respond caller entries r)
    | _ => none

def SQSStep (q : SQSQueue) (e : SQSEvent) (q' : SQSQueue) : Prop :=
  e.before = q ∧ q.perform s e.op = some (e.deleted,q')

/-- The receipt handles whose deletion is staged. -/
def SQSQueue.staged (q : SQSQueue) : List ℕ := q.pendingDelete.map DeleteEntry.receiptHandle

variable {s} {q q' : SQSQueue} {e : SQSEvent} {caller : Caller}

/-- The entries of a request on its way are still staged. -/
def SQSQueue.Sent (q : SQSQueue) : Prop :=
  ∀ f ∈ q.flush, ∀ entries ∈ f.entries, ∀ x ∈ entries, x ∈ q.pendingDelete

/-- What one step does to the staged deletions, the retried deliveries and the request. -/
structure SQSEffect (q : SQSQueue) (e : SQSEvent) (q' : SQSQueue) : Prop where
  deleted : ∀ m ∈ e.deleted, m ∈ q.staged
  staged : ∀ m ∈ q'.staged, m ∈ q.staged ∨ m ∉ q.retried
  retried : q'.retried = q.retried ∨
    ∃ m, e.op = .retry m true ∧ q'.retried = m::q.retried ∧ q'.staged = q.staged
  sent : q'.Sent

theorem SQSEffect.kept (hdeleted : e.deleted = [])
    (hsub : ∀ x ∈ q'.pendingDelete, x ∈ q.pendingDelete) (hretried : q'.retried = q.retried)
    (hsent : q'.Sent) : SQSEffect q e q' where
  deleted := by
    rw [hdeleted]
    exact fun _ h => absurd h List.not_mem_nil
  staged := by
    intro m hm
    obtain ⟨x,hx,rfl⟩ := List.mem_map.mp hm
    exact .inl (List.mem_map_of_mem (hsub x hx))
  retried := .inl hretried
  sent := hsent

theorem sent_idle (h : ∀ f ∈ q.flush, f.entries = none) : q.Sent := by
  intro f hf entries hentries
  rw [h f hf] at hentries
  cases hentries

theorem stageDelete_effect {m : ℕ}
    (h : (if q.stageable m then some (([] : List ℕ),q.stageDelete s m) else none) =
      some (e.deleted,q')) : SQSEffect q e q' := by
  split at h
  · next hstage =>
      obtain ⟨hdeleted,rfl⟩ := Prod.mk.inj (Option.some.inj h)
      have hm : m ∉ q.retried := by
        simp only [SQSQueue.stageable,Bool.and_eq_true,Bool.not_eq_true',
          List.contains_eq_mem,decide_eq_false_iff_not] at hstage
        exact hstage.2
      refine ⟨?_,?_,.inl rfl,?_⟩
      · rw [← hdeleted]
        exact fun _ h => absurd h List.not_mem_nil
      · intro n hn
        simp only [SQSQueue.staged,SQSQueue.stageDelete,List.map_append,List.mem_append,
          List.map_cons,List.map_nil,List.mem_singleton] at hn
        rcases hn with hn | rfl
        · exact .inl hn
        · exact .inr hm
      · apply sent_idle
        intro f hf
        simp only [SQSQueue.stageDelete] at hf
        split at hf
        · cases hf
          rfl
        · cases hf
  · cases h

theorem request_effect (hdeleted : e.deleted = (q.request s caller).1) :
    SQSEffect q e (q.request s caller).2 := by
  unfold SQSQueue.request at hdeleted ⊢
  split at hdeleted
  · next hempty =>
      rw [if_pos hempty]
      exact .kept hdeleted (fun _ h => h) rfl (sent_idle fun f hf => by cases hf)
  · next hsome =>
      rw [if_neg hsome]
      refine ⟨?_,fun m hm => .inl hm,.inl rfl,?_⟩
      · rw [hdeleted]
        intro m hm
        obtain ⟨x,hx,rfl⟩ := List.mem_map.mp hm
        exact List.mem_map_of_mem (List.mem_of_mem_take hx)
      · intro f hf entries hentries x hx
        cases hf
        cases hentries
        exact List.mem_of_mem_take hx

theorem respond_effect {entries : List DeleteEntry} (hdeleted : e.deleted = [])
    (hentries : ∀ x ∈ entries, x ∈ q.pendingDelete) (r : SQSResponse) :
    SQSEffect q e (q.respond caller entries r) := by
  cases r with
  | raised => exact .kept hdeleted (fun _ h => h) rfl (sent_idle fun f hf => by cases hf)
  | answered failedIds =>
    cases failedIds with
    | nil =>
      refine .kept hdeleted (fun x hx => List.mem_of_mem_drop hx) rfl (sent_idle ?_)
      intro f hf
      cases hf
      rfl
    | cons i ids =>
      refine .kept hdeleted ?_ rfl (sent_idle fun f hf => by cases hf)
      intro x hx
      rcases List.mem_append.mp hx with hx | hx
      · exact hentries x (List.mem_of_mem_filter hx)
      · exact List.mem_of_mem_drop hx

theorem sqs_effect (hsent : q.Sent) (h : SQSStep s q e q') : SQSEffect q e q' := by
  obtain ⟨-,hperform⟩ := h
  cases hop : e.op with
  | ack m =>
    rw [hop] at hperform
    exact stageDelete_effect hperform
  | fail m =>
    rw [hop] at hperform
    simp only [SQSQueue.perform] at hperform
    by_cases hfail : s.onFail = .delete
    · rw [if_pos hfail] at hperform
      exact stageDelete_effect hperform
    · rw [if_neg hfail] at hperform
      obtain ⟨hdeleted,rfl⟩ := Prod.mk.inj (Option.some.inj hperform)
      exact .kept hdeleted.symm (fun _ h => h) rfl hsent
  | retry m ok =>
    rw [hop] at hperform
    simp only [SQSQueue.perform] at hperform
    split at hperform
    · cases hperform
    · obtain ⟨hdeleted,rfl⟩ := Prod.mk.inj (Option.some.inj hperform)
      cases ok with
      | true =>
        refine ⟨?_,fun m hm => .inl hm,.inr ⟨m,hop,rfl,rfl⟩,hsent⟩
        rw [← hdeleted]
        exact fun _ h => absurd h List.not_mem_nil
      | false => exact .kept hdeleted.symm (fun _ h => h) rfl hsent
  | releaseUnstarted m ok =>
    rw [hop] at hperform
    obtain ⟨hdeleted,rfl⟩ := Prod.mk.inj (Option.some.inj hperform)
    exact .kept hdeleted.symm (fun _ h => h) rfl hsent
  | flushDeletes =>
    rw [hop] at hperform
    simp only [SQSQueue.perform] at hperform
    split at hperform
    · obtain ⟨hdeleted,rfl⟩ := Prod.mk.inj (Option.some.inj hperform)
      refine .kept hdeleted.symm (fun _ h => h) rfl (sent_idle ?_)
      intro f hf
      cases hf
      rfl
    · cases hperform
  | request =>
    rw [hop] at hperform
    simp only [SQSQueue.perform] at hperform
    split at hperform
    · obtain ⟨hdeleted,rfl⟩ := Prod.mk.inj (Option.some.inj hperform)
      exact request_effect hdeleted.symm
    · cases hperform
  | respond r =>
    rw [hop] at hperform
    simp only [SQSQueue.perform] at hperform
    split at hperform
    · next caller entries hflush =>
        obtain ⟨hdeleted,rfl⟩ := Prod.mk.inj (Option.some.inj hperform)
        refine respond_effect hdeleted.symm ?_ r
        exact hsent ⟨caller,some entries⟩ (by rw [hflush]; rfl) entries rfl
    · cases hperform

/-- A retry finds no deletion of its delivery staged. -/
def SQSEvent.Withdrawn (e : SQSEvent) : Prop := ∀ m, e.op = .retry m true → m ∉ e.before.staged

def SQSQueue.Apart (q : SQSQueue) : Prop := ∀ m ∈ q.retried, m ∉ q.staged

theorem apart_step (hsent : q.Sent) (hapart : q.Apart) (h : SQSStep s q e q') (hw : e.Withdrawn) :
    q'.Apart := by
  have heff := sqs_effect hsent h
  intro m hm hstaged
  rcases heff.retried with hsame | ⟨n,hop,hretried,hkept⟩
  · rw [hsame] at hm
    rcases heff.staged m hstaged with hold | hnew
    · exact hapart m hm hold
    · exact hnew hm
  · rw [hretried] at hm
    rw [hkept] at hstaged
    rcases List.mem_cons.mp hm with rfl | hm
    · rw [← h.1] at hstaged
      exact hw m hop hstaged
    · exact hapart m hm hstaged

theorem sqs_run {es : List SQSEvent} (hsent : q.Sent) (hapart : q.Apart)
    (h : Run (SQSStep s) q es q') (hw : ∀ e ∈ es, e.Withdrawn) :
    ∀ e ∈ es, ∀ m ∈ e.deleted, m ∉ e.before.retried := by
  induction h with
  | nil q => simp
  | cons hstep _ ih =>
    rw [List.forall_mem_cons] at hw ⊢
    have heff := sqs_effect hsent hstep
    refine ⟨?_,ih heff.sent (apart_step hsent hapart hstep hw.1) hw.2⟩
    intro m hm hretried
    rw [hstep.1] at hretried
    exact hapart m hretried (heff.deleted m hm)

theorem flush_sends (hflush : q.flush = some ⟨caller,none⟩) {m : ℕ} (hm : m ∈ q.staged) :
    ∃ es q', Run (SQSStep s) q es q' ∧ ∃ e ∈ es, m ∈ e.deleted := by
  induction hlength : q.pendingDelete.length using Nat.strong_induction_on generalizing q with
  | _ n ih =>
    have hsized := s.sized
    obtain ⟨x,hx,hxm⟩ := List.mem_map.mp hm
    have hpos : 0 < q.pendingDelete.length := List.length_pos_of_mem hx
    have hnonempty : ¬q.pendingDelete.isEmpty = true := by
      rw [List.isEmpty_iff_length_eq_zero]
      omega
    generalize hentries : q.pendingDelete.take (min 10 s.deleteBatchSize) = entries
    have hcount : 0 < entries.length := by
      rw [← hentries,List.length_take]
      omega
    have htake : q.pendingDelete.take entries.length = entries := by
      rw [← hentries,List.length_take]
      exact List.take_eq_take_iff.mpr (by omega)
    have hsend : SQSStep s q ⟨q,.request,entries.map DeleteEntry.receiptHandle⟩
        {q with flush := some ⟨caller,some entries⟩} := by
      refine ⟨rfl,?_⟩
      simp only [SQSQueue.perform,hflush,SQSQueue.request,if_neg hnonempty,hentries]
    by_cases hfirst : m ∈ entries.map DeleteEntry.receiptHandle
    · exact ⟨_,_,.single hsend,_,List.mem_singleton_self _,hfirst⟩
    · have hanswer : SQSStep s {q with flush := some ⟨caller,some entries⟩}
          ⟨_,.respond (.answered []),[]⟩
          {q with pendingDelete := q.pendingDelete.drop entries.length, flush := some ⟨caller,none⟩} :=
        ⟨rfl,rfl⟩
      have hleft : x ∈ q.pendingDelete.drop entries.length := by
        rw [← List.take_append_drop entries.length q.pendingDelete,htake] at hx
        refine (List.mem_append.mp hx).resolve_left fun hin => hfirst ?_
        rw [← hxm]
        exact List.mem_map_of_mem hin
      obtain ⟨es,q',hrun,e,he,hme⟩ := ih _ (by rw [← hlength]; simp only [List.length_drop]; omega)
        (q := {q with pendingDelete := q.pendingDelete.drop entries.length, flush := some ⟨caller,none⟩})
        rfl (List.mem_map.mpr ⟨x,hleft,hxm⟩) rfl
      exact ⟨_,q',.cons hsend (.cons hanswer hrun),e,
        List.mem_cons_of_mem _ (List.mem_cons_of_mem _ he),hme⟩

/-- A staged deletion is sent sooner or later, whatever is under way. -/
theorem staged_sends {m : ℕ} (hm : m ∈ q.staged) :
    ∃ es q', Run (SQSStep s) q es q' ∧ ∃ e ∈ es, m ∈ e.deleted := by
  have hidle : ∀ p : SQSQueue, p.flush = none → m ∈ p.staged →
      ∃ es q', Run (SQSStep s) p es q' ∧ ∃ e ∈ es, m ∈ e.deleted := by
    intro p hp hmp
    have hstart : SQSStep s p ⟨p,.flushDeletes,[]⟩ {p with flush := some ⟨.flusher,none⟩} := by
      refine ⟨rfl,?_⟩
      simp only [SQSQueue.perform,hp]
      rfl
    have hstaged : m ∈ ({p with flush := some ⟨.flusher,none⟩} : SQSQueue).staged := hmp
    obtain ⟨es,q',hrun,e,he,hme⟩ := flush_sends rfl hstaged
    exact ⟨_,q',.cons hstart hrun,e,List.mem_cons_of_mem _ he,hme⟩
  cases hflush : q.flush with
  | none => exact hidle q hflush hm
  | some f =>
    obtain ⟨caller,entries⟩ := f
    cases entries with
    | none => exact flush_sends hflush hm
    | some entries =>
      have hraise : SQSStep s q ⟨q,.respond .raised,[]⟩ {q with flush := none} := by
        refine ⟨rfl,?_⟩
        simp only [SQSQueue.perform,hflush]
        rfl
      have hstaged : m ∈ ({q with flush := none} : SQSQueue).staged := hm
      obtain ⟨es,q',hrun,e,he,hme⟩ := hidle _ rfl hstaged
      exact ⟨_,q',.cons hraise hrun,e,List.mem_cons_of_mem _ he,hme⟩

/-- What a list of operations does. -/
def SQSQueue.trace (s : SQSSettings) (q : SQSQueue) :
    List SQSOp → Option (List SQSEvent × SQSQueue)
  | [] => some ([],q)
  | op::ops => (q.perform s op).bind fun r =>
    (r.2.trace s ops).map fun t => (⟨q,op,r.1⟩::t.1,t.2)

theorem sqs_trace {es : List SQSEvent} {ops : List SQSOp} (h : q.trace s ops = some (es,q')) :
    Run (SQSStep s) q es q' := by
  induction ops generalizing q es with
  | nil =>
    cases h
    exact .nil _
  | cons op ops ih =>
    obtain ⟨r,hr,h⟩ := Option.bind_eq_some_iff.mp h
    obtain ⟨t,ht,h⟩ := Option.map_eq_some_iff.mp h
    cases h
    exact .cons ⟨rfl,hr⟩ (ih ht)

end SQS

section Cloudflare

inductive CFOnFail where
  | leave | retry | ack
  deriving DecidableEq

structure CFSettings where
  ackBatchSize : ℕ
  flushAlways : Bool
  onFail : CFOnFail
  sized : 1 ≤ ackBatchSize ∧ ackBatchSize ≤ 100

structure RetryEntry where
  leaseId : ℕ
  delaySeconds : Option ℕ
  deriving DecidableEq

/-- Who flushes; a retry returns when its flush ends. -/
inductive CFCaller where
  | ack (m : ℕ)
  | retry (m : ℕ)
  | flusher
  deriving DecidableEq

/-- The acks and retries of a request on its way. -/
structure CFRequest where
  acks : List ℕ
  retries : List RetryEntry
  deriving DecidableEq

structure CFFlush where
  caller : CFCaller
  sent : Option CFRequest
  deriving DecidableEq

/-- `retrying` are the deliveries with a retry that was called, `retried` those
with a retry that has returned. -/
structure CFQueue where
  pendingAcks : List ℕ := []
  pendingRetries : List RetryEntry := []
  flush : Option CFFlush := none
  retrying : List ℕ := []
  retried : List ℕ := []

inductive CFOp where
  | ack (m : ℕ)
  | fail (m : ℕ)
  | retry (m : ℕ) (delaySeconds : Option ℕ)
  | releaseUnstarted (m : ℕ)
  | flushAcks
  | request
  | respond (ok : Bool)

structure CFEvent where
  before : CFQueue
  op : CFOp
  request : CFRequest

def maxDelaySeconds : ℕ := 24*60*60

variable (s : CFSettings)

def CFQueue.shouldFlush (q : CFQueue) : Bool :=
  s.ackBatchSize ≤ q.pendingAcks.length+q.pendingRetries.length || s.flushAlways

/-- The end of a settlement that has staged its entry: it flushes, or it returns. -/
def CFQueue.settle (q : CFQueue) (caller : CFCaller) : CFQueue :=
  if q.shouldFlush s then {q with flush := some ⟨caller,none⟩}
  else match caller with
    | .retry m => {q with retried := m::q.retried}
    | _ => q

/-- `stage_ack`, once it has the lock, for a delivery that was not retried. -/
def CFQueue.stageAck (q : CFQueue) (m : ℕ) : Option CFQueue :=
  if q.flush.isNone && !q.retrying.contains m then
    some (({q with pendingAcks := q.pendingAcks++[m]} : CFQueue).settle s (.ack m))
  else none

/-- `stage_retry`, once it has the lock. -/
def CFQueue.stageRetry (q : CFQueue) (m : ℕ) (delaySeconds : Option ℕ) : Option CFQueue :=
  if q.flush.isNone then
    some (({q with
      pendingRetries := q.pendingRetries++[⟨m,delaySeconds.map fun d => min d maxDelaySeconds⟩]
      retrying := m::q.retrying} : CFQueue).settle s (.retry m))
  else none

/-- One turn of the loop of `_flush_locked` up to the request; with nothing left to
send the flush ends. -/
def CFQueue.request (q : CFQueue) (caller : CFCaller) : CFRequest × CFQueue :=
  if q.pendingAcks.isEmpty && q.pendingRetries.isEmpty then
    (⟨[],[]⟩,match caller with
      | .retry m => {q with flush := none, retried := m::q.retried}
      | _ => {q with flush := none})
  else
    let acks := q.pendingAcks.take s.ackBatchSize
    let r : CFRequest := ⟨acks,q.pendingRetries.take (s.ackBatchSize-acks.length)⟩
    (r,{q with flush := some ⟨caller,some r⟩})

/-- The rest of the turn; an error or a cancellation ends the flush. -/
def CFQueue.respond (q : CFQueue) (caller : CFCaller) (r : CFRequest) (ok : Bool) : CFQueue :=
  if ok then
    {q with
      pendingAcks := q.pendingAcks.drop r.acks.length
      pendingRetries := q.pendingRetries.drop r.retries.length
      flush := some ⟨caller,none⟩}
  else {q with flush := none}

def CFQueue.perform (q : CFQueue) : CFOp → Option (CFRequest × CFQueue)
  | .ack m => (q.stageAck s m).map fun q' => (⟨[],[]⟩,q')
  | .fail m =>
    match s.onFail with
    | .ack => (q.stageAck s m).map fun q' => (⟨[],[]⟩,q')
    | .retry => (q.stageRetry s m none).map fun q' => (⟨[],[]⟩,q')
    | .leave => some (⟨[],[]⟩,q)
  | .retry m delaySeconds => (q.stageRetry s m delaySeconds).map fun q' => (⟨[],[]⟩,q')
  | .releaseUnstarted m => (q.stageRetry s m (some 0)).map fun q' => (⟨[],[]⟩,q')
  | .flushAcks =>
    if q.flush.isNone then some (⟨[],[]⟩,{q with flush := some ⟨.flusher,none⟩}) else none
  | .request =>
    match q.flush with
    | some ⟨caller,none⟩ => some (q.request s caller)
    | _ => none
  | .respond ok =>
    match q.flush with
    | some ⟨caller,some r⟩ => some (⟨[],[]⟩,q.respond caller r ok)
    | _ => none

def CFStep (q : CFQueue) (e : CFEvent) (q' : CFQueue) : Prop :=
  e.before = q ∧ q.perform s e.op = some (e.request,q')

/-- The delivery whose retry an operation stages. -/
def retries : CFOp → Option ℕ
  | .retry m _ => some m
  | .releaseUnstarted m => some m
  | .fail m => if s.onFail = .retry then some m else none
  | _ => none

/-- A retry finds no ack of its delivery staged. -/
def CFEvent.Withdrawn (e : CFEvent) : Prop :=
  ∀ m, retries s e.op = some m → m ∉ e.before.pendingAcks

variable {s} {q : CFQueue}

/-- Deliveries with a staged or returned retry are retrying, and those have no ack staged. -/
structure CFQueue.Apart (q : CFQueue) : Prop where
  acks : ∀ m ∈ q.pendingAcks, m ∉ q.retrying
  retries : ∀ x ∈ q.pendingRetries, x.leaseId ∈ q.retrying
  returned : ∀ m ∈ q.retried, m ∈ q.retrying
  flushing : ∀ f ∈ q.flush, ∀ m, f.caller = .retry m → m ∈ q.retrying

variable {caller : CFCaller}

theorem CFQueue.Apart.settle (h : q.Apart) (hidle : q.flush = none)
    (hcaller : ∀ m, caller = .retry m → m ∈ q.retrying) : (q.settle s caller).Apart := by
  unfold CFQueue.settle
  split
  · refine ⟨h.acks,h.retries,h.returned,?_⟩
    intro f hf m hm
    cases hf
    exact hcaller m hm
  · split
    · next m =>
        refine ⟨h.acks,h.retries,?_,?_⟩
        · intro n hn
          rcases List.mem_cons.mp hn with rfl | hn
          · exact hcaller n rfl
          · exact h.returned n hn
        · intro f hf
          dsimp only at hf
          rw [hidle] at hf
          cases hf
    · exact h

variable {q' : CFQueue}

theorem CFQueue.Apart.stageAck {m : ℕ} (h : q.Apart) (hstage : q.stageAck s m = some q') :
    q'.Apart := by
  unfold CFQueue.stageAck at hstage
  split at hstage
  · next hfree =>
      simp only [Bool.and_eq_true,Option.isNone_iff_eq_none,Bool.not_eq_true',
        List.contains_eq_mem,decide_eq_false_iff_not] at hfree
      cases hstage
      refine CFQueue.Apart.settle ⟨?_,h.retries,h.returned,h.flushing⟩ hfree.1 ?_
      · intro n hn
        rcases List.mem_append.mp hn with hn | hn
        · exact h.acks n hn
        · rw [List.mem_singleton.mp hn]
          exact hfree.2
      · intro n hn
        cases hn
  · cases hstage

theorem CFQueue.Apart.stageRetry {m : ℕ} {delaySeconds : Option ℕ} (h : q.Apart)
    (hm : m ∉ q.pendingAcks) (hstage : q.stageRetry s m delaySeconds = some q') : q'.Apart := by
  unfold CFQueue.stageRetry at hstage
  split at hstage
  · next hfree =>
      rw [Option.isNone_iff_eq_none] at hfree
      cases hstage
      refine CFQueue.Apart.settle ⟨?_,?_,?_,?_⟩ hfree ?_
      · intro n hn
        dsimp only
        rw [List.mem_cons]
        rintro (rfl | hretrying)
        · exact hm hn
        · exact h.acks n hn hretrying
      · intro x hx
        rcases List.mem_append.mp hx with hx | hx
        · exact List.mem_cons_of_mem _ (h.retries x hx)
        · rw [List.mem_singleton.mp hx]
          exact List.mem_cons_self
      · exact fun n hn => List.mem_cons_of_mem _ (h.returned n hn)
      · intro f hf
        dsimp only at hf
        rw [hfree] at hf
        cases hf
      · intro n hn
        cases hn
        exact List.mem_cons_self
  · cases hstage

theorem CFQueue.Apart.request (h : q.Apart) (hflush : q.flush = some ⟨caller,none⟩) :
    (q.request s caller).2.Apart ∧
      (∀ m ∈ (q.request s caller).1.acks, m ∈ q.pendingAcks) ∧
      ∀ x ∈ (q.request s caller).1.retries, x ∈ q.pendingRetries := by
  have hcaller : ∀ m, caller = .retry m → m ∈ q.retrying :=
    h.flushing ⟨caller,none⟩ (by rw [hflush]; rfl)
  unfold CFQueue.request
  split
  · refine ⟨?_,by simp,by simp⟩
    split
    · next m =>
        refine ⟨h.acks,h.retries,?_,fun f hf => by cases hf⟩
        intro n hn
        rcases List.mem_cons.mp hn with rfl | hn
        · exact hcaller n rfl
        · exact h.returned n hn
    · exact ⟨h.acks,h.retries,h.returned,fun f hf => by cases hf⟩
  · refine ⟨⟨h.acks,h.retries,h.returned,?_⟩,fun m hm => List.mem_of_mem_take hm,
      fun x hx => List.mem_of_mem_take hx⟩
    intro f hf
    cases hf
    exact hcaller

theorem CFQueue.Apart.respond {r : CFRequest} (h : q.Apart)
    (hflush : q.flush = some ⟨caller,some r⟩) (ok : Bool) : (q.respond caller r ok).Apart := by
  have hcaller : ∀ m, caller = .retry m → m ∈ q.retrying :=
    h.flushing ⟨caller,some r⟩ (by rw [hflush]; rfl)
  unfold CFQueue.respond
  split
  · refine ⟨fun m hm => h.acks m (List.mem_of_mem_drop hm),
      fun x hx => h.retries x (List.mem_of_mem_drop hx),h.returned,?_⟩
    intro f hf
    cases hf
    exact hcaller
  · exact ⟨h.acks,h.retries,h.returned,fun f hf => by cases hf⟩

theorem cf_step {e : CFEvent} (hq : q.Apart) (h : CFStep s q e q') (hw : e.Withdrawn s) :
    q'.Apart ∧ (∀ m ∈ e.request.acks, m ∈ q.pendingAcks) ∧
      ∀ x ∈ e.request.retries, x ∈ q.pendingRetries := by
  obtain ⟨hbefore,hperform⟩ := h
  unfold CFEvent.Withdrawn at hw
  rw [hbefore] at hw
  generalize e.op = op at hperform hw
  generalize e.request = r at hperform
  have quiet : ∀ p : Option CFQueue, (∀ p', p = some p' → p'.Apart) →
      (p.map fun q' => ((⟨[],[]⟩ : CFRequest),q')) = some (r,q') →
        q'.Apart ∧ (∀ m ∈ r.acks, m ∈ q.pendingAcks) ∧ ∀ x ∈ r.retries, x ∈ q.pendingRetries := by
    intro p hp heq
    obtain ⟨p₁,hp₁,hpair⟩ := Option.map_eq_some_iff.mp heq
    obtain ⟨rfl,rfl⟩ := Prod.mk.inj hpair
    exact ⟨hp p₁ hp₁,by simp,by simp⟩
  cases op with
  | ack m => exact quiet _ (fun p' hp' => hq.stageAck hp') hperform
  | fail m =>
    simp only [CFQueue.perform] at hperform
    cases hfail : s.onFail with
    | ack =>
      rw [hfail] at hperform
      exact quiet _ (fun p' hp' => hq.stageAck hp') hperform
    | retry =>
      rw [hfail] at hperform
      exact quiet _ (fun p' hp' => hq.stageRetry (hw m (if_pos hfail)) hp') hperform
    | leave =>
      rw [hfail] at hperform
      cases hperform
      exact ⟨hq,by simp,by simp⟩
  | retry m delaySeconds => exact quiet _ (fun p' hp' => hq.stageRetry (hw m rfl) hp') hperform
  | releaseUnstarted m => exact quiet _ (fun p' hp' => hq.stageRetry (hw m rfl) hp') hperform
  | flushAcks =>
    simp only [CFQueue.perform] at hperform
    split at hperform
    · cases hperform
      refine ⟨⟨hq.acks,hq.retries,hq.returned,?_⟩,by simp,by simp⟩
      intro f hf m hm
      cases hf
      cases hm
    · cases hperform
  | request =>
    simp only [CFQueue.perform] at hperform
    split at hperform
    · next caller hflush =>
        have hreq := hq.request (s := s) hflush
        rw [Option.some.inj hperform] at hreq
        exact hreq
    · cases hperform
  | respond ok =>
    simp only [CFQueue.perform] at hperform
    split at hperform
    · next caller sent hflush =>
        cases hperform
        exact ⟨hq.respond hflush ok,by simp,by simp⟩
    · cases hperform

/-- With withdrawals, no request acks what is retried. -/
theorem cf_run {es : List CFEvent} (hq : q.Apart) (h : Run (CFStep s) q es q')
    (hw : ∀ e ∈ es, e.Withdrawn s) : ∀ e ∈ es, (∀ m ∈ e.request.acks, m ∉ e.before.retried) ∧
      ∀ m ∈ e.request.acks, ∀ x ∈ e.request.retries, x.leaseId ≠ m := by
  induction h with
  | nil q => simp
  | cons hstep _ ih =>
    rw [List.forall_mem_cons] at hw ⊢
    obtain ⟨hnext,hacks,hretries⟩ := cf_step hq hstep hw.1
    refine ⟨⟨?_,?_⟩,ih hnext hw.2⟩
    · intro m hm hretried
      rw [hstep.1] at hretried
      exact hq.acks m (hacks m hm) (hq.returned m hretried)
    · intro m hm x hx heq
      apply hq.acks m (hacks m hm)
      rw [← heq]
      exact hq.retries x (hretries x hx)

/-- What a list of operations does. -/
def CFQueue.trace (s : CFSettings) (q : CFQueue) : List CFOp → Option (List CFEvent × CFQueue)
  | [] => some ([],q)
  | op::ops => (q.perform s op).bind fun r =>
    (r.2.trace s ops).map fun t => (⟨q,op,r.1⟩::t.1,t.2)

theorem cf_trace {es : List CFEvent} {ops : List CFOp} (h : q.trace s ops = some (es,q')) :
    Run (CFStep s) q es q' := by
  induction ops generalizing q es with
  | nil =>
    cases h
    exact .nil _
  | cons op ops ih =>
    obtain ⟨r,hr,h⟩ := Option.bind_eq_some_iff.mp h
    obtain ⟨t,ht,h⟩ := Option.map_eq_some_iff.mp h
    cases h
    exact .cons ⟨rfl,hr⟩ (ih ht)

end Cloudflare

section Conserved

/-- Where no retry finds its delivery staged for deletion or acknowledgement, no
request deletes or acks a delivery after its retry has returned, and none lists one
both ways; for SQS nothing less will do, since what is staged is sent. -/
theorem retried_apart (s : SQSSettings) (c : CFSettings) :
    (∀ es q, Run (SQSStep s) {} es q →
      ((∀ e ∈ es, e.Withdrawn) → ∀ e ∈ es, ∀ m ∈ e.deleted, m ∉ e.before.retried) ∧
      ∀ e m q', SQSStep s q e q' → e.op = .retry m true → m ∈ q.staged →
        ∃ es' q'', Run (SQSStep s) q' es' q'' ∧ ∃ e' ∈ es', m ∈ e'.deleted) ∧
    ∀ es q, Run (CFStep c) {} es q → (∀ e ∈ es, e.Withdrawn c) →
      ∀ e ∈ es, (∀ m ∈ e.request.acks, m ∉ e.before.retried) ∧
        ∀ m ∈ e.request.acks, ∀ x ∈ e.request.retries, x.leaseId ≠ m := by
  refine ⟨fun es q hrun => ⟨?_,?_⟩,fun es q hrun hw => ?_⟩
  · have hsent : ({} : SQSQueue).Sent := sent_idle fun f hf => by cases hf
    have hapart : ({} : SQSQueue).Apart := fun m hm => absurd hm List.not_mem_nil
    exact sqs_run hsent hapart hrun
  · intro e m q' hstep hop hm
    apply staged_sends
    obtain ⟨-,hperform⟩ := hstep
    rw [hop] at hperform
    simp only [SQSQueue.perform] at hperform
    split at hperform
    · cases hperform
    · obtain ⟨-,rfl⟩ := Prod.mk.inj (Option.some.inj hperform)
      exact hm
  · have hapart : ({} : CFQueue).Apart :=
      ⟨by simp,by simp,by simp,fun f hf => by cases hf⟩
    exact cf_run hapart hrun hw

def deletesByTwo : SQSSettings := ⟨2,false,.leave,by decide⟩

def acksAtOnce : CFSettings := ⟨100,true,.leave,by decide⟩

/-- A flush that fails for one of two deletions, with a third delivery retried; an
acknowledgement whose request fails beside the retry of another delivery. -/
theorem retried_apart_partialFailure :
    (∃ es q, Run (SQSStep deletesByTwo) {} es q ∧ es.map SQSEvent.deleted =
        [[],[],[],[1,2],[],[],[1],[]] ∧ ∀ e ∈ es, ∀ m ∈ e.deleted, m ∉ e.before.retried) ∧
      ∃ es q, Run (CFStep acksAtOnce) {} es q ∧ es.map CFEvent.request =
          [⟨[],[]⟩,⟨[1],[]⟩,⟨[],[]⟩,⟨[],[]⟩,⟨[1],[⟨2,none⟩]⟩,⟨[],[]⟩] ∧
        ∀ e ∈ es, (∀ m ∈ e.request.acks, m ∉ e.before.retried) ∧
          ∀ m ∈ e.request.acks, ∀ x ∈ e.request.retries, x.leaseId ≠ m := by
  constructor
  · obtain ⟨es,q,htrace,hdeleted,hw⟩ : ∃ es q, SQSQueue.trace deletesByTwo {}
        [.retry 3 true,.ack 1,.ack 2,.request,.respond (.answered [1]),.flushDeletes,.request,
          .respond (.answered [])] = some (es,q) ∧
        es.map SQSEvent.deleted = [[],[],[],[1,2],[],[],[1],[]] ∧ ∀ e ∈ es, e.Withdrawn := by
      refine ⟨_,_,rfl,rfl,?_⟩
      simp only [List.forall_mem_cons]
      refine ⟨?_,?_,?_,?_,?_,?_,?_,?_,by simp⟩ <;> intro m hm <;> cases hm
      exact List.not_mem_nil
    exact ⟨es,q,sqs_trace htrace,hdeleted,
      ((retried_apart deletesByTwo acksAtOnce).1 es q (sqs_trace htrace)).1 hw⟩
  · obtain ⟨es,q,htrace,hsent,hw⟩ : ∃ es q, CFQueue.trace acksAtOnce {}
        [.ack 1,.request,.respond false,.retry 2 none,.request,.respond true] = some (es,q) ∧
        es.map CFEvent.request =
          [⟨[],[]⟩,⟨[1],[]⟩,⟨[],[]⟩,⟨[],[]⟩,⟨[1],[⟨2,none⟩]⟩,⟨[],[]⟩] ∧
        ∀ e ∈ es, e.Withdrawn acksAtOnce := by
      refine ⟨_,_,rfl,rfl,?_⟩
      simp only [List.forall_mem_cons]
      refine ⟨?_,?_,?_,?_,?_,?_,by simp⟩ <;> intro m hm <;> cases hm
      decide
    exact ⟨es,q,cf_trace htrace,hsent,
      (retried_apart deletesByTwo acksAtOnce).2 es q (cf_trace htrace) hw⟩

/-- An ack fills the batch and raises with its request: once its delivery is retried
the next flush deletes it, or the same request acknowledges and retries it. -/
theorem raised_ack_sent :
    (∃ es q, Run (SQSStep deletesByTwo) {} es q ∧
      ∃ e ∈ es, ∃ m ∈ e.deleted, m ∈ e.before.retried) ∧
    ∃ es q, Run (CFStep acksAtOnce) {} es q ∧
      ∃ e ∈ es, ∃ m ∈ e.request.acks, ∃ x ∈ e.request.retries, x.leaseId = m := by
  constructor
  · obtain ⟨es,q,htrace,hagain⟩ : ∃ es q, SQSQueue.trace deletesByTwo {}
        [.ack 1,.ack 2,.request,.respond .raised,.retry 2 true,.flushDeletes,.request] =
          some (es,q) ∧ ∃ e ∈ es, ∃ m ∈ e.deleted, m ∈ e.before.retried := by
      refine ⟨_,_,rfl,?_⟩
      simp only [List.exists_mem_cons_iff]
      exact .inr (.inr (.inr (.inr (.inr (.inr (.inl ⟨2,by decide,by decide⟩))))))
    exact ⟨es,q,sqs_trace htrace,hagain⟩
  · obtain ⟨es,q,htrace,hboth⟩ : ∃ es q, CFQueue.trace acksAtOnce {}
        [.ack 1,.request,.respond false,.retry 1 none,.request] = some (es,q) ∧
          ∃ e ∈ es, ∃ m ∈ e.request.acks, ∃ x ∈ e.request.retries, x.leaseId = m := by
      refine ⟨_,_,rfl,?_⟩
      simp only [List.exists_mem_cons_iff]
      exact .inr (.inr (.inr (.inr (.inl ⟨1,by decide,⟨1,none⟩,by decide,rfl⟩))))
    exact ⟨es,q,cf_trace htrace,hboth⟩

end Conserved

end OneStep.BatchedSettlements
