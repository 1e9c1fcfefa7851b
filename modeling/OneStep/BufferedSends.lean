import OneStep.Transition
import Mathlib.Data.List.Count
import Mathlib.Tactic

/-!
# Buffered sends to a Feishu table

A buffered sink in create mode appends what is sent and writes the whole buffer when it
has reached the batch size, when its timer fires, or when it is closed. A send holds the
buffer lock from its start to its end, and a flush to its answer; a send that waits for
the lock has done nothing yet and starts when it has it. A payload whose send raised is
sent again, one whose send returned is not. Where the sink has relations, a search that
fails is a flush that fails.
-/
namespace OneStep.BufferedSends
open Transition

section Model

structure Settings where
  batchSize : ℕ
  sized : 2 ≤ batchSize ∧ batchSize ≤ 500

variable {α : Type}

inductive Owner (α : Type) where
  | send (p : α)
  | timer
  | close

/-- A flush that waits for its answer. -/
structure Flush (α : Type) where
  owner : Owner α
  items : List α

/-- Where `close` stands: at the timer's cancellation, or at the last flush. -/
inductive Closing where
  | idle
  | cancelling
  | flushing
  deriving DecidableEq

structure Sink (α : Type) where
  buffer : List α := []
  flushError : Bool := false
  flushTask : Bool := false
  closed : Bool := false
  closing : Closing := .idle
  lock : Option (Flush α) := none
  requests : List (List α × Bool) := []
  returned : List α := []

inductive Op (α : Type) where
  | send (p : α)
  | timerFires
  | respond (ok : Bool)
  | close
  | cancelTimer
  | closeFlush

variable (settings : Settings) (s : Sink α)

/-- `_flush_buffer` up to its request; it cancels a timer other than its own task. -/
def Sink.flush (owner : Owner α) : Sink α :=
  {s with
    lock := some ⟨owner,s.buffer⟩
    flushTask := match owner with
      | .timer => s.flushTask
      | _ => false}

/-- `_buffer_record`. -/
def Sink.bufferRecord (p : α) : Sink α :=
  if s.flushError then {s with flushError := false}
  else
    let s := {s with buffer := s.buffer++[p]}
    if settings.batchSize ≤ s.buffer.length then s.flush (.send p)
    else {s with flushTask := s.flushTask || !s.closed, returned := s.returned++[p]}

/-- `_flush_after_interval`, with the lock. -/
def Sink.flushAfterInterval : Sink α :=
  if !s.buffer.isEmpty && !s.flushError then s.flush .timer else {s with flushTask := false}

/-- A flush has its answer, and its owner goes on. -/
def Sink.respond (f : Flush α) (ok : Bool) : Sink α :=
  let s := {s with
    lock := none
    requests := s.requests++[(f.items,ok)]
    buffer := if ok then [] else s.buffer}
  match f.owner with
  | .send p => {s with returned := if ok then s.returned++[p] else s.returned}
  | .timer => {s with flushTask := false, flushError := s.flushError || !ok}
  | .close => {s with closing := .idle, flushError := s.flushError && !ok}

def Sink.closeFlush : Sink α :=
  if s.buffer.isEmpty then {s with closing := .idle, flushError := false} else s.flush .close

def Sink.perform [DecidableEq α] : Op α → Option (Sink α)
  | .send p => if s.lock.isNone && p ∉ s.returned then some (s.bufferRecord settings p) else none
  | .timerFires => if s.lock.isNone && s.flushTask then some s.flushAfterInterval else none
  | .respond ok => s.lock.map fun f => s.respond f ok
  | .close => if s.closing = .idle then some {s with closed := true, closing := .cancelling} else none
  | .cancelTimer =>
    if s.lock.isNone && s.closing = .cancelling then
      some {s with flushTask := false, closing := .flushing}
    else none
  | .closeFlush => if s.lock.isNone && s.closing = .flushing then some s.closeFlush else none

/-- What was done in which state, and what it led to. -/
structure Event (α : Type) where
  before : Sink α
  op : Op α
  after : Sink α

def Step [DecidableEq α] (s : Sink α) (e : Event α) (s' : Sink α) : Prop :=
  e.before = s ∧ e.after = s' ∧ s.perform settings e.op = some s'

def Sink.trace [DecidableEq α] : List (Op α) → Option (List (Event α) × Sink α) :=
  Transition.trace (fun s op => Sink.perform settings s op) Event.mk s

theorem run_of_trace [DecidableEq α] {es : List (Event α)} {s' : Sink α} {ops : List (Op α)}
    (h : s.trace settings ops = some (es,s')) : Run (Step settings) s es s' :=
  Transition.run_of_trace (fun _ _ _ hperform => ⟨rfl,rfl,hperform⟩) h

end Model

section Invariant
variable {α : Type} {settings : Settings} {s s' : Sink α}

/-- The records of the requests that succeeded. -/
def written (s : Sink α) : List α := (s.requests.filter Prod.snd).flatMap Prod.fst

/-- The payload whose send waits for its flush. -/
def flushing (s : Sink α) : List α :=
  match s.lock with
  | some ⟨.send p,_⟩ => [p]
  | _ => []

/-- What is written or in the buffer was sent once, and a request is no longer than a batch. -/
structure Sound (settings : Settings) (s : Sink α) : Prop where
  once : (written s++s.buffer).Perm (s.returned++flushing s)
  distinct : (s.returned++flushing s).Nodup
  items : ∀ f ∈ s.lock, f.items = s.buffer
  short : flushing s = [] → s.buffer.length < settings.batchSize
  full : s.buffer.length ≤ settings.batchSize
  bounded : ∀ r ∈ s.requests, r.1.length ≤ settings.batchSize

theorem sound_start (settings : Settings) : Sound settings ({} : Sink α) := by
  have hsized := settings.sized.1
  exact ⟨.refl _,List.nodup_nil,fun f hf => (by cases hf),fun _ => Nat.lt_of_lt_of_le Nat.zero_lt_two hsized,
    Nat.zero_le _,fun r hr => (by cases hr)⟩

theorem flush_sound {owner : Owner α} (h : Sound settings s) (hfree : s.lock = none)
    (howner : ∀ p, owner ≠ .send p) : Sound settings (s.flush owner) := by
  have hnone : flushing s = [] := by rw [flushing,hfree]
  have hflushing : flushing (s.flush owner) = flushing s := by
    rw [hnone]
    cases owner with
    | send p => exact absurd rfl (howner p)
    | timer => rfl
    | close => rfl
  refine ⟨?_,?_,fun f hf => ?_,fun _ => h.short hnone,h.full,h.bounded⟩
  · rw [hflushing]
    exact h.once
  · rw [hflushing]
    exact h.distinct
  · cases hf
    rfl

theorem bufferRecord_sound {p : α} (h : Sound settings s) (hfree : s.lock = none)
    (hnew : p ∉ s.returned) : Sound settings (s.bufferRecord settings p) := by
  have hnone : flushing s = [] := by rw [flushing,hfree]
  have honce := h.once
  have hdistinct := h.distinct
  have hshort := h.short hnone
  rw [hnone,List.append_nil] at honce hdistinct
  have hmore : (written s++(s.buffer++[p])).Perm (s.returned++[p]) := by
    rw [← List.append_assoc]
    exact honce.append_right [p]
  have hnodup : (s.returned++[p]).Nodup := by
    refine List.nodup_append.mpr ⟨hdistinct,List.nodup_singleton p,fun a ha b hb heq => hnew ?_⟩
    rw [← List.mem_singleton.mp hb,← heq]
    exact ha
  unfold Sink.bufferRecord
  dsimp only
  split
  · exact ⟨h.once,h.distinct,h.items,h.short,h.full,h.bounded⟩
  · split
    · next hfull =>
        refine ⟨hmore,hnodup,fun f hf => ?_,fun hnil => ?_,?_,h.bounded⟩
        · cases hf
          rfl
        · cases hnil
        · simp only [Sink.flush,List.length_append,List.length_singleton]
          omega
    · next hroom =>
        have hstill : flushing {s with
            buffer := s.buffer++[p]
            flushTask := s.flushTask || !s.closed
            returned := s.returned++[p]} = [] := hnone
        have hlength : (s.buffer++[p]).length < settings.batchSize := Nat.lt_of_not_le hroom
        refine ⟨?_,?_,fun f hf => ?_,fun _ => hlength,hlength.le,h.bounded⟩
        · rw [hstill,List.append_nil]
          exact hmore
        · rw [hstill,List.append_nil]
          exact hnodup
        · rw [hfree] at hf
          cases hf

theorem written_respond (f : Flush α) (ok : Bool) :
    written (s.respond f ok) = written s++if ok then f.items else [] := by
  have hrequests : (s.respond f ok).requests = s.requests++[(f.items,ok)] := by
    unfold Sink.respond
    cases f.owner <;> rfl
  rw [written,hrequests,List.filter_append,List.flatMap_append]
  cases ok with
  | true => exact congrArg (written s++·) (List.append_nil f.items)
  | false => rfl

/-- A flush fails whose owner is a send. -/
def thresholdFails (s : Sink α) : Op α → Prop
  | .respond ok => ok = false ∧ flushing s ≠ []
  | _ => False

theorem respond_sound {f : Flush α} {ok : Bool} (h : Sound settings s) (hlock : s.lock = some f)
    (hcalm : ¬thresholdFails s (.respond ok)) : Sound settings (s.respond f ok) := by
  have hitems : f.items = s.buffer := h.items f (by rw [hlock]; rfl)
  have hnone : flushing (s.respond f ok) = [] := by
    unfold Sink.respond flushing
    cases f.owner <;> rfl
  have hfree : (s.respond f ok).lock = none := by
    unfold Sink.respond
    cases f.owner <;> rfl
  have hbuffer : (s.respond f ok).buffer = if ok then [] else s.buffer := by
    unfold Sink.respond
    cases f.owner <;> rfl
  have hrequests : (s.respond f ok).requests = s.requests++[(f.items,ok)] := by
    unfold Sink.respond
    cases f.owner <;> rfl
  have hreturned : (s.respond f ok).returned = s.returned++flushing s := by
    unfold Sink.respond
    rcases f with ⟨owner,items⟩
    cases owner with
    | send p =>
      have hp : flushing s = [p] := by rw [flushing,hlock]
      have hok : ok = true := by
        by_contra hno
        exact hcalm ⟨by simpa using hno,by rw [hp]; exact List.cons_ne_nil p []⟩
      rw [hp,hok]
      rfl
    | timer =>
      have hp : flushing s = [] := by rw [flushing,hlock]
      rw [hp,List.append_nil]
    | close =>
      have hp : flushing s = [] := by rw [flushing,hlock]
      rw [hp,List.append_nil]
  have hall : written (s.respond f ok)++(s.respond f ok).buffer = written s++s.buffer := by
    rw [written_respond,hbuffer,hitems]
    cases ok with
    | true => exact List.append_nil _
    | false => exact congrArg (·++s.buffer) (List.append_nil _)
  refine ⟨?_,?_,fun f' hf' => ?_,fun _ => ?_,?_,fun r hr => ?_⟩
  · rw [hall,hreturned,hnone,List.append_nil]
    exact h.once
  · rw [hreturned,hnone,List.append_nil]
    exact h.distinct
  · rw [hfree] at hf'
    cases hf'
  · rw [hbuffer]
    cases ok with
    | true => exact Nat.lt_of_lt_of_le Nat.zero_lt_two settings.sized.1
    | false =>
      refine h.short ?_
      by_contra hsome
      exact hcalm ⟨rfl,hsome⟩
  · rw [hbuffer]
    cases ok with
    | true => exact Nat.zero_le _
    | false => exact h.full
  · rw [hrequests] at hr
    rcases List.mem_append.mp hr with hr | hr
    · exact h.bounded r hr
    · rw [List.mem_singleton.mp hr,hitems]
      exact h.full

theorem step_sound [DecidableEq α] {op : Op α} (h : Sound settings s)
    (hstep : s.perform settings op = some s') (hcalm : ¬thresholdFails s op) : Sound settings s' := by
  cases op with
  | send p =>
    simp only [Sink.perform] at hstep
    split at hstep
    · next hcan =>
        rw [Bool.and_eq_true,Option.isNone_iff_eq_none,decide_eq_true_eq] at hcan
        cases hstep
        exact bufferRecord_sound h hcan.1 hcan.2
    · cases hstep
  | timerFires =>
    simp only [Sink.perform] at hstep
    split at hstep
    · next hcan =>
        rw [Bool.and_eq_true,Option.isNone_iff_eq_none] at hcan
        cases hstep
        unfold Sink.flushAfterInterval
        split
        · exact flush_sound h hcan.1 (by simp)
        · exact ⟨h.once,h.distinct,h.items,h.short,h.full,h.bounded⟩
    · cases hstep
  | respond ok =>
    obtain ⟨f,hlock,rfl⟩ := Option.map_eq_some_iff.mp hstep
    exact respond_sound h hlock hcalm
  | close =>
    simp only [Sink.perform] at hstep
    split at hstep
    · cases hstep
      exact ⟨h.once,h.distinct,h.items,h.short,h.full,h.bounded⟩
    · cases hstep
  | cancelTimer =>
    simp only [Sink.perform] at hstep
    split at hstep
    · cases hstep
      exact ⟨h.once,h.distinct,h.items,h.short,h.full,h.bounded⟩
    · cases hstep
  | closeFlush =>
    simp only [Sink.perform] at hstep
    split at hstep
    · next hcan =>
        rw [Bool.and_eq_true,Option.isNone_iff_eq_none] at hcan
        cases hstep
        unfold Sink.closeFlush
        split
        · exact ⟨h.once,h.distinct,h.items,h.short,h.full,h.bounded⟩
        · exact flush_sound h hcan.1 (by simp)
    · cases hstep

end Invariant

section Atomic
variable {α : Type} [DecidableEq α] {settings : Settings} {s : Sink α}

/-- No payload is written twice, one whose send has returned is written once the buffer
is, and no request holds more than 500 records. -/
structure Atomic (s : Sink α) : Prop where
  once : ∀ p, (written s).count p ≤ 1
  flushed : s.buffer = [] → ∀ p ∈ s.returned, (written s).count p = 1
  bounded : ∀ r ∈ s.requests, r.1.length ≤ 500

theorem atomic_of_sound (h : Sound settings s) : Atomic s := by
  have hnodup : (written s).Nodup := (List.nodup_append.mp (h.once.nodup_iff.mpr h.distinct)).1
  refine ⟨List.nodup_iff_count_le_one.mp hnodup,fun hempty p hp => ?_,fun r hr => ?_⟩
  · have honce := h.once
    rw [hempty,List.append_nil] at honce
    exact List.count_eq_one_of_mem hnodup (honce.mem_iff.mpr (List.mem_append_left _ hp))
  · exact (h.bounded r hr).trans settings.sized.2

theorem sound_run {s' : Sink α} {es : List (Event α)} (hrun : Run (Step settings) s es s')
    (hcalm : ∀ e ∈ es, ¬thresholdFails e.before e.op) (h : Sound settings s) :
    Sound settings s' := by
  induction hrun with
  | nil s => exact h
  | @cons s t u e es hstep _ ih =>
    obtain ⟨hbefore,-,hperform⟩ := hstep
    have hquiet := hcalm e List.mem_cons_self
    rw [hbefore] at hquiet
    exact ih (fun e' he' => hcalm e' (List.mem_cons_of_mem _ he')) (step_sound h hperform hquiet)

/-- As long as no flush fails that a send has started, buffered sends are atomic. -/
theorem buffered_atomic (settings : Settings) (es : List (Event α)) (s : Sink α)
    (h : Run (Step settings) {} es s) (hcalm : ∀ e ∈ es, ¬thresholdFails e.before e.op) : Atomic s :=
  atomic_of_sound (sound_run h hcalm (sound_start settings))

def byTwo : Settings := ⟨2,by decide⟩

/-- The timer's flush fails, the next send raises for it and is made again. -/
theorem buffered_atomic_timer : ∃ es s, Run (Step byTwo) ({} : Sink ℕ) es s ∧
    s.requests = [([0,1],true),([2],false),([2,3],true)] ∧ s.returned = [0,1,2,3] ∧ Atomic s := by
  obtain ⟨es,s,htrace,hrequests,hreturned,hcalm⟩ : ∃ es s, ({} : Sink ℕ).trace byTwo
        [.send 0,.send 1,.respond true,.send 2,.timerFires,.respond false,.send 3,.send 3,
          .respond true] = some (es,s) ∧
      s.requests = [([0,1],true),([2],false),([2,3],true)] ∧ s.returned = [0,1,2,3] ∧
      ∀ e ∈ es, ¬thresholdFails e.before e.op := by
    refine ⟨_,_,rfl,rfl,rfl,?_⟩
    simp only [List.forall_mem_cons]
    refine ⟨id,id,?_,id,id,?_,id,id,?_,by simp⟩
    · exact fun h => Bool.noConfusion h.1
    · exact fun h => h.2 rfl
    · exact fun h => Bool.noConfusion h.1
  exact ⟨es,s,run_of_trace _ _ htrace,hrequests,hreturned,
    buffered_atomic _ es s (run_of_trace _ _ htrace) hcalm⟩

/-- A send that fills the buffer, and whose flush fails. -/
def Sink.failedSend (s : Sink α) (p : α) : Sink α :=
  ({s with buffer := s.buffer++[p]}.flush (.send p)).respond ⟨.send p,s.buffer++[p]⟩ false

theorem failedSend_run {p : α} (hfree : s.lock = none) (herror : s.flushError = false)
    (hfull : settings.batchSize ≤ s.buffer.length+1) (hnew : p ∉ s.returned) :
    ∃ es, Run (Step settings) s es (s.failedSend p) := by
  have hfull' : settings.batchSize ≤ (s.buffer++[p]).length := by
    rw [List.length_append,List.length_singleton]
    exact hfull
  have hsend : s.perform settings (.send p) =
      some ({s with buffer := s.buffer++[p]}.flush (.send p)) := by
    simp only [Sink.perform,Sink.bufferRecord,hfree,herror,hnew,Option.isNone_none,not_false_eq_true,
      decide_true,Bool.and_self,if_true,Bool.false_eq_true,if_false,if_pos hfull']
  exact ⟨[⟨s,.send p,_⟩,⟨_,.respond false,_⟩],.cons ⟨rfl,rfl,hsend⟩ (.single ⟨rfl,rfl,rfl⟩)⟩

theorem failures_grow {p : α} (n : ℕ) (hfree : s.lock = none) (herror : s.flushError = false)
    (hfull : settings.batchSize ≤ s.buffer.length+1) (hnew : p ∉ s.returned) :
    ∃ es s', Run (Step settings) s es s' ∧
      ∃ r ∈ s'.requests, s.buffer.length+n < r.1.length := by
  obtain ⟨es,hrun⟩ := failedSend_run hfree herror hfull hnew
  induction n generalizing s es with
  | zero =>
    refine ⟨es,_,hrun,(s.buffer++[p],false),?_,?_⟩
    · exact List.mem_append_right _ (List.mem_singleton_self _)
    · rw [List.length_append,List.length_singleton]
      exact Nat.lt_succ_self _
  | succ n ih =>
    have hlonger : (s.failedSend p).buffer.length = s.buffer.length+1 := by
      change (s.buffer++[p]).length = _
      rw [List.length_append,List.length_singleton]
    have hfull' : settings.batchSize ≤ (s.failedSend p).buffer.length+1 := by omega
    obtain ⟨es',hrun'⟩ := failedSend_run (s := s.failedSend p) rfl herror hfull' hnew
    obtain ⟨es'',s',hrest,r,hr,hlength⟩ := @ih (s.failedSend p) rfl herror hfull' hnew es' hrun'
    exact ⟨es++es'',s',hrun.append hrest,r,hr,by omega⟩

/-- A flush fails for a send: what it has buffered is written by the next one, and again
when its caller sends it again; and with every failure the next request is longer. -/
theorem failed_send_repeats :
    (∃ es s, Run (Step byTwo) ({} : Sink ℕ) es s ∧
      s.requests = [([0,1],false),([0,1,2],true),([1,3],true)] ∧ ¬Atomic s) ∧
    ∃ es s, Run (Step byTwo) ({} : Sink ℕ) es s ∧ (∃ r ∈ s.requests, 500 < r.1.length) ∧ ¬Atomic s := by
  constructor
  · obtain ⟨es,s,htrace,hrequests,htwice⟩ : ∃ es s, ({} : Sink ℕ).trace byTwo
          [.send 0,.send 1,.respond false,.send 2,.respond true,.send 1,.send 3,.respond true] =
            some (es,s) ∧
        s.requests = [([0,1],false),([0,1,2],true),([1,3],true)] ∧ (written s).count 1 = 2 :=
      ⟨_,_,rfl,rfl,rfl⟩
    refine ⟨es,s,run_of_trace _ _ htrace,hrequests,fun hatomic => ?_⟩
    have hone := hatomic.once 1
    omega
  · obtain ⟨es,s,htrace,hfree,herror,hbuffer,hreturned⟩ : ∃ es s, ({} : Sink ℕ).trace byTwo
          [.send 0] = some (es,s) ∧ s.lock = none ∧ s.flushError = false ∧ s.buffer = [0] ∧
        s.returned = [0] :=
      ⟨_,_,rfl,rfl,rfl,rfl,rfl⟩
    obtain ⟨es',s',hrun,r,hr,hlength⟩ := failures_grow (p := 1) 500 hfree herror
      (show byTwo.batchSize ≤ _ by rw [hbuffer]; decide) (by rw [hreturned]; decide)
    rw [hbuffer] at hlength
    have hlong : 500 < r.1.length := by
      simp only [List.length_singleton] at hlength
      omega
    refine ⟨es++es',s',(run_of_trace _ _ htrace).append hrun,⟨r,hr,hlong⟩,fun hatomic => ?_⟩
    have := hatomic.bounded r hr
    omega

end Atomic

end OneStep.BufferedSends
