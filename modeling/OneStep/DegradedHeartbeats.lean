import OneStep.ReporterTelemetry
import OneStep.TelemetrySender

/-!
# The heartbeats that report a degradation

A task event that is no success sets a flag, from which the next heartbeat has its status. A
periodic heartbeat is built, enqueued and its flag cleared in one piece; one that a command sends
clears the flag once the sender has resolved its waiter. An event is told by the number of the
next payload, so that a heartbeat was built after it exactly if it has no smaller number.
-/
namespace OneStep.DegradedHeartbeats
open TelemetrySender Transition
open DeliveryModel (TaskEventKind)
open ReporterTelemetry (Reporter UtcTime midnight smallBatches)

variable {F M : Type}

section Reporting

inductive Status where
  | ok | degraded
  deriving DecidableEq

/-- The reporter with its sender, the heartbeats whose delivery is awaited, the events that
degrade, and the heartbeats that were built. -/
structure World (F M : Type) where
  reporter : Reporter F M
  sender : Sender := {}
  degraded : Bool := false
  awaiting : List ℕ := []
  events : List ℕ := []
  built : List (ℕ × Status) := []

inductive Act (F M : Type) where
  | telemetry (act : ReporterTelemetry.Act F M)
  | heartbeat (wait : Bool)
  | returned (id : ℕ)
  | raised (id : ℕ)
  | sender (act : TelemetrySender.Act)

def degrades : ReporterTelemetry.Act F M → Bool
  | .handleEvent event => event.kind ∈ [TaskEventKind.retried,.failed,.deadLettered,.cancelled]
  | _ => false

/-- Backpressure dropped events or batches. -/
def drops (r r' : Reporter F M) : Bool :=
  r.events.dropped.length < r'.events.dropped.length ||
    r.batches.dropped.length < r'.batches.dropped.length

def World.record (w : World F M) (act : ReporterTelemetry.Act F M) (r : Reporter F M) : World F M :=
  {w with
    reporter := r
    degraded := w.degraded || degrades act || drops w.reporter r
    events := if degrades act then w.events++[w.sender.nextId] else w.events}

/-- The status of `_build_health_descriptor`. -/
def World.status (w : World F M) : Status := if w.degraded then .degraded else .ok

/-- `_send_heartbeat`, as far as it goes without waiting. -/
def World.sendHeartbeat (config : Config) (w : World F M) (wait : Bool) : World F M :=
  {w with
    sender := w.sender.enqueue config (.latest .heartbeat) wait
    degraded := w.degraded && wait
    awaiting := if wait then w.awaiting++[w.sender.nextId] else w.awaiting
    built := w.built++[(w.sender.nextId,w.status)]}

def senderConfig (config : ReporterTelemetry.Config) : Config where
  maxPendingMetricBatches := config.maxPendingMetricBatches
  maxPendingEvents := config.maxPendingEvents
  eventBatchSize := config.eventBatchSize

def sendsHeartbeat : TelemetrySender.Act → Bool
  | .enqueue (.latest .heartbeat) _ => true
  | _ => false

def perform (config : ReporterTelemetry.Config) (w : World F M) : Act F M → Option (World F M)
  | .telemetry act => (ReporterTelemetry.perform config w.reporter act).map (w.record act)
  | .heartbeat wait => some (w.sendHeartbeat (senderConfig config) wait)
  | .returned id =>
    if id ∈ w.awaiting ∧ (id,Outcome.succeeded) ∈ w.sender.history.done then
      some {w with degraded := false, awaiting := w.awaiting.erase id}
    else none
  | .raised id =>
    if id ∈ w.awaiting ∧ ((id,Outcome.failed) ∈ w.sender.history.done ∨
        (id,Outcome.cancelled) ∈ w.sender.history.done) then
      some {w with awaiting := w.awaiting.erase id}
    else none
  | .sender act =>
    if sendsHeartbeat act then none
    else (w.sender.perform (senderConfig config) act).map fun s => {w with sender := s}

end Reporting

section Shown

/-- The transport accepted a heartbeat of this status that was built after the event. -/
def Accepted (w : World F M) (event : ℕ) (status : Status) : Prop :=
  ∃ id, event ≤ id ∧ (id,status) ∈ w.built ∧ (.latest .heartbeat,id) ∈ w.sender.history.accepted

/-- If any heartbeat built after an event was accepted, one that is degraded was. -/
def Shown (w : World F M) : Prop :=
  ∀ event ∈ w.events, ∀ status, Accepted w event status → Accepted w event .degraded

/-- The pending heartbeat is degraded and was not accepted so far. -/
def World.unseen (w : World F M) : Bool :=
  (w.sender.latest .heartbeat).any fun id =>
    (id,Status.degraded) ∈ w.built ∧ (.latest .heartbeat,id) ∉ w.sender.history.accepted

/-- No heartbeat was built since an event. -/
def World.unreported (w : World F M) : Bool :=
  w.events.any fun event => w.built.all fun heartbeat => heartbeat.1 < event

/-- A pending degraded heartbeat is replaced by another one or not at all, and is not dropped by
a close; the flag is not cleared while an event is in no heartbeat. -/
def keeps (w : World F M) : Act F M → Bool
  | .heartbeat _ => w.degraded || !w.unseen
  | .returned _ => !w.unreported
  | .sender (.close _) => w.sender.workerTask.isSome || !w.unseen
  | .sender (.resume _) => !w.unseen
  | _ => true

end Shown

section Invariants

variable {config : ReporterTelemetry.Config} {w w' : World F M} {event : ℕ}

/-- How an event has been reported: a degraded heartbeat was accepted, the next heartbeat will be
degraded, or all that were built are and one of them is pending. -/
inductive Reported (w : World F M) (event : ℕ) : Prop
  | accepted (h : Accepted w event .degraded)
  | flagged (hflag : w.degraded = true) (hnone : ∀ heartbeat ∈ w.built, heartbeat.1 < event)
  | pending (hall : ∀ heartbeat ∈ w.built, event ≤ heartbeat.1 → heartbeat.2 = .degraded)
      (hpending : ∃ id, w.sender.latest .heartbeat = some id ∧ event ≤ id ∧
        (id,.degraded) ∈ w.built)

theorem Reported.shown (h : Reported w event) {status : Status} (hstatus : Accepted w event status) :
    Accepted w event .degraded := by
  obtain ⟨id,hle,hbuilt,haccepted⟩ := hstatus
  cases h with
  | accepted h => exact h
  | flagged _ hnone => exact absurd (hnone _ hbuilt) (Nat.not_lt.mpr hle)
  | pending hall => exact ⟨id,hle,(hall _ hbuilt hle : status = _) ▸ hbuilt,haccepted⟩

theorem Accepted.mono {status : Status} (h : Accepted w event status)
    (hbuilt : ∀ heartbeat ∈ w.built, heartbeat ∈ w'.built)
    (haccepted : ∀ e ∈ w.sender.history.accepted, e ∈ w'.sender.history.accepted) :
    Accepted w' event status := by
  obtain ⟨id,hle,hid,hsent⟩ := h
  exact ⟨id,hle,hbuilt _ hid,haccepted _ hsent⟩

theorem Reported.mono (h : Reported w event) (hbuilt : w'.built = w.built)
    (hflag : w.degraded = true → w'.degraded = true)
    (haccepted : ∀ e ∈ w.sender.history.accepted, e ∈ w'.sender.history.accepted)
    (hlatest : w'.sender.latest .heartbeat = w.sender.latest .heartbeat) : Reported w' event := by
  cases h with
  | accepted h => exact .accepted (h.mono (fun _ hid => hbuilt ▸ hid) haccepted)
  | flagged hset hnone => exact .flagged (hflag hset) (hbuilt ▸ hnone)
  | pending hall hpending =>
    refine .pending (hbuilt ▸ hall) ?_
    rw [hlatest,hbuilt]
    exact hpending

/-- Unless a degraded heartbeat is pending unseen, what waits for it was accepted. -/
theorem Reported.seen (h : Reported w event) (hseen : w.unseen = false) :
    Accepted w event .degraded ∨
      w.degraded = true ∧ ∀ heartbeat ∈ w.built, heartbeat.1 < event := by
  cases h with
  | accepted h => exact .inl h
  | flagged hflag hnone => exact .inr ⟨hflag,hnone⟩
  | pending _ hpending =>
    obtain ⟨id,hlatest,hle,hid⟩ := hpending
    refine .inl ⟨id,hle,hid,?_⟩
    by_contra hnot
    rw [World.unseen,hlatest] at hseen
    exact absurd hseen (by simp [hid,hnot])

structure Invariant (w : World F M) : Prop where
  sound : Sound w.sender.Pending w.sender
  fresh : ∀ heartbeat ∈ w.built, heartbeat.1 < w.sender.nextId
  events : ∀ event ∈ w.events, event ≤ w.sender.nextId
  reported : ∀ event ∈ w.events, Reported w event

theorem Invariant.shown (h : Invariant w) : Shown w :=
  fun event hevent _ hstatus => (h.reported event hevent).shown hstatus

theorem Invariant.record (h : Invariant w) (act : ReporterTelemetry.Act F M) (r : Reporter F M) :
    Invariant (w.record act r) := by
  have hold : ∀ event ∈ w.events, Reported (w.record act r) event := fun event hevent =>
    (h.reported event hevent).mono rfl (fun hflag => by simp [World.record,hflag]) (fun _ he => he) rfl
  cases hact : degrades act with
  | false =>
    have hevents : (w.record act r).events = w.events := by simp [World.record,hact]
    exact ⟨h.sound,h.fresh,hevents ▸ h.events,hevents ▸ hold⟩
  | true =>
    have hevents : (w.record act r).events = w.events++[w.sender.nextId] := by
      simp [World.record,hact]
    refine ⟨h.sound,h.fresh,?_,?_⟩ <;> rw [hevents] <;> intro event hevent <;>
      rcases List.mem_append.mp hevent with hevent | hevent
    · exact h.events event hevent
    · exact (List.mem_singleton.mp hevent).le
    · exact hold event hevent
    · rw [List.mem_singleton.mp hevent]
      exact .flagged (by simp [World.record,hact]) h.fresh

theorem accepted_grows {config : Config} {s s' : Sender} {act : TelemetrySender.Act}
    (h : s.perform config act = some s') :
    s.nextId ≤ s'.nextId ∧ ∀ e ∈ s.history.accepted, e ∈ s'.history.accepted := by
  refine (accepted_perform h).imp_right fun hgrows e he => ?_
  rcases hgrows with heq | ⟨_,_,_,_,_,heq⟩ <;> rw [heq]
  · exact he
  · exact List.mem_append_left _ he

/-- A heartbeat that is built while the flag is set reports every event; one that is built while
it is not set has nothing left to report. -/
theorem Invariant.sendHeartbeat (h : Invariant w) {config : Config} {wait : Bool}
    (hkeeps : w.degraded = true ∨ w.unseen = false) : Invariant (w.sendHeartbeat config wait) := by
  have ht : w.sender.perform config (.enqueue (.latest .heartbeat) wait) =
      some (w.sendHeartbeat config wait).sender := rfl
  obtain ⟨hlatest,hnext⟩ := latest_enqueue config w.sender .heartbeat wait
  have hbuilt : ∀ heartbeat ∈ w.built, heartbeat ∈ (w.sendHeartbeat config wait).built :=
    fun _ hold => List.mem_append_left _ hold
  refine ⟨h.sound.perform ht,?_,?_,?_⟩
  · intro heartbeat hheartbeat
    change _ < (w.sender.enqueue config (.latest .heartbeat) wait).nextId
    rw [hnext]
    rcases List.mem_append.mp hheartbeat with hold | hnew
    · exact Nat.lt_succ_of_lt (h.fresh heartbeat hold)
    · rw [List.mem_singleton.mp hnew]
      exact Nat.lt_succ_self _
  · exact fun event hevent => (h.events event hevent).trans (accepted_grows ht).1
  · intro event hevent
    by_cases hseen : Accepted w event .degraded
    · exact .accepted (hseen.mono hbuilt (accepted_grows ht).2)
    · have hflag : w.degraded = true := by
        rcases hkeeps with hflag | hunseen
        · exact hflag
        · exact (((h.reported event hevent).seen hunseen).resolve_left hseen).1
      have hnew : (w.sender.nextId,Status.degraded) ∈ (w.sendHeartbeat config wait).built := by
        refine List.mem_append_right _ (List.mem_singleton.mpr ?_)
        rw [World.status,if_pos hflag]
      refine .pending ?_ ⟨w.sender.nextId,?_,h.events event hevent,hnew⟩
      · intro heartbeat hheartbeat hle
        rcases List.mem_append.mp hheartbeat with hold | hlast
        · cases h.reported event hevent with
          | accepted haccepted => exact absurd haccepted hseen
          | flagged _ hnone => exact absurd (hnone heartbeat hold) (Nat.not_lt.mpr hle)
          | pending hall => exact hall heartbeat hold hle
        · rw [List.mem_singleton.mp hlast]
          exact if_pos hflag
      · change (w.sender.enqueue config (.latest .heartbeat) wait).latest .heartbeat = _
        rw [hlatest,Function.update_self]

/-- What was pending and is not any more was accepted, or nothing is hidden by its loss. -/
theorem Invariant.sender (h : Invariant w) {config : Config} {act : TelemetrySender.Act}
    {s : Sender} (ht : w.sender.perform config act = some s)
    (hother : sendsHeartbeat act = false)
    (hclose : ∀ c, act = .close c → w.sender.workerTask = none → w.unseen = false)
    (hresume : ∀ c, act = .resume c → w.unseen = false) : Invariant {w with sender := s} := by
  obtain ⟨hle,hgrows⟩ := accepted_grows ht
  refine ⟨h.sound.perform ht,fun heartbeat hbuilt => (h.fresh heartbeat hbuilt).trans_le hle,
    fun event hevent => (h.events event hevent).trans hle,fun event hevent => ?_⟩
  have hreported := h.reported event hevent
  have hseen : w.unseen = false → Reported {w with sender := s} event := by
    intro hunseen
    rcases hreported.seen hunseen with haccepted | ⟨hflag,hnone⟩
    · exact .accepted (haccepted.mono (fun _ hbuilt => hbuilt) hgrows)
    · exact .flagged hflag hnone
  rcases latest_perform ht .heartbeat with hsame | ⟨wait,rfl⟩ | ⟨worker,id,rfl,hworker,hlatest⟩ |
    ⟨c,rfl,htask⟩ | ⟨c,rfl⟩
  · exact hreported.mono rfl (fun hflag => hflag) hgrows hsame
  · cases hother
  · -- the worker takes away only what the transport accepted
    refine hseen ?_
    rw [World.unseen,hlatest,Option.any_some]
    exact decide_eq_false fun hunseen => hunseen.2 (h.sound.flight worker _ id hworker)
  · exact hseen (hclose c rfl htask)
  · exact hseen (hresume c rfl)

theorem Invariant.perform (h : Invariant w) {act : Act F M} (ht : perform config w act = some w')
    (hkeeps : keeps w act = true) : Invariant w' := by
  cases act with
  | telemetry act =>
    obtain ⟨r,-,rfl⟩ := Option.map_eq_some_iff.mp ht
    exact h.record act r
  | heartbeat wait =>
    cases ht
    refine h.sendHeartbeat ?_
    simpa only [keeps,Bool.or_eq_true,Bool.not_eq_true'] using hkeeps
  | returned id =>
    simp only [DegradedHeartbeats.perform] at ht
    split at ht
    · cases ht
      refine ⟨h.sound,h.fresh,h.events,fun event hevent => ?_⟩
      cases h.reported event hevent with
      | accepted haccepted => exact .accepted haccepted
      | flagged _ hnone =>
        simp only [keeps,World.unreported,Bool.not_eq_true',List.any_eq_false,List.all_eq_true,
          decide_eq_true_eq] at hkeeps
        exact absurd hnone (hkeeps event hevent)
      | pending hall hpending => exact .pending hall hpending
    · cases ht
  | raised id =>
    simp only [DegradedHeartbeats.perform] at ht
    split at ht
    · cases ht
      exact ⟨h.sound,h.fresh,h.events,fun event hevent =>
        (h.reported event hevent).mono rfl (fun hflag => hflag) (fun _ he => he) rfl⟩
    · cases ht
  | sender act =>
    simp only [DegradedHeartbeats.perform] at ht
    split at ht
    · cases ht
    · next hother =>
        obtain ⟨s,hs,rfl⟩ := Option.map_eq_some_iff.mp ht
        refine h.sender hs (Bool.eq_false_iff.mpr hother) ?_ ?_
        · rintro c rfl htask
          simpa only [keeps,htask,Option.isSome_none,Bool.false_or,Bool.not_eq_true'] using hkeeps
        · rintro c rfl
          simpa only [keeps,Bool.not_eq_true'] using hkeeps

end Invariants

section Runs

/-- In every run of such steps no degradation is hidden. -/
theorem degradations_shown (config : ReporterTelemetry.Config) (startedAt : UtcTime)
    (acts : List (Act F M)) (h : EachStep (perform config) (fun w act => keeps w act = true)
      {reporter := {windowStartedAt := startedAt}} acts) :
    Throughout (perform config) Shown {reporter := {windowStartedAt := startedAt}} acts := by
  refine throughout_of_eachStep (J := Invariant) h (fun _ _ _ hw ht hkeeps => hw.perform ht hkeeps)
    (fun _ hw => hw.shown) ⟨(settling_init (senderConfig config)).sound,nofun,nofun,nofun⟩

end Runs

section Example

def midnightWorld : World Unit Unit := {reporter := {windowStartedAt := midnight}}

def failure : Act Unit Unit := .telemetry (.handleEvent ⟨.failed,"task",none,none⟩)

def delivery : List (Act Unit Unit) := (sendOne 0).map .sender

/-- An event, and the heartbeat that reports it. -/
def reportedFailure : List (Act Unit Unit) :=
  [failure,.heartbeat false,.sender (.begin 0)]++delivery

/-- The heartbeat shows the failure. -/
theorem failure_shown :
    Throughout (perform smallBatches) Shown midnightWorld reportedFailure :=
  degradations_shown smallBatches midnight reportedFailure
    (eachStep_of_checks (fun _ _ h => h) (by decide))

/-- Two heartbeats after an event while there is no connection. -/
def replacedReport : List (Act Unit Unit) :=
  [failure,.heartbeat false,.heartbeat false,.sender (.begin 0)]++delivery

/-- An event while a heartbeat of a command is sent, and the heartbeat after it. -/
def clearedFlag : List (Act Unit Unit) :=
  [.heartbeat true,.sender (.begin 0),.sender (.peek 0),.sender (.connect 0 true),
    .sender (.accept 0),failure,.sender (.sent 0),.returned 0,.heartbeat false]++delivery

theorem not_shown {acts : List (Act Unit Unit)} {w : World Unit Unit} {event : ℕ}
    (hw : runs (perform smallBatches) (fun _ _ => true) midnightWorld acts = some w)
    (hevent : event ∈ w.events ∧ event ≤ 1 ∧ (1,Status.ok) ∈ w.built ∧
      (.latest .heartbeat,1) ∈ w.sender.history.accepted)
    (hnone : ∀ sent ∈ w.sender.history.accepted, event ≤ sent.2 →
      (sent.2,Status.degraded) ∉ w.built) :
    ¬Throughout (perform smallBatches) Shown midnightWorld acts := by
  intro h
  obtain ⟨id,hle,hbuilt,hsent⟩ := h.last hw event hevent.1 .ok ⟨1,hevent.2⟩
  exact hnone _ hsent hle hbuilt

/-- Neither run ever shows its event. -/
theorem degradation_hidden :
    ¬Throughout (perform smallBatches) Shown midnightWorld replacedReport ∧
      ¬Throughout (perform smallBatches) Shown midnightWorld clearedFlag := by
  constructor
  · exact @not_shown replacedReport _ 0 rfl (by decide) (by decide)
  · exact @not_shown clearedFlag _ 1 rfl (by decide) (by decide)

end Example

end OneStep.DegradedHeartbeats
