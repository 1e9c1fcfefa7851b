import OneStep.Coroutine
import OneStep.Transition
import Mathlib.Data.Int.Notation
import Mathlib.Data.List.Nodup
import Mathlib.Logic.Function.Basic

/-!
# The worker agent and its supervisor

A worker agent handles its commands one after another. Every await of a handler may raise;
which do is a record, so that a handler is a coroutine that logs the frames it transmits.
The children that run are kept next to what the supervisor and its state file know of them;
they end only when they are terminated. Messages, paths and environments are left out.
-/
namespace OneStep.WorkerAgent
open Coroutine Transition

section Frames

inductive DeploymentStatus where
  | assigned | preparing | installing | checking | running | stopping | stopped | failed
  deriving DecidableEq

inductive CommandKind where
  | startDeployment | stopDeployment | restartDeployment
  deriving DecidableEq

structure Command where
  commandId : String
  deploymentId : String
  kind : CommandKind
  deriving DecidableEq

inductive AckStatus where
  | accepted | rejected
  deriving DecidableEq

inductive ResultStatus where
  | succeeded | failed
  deriving DecidableEq

inductive Frame where
  | deploymentEvent (deploymentId : String) (observedStatus : DeploymentStatus)
  | commandAck (commandId : String) (status : AckStatus) (errorCode : Option String)
  | commandResult (commandId : String) (status : ResultStatus) (errorCode : Option String)
  deriving DecidableEq

/-- Where a handler awaits something. -/
inductive Point where
  | ack | preparing | download | extract | installing | install | checking | check | checkResult
  | spawn | failedEvent | failedResult | runningEvent | startedResult | stopping | stoppedEvent
  | stoppedResult
  deriving DecidableEq

/-- An exception; that of a send may come after the frame went out, and may leave the
connection open. -/
structure Fault where
  error : String
  transmitted : Bool := false
  closes : Bool := true

structure Faults where
  raised : Point → Option Fault := fun _ => none
  checkReturncode : ℤ := 0

end Frames

section Supervisor

/-- The supervisor, the process ids in its state file, and the children that run. -/
structure Agent where
  reserved : List String := []
  processes : String → Option ℕ := fun _ => none
  externalPids : String → Option ℕ := fun _ => none
  states : List (String × ℕ) := []
  live : List (String × ℕ) := []
  nextPid : ℕ := 1
  connected : Bool := true

variable (maxConcurrentDeployments : ℕ)

/-- None where no slot is available. -/
def reserveSlot (deploymentId : String) (agent : Agent) : Option Agent :=
  if deploymentId ∈ agent.reserved then some agent
  else if maxConcurrentDeployments ≤ agent.reserved.length then none
  else some {agent with reserved := deploymentId::agent.reserved}

def removeState (deploymentId : String) (states : List (String × ℕ)) : List (String × ℕ) :=
  states.filter fun state => state.1 ≠ deploymentId

def upsertState (deploymentId : String) (pid : ℕ) (states : List (String × ℕ)) : List (String × ℕ) :=
  (removeState deploymentId states++[(deploymentId,pid)]).mergeSort fun a b => a.1 ≤ b.1

def releaseSlot (deploymentId : String) (agent : Agent) : Agent :=
  {agent with
    reserved := agent.reserved.filter (· ≠ deploymentId)
    processes := Function.update agent.processes deploymentId none
    externalPids := Function.update agent.externalPids deploymentId none
    states := removeState deploymentId agent.states}

def terminate (pid : ℕ) (agent : Agent) : Agent :=
  {agent with live := agent.live.filter fun child => child.2 ≠ pid}

def stop (deploymentId : String) (agent : Agent) : Agent :=
  match agent.processes deploymentId with
  | some pid => releaseSlot deploymentId (terminate pid agent)
  | none =>
    match agent.externalPids deploymentId with
    | some pid => releaseSlot deploymentId (terminate pid agent)
    | none => releaseSlot deploymentId agent

/-- The child is created, and the supervisor and its state file hear of it. -/
def spawn (deploymentId : String) (agent : Agent) : Agent :=
  {agent with
    live := agent.live++[(deploymentId,agent.nextPid)]
    nextPid := agent.nextPid+1
    processes := Function.update agent.processes deploymentId (some agent.nextPid)
    states := upsertState deploymentId agent.nextPid agent.states}

/-- One state of the file in `recover_running_deployments`. -/
def recoverState (agent : Agent) (state : String × ℕ) : Agent :=
  if agent.live.any fun child => child.2 = state.2 then
    match reserveSlot maxConcurrentDeployments state.1 agent with
    | some reserved => {reserved with
        externalPids := Function.update reserved.externalPids state.1 (some state.2)}
    | none => agent
  else {agent with states := removeState state.1 agent.states}

/-- The agent process starts again; its children go on. -/
def recoverRunningDeployments (agent : Agent) : Agent :=
  agent.states.foldl (recoverState maxConcurrentDeployments) {agent with
    reserved := []
    processes := fun _ => none
    externalPids := fun _ => none}

end Supervisor

section Handlers

abbrev Handler := Co Agent Frame String

variable (maxConcurrentDeployments : ℕ) (faults : Faults) (command : Command)

def send (point : Point) (frame : Frame) : Handler Unit := do
  let agent ← current
  if agent.connected then
    match faults.raised point with
    | none => call frame (.ok ())
    | some fault => do
      assign fun agent => {agent with connected := !fault.closes}
      if fault.transmitted then call frame (.error (.raised fault.error))
      else interrupt (.raised fault.error)
  else interrupt (.raised "ConnectionClosedError")

/-- A download, extraction, install or spawn. -/
def work (point : Point) : Handler Unit :=
  match faults.raised point with
  | none => pure ()
  | some fault => interrupt (.raised fault.error)

/-- `supervisor.start`; the slot is reserved by then. -/
def start : Handler Unit := do
  let agent ← current
  match reserveSlot maxConcurrentDeployments command.deploymentId agent with
  | none => interrupt (.raised "RuntimeError")
  | some reserved => do
    assign fun _ => reserved
    attempt (work faults .spawn) fun error => do
      assign (releaseSlot command.deploymentId)
      interrupt (.raised error)
    assign (spawn command.deploymentId)

/-- The try block of `_handle_start_deployment_command`, and whether it comes to its end. -/
def prepareAndStart : Handler Bool := do
  send faults .preparing (.deploymentEvent command.deploymentId .preparing)
  work faults .download
  work faults .extract
  send faults .installing (.deploymentEvent command.deploymentId .installing)
  work faults .install
  send faults .checking (.deploymentEvent command.deploymentId .checking)
  work faults .check
  if faults.checkReturncode ≠ 0 then do
    assign (releaseSlot command.deploymentId)
    send faults .checkResult (.commandResult command.commandId .failed (some "check_failed"))
    return false
  else do
    start maxConcurrentDeployments faults command
    return true

/-- The end of both except blocks. -/
def reportFailure (error : String) : Handler Bool := do
  send faults .failedEvent (.deploymentEvent command.deploymentId .failed)
  send faults .failedResult (.commandResult command.commandId .failed (some error))
  return false

def startAccepted : Handler Unit := do
  let started ← attempt (prepareAndStart maxConcurrentDeployments faults command) fun error => do
    assign (releaseSlot command.deploymentId)
    reportFailure faults command error
  if started then do
    send faults .runningEvent (.deploymentEvent command.deploymentId .running)
    send faults .startedResult (.commandResult command.commandId .succeeded none)
  else pure ()

/-- What follows the stop of the process that a restart finds. -/
def startDeployment : Handler Unit := do
  let agent ← current
  match reserveSlot maxConcurrentDeployments command.deploymentId agent with
  | none => send faults .ack (.commandAck command.commandId .rejected (some "no_slots_available"))
  | some reserved => do
    assign fun _ => reserved
    send faults .ack (.commandAck command.commandId .accepted none)
    startAccepted maxConcurrentDeployments faults command

def handleStopDeploymentCommand : Handler Unit := do
  send faults .ack (.commandAck command.commandId .accepted none)
  let stopped ← attempt (do
    send faults .stopping (.deploymentEvent command.deploymentId .stopping)
    assign (stop command.deploymentId)
    return true) (reportFailure faults command)
  if stopped then do
    send faults .stoppedEvent (.deploymentEvent command.deploymentId .stopped)
    send faults .stoppedResult (.commandResult command.commandId .succeeded none)
  else pure ()

def handleControlMessage : Handler Unit :=
  match command.kind with
  | .startDeployment => startDeployment maxConcurrentDeployments faults command
  | .stopDeployment => handleStopDeploymentCommand faults command
  | .restartDeployment => do
    assign (stop command.deploymentId)
    startDeployment maxConcurrentDeployments faults command

end Handlers

section States

variable {maxConcurrentDeployments : ℕ} {faults : Faults} {command : Command} {agent : Agent}
  {α β : Type}

def Agent.link (agent : Agent) (connected : Bool) : Agent := {agent with connected := connected}

/-- What holds of the outcome and of the agent, whatever was transmitted. -/
def Leaves (p : Handler α) (agent : Agent) (Q : Outcome String α → Agent → Prop) : Prop :=
  After p agent fun r t _ => Q r t

theorem leaves_bind {p : Handler α} {f : α → Handler β} {Q : Outcome String β → Agent → Prop} :
    Leaves (p >>= f) agent Q ↔ Leaves p agent fun r t =>
      match r with
      | .ok a => Leaves (f a) t Q
      | .error i => Q (.error i) t := by
  unfold Leaves After
  cases hr : (p.run agent).result with
  | ok a =>
    rw [bind_of_ok hr]
    exact Iff.rfl
  | error i =>
    rw [bind_of_error hr]

theorem leaves_attempt {p : Handler α} {h : String → Handler α} {Q : Outcome String α → Agent → Prop} :
    Leaves (attempt p h) agent Q ↔ Leaves p agent fun r t =>
      match r with
      | .error (.raised e) => Leaves (h e) t Q
      | r => Q r t := by
  unfold Leaves
  rw [after_attempt]
  unfold After
  cases hr : (p.run agent).result with
  | ok a => exact Iff.rfl
  | error i => cases i <;> exact Iff.rfl

variable {Q : Outcome String Unit → Agent → Prop}

theorem leaves_assign {f : Agent → Agent} :
    Leaves (assign f) agent Q ↔ Q (.ok ()) (f agent) := Iff.rfl

variable {point : Point} {frame : Frame}

theorem leaves_send (hok : ∀ connected, Q (.ok ()) (agent.link connected))
    (hraised : ∀ error connected, Q (.error (.raised error)) (agent.link connected)) :
    Leaves (send faults point frame) agent Q := by
  have hsame : agent = agent.link agent.connected := rfl
  rw [send,leaves_bind]
  change Leaves (if agent.connected then _ else _) agent _
  split
  · split
    · rw [Leaves,After,hsame]
      exact hok _
    · next fault _ =>
        rw [leaves_bind]
        change Leaves (if fault.transmitted then _ else _) (agent.link (!fault.closes)) _
        split
        · exact hraised _ _
        · exact hraised _ _
  · rw [Leaves,After,hsame]
    exact hraised _ _

theorem leaves_work (hok : Q (.ok ()) agent) (hraised : ∀ error, Q (.error (.raised error)) agent) :
    Leaves (work faults point) agent Q := by
  unfold work
  split
  · exact hok
  · exact hraised _

theorem leaves_reportFailure {error : String} {Q : Outcome String Bool → Agent → Prop}
    (hok : ∀ connected, Q (.ok false) (agent.link connected))
    (hraised : ∀ error connected, Q (.error (.raised error)) (agent.link connected)) :
    Leaves (reportFailure faults command error) agent Q := by
  rw [reportFailure,leaves_bind]
  refine leaves_send (fun connected => ?_) hraised
  change Leaves (send _ _ _ >>= _) _ _
  rw [leaves_bind]
  exact leaves_send hok hraised

theorem release_release (deploymentId : String) (agent : Agent) :
    releaseSlot deploymentId (releaseSlot deploymentId agent) = releaseSlot deploymentId agent := by
  simp only [releaseSlot,removeState,List.filter_filter,Bool.and_self,Function.update_idem]

theorem reserve_held {deploymentId : String} (h : deploymentId ∈ agent.reserved) :
    reserveSlot maxConcurrentDeployments deploymentId agent = some agent := if_pos h

theorem leaves_start (hheld : command.deploymentId ∈ agent.reserved)
    (hok : Q (.ok ()) (spawn command.deploymentId agent))
    (hraised : ∀ error, Q (.error (.raised error)) (releaseSlot command.deploymentId agent)) :
    Leaves (start maxConcurrentDeployments faults command) agent Q := by
  rw [start,leaves_bind]
  change Leaves (match reserveSlot _ _ agent with | none => _ | some reserved => _) agent Q
  rw [reserve_held hheld]
  change Leaves (attempt _ _ >>= _) agent Q
  rw [leaves_bind,leaves_attempt]
  refine leaves_work ?_ fun error => ?_
  · exact hok
  · exact hraised error

/-- The ways in which the try block of a start ends. -/
theorem leaves_prepareAndStart {Q : Outcome String Bool → Agent → Prop}
    (hheld : command.deploymentId ∈ agent.reserved)
    (hstarted : ∀ connected, Q (.ok true) ((spawn command.deploymentId agent).link connected))
    (hchecked : ∀ connected, Q (.ok false) ((releaseSlot command.deploymentId agent).link connected))
    (hraised : ∀ error connected, Q (.error (.raised error)) (agent.link connected))
    (hreleased : ∀ error connected,
      Q (.error (.raised error)) ((releaseSlot command.deploymentId agent).link connected)) :
    Leaves (prepareAndStart maxConcurrentDeployments faults command) agent Q := by
  rw [prepareAndStart,leaves_bind]
  refine leaves_send (fun c1 => ?_) hraised
  change Leaves (work _ _ >>= _) _ _
  rw [leaves_bind]
  refine leaves_work ?_ fun error => hraised error c1
  change Leaves (work _ _ >>= _) _ _
  rw [leaves_bind]
  refine leaves_work ?_ fun error => hraised error c1
  change Leaves (send _ _ _ >>= _) _ _
  rw [leaves_bind]
  refine leaves_send (fun c2 => ?_) fun error c2 => hraised error c2
  change Leaves (work _ _ >>= _) _ _
  rw [leaves_bind]
  refine leaves_work ?_ fun error => hraised error c2
  change Leaves (send _ _ _ >>= _) _ _
  rw [leaves_bind]
  refine leaves_send (fun c3 => ?_) fun error c3 => hraised error c3
  change Leaves (work _ _ >>= _) _ _
  rw [leaves_bind]
  refine leaves_work ?_ fun error => hraised error c3
  change Leaves (if faults.checkReturncode ≠ 0 then _ else _) (agent.link c3) Q
  split
  · change Leaves (send _ _ _ >>= _) (releaseSlot command.deploymentId (agent.link c3)) Q
    rw [leaves_bind]
    exact leaves_send hchecked hreleased
  · rw [leaves_bind]
    have hlinked : command.deploymentId ∈ (agent.link c3).reserved := hheld
    exact leaves_start hlinked (hstarted c3) fun error => hreleased error c3

theorem leaves_giveUp {error : String} {t : Agent} {Q : Outcome String Bool → Agent → Prop}
    (ht : ∃ connected, releaseSlot command.deploymentId t =
      (releaseSlot command.deploymentId agent).link connected)
    (hok : ∀ connected, Q (.ok false) ((releaseSlot command.deploymentId agent).link connected))
    (hraised : ∀ error connected,
      Q (.error (.raised error)) ((releaseSlot command.deploymentId agent).link connected)) :
    Leaves (do
      assign (releaseSlot command.deploymentId)
      reportFailure faults command error) t Q := by
  obtain ⟨connected,ht⟩ := ht
  rw [leaves_bind,leaves_assign]
  dsimp only
  rw [ht]
  exact leaves_reportFailure hok hraised

theorem leaves_startAccepted (hheld : command.deploymentId ∈ agent.reserved)
    (hstarted : ∀ r connected, Q r ((spawn command.deploymentId agent).link connected))
    (hreleased : ∀ r connected, Q r ((releaseSlot command.deploymentId agent).link connected)) :
    Leaves (startAccepted maxConcurrentDeployments faults command) agent Q := by
  rw [startAccepted,leaves_bind,leaves_attempt]
  refine leaves_prepareAndStart hheld (fun c1 => ?_) (hreleased _) (fun error c1 => ?_) fun error c1 => ?_
  · change Leaves (send _ _ _ >>= _) _ Q
    rw [leaves_bind]
    refine leaves_send (fun c2 => ?_) fun error c2 => hstarted _ c2
    exact leaves_send (hstarted _) fun error => hstarted _
  · exact leaves_giveUp ⟨c1,rfl⟩ (hreleased _) fun error => hreleased _
  · refine leaves_giveUp ⟨c1,?_⟩ (hreleased _) fun error => hreleased _
    exact release_release command.deploymentId (agent.link c1)

theorem leaves_send_ok (hconnected : agent.connected = true) (h : faults.raised point = none) :
    Leaves (send faults point frame) agent Q ↔ Q (.ok ()) agent := by
  rw [send,leaves_bind]
  change Leaves (if agent.connected then _ else _) agent _ ↔ _
  rw [if_pos hconnected,h]
  exact Iff.rfl

theorem leaves_send_raised {fault : Fault} (hconnected : agent.connected = true)
    (h : faults.raised point = some fault) : Leaves (send faults point frame) agent Q ↔
      Q (.error (.raised fault.error)) (agent.link (!fault.closes)) := by
  rw [send,leaves_bind]
  change Leaves (if agent.connected then _ else _) agent _ ↔ _
  rw [if_pos hconnected,h]
  dsimp only
  rw [leaves_bind]
  change Leaves (if fault.transmitted then _ else _) (agent.link (!fault.closes)) _ ↔ _
  split <;> exact Iff.rfl

theorem leaves_startDeployment (hconnected : agent.connected = true)
    (hfull : reserveSlot maxConcurrentDeployments command.deploymentId agent = none →
      ∀ r connected, Q r (agent.link connected))
    (hraised : ∀ reserved fault, reserveSlot maxConcurrentDeployments command.deploymentId agent =
      some reserved → faults.raised .ack = some fault → Q (.error (.raised fault.error))
        (reserved.link (!fault.closes)))
    (hstarted : ∀ reserved, reserveSlot maxConcurrentDeployments command.deploymentId agent =
      some reserved → faults.raised .ack = none →
        ∀ r connected, Q r ((spawn command.deploymentId reserved).link connected))
    (hreleased : ∀ reserved, reserveSlot maxConcurrentDeployments command.deploymentId agent =
      some reserved → faults.raised .ack = none →
        ∀ r connected, Q r ((releaseSlot command.deploymentId reserved).link connected)) :
    Leaves (startDeployment maxConcurrentDeployments faults command) agent Q := by
  rw [startDeployment,leaves_bind]
  change Leaves (match reserveSlot _ _ agent with | none => _ | some reserved => _) agent Q
  cases hreserve : reserveSlot maxConcurrentDeployments command.deploymentId agent with
  | none => exact leaves_send (hfull hreserve _) fun error => hfull hreserve _
  | some reserved =>
    have hsame : reserved.connected = true ∧ command.deploymentId ∈ reserved.reserved := by
      unfold reserveSlot at hreserve
      split at hreserve
      · next hheld =>
          cases hreserve
          exact ⟨hconnected,hheld⟩
      · split at hreserve
        · cases hreserve
        · cases hreserve
          exact ⟨hconnected,List.mem_cons_self⟩
    dsimp only
    rw [leaves_bind,leaves_assign]
    dsimp only
    rw [leaves_bind]
    cases hack : faults.raised .ack with
    | some fault =>
      rw [leaves_send_raised hsame.1 hack]
      exact hraised reserved fault hreserve hack
    | none =>
      rw [leaves_send_ok hsame.1 hack]
      exact leaves_startAccepted hsame.2 (hstarted reserved hreserve hack)
        (hreleased reserved hreserve hack)

theorem stop_link (deploymentId : String) (connected : Bool) :
    stop deploymentId (agent.link connected) = (stop deploymentId agent).link connected := by
  unfold stop
  change (match agent.processes deploymentId with | some pid => _ | none => _) = _
  cases agent.processes deploymentId with
  | some pid => rfl
  | none =>
    change (match agent.externalPids deploymentId with | some pid => _ | none => _) = _
    cases agent.externalPids deploymentId <;> rfl

theorem leaves_handleStop (hkept : ∀ r connected, Q r (agent.link connected))
    (hstopped : ∀ r connected, Q r ((stop command.deploymentId agent).link connected)) :
    Leaves (handleStopDeploymentCommand faults command) agent Q := by
  rw [handleStopDeploymentCommand,leaves_bind]
  refine leaves_send (fun c1 => ?_) fun error => hkept _
  dsimp only
  rw [leaves_bind,leaves_attempt,leaves_bind]
  refine leaves_send (fun c2 => ?_) fun error c2 => ?_
  · dsimp only
    rw [leaves_bind,leaves_assign]
    change Leaves (send _ _ _ >>= _) (stop command.deploymentId (agent.link c2)) Q
    rw [stop_link,leaves_bind]
    refine leaves_send (fun c3 => ?_) fun error c3 => hstopped _ c3
    exact leaves_send (hstopped _) fun error => hstopped _
  · exact leaves_reportFailure (hkept _) fun error => hkept _

end States

section Supervision

variable {agent : Agent} {deploymentId : String}

/-- The process that a stop terminates. -/
def Agent.target (agent : Agent) (deploymentId : String) : Option ℕ :=
  (agent.processes deploymentId).or (agent.externalPids deploymentId)

/-- A child is what the supervisor knows of its deployment, and has a slot. -/
structure Supervised (agent : Agent) : Prop where
  pids : (agent.live.map Prod.snd).Nodup
  fresh : ∀ child ∈ agent.live, child.2 < agent.nextPid
  target : ∀ deploymentId pid, agent.target deploymentId = some pid ↔ (deploymentId,pid) ∈ agent.live
  reserved : ∀ child ∈ agent.live, child.1 ∈ agent.reserved

def Agent.Alive (agent : Agent) (deploymentId : String) : Prop :=
  ∃ pid, (deploymentId,pid) ∈ agent.live

theorem alive_iff : agent.Alive deploymentId ↔ deploymentId ∈ agent.live.map Prod.fst := by
  rw [List.mem_map]
  constructor
  · rintro ⟨pid,hmem⟩
    exact ⟨_,hmem,rfl⟩
  · rintro ⟨⟨_,pid⟩,hmem,rfl⟩
    exact ⟨pid,hmem⟩

theorem Supervised.one (h : Supervised agent) : (agent.live.map Prod.fst).Nodup := by
  refine h.pids.of_map.map_on ?_
  rintro ⟨id,pid⟩ hmem ⟨id',pid'⟩ hmem' heq
  obtain rfl : id = id' := heq
  obtain rfl := Option.mem_unique ((h.target id pid).mpr hmem) ((h.target id pid').mpr hmem')
  rfl

theorem supervised_link (connected : Bool) (h : Supervised agent) : Supervised (agent.link connected) :=
  ⟨h.pids,h.fresh,h.target,h.reserved⟩

theorem supervised_reserve {maxConcurrentDeployments : ℕ} {reserved : Agent} (h : Supervised agent)
    (hreserve : reserveSlot maxConcurrentDeployments deploymentId agent = some reserved) :
    Supervised reserved ∧ reserved.live = agent.live ∧ deploymentId ∈ reserved.reserved := by
  unfold reserveSlot at hreserve
  split at hreserve
  · next hheld =>
      cases hreserve
      exact ⟨h,rfl,hheld⟩
  · split at hreserve
    · cases hreserve
    · cases hreserve
      exact ⟨⟨h.pids,h.fresh,h.target,fun child hc => List.mem_cons_of_mem _ (h.reserved child hc)⟩,rfl,
        List.mem_cons_self⟩

theorem target_release (deploymentId other : String) (agent : Agent) :
    (releaseSlot deploymentId agent).target other =
      if other = deploymentId then none else agent.target other := by
  unfold releaseSlot Agent.target
  dsimp only
  split
  · next heq => rw [heq,Function.update_self,Function.update_self,Option.none_or]
  · next hne => rw [Function.update_of_ne hne,Function.update_of_ne hne]

theorem supervised_release (h : Supervised agent) (hdead : ¬agent.Alive deploymentId) :
    Supervised (releaseSlot deploymentId agent) := by
  refine ⟨h.pids,h.fresh,fun other pid => ?_,fun child hchild => ?_⟩
  · rw [target_release]
    split
    · next heq =>
        rw [heq]
        exact iff_of_false nofun fun hmem => hdead ⟨pid,hmem⟩
    · exact h.target other pid
  · refine List.mem_filter.mpr ⟨h.reserved child hchild,decide_eq_true ?_⟩
    rintro rfl
    exact hdead ⟨child.2,hchild⟩

theorem supervised_spawn (h : Supervised agent) (hdead : ¬agent.Alive deploymentId)
    (hheld : deploymentId ∈ agent.reserved) : Supervised (spawn deploymentId agent) := by
  refine ⟨?_,fun child hchild => ?_,fun other pid => ?_,fun child hchild => ?_⟩
  · change ((agent.live++[(deploymentId,agent.nextPid)]).map Prod.snd).Nodup
    rw [List.map_append,List.nodup_append]
    refine ⟨h.pids,List.nodup_singleton _,?_⟩
    rintro pid hpid _ hlast rfl
    rw [List.map_singleton,List.mem_singleton] at hlast
    obtain ⟨child,hchild,hsame⟩ := List.mem_map.mp hpid
    exact absurd (h.fresh child hchild) (by rw [hsame,hlast]; exact Nat.lt_irrefl _)
  · rcases List.mem_append.mp hchild with hold | hlast
    · exact Nat.lt_succ_of_lt (h.fresh child hold)
    · rw [List.mem_singleton.mp hlast]
      exact Nat.lt_succ_self _
  · change (Function.update agent.processes deploymentId (some agent.nextPid) other).or
      (agent.externalPids other) = _ ↔ (other,pid) ∈ agent.live++[(deploymentId,agent.nextPid)]
    rw [List.mem_append,List.mem_singleton,Prod.mk.injEq]
    by_cases heq : other = deploymentId
    · subst heq
      rw [Function.update_self,Option.some_or,Option.some.injEq]
      constructor
      · exact fun hpid => .inr ⟨rfl,hpid.symm⟩
      · rintro (hmem | hlast)
        · exact absurd ⟨pid,hmem⟩ hdead
        · exact hlast.2.symm
    · rw [Function.update_of_ne heq]
      refine (h.target other pid).trans ⟨.inl,?_⟩
      rintro (hmem | hlast)
      · exact hmem
      · exact absurd hlast.1 heq
  · rcases List.mem_append.mp hchild with hold | hlast
    · exact h.reserved child hold
    · rw [List.mem_singleton.mp hlast]
      exact hheld

theorem stop_eq (deploymentId : String) (agent : Agent) : stop deploymentId agent =
    releaseSlot deploymentId (match agent.target deploymentId with
      | some pid => terminate pid agent
      | none => agent) := by
  unfold stop Agent.target
  cases agent.processes deploymentId with
  | some pid => rfl
  | none => cases agent.externalPids deploymentId <;> rfl

theorem live_stop (deploymentId : String) (h : Supervised agent) :
    (stop deploymentId agent).live = agent.live.filter fun child => child.1 ≠ deploymentId := by
  rw [stop_eq]
  cases htarget : agent.target deploymentId with
  | none =>
    refine (List.filter_eq_self.mpr fun child hchild => decide_eq_true ?_).symm
    rintro rfl
    rw [(h.target child.1 child.2).mpr hchild] at htarget
    cases htarget
  | some pid =>
    apply List.filter_congr
    rintro ⟨id,pid'⟩ hchild
    have hmem := (h.target deploymentId pid).mp htarget
    rw [decide_eq_decide,not_iff_not]
    constructor
    · rintro rfl
      have hsame := List.inj_on_of_nodup_map h.pids hchild hmem rfl
      exact congrArg Prod.fst hsame
    · rintro rfl
      exact Option.mem_unique ((h.target id pid').mpr hchild) htarget

theorem supervised_stop (deploymentId : String) (h : Supervised agent) :
    Supervised (stop deploymentId agent) := by
  have hlive := live_stop deploymentId h
  have hrest : (stop deploymentId agent).nextPid = agent.nextPid ∧
      (∀ other, (stop deploymentId agent).target other =
        if other = deploymentId then none else agent.target other) ∧
      (stop deploymentId agent).reserved = agent.reserved.filter (· ≠ deploymentId) := by
    rw [stop_eq]
    cases agent.target deploymentId with
    | none => exact ⟨rfl,fun other => target_release _ _ _,rfl⟩
    | some pid => exact ⟨rfl,fun other => target_release _ _ _,rfl⟩
  obtain ⟨hnext,htarget,hreserved⟩ := hrest
  refine ⟨?_,fun child hchild => ?_,fun other pid => ?_,fun child hchild => ?_⟩
  · rw [hlive]
    exact h.pids.sublist (List.filter_sublist.map _)
  · rw [hlive] at hchild
    rw [hnext]
    exact h.fresh child (List.mem_filter.mp hchild).1
  · rw [htarget,hlive,List.mem_filter,decide_eq_true_eq]
    split
    · next heq => exact iff_of_false nofun fun hmem => hmem.2 heq
    · next hne => exact (h.target other pid).trans ⟨fun hmem => ⟨hmem,hne⟩,And.left⟩
  · rw [hlive] at hchild
    rw [hreserved]
    obtain ⟨hmem,hne⟩ := List.mem_filter.mp hchild
    exact List.mem_filter.mpr ⟨h.reserved child hmem,hne⟩

end Supervision

end OneStep.WorkerAgent
