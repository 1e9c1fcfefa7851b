import OneStep.AgentCommands
import Mathlib.Logic.Function.Basic

/-!
# One agent process and the commands of its instance

The agent keeps a receipt of each command it was told of, with the result once there is one,
and answers a command that comes again from it. Its sends wait for a lock and then for the
socket; each of them may raise, before or after its frame went out. Connections are told by
their numbers, one is opened after the other, and what is under way on a broken one may
arrive late or never. The plane redelivers what waits after each hello. Arguments of
commands and the types of messages that concern no command are left out.
-/
namespace OneStep.AgentProcess
open AgentCommands JsonValues Transition

section Frames

structure CommandMessage where
  commandId : String
  kind : AgentCommandKind
  timeoutS : ℕ
  createdAt : ℤ

def buildCommandMessage (command : AgentCommand) : CommandMessage :=
  ⟨command.commandId,command.kind,command.timeoutS,command.createdAt⟩

def kindText : AgentCommandKind → String
  | .ping => "ping"
  | .restart => "restart"
  | .drain => "drain"
  | .pauseTask => "pause_task"
  | .resumeTask => "resume_task"
  | .restartTask => "restart_task"
  | .discardDeadLetters => "discard_dead_letters"
  | .replayDeadLetters => "replay_dead_letters"
  | .runTaskOnce => "run_task_once"
  | .syncNow => "sync_now"
  | .flushMetrics => "flush_metrics"
  | .flushEvents => "flush_events"
  | .shutdown => "shutdown"

def supportedCapabilities : List String := [
  "telemetry.sync",
  "telemetry.heartbeat",
  "telemetry.metrics",
  "telemetry.custom_metrics",
  "telemetry.events",
  "command.ping",
  "command.shutdown",
  "command.restart",
  "command.drain",
  "command.pause_task",
  "command.resume_task",
  "command.restart_task",
  "command.discard_dead_letters",
  "command.replay_dead_letters",
  "command.run_task_once",
  "command.sync_now",
  "command.flush_metrics",
  "command.flush_events"]

def acceptedCapabilities (capabilities : List String) : List String :=
  capabilities.filter (· ∈ supportedCapabilities)

/-- What the agent sends to the plane. -/
inductive PlaneFrame where
  | hello (capabilities : List String)
  | commandAck (payload : AckPayload)
  | commandResult (payload : ResultPayload)

structure Receipt where
  ack : AckPayload
  result : Option ResultPayload := none

/-- How a command handler ends. -/
inductive Outcome where
  | succeeded (result : List (String × Json))
  | timeout
  | cancelled
  | failed (text : String)

/-- The result message of `_execute_command`. -/
def buildCommandResult (command : CommandMessage) (finishedAt durationMs : ℤ) :
    Outcome → ResultPayload
  | .succeeded result =>
    ⟨command.commandId,.succeeded,finishedAt,
      some (if result.isEmpty then [("ok",.bool true)] else result),some (max durationMs 0),none,none⟩
  | .timeout =>
    ⟨command.commandId,.timeout,finishedAt,none,some (max durationMs 0),
      some "command_execution_timeout",
      some ("command exceeded timeout_s=" ++ String.ofList (JsonText.intText command.timeoutS))⟩
  | .cancelled =>
    ⟨command.commandId,.cancelled,finishedAt,none,some (max durationMs 0),
      some "command_execution_cancelled",some "command execution was cancelled"⟩
  | .failed text =>
    ⟨command.commandId,.failed,finishedAt,none,some (max durationMs 0),
      some "command_execution_failed",some text⟩

/-- What follows a send that returns. -/
inductive Purpose where
  | accept (command : CommandMessage)
  | replay (commandId : String)
  | last

/-- A call of `_send_message`, on the connection there was at the call. -/
structure Sending where
  purpose : Purpose
  frame : PlaneFrame
  connection : ℕ
  transmitted : Bool := false

/-- The plane's clock, table and registered connection, the agent, and what is under way.
The commands whose execution task was created are noted in order, and those that the plane
recorded as accepted from an acknowledgement. -/
structure World where
  now : ℤ
  table : Table := []
  session : Option (ℕ × List String) := none
  greeted : List ℕ := []
  receipts : String → Option Receipt := fun _ => none
  connection : Option ℕ := none
  opened : ℕ := 0
  sending : List Sending := []
  created : List String := []
  running : List CommandMessage := []
  toAgent : List (ℕ × CommandMessage) := []
  toPlane : List (ℕ × PlaneFrame) := []
  recorded : List String := []

end Frames

section Agent

/-- `_send_message` up to its first wait; without a connection it raises at once. -/
def startSend (purpose : Purpose) (frame : PlaneFrame) (s : World) : World :=
  match s.connection with
  | none => s
  | some k => {s with sending := s.sending++[⟨purpose,frame,k,false⟩]}

def storeReceipt (commandId : String) (receipt : Receipt) (s : World) : World :=
  {s with receipts := Function.update s.receipts commandId (some receipt)}

def acceptAck (commandId : String) (receivedAt : ℤ) : AckPayload :=
  ⟨commandId,.accepted,receivedAt,none,none⟩

def rejectAck (command : CommandMessage) (receivedAt : ℤ) : AckPayload :=
  ⟨command.commandId,.rejected,receivedAt,some "unsupported_command",
    some ("command kind " ++ kindText command.kind ++ " is not supported by this agent")⟩

/-- `_handle_command_message` up to its first send. -/
def handleCommandMessage (supported : Bool) (receivedAt : ℤ) (command : CommandMessage)
    (s : World) : World :=
  match s.receipts command.commandId with
  | some receipt => startSend (.replay command.commandId) (.commandAck receipt.ack) s
  | none =>
    if supported then
      let ack := acceptAck command.commandId receivedAt
      startSend (.accept command) (.commandAck ack) (storeReceipt command.commandId ⟨ack,none⟩ s)
    else
      let ack := rejectAck command receivedAt
      startSend .last (.commandAck ack) (storeReceipt command.commandId ⟨ack,none⟩ s)

def afterSend (s : World) : Purpose → World
  | .accept command => {s with
      created := s.created++[command.commandId]
      running := s.running++[command]}
  | .replay commandId =>
    match (s.receipts commandId).bind Receipt.result with
    | some result => startSend .last (.commandResult result) s
    | none => s
  | .last => s

/-- The end of `_execute_command`: the result is kept and sent. A command that runs has a
receipt. -/
def finishCommand (result : ResultPayload) (s : World) : World :=
  match s.receipts result.commandId with
  | some receipt => startSend .last (.commandResult result)
      (storeReceipt result.commandId {receipt with result := some result} s)
  | none => s

def markDisconnected (k : ℕ) (s : World) : World :=
  if s.connection = some k then {s with connection := none} else s

end Agent

section Plane

/-- What is not part of the state: the float arithmetic, the names of sessions, the instance. -/
structure Setting where
  milliseconds : Milliseconds
  sessionId : ℕ → String
  instanceId : ℕ

variable (setting : Setting)

def Setting.context (k : ℕ) : ConnectionContext := ⟨setting.sessionId k,setting.instanceId⟩

/-- `create_instance_command`; what is refused is no step. -/
def createInstanceCommand (request : CreateRequest) (s : World) : Option World :=
  if request.instanceId ≠ setting.instanceId then none
  else match s.session with
    | none => (perform setting.milliseconds s.table (.create request s.now .keep)).map fun table =>
      {s with table := table}
    | some (k,capabilities) =>
      if getCommandCapability request.kind ∈ capabilities then
        (perform setting.milliseconds s.table
          (.create request s.now (.dispatch (setting.sessionId k) s.now))).map fun table =>
            {s with
              table := table
              toAgent := s.toAgent++[(k,buildCommandMessage (createCommand request s.now))]}
      else none

/-- The commands that a hello puts on its connection. -/
def redelivered (capabilities : List String) (s : World) : List AgentCommand :=
  (listRedeliverableCommandsForInstance setting.milliseconds setting.instanceId s.now s.table).filter
    fun command => getCommandCapability command.kind ∈ capabilities

/-- `_handle_hello`, `register` and `_enqueue_pending_commands`. -/
def handleHello (k : ℕ) (capabilities : List String) (s : World) : World :=
  {s with
    session := some (k,capabilities)
    greeted := k::s.greeted
    table := redeliver setting.milliseconds setting.instanceId s.now
      (enqueuePending capabilities (setting.sessionId k) fun _ => s.now) s.table
    toAgent := s.toAgent++(redelivered setting capabilities s).map fun command =>
      (k,buildCommandMessage command)}

/-- Whether `_handle_command_ack` sets the status of the row to accepted. -/
def recordsAccepted (payload : AckPayload) (command : AgentCommand) : Bool :=
  command.commandId = payload.commandId && command.finishedAt.isNone && command.ackStatus.isNone &&
    payload.status = .accepted

def handleFrame (k : ℕ) (s : World) : PlaneFrame → Option World
  | .hello capabilities => some (handleHello setting k (acceptedCapabilities capabilities) s)
  | .commandAck payload =>
    if k ∈ s.greeted then some {s with
      table := handleCommandAck (setting.context k) payload s.now s.table
      recorded := if s.table.any (recordsAccepted payload) then payload.commandId::s.recorded
        else s.recorded}
    else none
  | .commandResult payload =>
    if k ∈ s.greeted then
      some {s with table := handleCommandResult (setting.context k) payload s.now s.table}
    else none

end Plane

section Steps

def Intact (s : World) (k : ℕ) : Prop := s.connection = some k ∧ s.session.map Prod.fst = some k

instance (s : World) (k : ℕ) : Decidable (Intact s k) := inferInstanceAs (Decidable (_ ∧ _))

inductive Act where
  | tick (time : ℤ)
  | create (request : CreateRequest)
  | expire (instanceId serviceId : Option ℕ)
  | connect (capabilities : List String)
  | lost
  | unregister
  | loseCommand (i : ℕ)
  | loseFrame (i : ℕ)
  | receive (i : ℕ) (supported : Bool) (receivedAt : ℤ)
  | transmit (i : ℕ)
  | returns (i : ℕ)
  | raises (i : ℕ)
  | complete (i : ℕ) (outcome : Outcome) (finishedAt durationMs : ℤ)
  | handle (i : ℕ)

/-- Frames are told by their places; one is lost on a connection only that is not whole. -/
def step (setting : Setting) (s : World) : Act → Option World
  | .tick time => if s.now ≤ time then some {s with now := time} else none
  | .create request => createInstanceCommand setting request s
  | .expire instanceId serviceId => some {s with
      table := expireStaleCommands setting.milliseconds instanceId serviceId s.now s.table}
  | .connect capabilities =>
    if s.connection.isNone then some {s with
      connection := some s.opened
      opened := s.opened+1
      toPlane := s.toPlane++[(s.opened,.hello capabilities)]}
    else none
  | .lost => some {s with connection := none}
  | .unregister => some {s with session := none}
  | .loseCommand i => (s.toAgent[i]?).bind fun frame =>
    if Intact s frame.1 then none else some {s with toAgent := s.toAgent.eraseIdx i}
  | .loseFrame i => (s.toPlane[i]?).bind fun frame =>
    if Intact s frame.1 then none else some {s with toPlane := s.toPlane.eraseIdx i}
  | .receive i supported receivedAt => (s.toAgent[i]?).map fun frame =>
    handleCommandMessage supported receivedAt frame.2 {s with toAgent := s.toAgent.eraseIdx i}
  | .transmit i => (s.sending[i]?).bind fun item =>
    if item.transmitted then none
    else some {s with
      sending := s.sending.eraseIdx i++[{item with transmitted := true}]
      toPlane := s.toPlane++[(item.connection,item.frame)]}
  | .returns i => (s.sending[i]?).bind fun item =>
    if item.transmitted then some (afterSend {s with sending := s.sending.eraseIdx i} item.purpose)
    else none
  | .raises i => (s.sending[i]?).map fun item =>
    markDisconnected item.connection {s with sending := s.sending.eraseIdx i}
  | .complete i outcome finishedAt durationMs => (s.running[i]?).map fun command =>
    finishCommand (buildCommandResult command finishedAt durationMs outcome)
      {s with running := s.running.eraseIdx i}
  | .handle i => (s.toPlane[i]?).bind fun frame =>
    handleFrame setting frame.1 {s with toPlane := s.toPlane.eraseIdx i} frame.2

def Sending.awaits (item : Sending) : Option String :=
  match item.purpose with
  | .accept command => some command.commandId
  | _ => none

/-- The commands whose task is created when the send of their acknowledgement returns. -/
def awaited (s : World) : List String := s.sending.filterMap Sending.awaits

end Steps

section Bookkeeping

/-- A frame repeats what the receipts hold. -/
def Kept (receipts : String → Option Receipt) : PlaneFrame → Prop
  | .hello _ => True
  | .commandAck payload => ∃ receipt, receipts payload.commandId = some receipt ∧ receipt.ack = payload
  | .commandResult payload =>
    ∃ receipt, receipts payload.commandId = some receipt ∧ receipt.result = some payload

/-- The command was accepted and has no result yet. -/
def Working (s : World) (commandId : String) : Prop :=
  ∃ receipt, s.receipts commandId = some receipt ∧ receipt.ack.status = .accepted ∧ receipt.result = none

structure ReceiptOk (table : Table) (commandId : String) (receipt : Receipt) : Prop where
  listed : commandId ∈ table.map AgentCommand.commandId
  ack : receipt.ack.commandId = commandId
  result : ∀ result, receipt.result = some result →
    result.commandId = commandId ∧ receipt.ack.status = .accepted

structure TagsOk (s : World) : Prop where
  connection : ∀ k, s.connection = some k → k < s.opened
  session : ∀ session, s.session = some session → session.1 < s.opened
  sending : ∀ item ∈ s.sending, item.connection < s.opened
  toPlane : ∀ frame ∈ s.toPlane, frame.1 < s.opened

/-- What holds of every state. -/
structure Sound (setting : Setting) (s : World) : Prop where
  table : TableOk s.table
  rows : ∀ command ∈ s.table, command.instanceId = setting.instanceId
  told : ∀ frame ∈ s.toAgent, frame.2.commandId ∈ s.table.map AgentCommand.commandId
  receipts : ∀ commandId receipt, s.receipts commandId = some receipt →
    ReceiptOk s.table commandId receipt
  sending : ∀ item ∈ s.sending, Kept s.receipts item.frame
  toPlane : ∀ frame ∈ s.toPlane, Kept s.receipts frame.2
  once : (awaited s++s.created).Nodup
  awaiting : ∀ commandId ∈ awaited s, Working s commandId
  created : ∀ commandId ∈ s.created, ∃ receipt, s.receipts commandId = some receipt ∧
    receipt.ack.status = .accepted
  running : (s.running.map CommandMessage.commandId).Subperm s.created
  working : ∀ command ∈ s.running, Working s command.commandId
  recorded : ∀ commandId ∈ s.recorded, ∃ receipt, s.receipts commandId = some receipt ∧
    receipt.ack.status = .accepted
  tags : TagsOk s

variable {setting : Setting} {s t : World} {i : ℕ}

theorem perm_eraseIdx {A : Type} {l : List A} {a : A} (h : l[i]? = some a) :
    l.Perm (a::l.eraseIdx i) := by
  obtain ⟨hi,rfl⟩ := List.getElem?_eq_some_iff.mp h
  exact (List.getElem_cons_eraseIdx_perm hi).symm

theorem mem_or_erased {A : Type} {l : List A} {a x : A} (h : l[i]? = some a) (hx : x ∈ l) :
    x = a ∨ x ∈ l.eraseIdx i :=
  List.mem_cons.mp ((perm_eraseIdx h).subset hx)

variable {item : Sending}

theorem awaited_erase (h : s.sending[i]? = some item) :
    (awaited s).Perm (item.awaits.toList++awaited {s with sending := s.sending.eraseIdx i}) := by
  have hperm := (perm_eraseIdx h).filterMap Sending.awaits
  rw [List.filterMap_cons] at hperm
  cases hawaits : item.awaits with
  | none =>
    rw [hawaits] at hperm
    exact hperm
  | some commandId =>
    rw [hawaits] at hperm
    exact hperm

/-- Receipts stay, and so do the results in them. -/
def Grows (receipts receipts' : String → Option Receipt) : Prop :=
  ∀ commandId receipt, receipts commandId = some receipt →
    ∃ receipt', receipts' commandId = some receipt' ∧ receipt'.ack = receipt.ack ∧
      ∀ result, receipt.result = some result → receipt'.result = some result

variable {receipts : String → Option Receipt}

variable {frame : PlaneFrame}

theorem Kept.grows {receipts' : String → Option Receipt} (h : Kept receipts frame)
    (hgrows : Grows receipts receipts') : Kept receipts' frame := by
  cases frame with
  | hello capabilities => trivial
  | commandAck payload =>
    obtain ⟨receipt,hreceipt,hack⟩ := h
    obtain ⟨receipt',hreceipt',hack',-⟩ := hgrows _ receipt hreceipt
    exact ⟨receipt',hreceipt',hack'.trans hack⟩
  | commandResult payload =>
    obtain ⟨receipt,hreceipt,hresult⟩ := h
    obtain ⟨receipt',hreceipt',-,hkept⟩ := hgrows _ receipt hreceipt
    exact ⟨receipt',hreceipt',hkept _ hresult⟩

variable {commandId : String}

theorem grows_new {receipt : Receipt} (h : receipts commandId = none) :
    Grows receipts (Function.update receipts commandId (some receipt)) := by
  intro other receipt' hreceipt'
  have hne : other ≠ commandId := by
    rintro rfl
    rw [h] at hreceipt'
    cases hreceipt'
  exact ⟨receipt',by rw [Function.update_of_ne hne,hreceipt'],rfl,fun _ => id⟩

theorem grows_result {receipt : Receipt} (h : receipts commandId = some receipt)
    (hnone : receipt.result = none) (result : ResultPayload) :
    Grows receipts (Function.update receipts commandId (some {receipt with result := some result})) := by
  intro other receipt' hreceipt'
  by_cases heq : other = commandId
  · subst heq
    obtain rfl := Option.mem_unique hreceipt' h
    refine ⟨_,Function.update_self _ _ _,rfl,fun _ hresult => ?_⟩
    rw [hnone] at hresult
    cases hresult
  · exact ⟨receipt',by rw [Function.update_of_ne heq,hreceipt'],rfl,fun _ => id⟩

theorem sound_receipts (hs : Sound setting s) (hgrows : Grows s.receipts receipts)
    (hok : ∀ commandId receipt, receipts commandId = some receipt → ReceiptOk s.table commandId receipt)
    (hworking : ∀ commandId, (commandId ∈ awaited s ∨
      commandId ∈ s.running.map CommandMessage.commandId) → receipts commandId = s.receipts commandId) :
    Sound setting {s with receipts := receipts} := by
  have haccepted : ∀ commandId, (∃ receipt, s.receipts commandId = some receipt ∧
      receipt.ack.status = .accepted) → ∃ receipt, receipts commandId = some receipt ∧
        receipt.ack.status = .accepted := by
    rintro commandId ⟨receipt,hreceipt,hstatus⟩
    obtain ⟨receipt',hreceipt',hack,-⟩ := hgrows _ _ hreceipt
    exact ⟨receipt',hreceipt',by rw [hack,hstatus]⟩
  have hwork : ∀ commandId, (commandId ∈ awaited s ∨
      commandId ∈ s.running.map CommandMessage.commandId) → Working s commandId →
        Working {s with receipts := receipts} commandId := by
    rintro commandId hmem ⟨receipt,hreceipt,hreceiptOk⟩
    exact ⟨receipt,(hworking commandId hmem).trans hreceipt,hreceiptOk⟩
  exact {hs with
    receipts := hok
    sending := fun item hitem => (hs.sending item hitem).grows hgrows
    toPlane := fun frame hframe => (hs.toPlane frame hframe).grows hgrows
    awaiting := fun commandId hid => hwork commandId (.inl hid) (hs.awaiting commandId hid)
    created := fun commandId hid => haccepted commandId (hs.created commandId hid)
    working := fun command hcommand => hwork command.commandId
      (.inr (List.mem_map_of_mem hcommand)) (hs.working command hcommand)
    recorded := fun commandId hid => haccepted commandId (hs.recorded commandId hid)
    tags := {hs.tags with}}

theorem sound_storeNew {ack : AckPayload} (hs : Sound setting s)
    (hnone : s.receipts commandId = none) (hlisted : commandId ∈ s.table.map AgentCommand.commandId)
    (hack : ack.commandId = commandId) : Sound setting (storeReceipt commandId ⟨ack,none⟩ s) := by
  have hother : ∀ other, Working s other → other ≠ commandId := by
    rintro other ⟨receipt,hreceipt,-⟩ rfl
    rw [hnone] at hreceipt
    cases hreceipt
  apply sound_receipts hs (grows_new hnone)
  · intro other receipt hreceipt
    by_cases heq : other = commandId
    · subst heq
      rw [Function.update_self] at hreceipt
      cases hreceipt
      exact ⟨hlisted,hack,nofun⟩
    · rw [Function.update_of_ne heq] at hreceipt
      exact hs.receipts other receipt hreceipt
  · rintro other (hmem | hmem)
    · rw [Function.update_of_ne (hother other (hs.awaiting other hmem))]
    · obtain ⟨command,hcommand,rfl⟩ := List.mem_map.mp hmem
      rw [Function.update_of_ne (hother _ (hs.working command hcommand))]

theorem startSend_cases (purpose : Purpose) (frame : PlaneFrame) (s : World) :
    s.connection = none ∧ startSend purpose frame s = s ∨ ∃ k, s.connection = some k ∧
      startSend purpose frame s = {s with sending := s.sending++[⟨purpose,frame,k,false⟩]} := by
  unfold startSend
  cases hc : s.connection with
  | none => exact .inl ⟨rfl,rfl⟩
  | some k => exact .inr ⟨k,rfl,rfl⟩

theorem awaited_append (s : World) (item : Sending) :
    awaited {s with sending := s.sending++[item]} = awaited s++item.awaits.toList := by
  unfold awaited
  rw [List.filterMap_append]
  cases h : item.awaits <;> simp [h]

/-- A command whose acknowledgement may be sent for the first time. -/
structure Fresh (s : World) (commandId : String) : Prop where
  working : Working s commandId
  unawaited : commandId ∉ awaited s
  uncreated : commandId ∉ s.created

theorem sound_startSend {purpose : Purpose} (hs : Sound setting s) (hframe : Kept s.receipts frame)
    (hfresh : ∀ command, purpose = .accept command → Fresh s command.commandId) :
    Sound setting (startSend purpose frame s) := by
  rcases startSend_cases purpose frame s with ⟨-,hsame⟩ | ⟨k,hk,hsend⟩
  · rw [hsame]
    exact hs
  · rw [hsend]
    have hnew : ∀ commandId ∈ (Sending.awaits ⟨purpose,frame,k,false⟩).toList, Fresh s commandId := by
      intro commandId hid
      cases purpose with
      | accept command =>
        rw [List.mem_singleton.mp hid]
        exact hfresh command rfl
      | replay _ => cases hid
      | last => cases hid
    have hsplit : ∀ (p : Sending → Prop), (∀ item ∈ s.sending, p item) → p ⟨purpose,frame,k,false⟩ →
        ∀ item ∈ s.sending++[⟨purpose,frame,k,false⟩], p item := by
      intro p hold hlast item hitem
      rcases List.mem_append.mp hitem with hmem | hmem
      · exact hold item hmem
      · rw [List.mem_singleton.mp hmem]
        exact hlast
    exact {hs with
      sending := hsplit _ hs.sending hframe
      once := by
        rw [awaited_append,List.append_assoc]
        have hperm : (awaited s++((Sending.awaits ⟨purpose,frame,k,false⟩).toList++s.created)).Perm
            ((Sending.awaits ⟨purpose,frame,k,false⟩).toList++(awaited s++s.created)) := by
          rw [← List.append_assoc,← List.append_assoc]
          exact List.perm_append_comm.append_right _
        rw [hperm.nodup_iff,List.nodup_append]
        refine ⟨?_,hs.once,?_⟩
        · cases (Sending.awaits ⟨purpose,frame,k,false⟩) with
          | none => exact List.nodup_nil
          | some commandId => exact List.nodup_singleton commandId
        · rintro commandId hid other hother rfl
          obtain ⟨-,hunawaited,huncreated⟩ := hnew commandId hid
          rcases List.mem_append.mp hother with h | h
          · exact hunawaited h
          · exact huncreated h
      awaiting := by
        intro commandId hid
        rw [awaited_append] at hid
        rcases List.mem_append.mp hid with h | h
        · exact hs.awaiting commandId h
        · exact (hnew commandId h).working
      tags := ⟨hs.tags.connection,hs.tags.session,hsplit _ hs.tags.sending (hs.tags.connection k hk),
        hs.tags.toPlane⟩}

theorem sound_eraseCommand (i : ℕ) (hs : Sound setting s) :
    Sound setting {s with toAgent := s.toAgent.eraseIdx i} :=
  {hs with
    told := fun frame hframe => hs.told frame (List.mem_of_mem_eraseIdx hframe)
    tags := {hs.tags with}}

variable {command : CommandMessage}

theorem sound_handleCommandMessage {supported : Bool} {receivedAt : ℤ} (hs : Sound setting s)
    (htold : command.commandId ∈ s.table.map AgentCommand.commandId) :
    Sound setting (handleCommandMessage supported receivedAt command s) := by
  unfold handleCommandMessage
  cases hreceipt : s.receipts command.commandId with
  | some receipt =>
    dsimp only
    refine sound_startSend hs ⟨receipt,?_,rfl⟩ nofun
    rw [(hs.receipts _ _ hreceipt).ack,hreceipt]
  | none =>
    have hunawaited : command.commandId ∉ awaited s := by
      intro hmem
      obtain ⟨receipt,hsome,-⟩ := hs.awaiting _ hmem
      rw [hreceipt] at hsome
      cases hsome
    have huncreated : command.commandId ∉ s.created := by
      intro hmem
      obtain ⟨receipt,hsome,-⟩ := hs.created _ hmem
      rw [hreceipt] at hsome
      cases hsome
    dsimp only
    split
    · refine sound_startSend (sound_storeNew hs hreceipt htold rfl) ?_ ?_
      · exact ⟨_,Function.update_self _ _ _,rfl⟩
      · rintro other ⟨⟩
        exact ⟨⟨_,Function.update_self _ _ _,rfl,rfl⟩,hunawaited,huncreated⟩
    · refine sound_startSend (sound_storeNew hs hreceipt htold rfl) ?_ nofun
      exact ⟨_,Function.update_self _ _ _,rfl⟩

theorem sound_erase (hs : Sound setting s) (h : s.sending[i]? = some item) :
    Sound setting {s with sending := s.sending.eraseIdx i} := by
  have hsub : ∀ item ∈ s.sending.eraseIdx i, item ∈ s.sending :=
    fun _ => List.mem_of_mem_eraseIdx
  have hperm := awaited_erase h
  exact {hs with
    sending := fun item hitem => hs.sending item (hsub item hitem)
    once := by
      have hnodup := (hperm.append_right s.created).nodup_iff.mp hs.once
      rw [List.append_assoc] at hnodup
      exact (List.nodup_append.mp hnodup).2.1
    awaiting := fun commandId hid => hs.awaiting commandId
      (hperm.mem_iff.mpr (List.mem_append_right _ hid))
    tags := ⟨hs.tags.connection,hs.tags.session,fun item hitem => hs.tags.sending item (hsub item hitem),
      hs.tags.toPlane⟩}

theorem fresh_erase (hs : Sound setting s) (h : s.sending[i]? = some item)
    (hpurpose : item.purpose = .accept command) :
    Fresh {s with sending := s.sending.eraseIdx i} command.commandId := by
  have hperm := awaited_erase h
  have hawaits : item.awaits = some command.commandId := by
    rw [Sending.awaits,hpurpose]
  rw [hawaits] at hperm
  have hnodup := (hperm.append_right s.created).nodup_iff.mp hs.once
  rw [Option.toList_some,List.singleton_append,List.cons_append,List.nodup_cons] at hnodup
  refine ⟨hs.awaiting _ (hperm.mem_iff.mpr List.mem_cons_self),fun hmem => ?_,fun hmem => ?_⟩
  · exact hnodup.1 (List.mem_append_left _ hmem)
  · exact hnodup.1 (List.mem_append_right _ hmem)

theorem sound_create (hs : Sound setting s) (hfresh : Fresh s command.commandId) :
    Sound setting {s with
      created := s.created++[command.commandId]
      running := s.running++[command]} := by
  obtain ⟨hworking,hunawaited,huncreated⟩ := hfresh
  obtain ⟨receipt,hreceipt,hstatus,hnone⟩ := hworking
  exact {hs with
    once := by
      rw [← List.append_assoc,List.nodup_append]
      refine ⟨hs.once,List.nodup_singleton _,?_⟩
      rintro commandId hid other hother rfl
      rw [List.mem_singleton.mp hother] at hid
      rcases List.mem_append.mp hid with h | h
      · exact hunawaited h
      · exact huncreated h
    created := by
      intro commandId hid
      rcases List.mem_append.mp hid with h | h
      · exact hs.created commandId h
      · rw [List.mem_singleton.mp h]
        exact ⟨receipt,hreceipt,hstatus⟩
    running := by
      rw [List.map_append]
      exact hs.running.append (List.Subperm.refl _)
    working := by
      intro other hother
      rcases List.mem_append.mp hother with h | h
      · exact hs.working other h
      · rw [List.mem_singleton.mp h]
        exact ⟨receipt,hreceipt,hstatus,hnone⟩
    tags := {hs.tags with}}

theorem sound_afterSend {purpose : Purpose} (hs : Sound setting s)
    (hfresh : ∀ command, purpose = .accept command → Fresh s command.commandId) :
    Sound setting (afterSend s purpose) := by
  cases purpose with
  | accept command => exact sound_create hs (hfresh command rfl)
  | replay commandId =>
    unfold afterSend
    dsimp only
    split
    · next result hresult =>
        obtain ⟨receipt,hreceipt,hresult⟩ := Option.bind_eq_some_iff.mp hresult
        refine sound_startSend hs ⟨receipt,?_,hresult⟩ nofun
        rw [((hs.receipts _ _ hreceipt).result _ hresult).1,hreceipt]
    · exact hs
  | last => exact hs

theorem sound_markDisconnected (k : ℕ) (hs : Sound setting s) :
    Sound setting (markDisconnected k s) := by
  unfold markDisconnected
  split
  · exact {hs with tags := ⟨nofun,hs.tags.session,hs.tags.sending,hs.tags.toPlane⟩}
  · exact hs

theorem commandId_result (command : CommandMessage) (finishedAt durationMs : ℤ) (outcome : Outcome) :
    (buildCommandResult command finishedAt durationMs outcome).commandId = command.commandId := by
  cases outcome <;> rfl

theorem sound_finish {result : ResultPayload} (hs : Sound setting s)
    (h : s.running[i]? = some command) (hid : result.commandId = command.commandId) :
    Sound setting (finishCommand result {s with running := s.running.eraseIdx i}) := by
  have hperm := (perm_eraseIdx h).map CommandMessage.commandId
  have hmem : command ∈ s.running := (perm_eraseIdx h).mem_iff.mpr List.mem_cons_self
  have hcreated : (s.running.map CommandMessage.commandId).Nodup := by
    obtain ⟨l,hl,hsub⟩ := hs.running
    rw [← hl.nodup_iff]
    exact (List.nodup_append.mp hs.once).2.1.sublist hsub
  rw [List.map_cons] at hperm
  have hnodup := hperm.nodup_iff.mp hcreated
  have herased : Sound setting {s with running := s.running.eraseIdx i} := {hs with
    running := ((List.eraseIdx_sublist s.running i).map CommandMessage.commandId).subperm.trans hs.running
    working := fun command hcommand => hs.working command (List.mem_of_mem_eraseIdx hcommand)
    tags := {hs.tags with}}
  obtain ⟨receipt,hreceipt,hstatus,hnone⟩ := hs.working command hmem
  unfold finishCommand
  rw [hid]
  have hsame : ({s with running := s.running.eraseIdx i} : World).receipts command.commandId =
      some receipt := hreceipt
  rw [hsame]
  dsimp only
  have hok := hs.receipts _ _ hreceipt
  apply sound_startSend
  · apply sound_receipts herased (grows_result hreceipt hnone result)
    · intro other receipt' hreceipt'
      by_cases heq : other = command.commandId
      · subst heq
        rw [Function.update_self] at hreceipt'
        cases hreceipt'
        refine ⟨hok.listed,hok.ack,?_⟩
        rintro result' ⟨⟩
        exact ⟨hid,hstatus⟩
      · rw [Function.update_of_ne heq] at hreceipt'
        exact hs.receipts other receipt' hreceipt'
    · rintro other (hother | hother)
      · apply Function.update_of_ne
        rintro rfl
        have hin : command.commandId ∈ s.created :=
          hs.running.subset (List.mem_map_of_mem hmem)
        exact (List.nodup_append.mp hs.once).2.2 _ hother _ hin rfl
      · apply Function.update_of_ne
        rintro rfl
        exact (List.nodup_cons.mp hnodup).1 hother
  · refine ⟨{receipt with result := some result},?_,rfl⟩
    rw [hid]
    exact Function.update_self _ _ _
  · nofun

theorem sound_table (op : Op) {table : Table} (hs : Sound setting s)
    (h : perform setting.milliseconds s.table op = some table)
    (hcreate : ∀ request createdAt delivery, op = .create request createdAt delivery →
      request.instanceId = setting.instanceId) : Sound setting {s with table := table} := by
  obtain ⟨f,new,hupdate⟩ := update_step hs.table h
  have hids : ∀ commandId ∈ s.table.map AgentCommand.commandId,
      commandId ∈ table.map AgentCommand.commandId := by
    rw [hupdate.map_commandId]
    exact fun _ => List.mem_append_left _
  exact {hs with
    table := hupdate.ok hs.table
    rows := by
      intro command' hcommand'
      rcases fixed_step hs.table h command' hcommand' with ⟨command,hcommand,hfixed⟩ | hnew
      · rw [hfixed.instanceId]
        exact hs.rows command hcommand
      · obtain ⟨request,createdAt,delivery,hop,rfl⟩ := hnew
        rw [(fixed_delivery _ _).instanceId]
        exact hcreate request createdAt delivery hop
    told := fun frame hframe => hids _ (hs.told frame hframe)
    receipts := fun commandId receipt hreceipt => by
      have hok := hs.receipts commandId receipt hreceipt
      exact ⟨hids _ hok.listed,hok.ack,hok.result⟩
    tags := {hs.tags with}}

theorem sound_eraseFrame (i : ℕ) (hs : Sound setting s) :
    Sound setting {s with toPlane := s.toPlane.eraseIdx i} :=
  {hs with
    toPlane := fun frame hframe => hs.toPlane frame (List.mem_of_mem_eraseIdx hframe)
    tags := ⟨hs.tags.connection,hs.tags.session,hs.tags.sending,
      fun frame hframe => hs.tags.toPlane frame (List.mem_of_mem_eraseIdx hframe)⟩}

variable {capabilities : List String}

theorem mem_redelivered {command : AgentCommand}
    (h : command ∈ redelivered setting capabilities s) : ∃ row ∈ s.table, Fixed row command := by
  obtain ⟨hmem,-⟩ := mem_listed.mp (List.mem_filter.mp h).1
  obtain ⟨row,hrow,rfl⟩ := List.mem_map.mp hmem
  exact ⟨row,hrow,fixed_expire _ _ _ _ _⟩

theorem sound_hello {k : ℕ} (hs : Sound setting s) (hk : k < s.opened) :
    Sound setting (handleHello setting k capabilities s) := by
  have htable := sound_table (.redeliver setting.instanceId s.now
    (enqueuePending capabilities (setting.sessionId k) fun _ => s.now)) hs rfl nofun
  exact {htable with
    told := by
      intro frame hframe
      rcases List.mem_append.mp hframe with hold | hnew
      · exact htable.told frame hold
      · obtain ⟨command,hcommand,rfl⟩ := List.mem_map.mp hnew
        obtain ⟨row,hrow,hfixed⟩ := mem_redelivered hcommand
        have hstep : Step setting.milliseconds s.table (.redeliver setting.instanceId s.now
            (enqueuePending capabilities (setting.sessionId k) fun _ => s.now))
            (handleHello setting k capabilities s).table := rfl
        obtain ⟨f,new,hupdate⟩ := update_step hs.table hstep
        change command.commandId ∈ _
        rw [hfixed.commandId,hupdate.map_commandId]
        exact List.mem_append_left _ (List.mem_map_of_mem hrow)
    tags := ⟨hs.tags.connection,fun session hsession => by cases hsession; exact hk,hs.tags.sending,
      hs.tags.toPlane⟩}

theorem sound_frame {k : ℕ} (hs : Sound setting s) (hk : k < s.opened)
    (hkept : Kept s.receipts frame) (h : handleFrame setting k s frame = some t) :
    Sound setting t := by
  cases frame with
  | hello capabilities =>
    cases h
    exact sound_hello hs hk
  | commandAck payload =>
    rw [handleFrame] at h
    split at h
    · cases h
      have htable := sound_table (.ack (setting.context k) payload s.now) hs rfl nofun
      exact {htable with
        recorded := by
          intro commandId hid
          dsimp only at hid
          split at hid
          · next hany =>
              rcases List.mem_cons.mp hid with rfl | hold
              · obtain ⟨receipt,hreceipt,hack⟩ := hkept
                obtain ⟨row,-,hrecords⟩ := List.any_eq_true.mp hany
                simp only [recordsAccepted,Bool.and_eq_true,decide_eq_true_eq] at hrecords
                exact ⟨receipt,hreceipt,by rw [hack,hrecords.2]⟩
              · exact hs.recorded commandId hold
          · exact hs.recorded commandId hid
        tags := {hs.tags with}}
    · cases h
  | commandResult payload =>
    rw [handleFrame] at h
    split at h
    · cases h
      exact sound_table (.result (setting.context k) payload s.now) hs rfl nofun
    · cases h

theorem sound_transmit (hs : Sound setting s) (h : s.sending[i]? = some item) :
    Sound setting {s with
      sending := s.sending.eraseIdx i++[{item with transmitted := true}]
      toPlane := s.toPlane++[(item.connection,item.frame)]} := by
  have hmem : item ∈ s.sending := (perm_eraseIdx h).mem_iff.mpr List.mem_cons_self
  have hperm : (awaited {s with sending := s.sending.eraseIdx i++[{item with transmitted := true}]}).Perm
      (awaited s) := by
    rw [awaited_append {s with sending := s.sending.eraseIdx i}]
    exact List.perm_append_comm.trans (awaited_erase h).symm
  have hsplit : ∀ (p : Sending → Prop), (∀ item ∈ s.sending, p item) →
      p {item with transmitted := true} →
        ∀ other ∈ s.sending.eraseIdx i++[{item with transmitted := true}], p other := by
    intro p hold hlast other hother
    rcases List.mem_append.mp hother with hin | hin
    · exact hold other (List.mem_of_mem_eraseIdx hin)
    · rw [List.mem_singleton.mp hin]
      exact hlast
  exact {hs with
    sending := hsplit _ hs.sending (hs.sending item hmem)
    toPlane := by
      intro frame hframe
      rcases List.mem_append.mp hframe with hin | hin
      · exact hs.toPlane frame hin
      · rw [List.mem_singleton.mp hin]
        exact hs.sending item hmem
    once := (hperm.append_right s.created).nodup_iff.mpr hs.once
    awaiting := fun commandId hid => hs.awaiting commandId (hperm.mem_iff.mp hid)
    tags := by
      refine ⟨hs.tags.connection,hs.tags.session,hsplit _ hs.tags.sending (hs.tags.sending item hmem),?_⟩
      intro frame hframe
      rcases List.mem_append.mp hframe with hin | hin
      · exact hs.tags.toPlane frame hin
      · rw [List.mem_singleton.mp hin]
        exact hs.tags.sending item hmem}

theorem sound_createInstanceCommand {request : CreateRequest} (hs : Sound setting s)
    (h : createInstanceCommand setting request s = some t) : Sound setting t := by
  unfold createInstanceCommand at h
  split at h
  · cases h
  · next hinstance =>
      rw [not_not] at hinstance
      have hcreate : ∀ delivery request' createdAt delivery', Op.create request s.now delivery =
          .create request' createdAt delivery' → request'.instanceId = setting.instanceId := by
        rintro delivery _ _ _ ⟨⟩
        exact hinstance
      split at h
      · obtain ⟨table,htable,rfl⟩ := Option.map_eq_some_iff.mp h
        exact sound_table _ hs htable (hcreate _)
      · next k capabilities hsession =>
          split at h
          · obtain ⟨table,htable,rfl⟩ := Option.map_eq_some_iff.mp h
            have hsound := sound_table _ hs htable (hcreate _)
            exact {hsound with
              told := by
                intro frame hframe
                rcases List.mem_append.mp hframe with hold | hnew
                · exact hsound.told frame hold
                · rw [List.mem_singleton.mp hnew]
                  rw [perform] at htable
                  split at htable
                  · cases htable
                  · cases htable
                    rw [List.map_append]
                    apply List.mem_append_right
                    exact List.mem_singleton.mpr (fixed_delivery _ _).commandId.symm
              tags := {hs.tags with}}
          · cases h

theorem sound_connect (hs : Sound setting s) : Sound setting {s with
    connection := some s.opened
    opened := s.opened+1
    toPlane := s.toPlane++[(s.opened,.hello capabilities)]} :=
  {hs with
    toPlane := by
      intro frame hframe
      rcases List.mem_append.mp hframe with hin | hin
      · exact hs.toPlane frame hin
      · rw [List.mem_singleton.mp hin]
        trivial
    tags := by
      refine ⟨fun k hk => ?_,fun session hsession => ?_,fun item hitem => ?_,fun frame hframe => ?_⟩
      · cases hk
        exact Nat.lt_succ_self _
      · exact Nat.lt_succ_of_lt (hs.tags.session session hsession)
      · exact Nat.lt_succ_of_lt (hs.tags.sending item hitem)
      · rcases List.mem_append.mp hframe with hin | hin
        · exact Nat.lt_succ_of_lt (hs.tags.toPlane frame hin)
        · rw [List.mem_singleton.mp hin]
          exact Nat.lt_succ_self _}

/-- Every step keeps agent and plane sound. -/
theorem sound_step {act : Act} (hs : Sound setting s) (h : step setting s act = some t) :
    Sound setting t := by
  cases act with
  | tick time =>
    rw [step] at h
    split at h
    · cases h
      exact {hs with tags := {hs.tags with}}
    · cases h
  | create request => exact sound_createInstanceCommand hs h
  | expire instanceId serviceId =>
    cases h
    exact sound_table (.expire instanceId serviceId s.now) hs rfl nofun
  | connect capabilities =>
    rw [step] at h
    split at h
    · cases h
      exact sound_connect hs
    · cases h
  | lost =>
    cases h
    exact {hs with tags := ⟨nofun,hs.tags.session,hs.tags.sending,hs.tags.toPlane⟩}
  | unregister =>
    cases h
    exact {hs with tags := ⟨hs.tags.connection,nofun,hs.tags.sending,hs.tags.toPlane⟩}
  | loseCommand i =>
    obtain ⟨frame,hframe,h⟩ := Option.bind_eq_some_iff.mp h
    split at h
    · cases h
    · cases h
      exact sound_eraseCommand i hs
  | loseFrame i =>
    obtain ⟨frame,hframe,h⟩ := Option.bind_eq_some_iff.mp h
    split at h
    · cases h
    · cases h
      exact sound_eraseFrame i hs
  | receive i supported receivedAt =>
    obtain ⟨frame,hframe,rfl⟩ := Option.map_eq_some_iff.mp h
    exact sound_handleCommandMessage (sound_eraseCommand i hs) (hs.told frame (List.mem_of_getElem? hframe))
  | transmit i =>
    obtain ⟨item,hitem,h⟩ := Option.bind_eq_some_iff.mp h
    split at h
    · cases h
    · cases h
      exact sound_transmit hs hitem
  | returns i =>
    obtain ⟨item,hitem,h⟩ := Option.bind_eq_some_iff.mp h
    split at h
    · cases h
      exact sound_afterSend (sound_erase hs hitem) fun command hpurpose => fresh_erase hs hitem hpurpose
    · cases h
  | raises i =>
    obtain ⟨item,hitem,rfl⟩ := Option.map_eq_some_iff.mp h
    exact sound_markDisconnected _ (sound_erase hs hitem)
  | complete i outcome finishedAt durationMs =>
    obtain ⟨command,hcommand,rfl⟩ := Option.map_eq_some_iff.mp h
    exact sound_finish hs hcommand (commandId_result _ _ _ _)
  | handle i =>
    obtain ⟨frame,hframe,h⟩ := Option.bind_eq_some_iff.mp h
    have hmem := List.mem_of_getElem? hframe
    exact sound_frame (sound_eraseFrame i hs) (hs.tags.toPlane frame hmem) (hs.toPlane frame hmem) h

theorem sound_init (setting : Setting) (now : ℤ) : Sound setting {now := now} where
  table := ⟨List.nodup_nil,fun _ h => absurd h List.not_mem_nil⟩
  rows := fun _ h => absurd h List.not_mem_nil
  told := fun _ h => absurd h List.not_mem_nil
  receipts := fun _ _ h => by cases h
  sending := fun _ h => absurd h List.not_mem_nil
  toPlane := fun _ h => absurd h List.not_mem_nil
  once := List.nodup_nil
  awaiting := fun _ h => absurd h List.not_mem_nil
  created := fun _ h => absurd h List.not_mem_nil
  running := List.Subperm.refl _
  working := fun _ h => absurd h List.not_mem_nil
  recorded := fun _ h => absurd h List.not_mem_nil
  tags := {
    connection := fun _ h => by cases h
    session := fun _ h => by cases h
    sending := fun _ h => absurd h List.not_mem_nil
    toPlane := fun _ h => absurd h List.not_mem_nil}

end Bookkeeping

end OneStep.AgentProcess
