import OneStep.JsonText
import OneStep.Transition

/-!
# The commands of the control plane

A command row is created pending and handed to an agent over its connection; the agent
acknowledges it and reports a result, and what is late is expired. Messages come in any
order and any number of times, and the clocks read anything. Times are microseconds in
UTC. Who asked for a command, its arguments and its service name are written once and
read by none of the steps.
-/
namespace OneStep.AgentCommands
open JsonText JsonValues Transition

section Rows

inductive AgentCommandStatus where
  | pending | dispatched | accepted | expired | rejected | succeeded | failed | timeout | cancelled
  deriving DecidableEq

inductive AgentCommandAckStatus where
  | accepted | rejected
  deriving DecidableEq

inductive AgentCommandResultStatus where
  | succeeded | failed | timeout | cancelled
  deriving DecidableEq

def AgentCommandResultStatus.status : AgentCommandResultStatus → AgentCommandStatus
  | succeeded => .succeeded
  | failed => .failed
  | timeout => .timeout
  | cancelled => .cancelled

inductive AgentCommandKind where
  | ping | restart | drain | pauseTask | resumeTask | restartTask | discardDeadLetters
  | replayDeadLetters | runTaskOnce | syncNow | flushMetrics | flushEvents | shutdown
  deriving DecidableEq

def getCommandCapability : AgentCommandKind → String
  | .ping => "command.ping"
  | .restart => "command.restart"
  | .drain => "command.drain"
  | .pauseTask => "command.pause_task"
  | .resumeTask => "command.resume_task"
  | .restartTask => "command.restart_task"
  | .discardDeadLetters => "command.discard_dead_letters"
  | .replayDeadLetters => "command.replay_dead_letters"
  | .runTaskOnce => "command.run_task_once"
  | .syncNow => "command.sync_now"
  | .flushMetrics => "command.flush_metrics"
  | .flushEvents => "command.flush_events"
  | .shutdown => "command.shutdown"

def AgentCommandStatus.redispatchable : AgentCommandStatus → Bool
  | pending | dispatched => true
  | _ => false

def AgentCommandStatus.reconcilable : AgentCommandStatus → Bool
  | pending | dispatched | accepted => true
  | _ => false

def AgentCommandStatus.terminal : AgentCommandStatus → Bool
  | expired | rejected | succeeded | failed | timeout | cancelled => true
  | _ => false

structure AgentCommand where
  commandId : String
  serviceId : ℕ
  instanceId : ℕ
  sessionId : Option String := none
  kind : AgentCommandKind
  timeoutS : ℕ
  status : AgentCommandStatus
  ackStatus : Option AgentCommandAckStatus := none
  result : Option (List (String × Json)) := none
  durationMs : Option ℤ := none
  errorCode : Option String := none
  errorMessage : Option String := none
  dispatchedAt : Option ℤ := none
  ackedAt : Option ℤ := none
  finishedAt : Option ℤ := none
  createdAt : ℤ
  updatedAt : ℤ

def commandDeadline (command : AgentCommand) : ℤ := command.createdAt+1000000*command.timeoutS

end Rows

section Steps

/-- The float product of a number of microseconds, cut to whole milliseconds. -/
abbrev Milliseconds := ℤ → ℤ

def markRejectedWithoutDelivery (errorCode errorMessage : String) (rejectedAt : ℤ)
    (command : AgentCommand) : AgentCommand :=
  {command with
    status := .rejected
    finishedAt := some rejectedAt
    errorCode := some errorCode
    errorMessage := some errorMessage
    updatedAt := rejectedAt}

def rejectRedeliveryForUnsupportedCapability (capability : String) (rejectedAt : ℤ) :
    AgentCommand → AgentCommand :=
  markRejectedWithoutDelivery "command_capability_missing_on_reconnect"
    ("the reconnecting session does not advertise " ++ capability ++
      "; queued delivery was abandoned") rejectedAt

def markCommandDispatched (sessionId : String) (dispatchedAt : ℤ) (command : AgentCommand) :
    AgentCommand :=
  {command with
    sessionId := some sessionId
    dispatchedAt := some dispatchedAt
    status := if command.status = .pending then .dispatched else command.status
    updatedAt := dispatchedAt}

variable (milliseconds : Milliseconds)

/-- The end of a command at its deadline, by whether its delivery was acknowledged. -/
def elapse (command : AgentCommand) : AgentCommand :=
  let seconds : String := .ofList (intText command.timeoutS)
  if command.status = .accepted ∨ command.ackStatus = some .accepted then
    {command with
      status := .timeout
      errorCode := some "command_timeout_elapsed"
      errorMessage := some ("command did not report a terminal result within timeout_s=" ++ seconds)
      durationMs := match command.ackedAt with
        | some ackedAt => some (max (milliseconds (commandDeadline command-ackedAt)) 0)
        | none => command.durationMs}
  else
    {command with
      status := .expired
      errorCode := some "command_delivery_expired"
      errorMessage := some ("command was not acknowledged before timeout_s=" ++ seconds ++ " elapsed")}

def expireCommand (asOf : ℤ) (command : AgentCommand) : AgentCommand :=
  if command.status.reconcilable = false ∨ asOf < commandDeadline command then command
  else {elapse milliseconds command with
    finishedAt := some (commandDeadline command)
    updatedAt := asOf}

abbrev Table := List AgentCommand

/-- A command that the filters of `expire_stale_commands` select is expired. -/
def expireSelected (instanceId serviceId : Option ℕ) (asOf : ℤ) (command : AgentCommand) :
    AgentCommand :=
  if instanceId.all (· = command.instanceId) && serviceId.all (· = command.serviceId) then
    expireCommand milliseconds asOf command
  else command

def expireStaleCommands (instanceId serviceId : Option ℕ) (asOf : ℤ) (table : Table) : Table :=
  table.map (expireSelected milliseconds instanceId serviceId asOf)

def createdBefore (a b : AgentCommand) : Bool :=
  a.createdAt < b.createdAt || a.createdAt = b.createdAt && a.commandId ≤ b.commandId

def redeliverable (instanceId : ℕ) (command : AgentCommand) : Bool :=
  command.instanceId = instanceId && command.status.redispatchable

/-- The commands to deliver again, after those that are late have been expired. -/
def listRedeliverableCommandsForInstance (instanceId : ℕ) (asOf : ℤ) (table : Table) :
    List AgentCommand :=
  ((expireStaleCommands milliseconds (some instanceId) none asOf table).filter
    (redeliverable instanceId)).mergeSort createdBefore

structure AckPayload where
  commandId : String
  status : AgentCommandAckStatus
  receivedAt : ℤ
  errorCode : Option String
  errorMessage : Option String

structure ResultPayload where
  commandId : String
  status : AgentCommandResultStatus
  finishedAt : ℤ
  result : Option (List (String × Json))
  durationMs : Option ℤ
  errorCode : Option String
  errorMessage : Option String

structure ConnectionContext where
  sessionId : String
  instanceId : ℕ

/-- The update of a row that `_resolve_command_for_session` finds. -/
def updateResolved (context : ConnectionContext) (commandId : String) (f : AgentCommand → AgentCommand)
    (table : Table) : Table :=
  table.map fun command =>
    if command.commandId = commandId && command.instanceId = context.instanceId then f command
    else command

def ackCommand (context : ConnectionContext) (payload : AckPayload) (receivedAt : ℤ)
    (command : AgentCommand) : AgentCommand :=
  if command.finishedAt.isSome || command.ackStatus.isSome then command
  else
    let command := {command with
      sessionId := some context.sessionId
      ackStatus := some payload.status
      ackedAt := some payload.receivedAt
      updatedAt := receivedAt}
    match payload.status with
    | .accepted => {command with status := .accepted}
    | .rejected => {command with
        status := .rejected
        finishedAt := some payload.receivedAt
        errorCode := payload.errorCode
        errorMessage := payload.errorMessage}

def resultCommand (context : ConnectionContext) (payload : ResultPayload) (receivedAt : ℤ)
    (command : AgentCommand) : AgentCommand :=
  if command.finishedAt.isSome then command
  else
    let command := {command with
      sessionId := some context.sessionId
      status := payload.status.status
      finishedAt := some payload.finishedAt
      result := payload.result
      durationMs := payload.durationMs
      errorCode := payload.errorCode
      errorMessage := payload.errorMessage
      updatedAt := receivedAt}
    if command.ackStatus.isNone then
      {command with ackStatus := some .accepted, ackedAt := some receivedAt}
    else command

def handleCommandAck (context : ConnectionContext) (payload : AckPayload) (receivedAt : ℤ) :
    Table → Table :=
  updateResolved context payload.commandId (ackCommand context payload receivedAt)

def handleCommandResult (context : ConnectionContext) (payload : ResultPayload) (receivedAt : ℤ) :
    Table → Table :=
  updateResolved context payload.commandId (resultCommand context payload receivedAt)

/-- What is done with a command that is new, or to be delivered again. -/
inductive Delivery where
  | keep
  | dispatch (sessionId : String) (dispatchedAt : ℤ)
  | reject (capability : String) (rejectedAt : ℤ)

def Delivery.perform : Delivery → AgentCommand → AgentCommand
  | keep, command => command
  | dispatch sessionId dispatchedAt, command => markCommandDispatched sessionId dispatchedAt command
  | reject capability rejectedAt, command =>
    rejectRedeliveryForUnsupportedCapability capability rejectedAt command

/-- The decisions of `_enqueue_pending_commands`. -/
def enqueuePending (acceptedCapabilities : List String) (sessionId : String) (clock : String → ℤ)
    (command : AgentCommand) : Delivery :=
  if getCommandCapability command.kind ∈ acceptedCapabilities then
    .dispatch sessionId (clock command.commandId)
  else .reject (getCommandCapability command.kind) (clock command.commandId)

structure CreateRequest where
  commandId : String
  serviceId : ℕ
  instanceId : ℕ
  kind : AgentCommandKind
  timeoutS : ℕ
  positive : 1 ≤ timeoutS

def createCommand (request : CreateRequest) (createdAt : ℤ) : AgentCommand where
  commandId := request.commandId
  serviceId := request.serviceId
  instanceId := request.instanceId
  kind := request.kind
  timeoutS := request.timeoutS
  status := .pending
  createdAt := createdAt
  updatedAt := createdAt

/-- The steps on the table; a listing comes with what is done to the rows it returns. -/
inductive Op where
  | create (request : CreateRequest) (createdAt : ℤ) (delivery : Delivery)
  | redeliver (instanceId : ℕ) (asOf : ℤ) (delivery : AgentCommand → Delivery)
  | ack (context : ConnectionContext) (payload : AckPayload) (receivedAt : ℤ)
  | result (context : ConnectionContext) (payload : ResultPayload) (receivedAt : ℤ)
  | expire (instanceId serviceId : Option ℕ) (asOf : ℤ)

def redeliver (instanceId : ℕ) (asOf : ℤ) (delivery : AgentCommand → Delivery) (table : Table) : Table :=
  let listed := listRedeliverableCommandsForInstance milliseconds instanceId asOf table
  (expireStaleCommands milliseconds (some instanceId) none asOf table).map fun command =>
    if listed.any fun c => c.commandId = command.commandId then (delivery command).perform command
    else command

/-- The table after a step; two commands of one id are refused by its constraint. -/
def perform (table : Table) : Op → Option Table
  | .create request createdAt delivery =>
    if table.any fun command => command.commandId = request.commandId then none
    else some (table++[delivery.perform (createCommand request createdAt)])
  | .redeliver instanceId asOf delivery => some (redeliver milliseconds instanceId asOf delivery table)
  | .ack context payload receivedAt => some (handleCommandAck context payload receivedAt table)
  | .result context payload receivedAt => some (handleCommandResult context payload receivedAt table)
  | .expire instanceId serviceId asOf =>
    some (expireStaleCommands milliseconds instanceId serviceId asOf table)

def Step (table : Table) (op : Op) (table' : Table) : Prop := perform milliseconds table op = some table'

end Steps

section Changes

/-- What holds of a row whatever messages came. -/
structure RowOk (command : AgentCommand) : Prop where
  finished : command.finishedAt.isSome = command.status.terminal
  accepted : command.status = .accepted →
    command.ackStatus = some .accepted ∧ command.ackedAt.isSome = true
  waiting : command.status.redispatchable = true → command.ackStatus = none ∧ command.ackedAt = none
  expired : command.status = .expired → command.ackStatus = none ∧ command.ackedAt = none
  timeout : command.status = .timeout → command.ackStatus = some .accepted

/-- The agent acknowledges the command as accepted. -/
def Op.Accepts (commandId : String) : Op → Prop
  | .ack _ payload _ => payload.commandId = commandId ∧ payload.status = .accepted
  | _ => False

/-- The agent itself reports that the command ran out of time. -/
def Op.ReportsTimeout (commandId : String) : Op → Prop
  | .result _ payload _ => payload.commandId = commandId ∧ payload.status = .timeout
  | _ => False

/-- What a step may do to a row. -/
structure Change (op : Op) (command command' : AgentCommand) : Prop where
  commandId : command'.commandId = command.commandId
  ok : RowOk command'
  kept : command.status.terminal = true → command' = command
  accepted : command'.status = .accepted →
    command.status = .accepted ∨ op.Accepts command.commandId
  timeout : command'.status = .timeout →
    command.status = .timeout ∨ command.status = .accepted ∨
      op.Accepts command.commandId ∨ op.ReportsTimeout command.commandId

variable {op : Op} {command : AgentCommand}

theorem change_refl (h : RowOk command) : Change op command command :=
  ⟨rfl,h,fun _ => rfl,.inl,.inl⟩

theorem change_ite {p : Prop} [Decidable p] {command' : AgentCommand} (h : RowOk command)
    (hchange : p → Change op command command') :
    Change op command (if p then command' else command) := by
  split
  · next hp => exact hchange hp
  · exact change_refl h

theorem not_terminal (h : command.status.redispatchable = true) : command.status.terminal = false := by
  cases hs : command.status <;> simp_all [AgentCommandStatus.redispatchable,AgentCommandStatus.terminal]

theorem markCommandDispatched_waiting {sessionId : String} {dispatchedAt : ℤ}
    (h : command.status.redispatchable = true) :
    markCommandDispatched sessionId dispatchedAt command = {command with
      sessionId := some sessionId
      dispatchedAt := some dispatchedAt
      status := .dispatched
      updatedAt := dispatchedAt} := by
  have hstatus : (if command.status = .pending then .dispatched else command.status) =
      AgentCommandStatus.dispatched := by
    cases hs : command.status <;> simp_all [AgentCommandStatus.redispatchable]
  rw [markCommandDispatched,hstatus]

theorem change_delivery (h : RowOk command) (hwaiting : command.status.redispatchable = true)
    (delivery : Delivery) : Change op command (delivery.perform command) := by
  have hopen := not_terminal hwaiting
  have hkept {command' : AgentCommand} (ht : command.status.terminal = true) : command' = command := by
    rw [hopen] at ht
    cases ht
  cases delivery with
  | keep => exact change_refl h
  | dispatch sessionId dispatchedAt =>
    rw [Delivery.perform,markCommandDispatched_waiting hwaiting]
    exact ⟨rfl,⟨h.finished.trans hopen,nofun,fun _ => h.waiting hwaiting,nofun,nofun⟩,
      hkept,nofun,nofun⟩
  | reject capability rejectedAt =>
    exact ⟨rfl,⟨rfl,nofun,nofun,nofun,nofun⟩,hkept,nofun,nofun⟩

theorem enqueuePending_status {acceptedCapabilities : List String} {sessionId : String}
    {clock : String → ℤ} (hwaiting : command.status.redispatchable = true) :
    ((enqueuePending acceptedCapabilities sessionId clock command).perform command).status =
      if getCommandCapability command.kind ∈ acceptedCapabilities then .dispatched else .rejected := by
  unfold enqueuePending
  split
  · rw [Delivery.perform,markCommandDispatched_waiting hwaiting]
  · rfl

theorem unfinished (h : RowOk command) (hnone : command.finishedAt = none) :
    command.status.terminal = false := by
  rw [← h.finished,hnone]
  rfl

theorem change_ack {context : ConnectionContext} {payload : AckPayload} {receivedAt : ℤ}
    (h : RowOk command) (hid : payload.commandId = command.commandId) :
    Change (.ack context payload receivedAt) command (ackCommand context payload receivedAt command) := by
  unfold ackCommand
  split
  · exact change_refl h
  · next hnew =>
      have hnone : command.finishedAt = none := by
        cases hf : command.finishedAt with
        | none => rfl
        | some finishedAt => simp [hf] at hnew
      have hopen := unfinished h hnone
      have hkept {command' : AgentCommand} (ht : command.status.terminal = true) : command' = command := by
        rw [hopen] at ht
        cases ht
      cases hstatus : payload.status with
      | accepted =>
        refine ⟨rfl,⟨?_,fun _ => ⟨rfl,rfl⟩,nofun,nofun,nofun⟩,hkept,fun _ => .inr ⟨hid,hstatus⟩,nofun⟩
        simp only [hnone]
        rfl
      | rejected => exact ⟨rfl,⟨rfl,nofun,nofun,nofun,nofun⟩,hkept,nofun,nofun⟩

theorem status_reported (status : AgentCommandResultStatus) :
    status.status.terminal = true ∧ status.status.redispatchable = false ∧
      status.status ≠ .accepted ∧ status.status ≠ .expired := by
  cases status <;> exact ⟨rfl,rfl,nofun,nofun⟩

theorem status_timeout {status : AgentCommandResultStatus} (h : status.status = .timeout) :
    status = .timeout := by
  cases status <;> first | rfl | cases h

theorem ackStatus_open (h : RowOk command) (hopen : command.status.terminal = false) :
    command.ackStatus = none ∨ command.ackStatus = some .accepted := by
  cases hs : command.status with
  | pending => exact .inl (h.waiting (by rw [hs]; rfl)).1
  | dispatched => exact .inl (h.waiting (by rw [hs]; rfl)).1
  | accepted => exact .inr (h.accepted hs).1
  | expired | rejected | succeeded | failed | timeout | cancelled =>
    rw [hs] at hopen
    cases hopen

theorem change_result {context : ConnectionContext} {payload : ResultPayload} {receivedAt : ℤ}
    (h : RowOk command) (hid : payload.commandId = command.commandId) :
    Change (.result context payload receivedAt) command
      (resultCommand context payload receivedAt command) := by
  unfold resultCommand
  split
  · exact change_refl h
  · next hnew =>
      have hopen := unfinished h (by simpa using hnew)
      have hkept {command' : AgentCommand} (ht : command.status.terminal = true) : command' = command := by
        rw [hopen] at ht
        cases ht
      obtain ⟨hterminal,hwaiting,haccepted,hexpired⟩ := status_reported payload.status
      have hreported {p : Prop} (ht : payload.status.status = .timeout) :
          p ∨ command.status = .accepted ∨
            (Op.result context payload receivedAt).Accepts command.commandId ∨
            (Op.result context payload receivedAt).ReportsTimeout command.commandId :=
        .inr (.inr (.inr ⟨hid,status_timeout ht⟩))
      have hnowait {p : Prop} (hw : payload.status.status.redispatchable = true) : p := by
        rw [hwaiting] at hw
        cases hw
      rcases ackStatus_open h hopen with hack | hack
      · simp only [hack,Option.isNone_none,if_true]
        exact ⟨rfl,⟨hterminal.symm,fun hs => absurd hs haccepted,hnowait,fun hs => absurd hs hexpired,
          fun _ => rfl⟩,hkept,fun hs => absurd hs haccepted,hreported⟩
      · simp only [hack,Option.isNone_some,Bool.false_eq_true,if_false]
        exact ⟨rfl,⟨hterminal.symm,fun hs => absurd hs haccepted,hnowait,fun hs => absurd hs hexpired,
          fun _ => rfl⟩,hkept,fun hs => absurd hs haccepted,hreported⟩

variable {milliseconds : Milliseconds}

theorem acked_iff (h : RowOk command) (hopen : command.status.reconcilable = true) :
    command.status = .accepted ∨ command.ackStatus = some .accepted ↔ command.status = .accepted := by
  refine ⟨fun hack => ?_,.inl⟩
  rcases hack with hs | hs
  · exact hs
  · cases hst : command.status with
    | accepted => rfl
    | pending | dispatched =>
      have := h.waiting (by rw [hst]; rfl)
      rw [hs] at this
      cases this.1
    | expired | rejected | succeeded | failed | timeout | cancelled =>
      rw [hst] at hopen
      cases hopen

theorem elapse_open (milliseconds : Milliseconds) (h : RowOk command) (hopen : command.status.reconcilable = true) :
    (elapse milliseconds command).commandId = command.commandId ∧
    (elapse milliseconds command).instanceId = command.instanceId ∧
    (elapse milliseconds command).ackStatus = command.ackStatus ∧
    (elapse milliseconds command).ackedAt = command.ackedAt ∧
    (elapse milliseconds command).status =
      if command.status = .accepted then .timeout else .expired := by
  unfold elapse
  simp only [acked_iff h hopen]
  split
  · exact ⟨rfl,rfl,rfl,rfl,rfl⟩
  · exact ⟨rfl,rfl,rfl,rfl,rfl⟩

theorem expireCommand_other {asOf : ℤ}
    (h : command.status.reconcilable = false ∨ asOf < commandDeadline command) :
    expireCommand milliseconds asOf command = command :=
  if_pos h

theorem reconcilable_iff (status : AgentCommandStatus) :
    status.reconcilable = true ↔ status = .accepted ∨ status.redispatchable = true := by
  cases status <;> simp [AgentCommandStatus.reconcilable,AgentCommandStatus.redispatchable]

theorem terminal_iff (status : AgentCommandStatus) :
    status.terminal = true ↔ status.reconcilable = false := by
  cases status <;> simp [AgentCommandStatus.reconcilable,AgentCommandStatus.terminal]

theorem change_expire {asOf : ℤ} (h : RowOk command) :
    Change op command (expireCommand milliseconds asOf command) := by
  unfold expireCommand
  split
  · exact change_refl h
  · next hlate =>
      rw [not_or,Bool.not_eq_false] at hlate
      have hkept {command' : AgentCommand} (ht : command.status.terminal = true) : command' = command := by
        rw [terminal_iff,hlate.1] at ht
        cases ht
      obtain ⟨hid,_,hack,hacked,hstatus⟩ := elapse_open milliseconds h hlate.1
      rcases (reconcilable_iff _).mp hlate.1 with hs | hwaiting
      · rw [if_pos hs] at hstatus
        refine ⟨hid,⟨?_,?_,?_,?_,fun _ => hack.trans (h.accepted hs).1⟩,hkept,?_,fun _ => .inr (.inl hs)⟩ <;>
          simp only [hstatus]
        · rfl
        all_goals nofun
      · have hs : command.status ≠ .accepted := by
          intro hs
          rw [hs] at hwaiting
          cases hwaiting
        obtain ⟨hnone,hnever⟩ := h.waiting hwaiting
        rw [if_neg hs] at hstatus
        refine ⟨hid,⟨?_,?_,?_,fun _ => ⟨hack.trans hnone,hacked.trans hnever⟩,?_⟩,hkept,?_,?_⟩ <;>
          simp only [hstatus]
        · rfl
        all_goals nofun

theorem Change.trans {command' command'' : AgentCommand} (h : Change op command command')
    (h' : Change op command' command'') : Change op command command'' := by
  refine ⟨h'.commandId.trans h.commandId,h'.ok,fun ht => ?_,fun hs => ?_,fun hs => ?_⟩
  · have hsame := h.kept ht
    subst hsame
    exact h'.kept ht
  · rcases h'.accepted hs with hs' | hop
    · exact h.accepted hs'
    · exact .inr (h.commandId ▸ hop)
  · rcases h'.timeout hs with hs' | hs' | hop
    · exact h.timeout hs'
    · rcases h.accepted hs' with hs'' | hop
      · exact .inr (.inl hs'')
      · exact .inr (.inr (.inl hop))
    · exact .inr (.inr (h.commandId ▸ hop))

end Changes

section Tables

/-- The tables that steps lead to. -/
structure TableOk (table : Table) : Prop where
  unique : (table.map AgentCommand.commandId).Nodup
  rows : ∀ command ∈ table, RowOk command

/-- What a step does to a table: its rows are changed in place, and there is one more at most. -/
structure Update (op : Op) (table table' : Table) (f : AgentCommand → AgentCommand) (new : Table) :
    Prop where
  rows : table' = table.map f++new
  changes : ∀ command ∈ table, Change op command (f command)
  fresh : ∀ command ∈ new, RowOk command ∧ command.status ≠ .accepted ∧ command.status ≠ .timeout
  apart : (new.map AgentCommand.commandId).Nodup ∧
    ∀ command ∈ new, command.commandId ∉ table.map AgentCommand.commandId

variable {milliseconds : Milliseconds} {op : Op} {table table' : Table} {instanceId : ℕ} {asOf : ℤ}

variable {f : AgentCommand → AgentCommand}

theorem update_map (h : ∀ command ∈ table, Change op command (f command)) :
    Update op table (table.map f) f [] :=
  ⟨(List.append_nil _).symm,h,fun _ hc => absurd hc List.not_mem_nil,List.nodup_nil,
    fun _ hc => absurd hc List.not_mem_nil⟩

theorem Update.map_commandId {new : Table} (h : Update op table table' f new) :
    table'.map AgentCommand.commandId =
      table.map AgentCommand.commandId++new.map AgentCommand.commandId := by
  rw [h.rows,List.map_append,List.map_map]
  congr 1
  apply List.map_congr_left
  intro command hcommand
  exact (h.changes command hcommand).commandId

theorem Update.ok {new : Table} (h : Update op table table' f new) (hok : TableOk table) :
    TableOk table' := by
  constructor
  · rw [h.map_commandId,List.nodup_append]
    refine ⟨hok.unique,h.apart.1,?_⟩
    rintro id hid id' hid' rfl
    obtain ⟨command,hcommand,rfl⟩ := List.mem_map.mp hid'
    exact h.apart.2 command hcommand hid
  · intro command hcommand
    rw [h.rows] at hcommand
    rcases List.mem_append.mp hcommand with hold | hnew
    · obtain ⟨source,hsource,rfl⟩ := List.mem_map.mp hold
      exact (h.changes source hsource).ok
    · exact (h.fresh command hnew).1

theorem update_expire (milliseconds : Milliseconds) (op : Op) (instanceId serviceId : Option ℕ)
    (asOf : ℤ) (hok : TableOk table) :
    Update op table (expireStaleCommands milliseconds instanceId serviceId asOf table)
      (expireSelected milliseconds instanceId serviceId asOf) [] :=
  update_map fun command hcommand =>
    change_ite (hok.rows command hcommand) fun _ => change_expire (hok.rows command hcommand)

variable {c : AgentCommand}

theorem eq_of_commandId (hok : TableOk table) {d : AgentCommand} (hc : c ∈ table) (hd : d ∈ table)
    (h : c.commandId = d.commandId) : c = d :=
  List.inj_on_of_nodup_map hok.unique hc hd h

variable {command : AgentCommand}

theorem mem_listed :
    command ∈ listRedeliverableCommandsForInstance milliseconds instanceId asOf table ↔
      command ∈ expireStaleCommands milliseconds (some instanceId) none asOf table ∧
        command.instanceId = instanceId ∧ command.status.redispatchable = true := by
  rw [listRedeliverableCommandsForInstance,List.mem_mergeSort,List.mem_filter]
  simp only [redeliverable,Bool.and_eq_true,decide_eq_true_eq]

theorem update_redeliver (milliseconds : Milliseconds) (op : Op) (instanceId : ℕ) (asOf : ℤ)
    (delivery : AgentCommand → Delivery) (hok : TableOk table) :
    ∃ f, Update op table (redeliver milliseconds instanceId asOf delivery table) f [] := by
  have hexpire := update_expire milliseconds op (some instanceId) none asOf hok
  unfold redeliver
  simp only
  conv in List.map _ (expireStaleCommands _ _ _ _ _) => rw [expireStaleCommands,List.map_map]
  refine ⟨_,update_map fun command hcommand => ?_⟩
  have hfirst := hexpire.changes command hcommand
  apply hfirst.trans
  apply change_ite hfirst.ok
  intro hlisted
  obtain ⟨c,hc,hid⟩ := List.any_eq_true.mp hlisted
  obtain ⟨hmem,_,hwaiting⟩ := mem_listed.mp hc
  have hsame : c = expireSelected milliseconds (some instanceId) none asOf command :=
    eq_of_commandId (hexpire.ok hok) hmem (List.mem_map_of_mem hcommand) (of_decide_eq_true hid)
  rw [hsame] at hwaiting
  exact change_delivery hfirst.ok hwaiting _

theorem update_create {request : CreateRequest} {createdAt : ℤ} (delivery : Delivery)
    (hnew : request.commandId ∉ table.map AgentCommand.commandId) (hok : TableOk table) :
    Update op table (table++[delivery.perform (createCommand request createdAt)]) id
      [delivery.perform (createCommand request createdAt)] := by
  have hcreated : RowOk (createCommand request createdAt) :=
    ⟨rfl,nofun,fun _ => ⟨rfl,rfl⟩,nofun,nofun⟩
  have hchange := @change_delivery (.expire none none 0) _ hcreated rfl delivery
  refine ⟨by rw [List.map_id],fun command hcommand => change_refl (hok.rows command hcommand),?_,
    List.nodup_singleton _,?_⟩
  · rintro command hcommand
    rw [List.mem_singleton.mp hcommand]
    refine ⟨hchange.ok,fun hs => ?_,fun hs => ?_⟩
    · rcases hchange.accepted hs with h | h <;> cases h
    · rcases hchange.timeout hs with h | h | h | h <;> cases h
  · rintro command hcommand
    rw [List.mem_singleton.mp hcommand,hchange.commandId]
    exact hnew

theorem update_step (hok : TableOk table) (h : Step milliseconds table op table') :
    ∃ f new, Update op table table' f new := by
  cases op with
  | create request createdAt delivery =>
    rw [Step,perform] at h
    split at h
    · cases h
    · next hnew =>
        cases h
        refine ⟨_,_,update_create delivery (fun hid => hnew ?_) hok⟩
        obtain ⟨command,hcommand,hid⟩ := List.mem_map.mp hid
        exact List.any_eq_true.mpr ⟨command,hcommand,decide_eq_true hid⟩
  | redeliver instanceId asOf delivery =>
    cases h
    obtain ⟨f,hf⟩ := update_redeliver milliseconds (.redeliver instanceId asOf delivery) instanceId
      asOf delivery hok
    exact ⟨f,[],hf⟩
  | ack context payload receivedAt =>
    cases h
    refine ⟨_,_,update_map fun command hcommand => change_ite (hok.rows command hcommand) fun hp => ?_⟩
    rw [Bool.and_eq_true,decide_eq_true_eq] at hp
    exact change_ack (hok.rows command hcommand) hp.1.symm
  | result context payload receivedAt =>
    cases h
    refine ⟨_,_,update_map fun command hcommand => change_ite (hok.rows command hcommand) fun hp => ?_⟩
    rw [Bool.and_eq_true,decide_eq_true_eq] at hp
    exact change_result (hok.rows command hcommand) hp.1.symm
  | expire instanceId serviceId asOf =>
    cases h
    exact ⟨_,_,update_expire milliseconds _ instanceId serviceId asOf hok⟩

variable {ops : List Op} {past : List Op}

theorem run_ok (h : Run (Step milliseconds) table ops table') (hok : TableOk table) :
    TableOk table' :=
  h.invariant (fun _ _ _ hok hstep => by
    obtain ⟨_,_,hupdate⟩ := update_step hok hstep
    exact hupdate.ok hok) hok

theorem run_kept (h : Run (Step milliseconds) table ops table') (hok : TableOk table)
    (hmem : command ∈ table) (hterminal : command.status.terminal = true) : command ∈ table' := by
  refine (h.invariant (I := fun t => TableOk t ∧ command ∈ t) ?_ ⟨hok,hmem⟩).2
  rintro t op t' ⟨hok,hmem⟩ hstep
  obtain ⟨f,new,hupdate⟩ := update_step hok hstep
  refine ⟨hupdate.ok hok,?_⟩
  rw [hupdate.rows]
  apply List.mem_append_left
  rw [← (hupdate.changes command hmem).kept hterminal]
  exact List.mem_map_of_mem hmem

/-- The messages that a row owes its status to. -/
structure Known (past : List Op) (command : AgentCommand) : Prop where
  accepted : command.status = .accepted → ∃ op ∈ past, op.Accepts command.commandId
  timeout : command.status = .timeout →
    ∃ op ∈ past, op.Accepts command.commandId ∨ op.ReportsTimeout command.commandId

theorem Known.append (h : Known past command) (op : Op) : Known (past++[op]) command := by
  constructor
  · intro hs
    obtain ⟨o,ho,h⟩ := h.accepted hs
    exact ⟨o,List.mem_append_left _ ho,h⟩
  · intro hs
    obtain ⟨o,ho,h⟩ := h.timeout hs
    exact ⟨o,List.mem_append_left _ ho,h⟩

variable {command' : AgentCommand}

theorem Known.change (h : Known past command) (hchange : Change op command command') :
    Known (past++[op]) command' := by
  have hlast : op ∈ past++[op] := List.mem_append_right _ List.mem_cons_self
  constructor
  · intro hs
    rw [hchange.commandId]
    rcases hchange.accepted hs with hs' | hop
    · exact (h.append op).accepted hs'
    · exact ⟨op,hlast,hop⟩
  · intro hs
    rw [hchange.commandId]
    rcases hchange.timeout hs with hs' | hs' | hop
    · exact (h.append op).timeout hs'
    · obtain ⟨o,ho,haccepts⟩ := (h.append op).accepted hs'
      exact ⟨o,ho,.inl haccepts⟩
    · exact ⟨op,hlast,hop⟩

theorem run_known (h : Run (Step milliseconds) table ops table') (hok : TableOk table)
    (hknown : ∀ command ∈ table, Known past command) :
    ∀ command ∈ table', Known (past++ops) command := by
  induction h generalizing past with
  | nil s =>
    rw [List.append_nil]
    exact hknown
  | @cons s t u op ops hstep hrest ih =>
    obtain ⟨f,new,hupdate⟩ := update_step hok hstep
    rw [List.append_cons]
    apply ih (hupdate.ok hok)
    intro command hcommand
    rw [hupdate.rows] at hcommand
    rcases List.mem_append.mp hcommand with hold | hnew
    · obtain ⟨source,hsource,rfl⟩ := List.mem_map.mp hold
      exact (hknown source hsource).change (hupdate.changes source hsource)
    · obtain ⟨_,haccepted,htimeout⟩ := hupdate.fresh command hnew
      exact ⟨fun hs => absurd hs haccepted,fun hs => absurd hs htimeout⟩

theorem createdBefore_iff {a b : AgentCommand} :
    createdBefore a b = true ↔ a.createdAt < b.createdAt ∨
      a.createdAt = b.createdAt ∧ a.commandId ≤ b.commandId := by
  simp only [createdBefore,Bool.or_eq_true,Bool.and_eq_true,decide_eq_true_eq]

theorem createdBefore_trans (a b c : AgentCommand) (hab : createdBefore a b = true)
    (hbc : createdBefore b c = true) : createdBefore a c = true := by
  rw [createdBefore_iff] at *
  rcases hab with hab | ⟨hab,hid⟩
  · rcases hbc with hbc | ⟨hbc,_⟩
    · exact .inl (hab.trans hbc)
    · exact .inl (hbc ▸ hab)
  · rcases hbc with hbc | ⟨hbc,hid'⟩
    · exact .inl (hab ▸ hbc)
    · exact .inr ⟨hab.trans hbc,hid.trans hid'⟩

theorem createdBefore_total (a b : AgentCommand) : (createdBefore a b || createdBefore b a) = true := by
  rw [Bool.or_eq_true,createdBefore_iff,createdBefore_iff]
  rcases lt_trichotomy a.createdAt b.createdAt with h | h | h
  · exact .inl (.inl h)
  · rcases le_total a.commandId b.commandId with hid | hid
    · exact .inl (.inr ⟨h,hid⟩)
    · exact .inr (.inr ⟨h.symm,hid⟩)
  · exact .inr (.inl h)

/-- A row of the instance that is to be delivered and is not late. -/
def deliverable (instanceId : ℕ) (asOf : ℤ) (command : AgentCommand) : Bool :=
  redeliverable instanceId command && asOf < commandDeadline command

theorem expireSelected_deliverable (milliseconds : Milliseconds)
    (h : deliverable instanceId asOf command = true) :
    expireSelected milliseconds (some instanceId) none asOf command = command := by
  rw [deliverable,Bool.and_eq_true,decide_eq_true_eq] at h
  unfold expireSelected
  split
  · exact expireCommand_other (.inr h.2)
  · rfl

theorem redeliverable_expireSelected (milliseconds : Milliseconds) (h : RowOk command) :
    redeliverable instanceId (expireSelected milliseconds (some instanceId) none asOf command) =
      deliverable instanceId asOf command := by
  by_cases hinst : instanceId = command.instanceId
  · have hexpire : expireSelected milliseconds (some instanceId) none asOf command =
        expireCommand milliseconds asOf command := by
      simp [expireSelected,hinst]
    rw [hexpire,deliverable]
    unfold expireCommand
    split
    · next hother =>
        rcases hother with hr | hr
        · have hw : command.status.redispatchable = false := by
            rw [← Bool.not_eq_true]
            intro hw
            rw [(reconcilable_iff _).mpr (.inr hw)] at hr
            cases hr
          simp [redeliverable,hw]
        · simp [hr]
    · next hlate =>
        rw [not_or,Bool.not_eq_false,not_lt] at hlate
        obtain ⟨_,_,_,_,hstatus⟩ := elapse_open milliseconds h hlate.1
        have hgone : (elapse milliseconds command).status.redispatchable = false := by
          rw [hstatus]
          split <;> rfl
        simp [redeliverable,hgone,hlate.2]
  · have hexpire : expireSelected milliseconds (some instanceId) none asOf command = command := by
      simp [expireSelected,hinst]
    rw [hexpire]
    simp [deliverable,redeliverable,Ne.symm hinst]

theorem filter_expired (milliseconds : Milliseconds) (instanceId : ℕ) (asOf : ℤ) (hok : TableOk table) :
    (expireStaleCommands milliseconds (some instanceId) none asOf table).filter
      (redeliverable instanceId) = table.filter (deliverable instanceId asOf) := by
  rw [expireStaleCommands,List.filter_map]
  have hfilter : table.filter (redeliverable instanceId ∘
      expireSelected milliseconds (some instanceId) none asOf) =
      table.filter (deliverable instanceId asOf) := by
    apply List.filter_congr
    intro command hcommand
    exact redeliverable_expireSelected milliseconds (hok.rows command hcommand)
  rw [hfilter]
  calc
    _ = (table.filter (deliverable instanceId asOf)).map id := by
      apply List.map_congr_left
      intro command hcommand
      exact expireSelected_deliverable milliseconds (List.mem_filter.mp hcommand).2
    _ = _ := List.map_id _

theorem listed_perm (milliseconds : Milliseconds) (instanceId : ℕ) (asOf : ℤ) (hok : TableOk table) :
    (listRedeliverableCommandsForInstance milliseconds instanceId asOf table).Perm
      (table.filter (deliverable instanceId asOf)) := by
  rw [listRedeliverableCommandsForInstance,filter_expired milliseconds instanceId asOf hok]
  exact List.mergeSort_perm _ _

theorem listed_sorted (milliseconds : Milliseconds) (instanceId : ℕ) (asOf : ℤ) (hok : TableOk table) :
    (listRedeliverableCommandsForInstance milliseconds instanceId asOf table).Pairwise fun a b =>
      a.createdAt < b.createdAt ∨ a.createdAt = b.createdAt ∧ a.commandId < b.commandId := by
  have hunique : (listRedeliverableCommandsForInstance milliseconds instanceId asOf table).Pairwise
      fun a b => a.commandId ≠ b.commandId := by
    rw [← List.pairwise_map]
    refine ((listed_perm milliseconds instanceId asOf hok).map _).nodup_iff.mpr ?_
    exact hok.unique.sublist (List.filter_sublist.map _)
  have hsorted := List.pairwise_mergeSort createdBefore_trans createdBefore_total
    ((expireStaleCommands milliseconds (some instanceId) none asOf table).filter
      (redeliverable instanceId))
  refine (hsorted.and hunique).imp ?_
  rintro a b ⟨hle,hne⟩
  rcases createdBefore_iff.mp hle with h | ⟨h,hid⟩
  · exact .inl h
  · exact .inr ⟨h,lt_of_le_of_ne hid hne⟩

/-- What no step changes of a row. -/
structure Fixed (command command' : AgentCommand) : Prop where
  commandId : command'.commandId = command.commandId
  instanceId : command'.instanceId = command.instanceId
  kind : command'.kind = command.kind
  timeoutS : command'.timeoutS = command.timeoutS
  createdAt : command'.createdAt = command.createdAt

theorem Fixed.trans {a b : AgentCommand} (h : Fixed a b) (h' : Fixed b c) : Fixed a c :=
  ⟨h'.1.trans h.1,h'.2.trans h.2,h'.3.trans h.3,h'.4.trans h.4,h'.5.trans h.5⟩

theorem Fixed.deadline (h : Fixed command command') :
    commandDeadline command' = commandDeadline command := by
  rw [commandDeadline,commandDeadline,h.createdAt,h.timeoutS]

theorem fixed_refl (command : AgentCommand) : Fixed command command := ⟨rfl,rfl,rfl,rfl,rfl⟩

theorem fixed_delivery (delivery : Delivery) (command : AgentCommand) :
    Fixed command (delivery.perform command) := by
  cases delivery <;> exact ⟨rfl,rfl,rfl,rfl,rfl⟩

theorem fixed_ack (context : ConnectionContext) (payload : AckPayload) (receivedAt : ℤ)
    (command : AgentCommand) : Fixed command (ackCommand context payload receivedAt command) := by
  unfold ackCommand
  split
  · exact fixed_refl command
  · cases payload.status <;> exact ⟨rfl,rfl,rfl,rfl,rfl⟩

theorem fixed_result (context : ConnectionContext) (payload : ResultPayload) (receivedAt : ℤ)
    (command : AgentCommand) : Fixed command (resultCommand context payload receivedAt command) := by
  unfold resultCommand
  split
  · exact fixed_refl command
  · dsimp only
    split <;> exact ⟨rfl,rfl,rfl,rfl,rfl⟩

theorem fixed_expire (milliseconds : Milliseconds) (instanceId serviceId : Option ℕ) (asOf : ℤ)
    (command : AgentCommand) :
    Fixed command (expireSelected milliseconds instanceId serviceId asOf command) := by
  unfold expireSelected expireCommand elapse
  split
  · split
    · exact fixed_refl command
    · dsimp only
      split <;> exact ⟨rfl,rfl,rfl,rfl,rfl⟩
  · exact fixed_refl command

theorem expireSelected_early (milliseconds : Milliseconds) (instanceId serviceId : Option ℕ)
    (h : asOf < commandDeadline command) :
    expireSelected milliseconds instanceId serviceId asOf command = command := by
  unfold expireSelected
  split
  · exact expireCommand_other (.inr h)
  · rfl

theorem redeliver_row {delivery : AgentCommand → Delivery} (hok : TableOk table)
    (h : command' ∈ redeliver milliseconds instanceId asOf delivery table) :
    ∃ command ∈ table, Fixed command command' ∧ (asOf < commandDeadline command →
      command' = if redeliverable instanceId command then (delivery command).perform command
        else command) := by
  obtain ⟨expired,hexpired,rfl⟩ := List.mem_map.mp h
  obtain ⟨command,hcommand,rfl⟩ := List.mem_map.mp hexpired
  have hfixed := fixed_expire milliseconds (some instanceId) none asOf command
  refine ⟨command,hcommand,?_,fun hearly => ?_⟩
  · split
    · exact hfixed.trans (fixed_delivery _ _)
    · exact hfixed
  · rw [expireSelected_early milliseconds _ _ hearly] at hexpired ⊢
    have hlisted : (listRedeliverableCommandsForInstance milliseconds instanceId asOf table).any
        (fun c => c.commandId = command.commandId) = redeliverable instanceId command := by
      rw [Bool.eq_iff_iff,List.any_eq_true]
      constructor
      · rintro ⟨c,hc,hid⟩
        obtain ⟨hmem,hinst,hwaiting⟩ := mem_listed.mp hc
        have hupdate := update_expire milliseconds (.expire none none 0) (some instanceId) none asOf hok
        have hsame : c = command := eq_of_commandId (hupdate.ok hok) hmem hexpired (of_decide_eq_true hid)
        rw [← hsame,redeliverable,Bool.and_eq_true]
        exact ⟨decide_eq_true hinst,hwaiting⟩
      · intro hr
        rw [redeliverable,Bool.and_eq_true,decide_eq_true_eq] at hr
        exact ⟨command,mem_listed.mpr ⟨hexpired,hr⟩,decide_eq_true rfl⟩
    rw [hlisted]

theorem fixed_step (hok : TableOk table) (h : perform milliseconds table op = some table') :
    ∀ command' ∈ table',
      (∃ command ∈ table, Fixed command command') ∨
      ∃ request createdAt delivery, op = .create request createdAt delivery ∧
        command' = delivery.perform (createCommand request createdAt) := by
  intro command' hcommand'
  cases op with
  | create request createdAt delivery =>
    rw [perform] at h
    split at h
    · cases h
    · cases h
      rcases List.mem_append.mp hcommand' with hold | hnew
      · exact .inl ⟨command',hold,fixed_refl command'⟩
      · exact .inr ⟨_,_,_,rfl,List.mem_singleton.mp hnew⟩
  | redeliver instanceId asOf delivery =>
    cases h
    obtain ⟨command,hcommand,hfixed,-⟩ := redeliver_row hok hcommand'
    exact .inl ⟨command,hcommand,hfixed⟩
  | ack context payload receivedAt =>
    cases h
    obtain ⟨command,hcommand,rfl⟩ := List.mem_map.mp hcommand'
    refine .inl ⟨command,hcommand,?_⟩
    split
    · exact fixed_ack _ _ _ _
    · exact fixed_refl command
  | result context payload receivedAt =>
    cases h
    obtain ⟨command,hcommand,rfl⟩ := List.mem_map.mp hcommand'
    refine .inl ⟨command,hcommand,?_⟩
    split
    · exact fixed_result _ _ _ _
    · exact fixed_refl command
  | expire instanceId serviceId asOf =>
    cases h
    obtain ⟨command,hcommand,rfl⟩ := List.mem_map.mp hcommand'
    exact .inl ⟨command,hcommand,fixed_expire milliseconds instanceId serviceId asOf command⟩

/-- The steps that expire what is late. -/
def Op.Expires : Op → Prop
  | .redeliver .. | .expire .. => True
  | _ => False

theorem timeout_of_expiry (hok : TableOk table) (hknown : ∀ command ∈ table, Known ops command)
    (h : Step milliseconds table op table') (hexpires : op.Expires) {c' : AgentCommand}
    (hc : c ∈ table) (hc' : c' ∈ table') (hid : c'.commandId = c.commandId)
    (hs : c'.status = .timeout) :
    c.status = .timeout ∨ c.ackStatus = some .accepted ∧ c.ackedAt.isSome = true ∧
      ∃ o ∈ ops, o.Accepts c.commandId := by
  obtain ⟨f,new,hupdate⟩ := update_step hok h
  have hmem : f c ∈ table' := by
    rw [hupdate.rows]
    exact List.mem_append_left _ (List.mem_map_of_mem hc)
  have hsame : c' = f c :=
    eq_of_commandId (hupdate.ok hok) hc' hmem (hid.trans (hupdate.changes c hc).commandId.symm)
  subst hsame
  rcases (hupdate.changes c hc).timeout hs with ht | ht | ht
  · exact .inl ht
  · obtain ⟨hack,hacked⟩ := (hok.rows c hc).accepted ht
    exact .inr ⟨hack,hacked,(hknown c hc).accepted ht⟩
  · cases op <;> first | exact hexpires.elim | exact (ht.elim id id).elim

/-- In every table that steps make of the empty one: a row has finished exactly if its
status is terminal; it is accepted only with an acknowledgement and its time; it expires
only without one, and runs out of time by expiry only with one that was received. A
terminal row stays as it is and keeps its id to itself, and the rows to deliver again are
those that wait and are not late, by time and id. -/
theorem command_rows {milliseconds : Milliseconds} {ops : List Op} {table : Table}
    (h : Run (Step milliseconds) [] ops table) :
    (∀ c ∈ table, (c.finishedAt.isSome = true ↔ c.status.terminal = true) ∧
      (c.status = .accepted → c.ackStatus = some .accepted ∧ c.ackedAt.isSome = true) ∧
      (c.status = .timeout → c.ackStatus = some .accepted) ∧
      (c.status = .expired → c.ackStatus = none ∧ c.ackedAt = none)) ∧
    (∀ op table', Step milliseconds table op table' → op.Expires → ∀ c ∈ table, ∀ c' ∈ table',
      c'.commandId = c.commandId → c'.status = .timeout → c.status = .timeout ∨
        c.ackStatus = some .accepted ∧ c.ackedAt.isSome = true ∧ ∃ o ∈ ops, o.Accepts c.commandId) ∧
    (∀ later table', Run (Step milliseconds) table later table' →
      ∀ c ∈ table, c.status.terminal = true →
        c ∈ table' ∧ ∀ c' ∈ table', c'.commandId = c.commandId → c' = c) ∧
    ∀ instanceId asOf, (listRedeliverableCommandsForInstance milliseconds instanceId asOf table).Perm
        (table.filter fun c => c.instanceId = instanceId &&
          (c.status = .pending || c.status = .dispatched) && asOf < commandDeadline c) ∧
      (listRedeliverableCommandsForInstance milliseconds instanceId asOf table).Pairwise fun a b =>
        a.createdAt < b.createdAt ∨ a.createdAt = b.createdAt ∧ a.commandId < b.commandId := by
  have hempty : TableOk [] := ⟨List.nodup_nil,fun _ hc => absurd hc List.not_mem_nil⟩
  have hok := run_ok h hempty
  have hknown := @run_known _ _ _ _ [] h hempty fun _ hc => absurd hc List.not_mem_nil
  rw [List.nil_append] at hknown
  refine ⟨fun c hc => ?_,fun op table' hstep hexpires c hc c' hc' hid hs => ?_,
    fun later table' hlater c hc hterminal => ?_,fun instanceId asOf => ⟨?_,?_⟩⟩
  · have hrow := hok.rows c hc
    exact ⟨by rw [hrow.finished],hrow.accepted,hrow.timeout,hrow.expired⟩
  · exact timeout_of_expiry hok hknown hstep hexpires hc hc' hid hs
  · have hkept := run_kept hlater hok hc hterminal
    exact ⟨hkept,fun c' hc' hid => eq_of_commandId (run_ok hlater hok) hc' hkept hid⟩
  · refine (listed_perm milliseconds instanceId asOf hok).trans (.of_eq (List.filter_congr ?_))
    intro c _
    have hwaiting : c.status.redispatchable =
        (decide (c.status = .pending) || decide (c.status = .dispatched)) := by
      cases c.status <;> rfl
    rw [deliverable,redeliverable,hwaiting]
  · exact listed_sorted milliseconds instanceId asOf hok

/-- A ping to the first instance. -/
def ping (commandId : String) (timeoutS : ℕ) (positive : 1 ≤ timeoutS) : CreateRequest where
  commandId := commandId
  serviceId := 0
  instanceId := 0
  kind := .ping
  timeoutS := timeoutS
  positive := positive

def firstPing : CreateRequest := ping "a" 10 (by decide)

/-- Of three pings one is acknowledged and never answered, one is answered twice, and one
is delivered and waits. -/
theorem command_rows_pings : ∃ (ops : List Op) (table : Table) (waiting : AgentCommand),
    Run (Step (· / 1000)) [] ops table ∧
    table.map AgentCommand.status = [.timeout,.succeeded,.dispatched] ∧
    waiting.commandId = "c" ∧
    listRedeliverableCommandsForInstance (· / 1000) 0 20000000 table = [waiting] := by
  let context : ConnectionContext := ⟨"s",0⟩
  let done : ResultPayload := ⟨"b",.succeeded,7,none,none,none,none⟩
  obtain ⟨ops,table,htrace,hstatus,hwaiting⟩ : ∃ ops table,
      trace (perform (· / 1000)) (fun _ op _ => op) []
        [.create (ping "a" 10 (by decide)) 0 (.dispatch "s" 1),.create (ping "b" 10 (by decide)) 0 .keep,
          .create (ping "c" 30 (by decide)) 0 (.dispatch "s" 2),
          .ack context ⟨"a",.accepted,3,none,none⟩ 4,.result context done 8,
          .result context {done with status := .failed} 9,.expire (some 0) none 20000000] =
        some (ops,table) ∧ table.map AgentCommand.status = [.timeout,.succeeded,.dispatched] ∧
      ∃ waiting, waiting.commandId = "c" ∧ (table.filter fun c => c.instanceId = 0 &&
        (c.status = .pending || c.status = .dispatched) && 20000000 < commandDeadline c) = [waiting] :=
    ⟨_,_,rfl,rfl,_,rfl,rfl⟩
  have hrun : Run (Step (· / 1000)) [] ops table := run_of_trace (fun _ _ _ h => h) htrace
  obtain ⟨waiting,hid,hfilter⟩ := hwaiting
  refine ⟨ops,table,waiting,hrun,hstatus,hid,?_⟩
  have hperm := ((command_rows hrun).2.2.2 0 20000000).1
  rw [hfilter] at hperm
  exact List.perm_singleton.mp hperm

end Tables

end OneStep.AgentCommands
