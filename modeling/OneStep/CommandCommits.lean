import OneStep.AgentCommands

/-!
# The commits of the command handlers

A handler reads its rows into a session, decides by what it read, and commits later: the
columns that differ from what was read are written to the row, whatever became of it in
between. The handlers of one thread come one after another. Connections and the creation
of commands are handled on the event loop; the listings, which expire what is late, run on
other threads. A commit keeps what has ended if it writes no status, as when a dispatched
command is delivered again, or the very end that the row already has.
-/
namespace OneStep.CommandCommits
open AgentCommands Transition

section Sessions

/-- What becomes of a column when a session is flushed. -/
def written {α : Type} [DecidableEq α] (read new row : α) : α := if new = read then row else new

/-- A row of a session, as it was read and as the handler left it. -/
structure Edit where
  read : AgentCommand
  new : AgentCommand

def Edit.flush (e : Edit) (row : AgentCommand) : AgentCommand :=
  {row with
    sessionId := written e.read.sessionId e.new.sessionId row.sessionId
    status := written e.read.status e.new.status row.status
    ackStatus := written e.read.ackStatus e.new.ackStatus row.ackStatus
    result := written e.read.result e.new.result row.result
    durationMs := written e.read.durationMs e.new.durationMs row.durationMs
    errorCode := written e.read.errorCode e.new.errorCode row.errorCode
    errorMessage := written e.read.errorMessage e.new.errorMessage row.errorMessage
    dispatchedAt := written e.read.dispatchedAt e.new.dispatchedAt row.dispatchedAt
    ackedAt := written e.read.ackedAt e.new.ackedAt row.ackedAt
    finishedAt := written e.read.finishedAt e.new.finishedAt row.finishedAt
    updatedAt := written e.read.updatedAt e.new.updatedAt row.updatedAt}

/-- What one commit writes. -/
abbrev Transaction := List Edit

def Transaction.edit (tx : Transaction) (row : AgentCommand) : Option Edit :=
  tx.find? fun e => e.read.commandId = row.commandId

def Transaction.flushRow (tx : Transaction) (row : AgentCommand) : AgentCommand :=
  (tx.edit row).elim row fun e => e.flush row

def Transaction.flush (tx : Transaction) (table : Table) : Table := table.map tx.flushRow

inductive Thread where
  | events
  | worker (n : ℕ)
  deriving DecidableEq

/-- The table, and the commits that each thread has still to make. -/
structure Plane where
  table : Table := []
  work : Thread → List Transaction := fun _ => []

end Sessions

section Handlers

/-- The rows that `expire_stale_commands` changes. -/
def staleCommands (instanceId serviceId : Option ℕ) (asOf : ℤ) (table : Table) : Table :=
  table.filter fun command =>
    instanceId.all (· = command.instanceId) && serviceId.all (· = command.serviceId) &&
      (command.status.reconcilable && commandDeadline command ≤ asOf)

variable (milliseconds : Milliseconds)

def expireWork (instanceId serviceId : Option ℕ) (asOf : ℤ) (table : Table) : List Transaction :=
  match staleCommands instanceId serviceId asOf table with
  | [] => []
  | stale => [stale.map fun command => ⟨command,expireCommand milliseconds asOf command⟩]

/-- Each command that waits is dispatched, or rejected, in a commit of its own. -/
def enqueueWork (instanceId : ℕ) (acceptedCapabilities : List String) (sessionId : String)
    (clock : String → ℤ) (table : Table) : List Transaction :=
  ((table.filter (redeliverable instanceId)).mergeSort createdBefore).map fun command =>
    [⟨command,(enqueuePending acceptedCapabilities sessionId clock command).perform command⟩]

def resolveCommandForSession (context : ConnectionContext) (commandId : String) (table : Table) :
    Option AgentCommand :=
  table.find? fun command =>
    command.commandId = commandId && command.instanceId = context.instanceId

def ackWork (context : ConnectionContext) (payload : AckPayload) (receivedAt : ℤ) (table : Table) :
    List Transaction :=
  match resolveCommandForSession context payload.commandId table with
  | none => []
  | some command =>
    if command.finishedAt.isSome || command.ackStatus.isSome then []
    else [[⟨command,ackCommand context payload receivedAt command⟩]]

def resultWork (context : ConnectionContext) (payload : ResultPayload) (receivedAt : ℤ)
    (table : Table) : List Transaction :=
  match resolveCommandForSession context payload.commandId table with
  | none => []
  | some command =>
    if command.finishedAt.isSome then []
    else [[⟨command,resultCommand context payload receivedAt command⟩]]

/-- A new command is dispatched at once when its instance is connected. -/
def createWork (request : CreateRequest) (createdAt : ℤ) (live : Option (String × ℤ)) :
    List Transaction :=
  match live with
  | none => []
  | some (sessionId,dispatchedAt) =>
    [[⟨createCommand request createdAt,
      markCommandDispatched sessionId dispatchedAt (createCommand request createdAt)⟩]]

/-- The reads and the commits. -/
inductive Act where
  | expire (thread : Thread) (instanceId serviceId : Option ℕ) (asOf : ℤ)
  | enqueue (instanceId : ℕ) (acceptedCapabilities : List String) (sessionId : String)
      (clock : String → ℤ)
  | ack (context : ConnectionContext) (payload : AckPayload) (receivedAt : ℤ)
  | result (context : ConnectionContext) (payload : ResultPayload) (receivedAt : ℤ)
  | create (request : CreateRequest) (createdAt : ℤ) (live : Option (String × ℤ))
  | commit (thread : Thread)

/-- A thread that has nothing left to commit takes up a handler. -/
def Plane.start (p : Plane) (thread : Thread) (work : List Transaction) : Option Plane :=
  if p.work thread = [] then some {p with work := Function.update p.work thread work} else none

def perform (p : Plane) : Act → Option Plane
  | .expire thread instanceId serviceId asOf =>
    p.start thread (expireWork milliseconds instanceId serviceId asOf p.table)
  | .enqueue instanceId acceptedCapabilities sessionId clock =>
    p.start .events (enqueueWork instanceId acceptedCapabilities sessionId clock p.table)
  | .ack context payload receivedAt => p.start .events (ackWork context payload receivedAt p.table)
  | .result context payload receivedAt =>
    p.start .events (resultWork context payload receivedAt p.table)
  | .create request createdAt live =>
    if p.table.any fun command => command.commandId = request.commandId then none
    else ({p with table := p.table++[createCommand request createdAt]} : Plane).start .events
      (createWork request createdAt live)
  | .commit thread =>
    match p.work thread with
    | [] => none
    | tx::rest => some ⟨tx.flush p.table,Function.update p.work thread rest⟩

end Handlers

section Ends

/-- The end of a command. -/
structure Kept (row row' : AgentCommand) : Prop where
  status : row'.status = row.status
  result : row'.result = row.result
  errorCode : row'.errorCode = row.errorCode
  finishedAt : row'.finishedAt = row.finishedAt

/-- What has ended is still in the table, with the same end. -/
def Keeps (table table' : Table) : Prop :=
  ∀ row ∈ table, row.status.terminal = true →
    ∃ row' ∈ table', row'.commandId = row.commandId ∧ Kept row row'

/-- The row has the end that the handler sets. -/
structure Edit.Agrees (e : Edit) (row : AgentCommand) : Prop where
  status : e.new.status = row.status
  finishedAt : e.new.finishedAt = row.finishedAt
  errorCode : e.new.errorCode = none ∨ e.new.errorCode = row.errorCode
  result : e.new.result = none ∨ e.new.result = row.result

/-- A commit comes before its commands end, or sets no status, or agrees. -/
def Timely (p : Plane) : Act → Prop
  | .commit thread => ∀ tx ∈ (p.work thread).head?, ∀ row ∈ p.table, row.status.terminal = true →
      ∀ e ∈ tx.edit row, e.new.status = e.read.status ∨ e.Agrees row
  | _ => True

/-- A row has a finish time once it has ended, and no error or result before. -/
structure Settled (row : AgentCommand) : Prop where
  finished : row.finishedAt.isSome = row.status.terminal
  errorCode : row.status.terminal = false → row.errorCode = none
  result : row.status.terminal = false → row.result = none

variable {row : AgentCommand}

theorem Settled.finishedAt (h : Settled row) (hopen : row.status.terminal = false) :
    row.finishedAt = none := by
  rw [← Option.isNone_iff_eq_none,← Option.not_isSome,h.finished,hopen]
  rfl

/-- A handler changes rows that have not ended. -/
structure Edit.Ok (e : Edit) : Prop where
  commandId : e.new.commandId = e.read.commandId
  isOpen : e.read.status.terminal = false
  read : Settled e.read
  new : Settled e.new

theorem written_kept {α : Type} [DecidableEq α] {read new row : α} :
    written read new row = row ↔ new = read ∨ new = row := by
  unfold written
  split
  · next h => exact iff_of_true rfl (.inl h)
  · next h => simp only [h,false_or]

theorem written_fresh {α : Type} [DecidableEq α] {read new row : α} (h : row = read) :
    written read new row = new := by
  unfold written
  split
  · next hsame => exact h.trans hsame.symm
  · rfl

theorem kept_of_same {e : Edit} (h : e.Ok) (hsame : e.new.status = e.read.status)
    (row : AgentCommand) : Kept row (e.flush row) := by
  have hopen : e.new.status.terminal = false := by rw [hsame,h.isOpen]
  refine ⟨written_kept.mpr (.inl hsame),written_kept.mpr (.inl ?_),written_kept.mpr (.inl ?_),
    written_kept.mpr (.inl ?_)⟩
  · rw [h.new.result hopen,h.read.result h.isOpen]
  · rw [h.new.errorCode hopen,h.read.errorCode h.isOpen]
  · rw [h.new.finishedAt hopen,h.read.finishedAt h.isOpen]

theorem flush_kept {e : Edit} (h : e.Ok) (hterminal : row.status.terminal = true) :
    Kept row (e.flush row) ↔ e.new.status = e.read.status ∨ e.Agrees row := by
  have hread := h.read.finishedAt h.isOpen
  have hcode := h.read.errorCode h.isOpen
  have hresult := h.read.result h.isOpen
  constructor
  · intro hkept
    rcases written_kept.mp hkept.status with hsame | hstatus
    · exact .inl hsame
    · right
      have hsome : e.new.finishedAt.isSome = true := by rw [h.new.finished,hstatus,hterminal]
      refine ⟨hstatus,?_,?_,?_⟩
      · rcases written_kept.mp hkept.finishedAt with hnone | hfinished
        · rw [hnone,hread] at hsome
          cases hsome
        · exact hfinished
      · rw [← hcode]
        exact written_kept.mp hkept.errorCode
      · rw [← hresult]
        exact written_kept.mp hkept.result
  · rintro (hsame | hagrees)
    · exact kept_of_same h hsame row
    · refine ⟨written_kept.mpr (.inr hagrees.status),written_kept.mpr ?_,written_kept.mpr ?_,
        written_kept.mpr (.inr hagrees.finishedAt)⟩
      · rw [hresult]
        exact hagrees.result
      · rw [hcode]
        exact hagrees.errorCode

theorem Kept.settled {row' : AgentCommand} (h : Kept row row') (hrow : Settled row) :
    Settled row' := by
  obtain ⟨hstatus,hresult,hcode,hfinished⟩ := h
  constructor
  · rw [hfinished,hstatus,hrow.finished]
  · rw [hstatus,hcode]
    exact hrow.errorCode
  · rw [hstatus,hresult]
    exact hrow.result

theorem settled_flush {e : Edit} (h : e.Ok) (hrow : Settled row)
    (hopen : row.status.terminal = false) : Settled (e.flush row) := by
  by_cases hsame : e.new.status = e.read.status
  · exact (kept_of_same h hsame row).settled hrow
  · have hstatus : (e.flush row).status = e.new.status := if_neg hsame
    have hfinished : (e.flush row).finishedAt = e.new.finishedAt := by
      apply written_fresh
      rw [hrow.finishedAt hopen,h.read.finishedAt h.isOpen]
    have hcode : (e.flush row).errorCode = e.new.errorCode := by
      apply written_fresh
      rw [hrow.errorCode hopen,h.read.errorCode h.isOpen]
    have hresult : (e.flush row).result = e.new.result := by
      apply written_fresh
      rw [hrow.result hopen,h.read.result h.isOpen]
    exact (Kept.mk hstatus hresult hcode hfinished).settled h.new

end Ends

section Work
variable {milliseconds : Milliseconds} {table : Table}

/-- Every edit of the work is one of a row that has not ended. -/
def WorkOk (work : List Transaction) : Prop := ∀ tx ∈ work, ∀ e ∈ tx, e.Ok

theorem workOk_nil : WorkOk [] := fun _ htx => absurd htx List.not_mem_nil

theorem workOk_single {e : Edit} (h : e.Ok) : WorkOk [[e]] := by
  intro tx htx e' he'
  rw [List.mem_singleton.mp htx] at he'
  rw [List.mem_singleton.mp he']
  exact h

variable {command : AgentCommand}

theorem expire_ok {asOf : ℤ} (h : Settled command) (hopen : command.status.reconcilable = true)
    (hlate : commandDeadline command ≤ asOf) :
    Edit.Ok ⟨command,expireCommand milliseconds asOf command⟩ := by
  have hnot : ¬(command.status.reconcilable = false ∨ asOf < commandDeadline command) := by
    rw [hopen]
    simp only [Bool.true_eq_false,false_or,not_lt]
    exact hlate
  have hterminal : command.status.terminal = false := by
    rw [← Bool.not_eq_true,terminal_iff,hopen]
    nofun
  rw [expireCommand,if_neg hnot]
  by_cases hack : command.status = .accepted ∨ command.ackStatus = some .accepted
  · rw [elapse,if_pos hack]
    exact ⟨rfl,hterminal,h,⟨rfl,nofun,nofun⟩⟩
  · rw [elapse,if_neg hack]
    exact ⟨rfl,hterminal,h,⟨rfl,nofun,nofun⟩⟩

theorem delivery_ok (h : Settled command) (hwaiting : command.status.redispatchable = true)
    (acceptedCapabilities : List String) (sessionId : String) (clock : String → ℤ) :
    Edit.Ok ⟨command,(enqueuePending acceptedCapabilities sessionId clock command).perform command⟩ := by
  have hopen := not_terminal hwaiting
  unfold enqueuePending
  split
  · rw [Delivery.perform,markCommandDispatched_waiting hwaiting]
    exact ⟨rfl,hopen,h,⟨h.finished.trans hopen,fun _ => h.errorCode hopen,fun _ => h.result hopen⟩⟩
  · exact ⟨rfl,hopen,h,⟨rfl,fun h => (by cases h),fun h => by cases h⟩⟩

variable {context : ConnectionContext} {receivedAt : ℤ}

theorem ack_ok {payload : AckPayload} (h : Settled command)
    (hnew : ¬(command.finishedAt.isSome || command.ackStatus.isSome) = true) :
    Edit.Ok ⟨command,ackCommand context payload receivedAt command⟩ := by
  have hnone : command.finishedAt.isSome = false := by
    rw [Bool.or_eq_true,not_or,Bool.not_eq_true] at hnew
    exact hnew.1
  have hopen : command.status.terminal = false := by rw [← h.finished,hnone]
  rw [ackCommand,if_neg hnew]
  cases payload.status with
  | accepted => exact ⟨rfl,hopen,h,⟨hnone,fun _ => h.errorCode hopen,fun _ => h.result hopen⟩⟩
  | rejected => exact ⟨rfl,hopen,h,⟨rfl,nofun,nofun⟩⟩

theorem result_ok {payload : ResultPayload} (h : Settled command)
    (hnew : ¬command.finishedAt.isSome = true) :
    Edit.Ok ⟨command,resultCommand context payload receivedAt command⟩ := by
  have hopen : command.status.terminal = false := by
    rw [← h.finished]
    exact Bool.eq_false_of_not_eq_true hnew
  have hterminal := (status_reported payload.status).1
  have hnever {p : Prop} (ht : payload.status.status.terminal = false) : p := by
    rw [hterminal] at ht
    cases ht
  rw [resultCommand,if_neg hnew]
  by_cases hack : command.ackStatus.isNone
  · simp only [hack,if_true]
    exact ⟨rfl,hopen,h,⟨hterminal.symm,hnever,hnever⟩⟩
  · simp only [hack]
    exact ⟨rfl,hopen,h,⟨hterminal.symm,hnever,hnever⟩⟩

variable (hrows : ∀ row ∈ table, Settled row)
include hrows

theorem expireWork_ok {instanceId serviceId : Option ℕ} {asOf : ℤ} :
    WorkOk (expireWork milliseconds instanceId serviceId asOf table) := by
  unfold expireWork
  split
  · exact workOk_nil
  · intro tx htx e he
    rw [List.mem_singleton.mp htx] at he
    obtain ⟨command,hcommand,rfl⟩ := List.mem_map.mp he
    obtain ⟨hmem,hstale⟩ := List.mem_filter.mp hcommand
    simp only [Bool.and_eq_true,decide_eq_true_eq] at hstale
    exact expire_ok (hrows command hmem) hstale.2.1 hstale.2.2

theorem enqueueWork_ok {instanceId : ℕ} {acceptedCapabilities : List String} {sessionId : String}
    {clock : String → ℤ} :
    WorkOk (enqueueWork instanceId acceptedCapabilities sessionId clock table) := by
  intro tx htx e he
  obtain ⟨command,hcommand,rfl⟩ := List.mem_map.mp htx
  rw [List.mem_singleton.mp he]
  rw [List.mem_mergeSort,List.mem_filter,redeliverable,Bool.and_eq_true] at hcommand
  exact delivery_ok (hrows command hcommand.1) hcommand.2.2 _ _ _

theorem ackWork_ok {payload : AckPayload} : WorkOk (ackWork context payload receivedAt table) := by
  unfold ackWork
  split
  · exact workOk_nil
  · next command hfound =>
      split
      · exact workOk_nil
      · next hnew => exact workOk_single (ack_ok (hrows command (List.mem_of_find?_eq_some hfound)) hnew)

theorem resultWork_ok {payload : ResultPayload} :
    WorkOk (resultWork context payload receivedAt table) := by
  unfold resultWork
  split
  · exact workOk_nil
  · next command hfound =>
      split
      · exact workOk_nil
      · next hnew =>
          exact workOk_single (result_ok (hrows command (List.mem_of_find?_eq_some hfound)) hnew)

omit hrows in
theorem settled_create (request : CreateRequest) (createdAt : ℤ) :
    Settled (createCommand request createdAt) := ⟨rfl,fun _ => rfl,fun _ => rfl⟩

omit hrows in
theorem createWork_ok (request : CreateRequest) (createdAt : ℤ) (live : Option (String × ℤ)) :
    WorkOk (createWork request createdAt live) := by
  cases live with
  | none => exact workOk_nil
  | some at_ =>
    apply workOk_single
    have hcreated := settled_create request createdAt
    exact ⟨rfl,rfl,hcreated,⟨rfl,fun _ => rfl,fun _ => rfl⟩⟩

end Work

section Runs
variable {milliseconds : Milliseconds} {p q : Plane} {thread : Thread} {work : List Transaction}

structure Plane.Sound (p : Plane) : Prop where
  unique : (p.table.map AgentCommand.commandId).Nodup
  rows : ∀ row ∈ p.table, Settled row
  work : ∀ thread, WorkOk (p.work thread)

theorem sound_empty : Plane.Sound {} :=
  ⟨List.nodup_nil,fun _ h => absurd h List.not_mem_nil,fun _ => workOk_nil⟩

theorem start_eq (h : p.start thread work = some q) :
    q = {p with work := Function.update p.work thread work} := by
  unfold Plane.start at h
  split at h
  · exact (Option.some.inj h).symm
  · cases h

theorem work_update {f : Thread → List Transaction} (h : ∀ thread, WorkOk (f thread))
    (hwork : WorkOk work) : ∀ thread', WorkOk (Function.update f thread work thread') := by
  intro thread'
  by_cases heq : thread' = thread
  · rw [heq,Function.update_self]
    exact hwork
  · rw [Function.update_of_ne heq]
    exact h thread'

theorem Plane.Sound.start (hp : p.Sound) (hwork : WorkOk work) (h : p.start thread work = some q) :
    q.Sound := by
  rw [start_eq h]
  exact ⟨hp.unique,hp.rows,work_update hp.work hwork⟩

theorem keeps_refl (table : Table) : Keeps table table :=
  fun row hrow _ => ⟨row,hrow,rfl,⟨rfl,rfl,rfl,rfl⟩⟩

theorem Keeps.trans {table table' table'' : Table} (h : Keeps table table')
    (h' : Keeps table' table'') : Keeps table table'' := by
  intro row hrow hterminal
  obtain ⟨row',hrow',hid,hkept⟩ := h row hrow hterminal
  have hterminal' : row'.status.terminal = true := by rw [hkept.status,hterminal]
  obtain ⟨row'',hrow'',hid',hkept'⟩ := h' row' hrow' hterminal'
  exact ⟨row'',hrow'',hid'.trans hid,⟨hkept'.status.trans hkept.status,
    hkept'.result.trans hkept.result,hkept'.errorCode.trans hkept.errorCode,
    hkept'.finishedAt.trans hkept.finishedAt⟩⟩

theorem flushRow_commandId (tx : Transaction) (row : AgentCommand) :
    (tx.flushRow row).commandId = row.commandId := by
  unfold Transaction.flushRow
  cases tx.edit row with
  | none => rfl
  | some e => rfl

theorem flush_commandIds (tx : Transaction) (table : Table) :
    (tx.flush table).map AgentCommand.commandId = table.map AgentCommand.commandId := by
  rw [Transaction.flush,List.map_map]
  exact List.map_congr_left fun row _ => flushRow_commandId tx row

variable {tx : Transaction} {row : AgentCommand}

theorem edit_mem {e : Edit} (h : tx.edit row = some e) :
    e ∈ tx := List.mem_of_find?_eq_some h

theorem flushRow_some {e : Edit} (h : tx.edit row = some e) : tx.flushRow row = e.flush row := by
  rw [Transaction.flushRow,h]
  rfl

/-- A commit keeps what has ended exactly if its edits of ended rows are timely. -/
theorem keeps_flush {table : Table} (hunique : (table.map AgentCommand.commandId).Nodup)
    (htx : ∀ e ∈ tx, e.Ok) :
    Keeps table (tx.flush table) ↔ ∀ row ∈ table, row.status.terminal = true →
      ∀ e ∈ tx.edit row, e.new.status = e.read.status ∨ e.Agrees row := by
  constructor
  · intro hkeeps row hrow hterminal e he
    obtain ⟨row',hrow',hid,hkept⟩ := hkeeps row hrow hterminal
    obtain ⟨source,hsource,rfl⟩ := List.mem_map.mp hrow'
    rw [flushRow_commandId] at hid
    have hsame : source = row := List.inj_on_of_nodup_map hunique hsource hrow hid
    rw [hsame,flushRow_some he] at hkept
    exact (flush_kept (htx e (edit_mem he)) hterminal).mp hkept
  · intro htimely row hrow hterminal
    refine ⟨tx.flushRow row,List.mem_map_of_mem hrow,flushRow_commandId tx row,?_⟩
    cases he : tx.edit row with
    | none =>
      rw [Transaction.flushRow,he]
      exact ⟨rfl,rfl,rfl,rfl⟩
    | some e =>
      rw [flushRow_some he]
      exact (flush_kept (htx e (edit_mem he)) hterminal).mpr (htimely row hrow hterminal e he)

theorem settled_flushRow (htx : ∀ e ∈ tx, e.Ok) (hrow : Settled row)
    (htimely : row.status.terminal = true →
      ∀ e ∈ tx.edit row, e.new.status = e.read.status ∨ e.Agrees row) :
    Settled (tx.flushRow row) := by
  cases he : tx.edit row with
  | none =>
    rw [Transaction.flushRow,he]
    exact hrow
  | some e =>
    rw [flushRow_some he]
    have hok := htx e (edit_mem he)
    cases hterminal : row.status.terminal with
    | false => exact settled_flush hok hrow hterminal
    | true => exact ((flush_kept hok hterminal).mpr (htimely hterminal e he)).settled hrow

theorem commit_eq (h : perform milliseconds p (.commit thread) = some q) :
    ∃ tx rest, p.work thread = tx::rest ∧
      q = ⟨tx.flush p.table,Function.update p.work thread rest⟩ := by
  rw [perform] at h
  split at h
  · cases h
  · next tx rest hwork => exact ⟨tx,rest,hwork,(Option.some.inj h).symm⟩

theorem create_eq {request : CreateRequest} {createdAt : ℤ} {live : Option (String × ℤ)}
    (h : perform milliseconds p (.create request createdAt live) = some q) :
    request.commandId ∉ p.table.map AgentCommand.commandId ∧
      q = ⟨p.table++[createCommand request createdAt],
        Function.update p.work .events (createWork request createdAt live)⟩ := by
  rw [perform] at h
  split at h
  · cases h
  · next hnew =>
      refine ⟨fun hmem => hnew ?_,start_eq h⟩
      obtain ⟨command,hcommand,hid⟩ := List.mem_map.mp hmem
      exact List.any_eq_true.mpr ⟨command,hcommand,decide_eq_true hid⟩

/-- What one step keeps: all of what has ended, exactly if it is timely. -/
theorem keeps_iff (hp : p.Sound) {act : Act} (h : perform milliseconds p act = some q) :
    Keeps p.table q.table ↔ Timely p act := by
  cases act with
  | expire thread instanceId serviceId asOf =>
    rw [start_eq h]
    exact iff_of_true (keeps_refl _) trivial
  | enqueue instanceId acceptedCapabilities sessionId clock =>
    rw [start_eq h]
    exact iff_of_true (keeps_refl _) trivial
  | ack context payload receivedAt =>
    rw [start_eq h]
    exact iff_of_true (keeps_refl _) trivial
  | result context payload receivedAt =>
    rw [start_eq h]
    exact iff_of_true (keeps_refl _) trivial
  | create request createdAt live =>
    rw [(create_eq h).2]
    refine iff_of_true (fun row hrow _ => ?_) trivial
    exact ⟨row,List.mem_append_left _ hrow,rfl,⟨rfl,rfl,rfl,rfl⟩⟩
  | commit thread =>
    obtain ⟨tx,rest,hwork,rfl⟩ := commit_eq h
    have htx : ∀ e ∈ tx, e.Ok := hp.work thread tx (by rw [hwork]; exact List.mem_cons_self)
    rw [keeps_flush hp.unique htx,Timely,hwork]
    simp only [List.head?_cons,Option.mem_some_iff,forall_eq']

/-- A timely step keeps the plane sound. -/
theorem sound_step (hp : p.Sound) {act : Act} (h : perform milliseconds p act = some q)
    (htimely : Timely p act) : q.Sound := by
  cases act with
  | expire thread instanceId serviceId asOf => exact hp.start (expireWork_ok hp.rows) h
  | enqueue instanceId acceptedCapabilities sessionId clock =>
    exact hp.start (enqueueWork_ok hp.rows) h
  | ack context payload receivedAt => exact hp.start (ackWork_ok hp.rows) h
  | result context payload receivedAt => exact hp.start (resultWork_ok hp.rows) h
  | create request createdAt live =>
    obtain ⟨hnew,rfl⟩ := create_eq h
    constructor
    · rw [List.map_append,List.nodup_append]
      refine ⟨hp.unique,List.nodup_singleton _,?_⟩
      rintro id hid id' hid' rfl
      rw [List.map_singleton,List.mem_singleton] at hid'
      rw [hid'] at hid
      exact hnew hid
    · intro row hrow
      rcases List.mem_append.mp hrow with hold | hcreated
      · exact hp.rows row hold
      · rw [List.mem_singleton.mp hcreated]
        exact settled_create request createdAt
    · exact work_update hp.work (createWork_ok request createdAt live)
  | commit thread =>
    obtain ⟨tx,rest,hwork,rfl⟩ := commit_eq h
    have hthread := hp.work thread
    rw [hwork] at hthread
    have htx : ∀ e ∈ tx, e.Ok := hthread tx List.mem_cons_self
    constructor
    · rw [flush_commandIds]
      exact hp.unique
    · intro row' hrow'
      obtain ⟨row,hrow,rfl⟩ := List.mem_map.mp hrow'
      exact settled_flushRow htx (hp.rows row hrow) fun hterminal =>
        htimely tx (by rw [hwork]; rfl) row hrow hterminal
    · exact work_update hp.work fun tx' htx' => hthread tx' (List.mem_cons_of_mem _ htx')

/-- The step keeps what has ended. -/
def KeepsEnds (milliseconds : Milliseconds) (p : Plane) (act : Act) : Prop :=
  ∀ q, perform milliseconds p act = some q → Keeps p.table q.table

theorem keeps_run (hp : p.Sound) {acts : List Act}
    (htimely : EachStep (perform milliseconds) Timely p acts)
    (h : runs (perform milliseconds) (fun _ _ => true) p acts = some q) :
    Keeps p.table q.table := by
  induction acts generalizing p with
  | nil =>
    cases h
    exact keeps_refl _
  | cons act acts ih =>
    rw [runs,if_pos rfl] at h
    obtain ⟨t,ht,hrest⟩ := Option.bind_eq_some_iff.mp h
    obtain ⟨hact,hacts⟩ := htimely t ht
    exact ((keeps_iff hp ht).mpr hact).trans (ih (sound_step hp ht hact) hacts hrest)

/-- Over any interleaving of reads and commits, every commit keeps what has ended exactly
if every commit is timely; then what has ended at one moment has that end at every later
one. -/
theorem ends_kept_iff (milliseconds : Milliseconds) (acts : List Act) :
    (EachStep (perform milliseconds) (KeepsEnds milliseconds) {} acts ↔
      EachStep (perform milliseconds) Timely {} acts) ∧
    (EachStep (perform milliseconds) Timely {} acts → ∀ front back p q, acts = front++back →
      runs (perform milliseconds) (fun _ _ => true) {} front = some p →
      runs (perform milliseconds) (fun _ _ => true) p back = some q →
      Keeps p.table q.table) := by
  constructor
  · apply eachStep_iff (J := Plane.Sound)
    · intro p act q hp hq htimely
      exact sound_step hp hq htimely
    · intro p act q hp hq
      rw [← keeps_iff hp hq]
      refine ⟨fun h => h q hq,fun h q' hq' => ?_⟩
      cases hq.symm.trans hq'
      exact h
    · exact sound_empty
  · intro htimely front back p q hacts hfront hback
    rw [hacts] at htimely
    obtain ⟨hp,hrest⟩ := eachStep_append (J := Plane.Sound) (fun p act q hp hq h =>
      sound_step hp hq h) sound_empty htimely hfront
    exact keeps_run hp hrest hback

end Runs

section Example

def pingRequest : CreateRequest where
  commandId := "cmd"
  serviceId := 0
  instanceId := 0
  kind := .ping
  timeoutS := 1
  positive := Nat.one_pos

def pingContext : ConnectionContext := ⟨"sess",0⟩

/-- A listing reads the accepted command after its deadline; then comes its result. -/
def lateListing : List Act := [
  .create pingRequest 0 (some ("sess",0)),
  .commit .events,
  .ack pingContext ⟨"cmd",.accepted,0,none,none⟩ 0,
  .commit .events,
  .expire (.worker 0) (some 0) none 1000000,
  .result pingContext ⟨"cmd",.succeeded,1000000,some [("ok",.bool true)],some 1000,none,none⟩ 1000000,
  .commit .events]

/-- The expiry commits over the result. -/
theorem result_overwritten : ∃ p q : Plane,
    runs (perform id) (fun _ _ => true) {} lateListing = some p ∧
      perform id p (.commit (.worker 0)) = some q ∧
      p.table.map (fun row => (row.status,row.errorCode)) = [(.succeeded,none)] ∧
      q.table.map (fun row => (row.status,row.errorCode)) =
        [(.timeout,some "command_timeout_elapsed")] :=
  ⟨_,_,rfl,rfl,rfl,rfl⟩

end Example

end OneStep.CommandCommits
