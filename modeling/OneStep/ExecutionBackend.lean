import OneStep.ExecutionModel
import OneStep.KeyedTable
import OneStep.Transaction

/-!
# The PostgreSQL execution backend

Every transaction of `PostgresExecutionBackend`, over the two tables of
`execution_schema`. A statement is a guarded update that reports its row count,
a lookup, a bounded ordered selection or an insertion checked against the
primary keys and unique indexes; an exception raised inside `engine.begin()`
rolls the transaction back. The transaction time is an argument: it is read
once, at the start, and is stable for all lease checks.

A JSON column holds what the driver returns for it, so a SQL NULL and a JSON
null are one value, `null`. The error column holds the detail itself. Column
widths, the connection and the readiness of the tables are not modelled.
-/
namespace OneStep.ExecutionBackend
open ExecutionModel KeyedTable Transaction

structure ExecutionRow (J : Type) where
  id : UUID
  namespaceName : String
  taskName : String
  status : ExecutionStatus
  payload : J
  metadata : J
  result : J
  error : Option ExecutionErrorDetail
  idempotencyKey : Option String
  submissionDigest : Option String
  attempts : ℕ
  availableAt : Instant
  leaseToken : Option UUID
  leaseExpiresAt : Option Instant
  workerId : Option String
  cancelReason : Option String
  cancelRequestedAt : Option Instant
  expiresAt : Option Instant
  createdAt : Instant
  updatedAt : Instant
  startedAt : Option Instant
  finishedAt : Option Instant
  version : ℕ
  deriving DecidableEq, Repr

inductive AttemptStatus where
  | running | succeeded | retrying | failed | cancelled | leaseLost
  deriving DecidableEq, Repr

structure AttemptRow where
  id : UUID
  executionId : UUID
  attemptNo : ℕ
  leaseToken : UUID
  workerId : String
  status : AttemptStatus
  error : Option ExecutionErrorDetail
  startedAt : Instant
  heartbeatAt : Instant
  finishedAt : Option Instant
  deriving DecidableEq, Repr

structure Tables (J : Type) where
  executions : List (ExecutionRow J)
  attempts : List AttemptRow
  deriving DecidableEq, Repr

inductive BackendError where
  | valueError (message : String)
  | staleExecutionLease (message : String)
  | executionConflict (message : String)
  | executionEncodingError (message : String)
  | integrityError
  | databaseError
  deriving DecidableEq, Repr

/-- Configuration, the codec functions the backend calls, `==` of decoded JSON, and
what the database does with values. A JSON column gives back `stored` of what was
written, since JSONB rewrites numbers; a row that is not accepted raises: one with
a text that holds U+0000, an integer of too many digits, a time past the last
year. -/
structure Backend (V J : Type) where
  pyNone : V
  null : J
  encodeValue : V → Except String J
  decodeValue : J → Except String V
  encodedSize : J → ℕ
  maxResultBytes : ℕ
  reclaimBatchSize : ℕ
  equal : J → J → Bool
  stored : J → J
  accepts : ExecutionRow J → Bool
  equal_null : equal null null = true
  stored_null : stored null = null

/-- The prepared submission of `_encode_submission`. -/
structure EncodedSubmission (J : Type) where
  payload : J
  metadata : J
  digest : String
  deriving DecidableEq, Repr

variable {V J : Type}

abbrev Db (J : Type) := Tx (Tables J) BackendError

def ofExcept {α : Type} : Except BackendError α → Db J α
  | .ok a => pure a
  | .error e => throw e

def updateExecutions (p : ExecutionRow J → Bool) (f : ExecutionRow J → ExecutionRow J) :
    Db J ℕ :=
  modifyGet fun t => (affected p t.executions,{t with executions := update p f t.executions})

def updateAttempts (p : AttemptRow → Bool) (f : AttemptRow → AttemptRow) : Db J ℕ :=
  modifyGet fun t => (affected p t.attempts,{t with attempts := update p f t.attempts})

def selectExecution (id : UUID) : Db J (Option (ExecutionRow J)) := do
  return lookup ExecutionRow.id id (← get).executions

/-- Primary key and the partial unique index on the idempotency key. -/
def clashesExecution (r s : ExecutionRow J) : Bool :=
  r.id = s.id || (s.idempotencyKey.isSome && r.namespaceName = s.namespaceName &&
    r.taskName = s.taskName && r.idempotencyKey = s.idempotencyKey)

def insertExecution (row : ExecutionRow J) : Db J Unit := do
  let t ← get
  if t.executions.any fun r => clashesExecution r row then throw .integrityError
  else set {t with executions := t.executions++[row]}

/-- Primary key and the unique constraint on execution and attempt number. -/
def clashesAttempt (a b : AttemptRow) : Bool :=
  a.id = b.id || (a.executionId = b.executionId && a.attemptNo = b.attemptNo)

def insertAttempt (row : AttemptRow) : Db J Unit := do
  let t ← get
  if t.attempts.any fun a => clashesAttempt a row then throw .integrityError
  else set {t with attempts := t.attempts++[row]}

section Reading
variable [DecidableEq J]

def decodeColumn (b : Backend V J) (id : UUID) (j : J) : Except BackendError V :=
  match b.decodeValue j with
  | .ok v => .ok v
  | .error m => .error (.executionEncodingError s!"cannot decode execution {id}: {m}")

def decodeResult (b : Backend V J) (row : ExecutionRow J) : Except BackendError V :=
  if row.result = b.null then .ok b.pyNone else decodeColumn b row.id row.result

/-- `_row_to_execution`; only the codec can fail. -/
def rowToExecution (b : Backend V J) (row : ExecutionRow J) :
    Except BackendError (Execution V) := do
  let payload ← decodeColumn b row.id row.payload
  let metadata ← decodeColumn b row.id row.metadata
  let result ← decodeResult b row
  return {
    id := row.id, namespaceName := row.namespaceName, taskName := row.taskName
    status := row.status, payload, metadata, result, error := row.error
    attempts := row.attempts, createdAt := row.createdAt, availableAt := row.availableAt
    startedAt := row.startedAt, finishedAt := row.finishedAt
    cancelRequestedAt := row.cancelRequestedAt, expiresAt := row.expiresAt
    version := row.version }

/-- `_get` after its read: the row of that namespace, decoded. -/
def getExecution (b : Backend V J) (namespaceName : String) (id : UUID) (t : Tables J) :
    Except BackendError (Option (Execution V)) :=
  match (lookup ExecutionRow.id id t.executions).filter
      fun r => r.namespaceName = namespaceName with
  | none => .ok none
  | some row => (rowToExecution b row).map some

end Reading

section Submit

/-- The values `_submit` inserts. -/
def submittedRow (b : Backend V J) (request : ExecutionRequest V)
    (encoded : EncodedSubmission J) (id : UUID) (now : Instant) : ExecutionRow J where
  id := id
  namespaceName := request.namespaceName
  taskName := request.taskName
  status := .queued
  payload := b.stored encoded.payload
  metadata := b.stored encoded.metadata
  result := b.null
  error := none
  idempotencyKey := request.idempotencyKey
  submissionDigest := request.idempotencyKey.map fun _ => encoded.digest
  attempts := 0
  availableAt := now+timedelta (request.delayS.getD 0)
  leaseToken := none
  leaseExpiresAt := none
  workerId := none
  cancelReason := none
  cancelRequestedAt := none
  expiresAt := request.expiresAt
  createdAt := now
  updatedAt := now
  startedAt := none
  finishedAt := none
  version := 0

variable [DecidableEq J]

/-- The second transaction of `_submit`, after an integrity error. -/
def submitted (b : Backend V J) (request : ExecutionRequest V)
    (encoded : EncodedSubmission J) (t : Tables J) :
    Except BackendError (Option (Execution V)) :=
  match request.idempotencyKey with
  | none => .error .integrityError
  | some key =>
    match t.executions.find? fun r => r.namespaceName = request.namespaceName &&
        r.taskName = request.taskName && r.idempotencyKey = some key with
    | none => .error .integrityError
    | some row =>
      if row.submissionDigest ≠ some encoded.digest then
        .error (.executionConflict "idempotency key was already used with a different submission")
      else (rowToExecution b row).map some

/-- The first transaction of `_submit`. -/
def submitTx (b : Backend V J) (row : ExecutionRow J) : Db J Unit :=
  if b.accepts row then insertExecution row else throw .databaseError

def submit (b : Backend V J) (request : ExecutionRequest V)
    (encoded : EncodedSubmission J) (id : UUID) (now : Instant) (t : Tables J) :
    Except BackendError (Option (Execution V)) × Tables J :=
  match commit (submitTx b (submittedRow b request encoded id now)) t with
  | (.ok _,u) => (getExecution b request.namespaceName id u,u)
  | (.error .integrityError,u) => (submitted b request encoded u,u)
  | (.error e,u) => (.error e,u)

end Submit

section Cancel

def cancelWaiting (reason : Option String) (now : Instant) (row : ExecutionRow J) :
    ExecutionRow J :=
  {row with
    status := .cancelled, cancelReason := reason, cancelRequestedAt := some now
    finishedAt := some now, updatedAt := now, version := row.version+1}

def cancelRunning (reason : Option String) (now : Instant) (row : ExecutionRow J) :
    ExecutionRow J :=
  {row with
    status := .cancelRequested, cancelReason := reason, cancelRequestedAt := some now
    updatedAt := now, version := row.version+1}

def requestCancelTx (namespaceName : String) (id : UUID) (reason : Option String)
    (now : Instant) : Db J (Option (ExecutionRow J)) := do
  let row? ← selectExecution id
  match row?.filter fun r => r.namespaceName = namespaceName with
  | none => return none
  | some row =>
    if row.status.waiting then
      let _ ← updateExecutions (fun r => r.id = id) (cancelWaiting reason now)
      selectExecution id
    else if row.status = .running then
      let _ ← updateExecutions (fun r => r.id = id) (cancelRunning reason now)
      selectExecution id
    else return some row

def requestCancel [DecidableEq J] (b : Backend V J) (namespaceName : String) (id : UUID)
    (reason : Option String) (now : Instant) (t : Tables J) :
    Except BackendError (Option (Execution V)) × Tables J :=
  match commit (requestCancelTx namespaceName id reason now) t with
  | (.ok (some row),u) => ((rowToExecution b row).map some,u)
  | (.ok none,u) => (.ok none,u)
  | (.error e,u) => (.error e,u)

end Cancel

section Sweeps

/-- `_lease_lost_retry_predicate`: the latest attempt ended as lease_lost. -/
def leaseLostRetry (attempts : List AttemptRow) (row : ExecutionRow J) : Bool :=
  row.status = .retrying && attempts.any fun a =>
    a.executionId = row.id && a.attemptNo = row.attempts && a.status = .leaseLost

/-- Lexicographic order of a nullable instant and the id. -/
def dueOrder (column : ExecutionRow J → Option Instant) (r s : ExecutionRow J) : Prop :=
  (column r).getD 0 < (column s).getD 0 ∨
    ((column r).getD 0 = (column s).getD 0 ∧ r.id ≤ s.id)

instance (column : ExecutionRow J → Option Instant) : DecidableRel (dueOrder column) :=
  fun r s => inferInstanceAs (Decidable ((column r).getD 0 < (column s).getD 0 ∨
    ((column r).getD 0 = (column s).getD 0 ∧ r.id ≤ s.id)))

def pastExpiry (now : Instant) (attempts : List AttemptRow) (row : ExecutionRow J) : Bool :=
  row.status.waiting && row.expiresAt.any (fun e => e ≤ now) && !leaseLostRetry attempts row

def expireRow (now : Instant) (row : ExecutionRow J) : ExecutionRow J :=
  {row with status := .expired, finishedAt := some now, updatedAt := now,
            version := row.version+1}

def expireQueued (now : Instant) (limit : ℕ) : Db J Unit := do
  let t ← get
  each (fun row => do
      let _ ← updateExecutions (fun r => r.id = row.id && r.version = row.version &&
        pastExpiry now t.attempts r) (expireRow now))
    (select (pastExpiry now t.attempts) (dueOrder ExecutionRow.expiresAt) limit t.executions)

def leaseExpired (status : ExecutionStatus) (now : Instant) (row : ExecutionRow J) : Bool :=
  row.status = status && row.leaseExpiresAt.any fun e => e ≤ now

/-- The attempt a sweep closes: the running one under the swept token. -/
def heldAttempt (executionId : UUID) (token : Option UUID) (a : AttemptRow) : Bool :=
  a.executionId = executionId && some a.leaseToken = token && a.status = .running

def closeAttempt (status : AttemptStatus) (now : Instant) (a : AttemptRow) : AttemptRow :=
  {a with status := status, finishedAt := some now}

/-- The body shared by the two lease sweeps: select leases that ran out under
`status`, settle each row again under its version and token, and close the
attempt when the row was still there. -/
def sweepLeases (status : ExecutionStatus) (settle : ExecutionRow J → ExecutionRow J)
    (closed : AttemptStatus) (now : Instant) (limit : ℕ) : Db J Unit := do
  let t ← get
  each (fun row => do
      let updated ← updateExecutions (fun r => r.id = row.id && r.version = row.version &&
        r.leaseToken = row.leaseToken && leaseExpired status now r) settle
      if updated = 1 then
        let _ ← updateAttempts (heldAttempt row.id row.leaseToken) (closeAttempt closed now))
    (select (leaseExpired status now) (dueOrder ExecutionRow.leaseExpiresAt) limit t.executions)

def cancelExpired (now : Instant) (row : ExecutionRow J) : ExecutionRow J :=
  {row with
    status := .cancelled, finishedAt := some now, leaseToken := none, leaseExpiresAt := none
    workerId := none, updatedAt := now, version := row.version+1}

def expireCancelRequests (now : Instant) (limit : ℕ) : Db J Unit :=
  sweepLeases .cancelRequested (cancelExpired now) .cancelled now limit

def reclaimRow (now : Instant) (row : ExecutionRow J) : ExecutionRow J :=
  {row with
    status := .retrying, availableAt := now, leaseToken := none, leaseExpiresAt := none
    workerId := none, updatedAt := now, version := row.version+1}

def releaseExpiredLeases (now : Instant) (limit : ℕ) : Db J Unit :=
  sweepLeases .running (reclaimRow now) .leaseLost now limit

end Sweeps

section Claiming

def claimable (namespaceName : String) (taskNames : List String) (now : Instant)
    (attempts : List AttemptRow) (row : ExecutionRow J) : Bool :=
  row.namespaceName = namespaceName && taskNames.contains row.taskName &&
    row.status.waiting && row.availableAt ≤ now &&
    (row.expiresAt.all (fun e => now < e) || leaseLostRetry attempts row)

def claimOrder (r s : ExecutionRow J) : Prop :=
  r.availableAt < s.availableAt ∨ (r.availableAt = s.availableAt ∧
    (r.createdAt < s.createdAt ∨ (r.createdAt = s.createdAt ∧ r.id ≤ s.id)))

instance : DecidableRel (claimOrder (J := J)) :=
  fun r s => inferInstanceAs (Decidable (r.availableAt < s.availableAt ∨
    (r.availableAt = s.availableAt ∧
      (r.createdAt < s.createdAt ∨ (r.createdAt = s.createdAt ∧ r.id ≤ s.id)))))

/-- The values one claim writes into `r`, all taken from the selected `row`. -/
def claimRow (now expires : Instant) (worker : String) (token : UUID)
    (row r : ExecutionRow J) : ExecutionRow J :=
  {r with
    status := .running, attempts := row.attempts+1, leaseToken := some token
    leaseExpiresAt := some expires, workerId := some (strip worker)
    startedAt := some (row.startedAt.getD now), updatedAt := now, version := row.version+1}

def claimedAttempt (now : Instant) (worker : String) (attemptId token : UUID)
    (row : ExecutionRow J) : AttemptRow where
  id := attemptId
  executionId := row.id
  attemptNo := row.attempts+1
  leaseToken := token
  workerId := strip worker
  status := .running
  error := none
  startedAt := now
  heartbeatAt := now
  finishedAt := none

variable [DecidableEq J]

/-- One iteration of the loop over the selected rows; the update is guarded
by the id alone. -/
def claimOne (b : Backend V J) (now expires : Instant) (worker : String)
    (ids : UUID × UUID) (row : ExecutionRow J) : Db J (ExecutionLease V) := do
  let _ ← updateExecutions (fun r => r.id = row.id) (claimRow now expires worker ids.2 row)
  insertAttempt (claimedAttempt now worker ids.1 ids.2 row)
  let refreshed ← selectExecution row.id
  let execution ← ofExcept (rowToExecution b (refreshed.getD row))
  return ⟨execution,ids.1,ids.2,expires⟩

/-- `uuid4` is called twice for each row; the `i`-th row draws `uuids i`. -/
def claimRows (b : Backend V J) (now expires : Instant) (worker : String)
    (uuids : ℕ → UUID × UUID) : ℕ → List (ExecutionRow J) → Db J (List (ExecutionLease V))
  | _,[] => return []
  | i,row::rows => do
    let lease ← claimOne b now expires worker (uuids i) row
    let leases ← claimRows b now expires worker uuids (i+1) rows
    return lease::leases

def claimTx (b : Backend V J) (namespaceName : String) (taskNames : List String)
    (limit : ℕ) (leaseDurationS : ℚ) (worker : String) (uuids : ℕ → UUID × UUID)
    (now : Instant) : Db J (List (ExecutionLease V)) := do
  expireQueued now b.reclaimBatchSize
  expireCancelRequests now b.reclaimBatchSize
  releaseExpiredLeases now b.reclaimBatchSize
  let t ← get
  claimRows b now (now+timedelta leaseDurationS) worker uuids 0
    (select (claimable namespaceName taskNames now t.attempts) claimOrder limit t.executions)

def claim (b : Backend V J) (namespaceName : String) (taskNames : List String)
    (limit : ℤ) (leaseDurationS : ℚ) (worker : String) (uuids : ℕ → UUID × UUID)
    (now : Instant) (t : Tables J) :
    Except BackendError (List (ExecutionLease V)) × Tables J :=
  if taskNames = [] ∨ ¬taskNames.Nodup then
    (.error (.valueError "task_names must be non-empty and unique"),t)
  else if limit < 1 then (.error (.valueError "limit must be >= 1"),t)
  else if leaseDurationS ≤ 0 then (.error (.valueError "lease_duration_s must be > 0"),t)
  else if (strip worker).toList = [] ∨ 255 < worker.length then
    (.error (.valueError "worker_id must be non-empty and <= 255 characters"),t)
  else commit (claimTx b namespaceName taskNames limit.toNat leaseDurationS worker uuids now) t

end Claiming

section Holder

/-- The guard of the three holder operations on the executions table. -/
def holds (id token : UUID) (statuses : List ExecutionStatus) (now : Instant)
    (row : ExecutionRow J) : Bool :=
  row.id = id && row.leaseToken = some token && statuses.contains row.status &&
    row.leaseExpiresAt.any fun e => now < e

/-- The guard of the three holder operations on the attempts table. -/
def heldBy (attemptId executionId token : UUID) (a : AttemptRow) : Bool :=
  a.id = attemptId && a.executionId = executionId && a.leaseToken = token &&
    a.status = .running

def heartbeatTx (id attemptId token : UUID) (expires now : Instant) :
    Db J HeartbeatResult := do
  let updated ← updateExecutions (holds id token [.running,.cancelRequested] now)
    fun r => {r with leaseExpiresAt := some expires, updatedAt := now}
  let attemptUpdated ← updateAttempts (heldBy attemptId id token)
    fun a => {a with heartbeatAt := now}
  if updated ≠ 1 ∨ attemptUpdated ≠ 1 then
    throw (.staleExecutionLease "execution lease is no longer valid")
  let row ← selectExecution id
  return ⟨expires,row.any fun r => r.status = .cancelRequested⟩

def heartbeat (id attemptId token : UUID) (leaseDurationS : ℚ) (now : Instant)
    (t : Tables J) : Except BackendError HeartbeatResult × Tables J :=
  if leaseDurationS ≤ 0 then (.error (.valueError "lease_duration_s must be > 0"),t)
  else commit (heartbeatTx id attemptId token (now+timedelta leaseDurationS) now) t

def expectedStatuses : CompletionStatus → List ExecutionStatus
  | .succeeded | .cancelled => [.running,.cancelRequested]
  | .retrying | .failed => [.running]

def attemptStatus : CompletionStatus → AttemptStatus
  | .succeeded => .succeeded
  | .retrying => .retrying
  | .failed => .failed
  | .cancelled => .cancelled

def cancelWon (status : CompletionStatus) (current : ExecutionRow J) : Bool :=
  status = .succeeded && current.status = .cancelRequested

def effectiveStatus (status : CompletionStatus) (current : ExecutionRow J) : CompletionStatus :=
  if cancelWon status current then .cancelled else status

/-- The result column a completion asks for: encoded only for a success that
no cancel request overrides. -/
def encodeResult (b : Backend V J) (c : ExecutionCompletion V) (current : ExecutionRow J) :
    Except BackendError J :=
  if c.status = .succeeded ∧ cancelWon c.status current = false then
    match b.encodeValue c.result with
    | .error m => .error (.executionEncodingError s!"cannot encode execution result: {m}")
    | .ok j =>
      if b.maxResultBytes < b.encodedSize j then
        .error (.executionEncodingError "execution result exceeds the configured limit")
      else .ok j
  else .ok b.null

/-- The values of the completing update. -/
def completeRow (effective : CompletionStatus) (result : J)
    (error : Option ExecutionErrorDetail) (delayS : Option ℚ) (now : Instant)
    (row : ExecutionRow J) : ExecutionRow J :=
  {row with
    status := effective.status, updatedAt := now, version := row.version+1
    leaseToken := none, leaseExpiresAt := none, workerId := none
    result := result, error := error
    availableAt := if effective = .retrying then now+timedelta (delayS.getD 0) else row.availableAt
    finishedAt := if effective = .retrying then none else some now}

/-- The columns a completion writes into the attempt. -/
def completeAttempt (status : AttemptStatus) (error : Option ExecutionErrorDetail)
    (now : Instant) (a : AttemptRow) : AttemptRow :=
  {a with status := status, error := error, finishedAt := some now}

def completionError (c : ExecutionCompletion V) (row : ExecutionRow J) :
    Option ExecutionErrorDetail :=
  if cancelWon c.status row then none else c.error

/-- A failed update may be a replay: same terminal status, result and error. The
result that was read is compared with the one just encoded. -/
def replays (b : Backend V J) (c : ExecutionCompletion V) (expected : J)
    (row : ExecutionRow J) : Bool :=
  row.status = c.status.status && c.status != .retrying && b.equal row.result expected &&
    row.error = c.error

def completeTx (b : Backend V J) (id attemptId token : UUID)
    (c : ExecutionCompletion V) (now : Instant) : Db J (ExecutionRow J) := do
  match ← selectExecution id with
  | none => throw (.staleExecutionLease "execution does not exist")
  | some current =>
    let result ← ofExcept (encodeResult b c current)
    let updated ← updateExecutions (holds id token (expectedStatuses c.status) now)
      (completeRow (effectiveStatus c.status current) (b.stored result)
        (completionError c current) c.delayS now)
    if updated ≠ 1 then
      match ← selectExecution id with
      | none => throw (.staleExecutionLease "execution does not exist")
      | some row =>
        if replays b c result row then return row
        else throw (.staleExecutionLease "execution lease is no longer valid")
    else
      let attemptUpdated ← updateAttempts (heldBy attemptId id token)
        (completeAttempt (attemptStatus (effectiveStatus c.status current))
          (completionError c current) now)
      if attemptUpdated ≠ 1 then
        throw (.staleExecutionLease "execution attempt is no longer valid")
      let row ← selectExecution id
      return row.getD current

/-- The row is decoded after the commit, or inside the transaction on a
replay, which has changed nothing. -/
def complete [DecidableEq J] (b : Backend V J) (id attemptId token : UUID)
    (c : ExecutionCompletion V) (now : Instant) (t : Tables J) :
    Except BackendError (Execution V) × Tables J :=
  match commit (completeTx b id attemptId token c now) t with
  | (.ok row,u) => (rowToExecution b row,u)
  | (.error e,u) => (.error e,u)

def releaseRow (now : Instant) (row : ExecutionRow J) : ExecutionRow J :=
  {row with
    status := .queued, availableAt := now, leaseToken := none, leaseExpiresAt := none
    workerId := none, updatedAt := now, version := row.version+1}

def releaseTx (id attemptId token : UUID) (now : Instant) : Db J (ExecutionRow J) := do
  match ← selectExecution id with
  | none => throw (.staleExecutionLease "execution does not exist")
  | some current =>
    let updated ← updateExecutions (holds id token [.running] now) (releaseRow now)
    if updated ≠ 1 then throw (.staleExecutionLease "execution lease is no longer valid")
    let attemptUpdated ← updateAttempts (heldBy attemptId id token)
      (closeAttempt .leaseLost now)
    if attemptUpdated ≠ 1 then
      throw (.staleExecutionLease "execution attempt is no longer valid")
    let row ← selectExecution id
    return row.getD current

def release [DecidableEq J] (b : Backend V J) (id attemptId token : UUID) (now : Instant)
    (t : Tables J) : Except BackendError (Execution V) × Tables J :=
  match commit (releaseTx id attemptId token now) t with
  | (.ok row,u) => (rowToExecution b row,u)
  | (.error e,u) => (.error e,u)

end Holder

end OneStep.ExecutionBackend
