import Mathlib.Data.Finset.Basic
import Mathlib.Data.List.AList
import Mathlib.Data.List.TakeWhile
import Mathlib.Data.Rat.Defs
import Mathlib.Algebra.Order.Ring.Rat
import Mathlib.Tactic

/-!
# Incremental table sources

The PostgreSQL, MySQL and SQLite incremental sources share one body. A fetch
hands out a retried row that is ready, or queries the table above the last
fetched cursor. An acked row waits until every earlier row is acked; a commit task
then saves the cursor of the acked rows at the head of the queue, again and again
while there are more. Each step below runs without suspension in the source: the
lock of the source is never held across an `await`, so it does not appear. A task
runner fetches from a source one fetch at a time.

Rows are given by their cursor values, in the order of the database. Beside the
fields of the source the model records what was fetched, called and saved.
-/
namespace OneStep.IncrementalSource

/-- The three sources differ in their error text and in whether a delivery
overrides `release_unstarted`. -/
inductive Backend where
  | postgres
  | mysql
  | sqlite
  deriving DecidableEq, Repr

def Backend.label : Backend → String
  | .postgres => "postgres"
  | .mysql => "mysql"
  | .sqlite => "sqlite"

def Backend.blockedMessage (b : Backend) : String :=
  b.label++" incremental source is blocked at a failed cursor row"

structure RetryRow where
  attempts : ℕ
  readyAt : ℚ
  inFlight : Bool := false
  deriving DecidableEq

/-- Where the settlement of a delivery stands: not called, in an ack that waits
for the commit task, after an ack that raised, or over. -/
inductive Phase where
  | out
  | acking
  | raised
  | settled
  deriving DecidableEq, Repr

structure Delivery (κ : Type) where
  row : κ
  attempts : ℕ
  phase : Phase := .out
  deriving DecidableEq, Repr

/-- The commit task: none, created, or in the store with the rows it commits and
the last of them. -/
inductive Flush (κ : Type) where
  | idle
  | started
  | saving (batch : List κ) (highest : κ)
  deriving DecidableEq, Repr

/-- A fetch: none, past its first section, or in the database. -/
inductive Fetching (κ : Type) where
  | idle
  | checked (limit : ℕ)
  | querying (readCursor : Option κ) (limit : ℕ)
  deriving DecidableEq, Repr

structure Source (κ : Type) where
  pending : List κ := []
  acked : Finset κ := ∅
  retryRows : AList (fun _ : κ => RetryRow) := ∅
  terminalError : Option String := none
  committedCursor : Option κ := none
  fetchedCursor : Option κ := none
  flush : Flush κ := .idle
  fetching : Fetching κ := .idle
  deliveries : List (Delivery κ) := []
  fetched : List κ := []
  called : Finset κ := ∅
  saves : List κ := []

inductive Op (κ : Type) where
  | startFetch (limit : ℕ) (now : ℚ)
  | query
  | gotRows (rows : List κ)
  | fetchEnds
  | ack (i : ℕ)
  | fail (i : ℕ)
  | retry (i : ℕ) (now : ℚ) (delayS : Option ℚ)
  | releaseUnstarted (i : ℕ) (now : ℚ)
  | flushStarts
  | saveReturns (ok : Bool)

section Steps
variable {κ : Type} [DecidableEq κ] (s : Source κ)

/-- A source that loaded a cursor, or none. -/
def opened (loaded : Option κ) : Source κ := {committedCursor := loaded,fetchedCursor := loaded}

/-- `_take_ready_retry_delivery`, up to the row it finds. -/
def Source.readyRetry (now : ℚ) : Option κ :=
  s.pending.find? fun row => match s.retryRows.lookup row with
    | none => false
    | some r => !r.inFlight && decide (r.readyAt ≤ now)

def Source.takeRetry (row : κ) : Source κ :=
  match s.retryRows.lookup row with
  | none => s
  | some r => {s with
      retryRows := s.retryRows.insert row {r with inFlight := true}
      deliveries := s.deliveries++[⟨row,r.attempts,.out⟩]}

/-- The first section of `fetch`: it raises, returns a retry, returns nothing, or
goes on to the table. -/
def Source.startFetch (batchSize limit : ℕ) (now : ℚ) : Source κ :=
  match s.terminalError with
  | some _ => s
  | none =>
    match s.readyRetry now with
    | some row => s.takeRetry row
    | none =>
      if s.retryRows.keys ≠ [] then s
      else {s with fetching := .checked (max 1 (min limit batchSize))}

/-- The last section of `fetch`. -/
def Source.register (rows : List κ) : Source κ :=
  {s with
    pending := s.pending++rows
    fetchedCursor := rows.getLast?.orElse fun _ => s.fetchedCursor
    fetching := .idle
    deliveries := s.deliveries++rows.map fun row => ⟨row,0,.out⟩
    fetched := s.fetched++rows}

def Source.setPhase (i : ℕ) (phase : Phase) : Source κ :=
  {s with deliveries := s.deliveries.modify i fun d => {d with phase := phase}}

def Source.ackedHead : List κ := s.pending.takeWhile fun row => decide (row ∈ s.acked)

/-- `ack_token`, up to its wait for the commit task. -/
def Source.ackToken (i : ℕ) (row : κ) : Source κ :=
  let s := {s with acked := insert row s.acked,called := insert row s.called}
  match s.pending.head? with
  | none => s.setPhase i .settled
  | some head =>
    if head ∉ s.acked then s.setPhase i .settled
    else Source.setPhase {s with flush := match s.flush with
      | .idle => .started
      | running => running} i .acking

/-- `retry_token`. -/
def Source.retryToken (d : Delivery κ) (now : ℚ) (delayS : Option ℚ) : Source κ :=
  {s with retryRows := s.retryRows.insert d.row ⟨d.attempts+1,now+max 0 (delayS.getD 0),false⟩}

/-- `release_token`. -/
def Source.releaseToken (d : Delivery κ) (now : ℚ) : Source κ :=
  let attempts := match s.retryRows.lookup d.row with
    | none => d.attempts
    | some r => r.attempts
  {s with retryRows := s.retryRows.insert d.row ⟨attempts,now,false⟩}

/-- `fail_token`. -/
def Source.failToken (backend : Backend) (row : κ) : Source κ :=
  {s with
    terminalError := some backend.blockedMessage
    retryRows := match s.retryRows.lookup row with
      | none => s.retryRows
      | some r => s.retryRows.insert row {r with inFlight := false}
    called := insert row s.called}

/-- The commit task ends, and every ack that waits for it returns or raises. -/
def Source.endFlush (ok : Bool) : Source κ :=
  {s with
    flush := .idle
    deliveries := s.deliveries.map fun d =>
      if d.phase = .acking then {d with phase := if ok then .settled else .raised} else d}

/-- The next round of the commit task. -/
def Source.flushRound : Source κ :=
  match s.ackedHead.getLast? with
  | none => s.endFlush true
  | some highest => {s with flush := .saving s.ackedHead highest}

/-- The rows of a saved batch leave the queue; it tells whether none was missing. -/
def popCommitted : List κ → Source κ → Source κ × Bool
  | [],s => (s,true)
  | row::rows,s =>
    match s.pending with
    | [] => (s,false)
    | current::pending =>
      let s := {s with pending := pending}
      if current ≠ row then (s,false)
      else if row ∉ s.acked then (s,false)
      else popCommitted rows
        {s with acked := s.acked.erase row,retryRows := s.retryRows.erase row}

/-- The last section of a round, after the store has saved. -/
def Source.commitBatch (batch : List κ) (highest : κ) : Source κ :=
  match popCommitted batch {s with saves := s.saves++[highest]} with
  | (s,false) => s.endFlush false
  | (s,true) =>
    let s := {s with
      committedCursor := some highest
      fetchedCursor := if s.pending = [] then some highest else s.fetchedCursor}
    match s.pending.head? with
    | some head => if head ∈ s.acked then s.flushRound else s.endFlush true
    | none => s.endFlush true

/-- A delivery that no call is settling. -/
def Source.outstanding (i : ℕ) : Option (Delivery κ) :=
  s.deliveries[i]?.filter fun d => d.phase = .out ∨ d.phase = .raised

def perform (backend : Backend) (batchSize : ℕ) (s : Source κ) : Op κ → Option (Source κ)
  | .startFetch limit now =>
    match s.fetching with
    | .idle => some (s.startFetch batchSize limit now)
    | _ => none
  | .query =>
    match s.fetching with
    | .checked limit =>
      some {s with fetching := .querying (s.fetchedCursor.orElse fun _ => s.committedCursor) limit}
    | _ => none
  | .gotRows rows =>
    match s.fetching with
    | .querying _ limit => if rows.length ≤ limit then some (s.register rows) else none
    | _ => none
  | .fetchEnds =>
    match s.fetching with
    | .idle => none
    | _ => some {s with fetching := .idle}
  | .ack i => (s.outstanding i).map fun d => s.ackToken i d.row
  | .fail i => (s.outstanding i).map fun d => (s.failToken backend d.row).setPhase i .settled
  | .retry i now delayS =>
    (s.outstanding i).map fun d => (s.retryToken d now delayS).setPhase i .settled
  | .releaseUnstarted i now =>
    (s.outstanding i).map fun d =>
      match backend with
      | .postgres => s.setPhase i .settled
      | .mysql | .sqlite => (s.releaseToken d now).setPhase i .settled
  | .flushStarts =>
    match s.flush with
    | .started => some s.flushRound
    | _ => none
  | .saveReturns ok =>
    match s.flush with
    | .saving batch highest =>
      some (if ok then s.commitBatch batch highest else s.endFlush false)
    | _ => none

variable (backend : Backend) (batchSize : ℕ)

/-- What a step does, with its guard. -/
inductive Performed : Op κ → Source κ → Prop
  | startFetch (limit : ℕ) (now : ℚ) (hidle : s.fetching = .idle) :
      Performed (.startFetch limit now) (s.startFetch batchSize limit now)
  | query (limit : ℕ) (hchecked : s.fetching = .checked limit) :
      Performed .query
        {s with fetching := .querying (s.fetchedCursor.orElse fun _ => s.committedCursor) limit}
  | gotRows (readCursor : Option κ) (limit : ℕ) (rows : List κ)
      (hquerying : s.fetching = .querying readCursor limit) (hlimit : rows.length ≤ limit) :
      Performed (.gotRows rows) (s.register rows)
  | fetchEnds (hfetching : s.fetching ≠ .idle) : Performed .fetchEnds {s with fetching := .idle}
  | ack (i : ℕ) (d : Delivery κ) (hd : s.outstanding i = some d) :
      Performed (.ack i) (s.ackToken i d.row)
  | fail (i : ℕ) (d : Delivery κ) (hd : s.outstanding i = some d) :
      Performed (.fail i) ((s.failToken backend d.row).setPhase i .settled)
  | retry (i : ℕ) (d : Delivery κ) (now : ℚ) (delayS : Option ℚ) (hd : s.outstanding i = some d) :
      Performed (.retry i now delayS) ((s.retryToken d now delayS).setPhase i .settled)
  | dropped (i : ℕ) (d : Delivery κ) (now : ℚ) (hd : s.outstanding i = some d)
      (hpostgres : backend = .postgres) :
      Performed (.releaseUnstarted i now) (s.setPhase i .settled)
  | released (i : ℕ) (d : Delivery κ) (now : ℚ) (hd : s.outstanding i = some d)
      (hother : backend ≠ .postgres) :
      Performed (.releaseUnstarted i now) ((s.releaseToken d now).setPhase i .settled)
  | flushStarts (hstarted : s.flush = .started) : Performed .flushStarts s.flushRound
  | saved (batch : List κ) (highest : κ) (hsaving : s.flush = .saving batch highest) :
      Performed (.saveReturns true) (s.commitBatch batch highest)
  | saveFailed (batch : List κ) (highest : κ) (hsaving : s.flush = .saving batch highest) :
      Performed (.saveReturns false) (s.endFlush false)

variable {s backend batchSize} {s' : Source κ} {op : Op κ}

theorem performed (h : perform backend batchSize s op = some s') :
    Performed s backend batchSize op s' := by
  cases op with
  | startFetch limit now =>
    rw [perform] at h
    split at h
    · next hidle => cases h; exact .startFetch limit now hidle
    · cases h
  | query =>
    rw [perform] at h
    split at h
    · next limit hchecked => cases h; exact .query limit hchecked
    · cases h
  | gotRows rows =>
    rw [perform] at h
    split at h
    · next readCursor limit hquerying =>
        split at h
        · next hlimit => cases h; exact .gotRows readCursor limit rows hquerying hlimit
        · cases h
    · cases h
  | fetchEnds =>
    rw [perform] at h
    split at h
    · cases h
    · next hfetching => cases h; exact .fetchEnds hfetching
  | ack i =>
    obtain ⟨d,hd,rfl⟩ := Option.map_eq_some_iff.mp h
    exact .ack i d hd
  | fail i =>
    obtain ⟨d,hd,rfl⟩ := Option.map_eq_some_iff.mp h
    exact .fail i d hd
  | retry i now delayS =>
    obtain ⟨d,hd,rfl⟩ := Option.map_eq_some_iff.mp h
    exact .retry i d now delayS hd
  | releaseUnstarted i now =>
    obtain ⟨d,hd,rfl⟩ := Option.map_eq_some_iff.mp h
    cases backend with
    | postgres => exact .dropped i d now hd rfl
    | mysql | sqlite => exact .released i d now hd nofun
  | flushStarts =>
    rw [perform] at h
    split at h
    · next hstarted => cases h; exact .flushStarts hstarted
    · cases h
  | saveReturns ok =>
    rw [perform] at h
    split at h
    · next batch highest hsaving =>
        cases h
        cases ok with
        | true => exact .saved batch highest hsaving
        | false => exact .saveFailed batch highest hsaving
    · cases h

end Steps

section Runs
variable {κ : Type} [LinearOrder κ]

/-- The table answers in cursor order, with rows above the cursor it was asked
for. -/
def Genuine (s : Source κ) (op : Op κ) : Prop :=
  match op,s.fetching with
  | .gotRows rows,.querying readCursor _ =>
    rows.Pairwise (· < ·) ∧ ∀ row ∈ rows, ∀ cursor ∈ readCursor, cursor < row
  | _,_ => True

instance (s : Source κ) : (op : Op κ) → Decidable (Genuine s op)
  | .gotRows rows => by
    unfold Genuine
    split <;> infer_instance
  | .startFetch .. | .query | .fetchEnds | .ack _ | .fail _ | .retry .. | .releaseUnstarted ..
  | .flushStarts | .saveReturns _ => isTrue trivial

/-- A step of a source, as the table allows it. -/
def Step (backend : Backend) (batchSize : ℕ) (allowed : Source κ → Op κ → Prop) (s : Source κ)
    (op : Op κ) (s' : Source κ) : Prop :=
  perform backend batchSize s op = some s' ∧ Genuine s op ∧ allowed s op

end Runs

end OneStep.IncrementalSource
