import OneStep.DeliveryOutput
import OneStep.ItemLists

/-!
# Rows inserted into ClickHouse

The sink takes the rows of a payload in chunks and awaits one insert after the other. The
first insert that raises ends the attempt; once a chunk was inserted the error is reported
as uncertain, so that the executor does not send the payload again.
-/
namespace OneStep.ClickHouseInserts
open Coroutine DeliveryModel DeliveryExecutor DeliveryOutput ItemLists

section Payloads
variable {K W : Type}

/-- A mapping, its keys in insertion order. -/
structure Document (K W : Type) where
  fields : List (K × W)
  unique : (fields.map Prod.fst).Nodup

/-- A payload; an item of a sequence may be no mapping. -/
inductive Body (K W : Type) where
  | mapping (document : Document K W)
  | sequence (items : List (Option (Document K W)))
  | other

inductive PayloadError where
  | notASequence | emptySequence | notAMapping | noColumns
  | columnMismatch (index : ℕ)
  deriving DecidableEq

def Body.documents : Body K W → Except PayloadError (List (Document K W))
  | .mapping document => .ok [document]
  | .sequence [] => .error .emptySequence
  | .sequence items =>
    match items.mapM id with
    | some documents => .ok documents
    | none => .error .notAMapping
  | .other => .error .notASequence

variable [DecidableEq K]

/-- The values of a document with exactly these columns, in their order. -/
def rowOf (columns : List K) (document : Document K W) : Option (List W) :=
  if (∀ k ∈ document.fields.map Prod.fst, k ∈ columns) ∧
      ∀ c ∈ columns, c ∈ document.fields.map Prod.fst then
    columns.mapM fun c => document.fields.lookup c
  else none

def rowsOf (columns : List K) : ℕ → List (Document K W) → Except PayloadError (List (List W))
  | _,[] => .ok []
  | index,document::documents =>
    match rowOf columns document with
    | none => .error (.columnMismatch index)
    | some row => (rowsOf columns (index+1) documents).map (row::·)

/-- `_normalize`, with the columns that are configured. -/
def normalize (configured : Option (List K)) (body : Body K W) :
    Except PayloadError (List K × List (List W)) :=
  match body.documents with
  | .error e => .error e
  | .ok documents =>
    let columns := configured.getD ((documents.head?.map fun d => d.fields.map Prod.fst).getD [])
    if columns = [] then .error .noColumns
    else (rowsOf columns 0 documents).map fun rows => (columns,rows)

end Payloads

section Sending
variable {K W : Type} [DecidableEq K]

/-- What the client raises, with what `classify_clickhouse_error` looks at. The client is of
another package: its errors are none of the runtime's own. -/
structure Raised where
  exn : Exn
  timeoutError : Bool
  osError : Bool
  code : Option ℤ
  foreign : exn.connector = none

def classifyClickhouseError (e : Raised) : Option ConnectorErrorKind :=
  if e.timeoutError then some .uncertain
  else if e.osError then some .disconnected
  else e.code.map fun code =>
    if code ∈ [202,203,209,210] then .disconnected
    else if code ∈ [159,164,241,252] then .throttled
    else if code ∈ [60,62,81,516] then .misconfigured
    else if code ∈ [6,27,53,117,386] then .permanent
    else .transient

/-- How the calls of one attempt end: getting the client, and each insert. -/
structure Attempt where
  client : Outcome Raised Unit
  insert : ℕ → Outcome Raised Unit

structure Config (K : Type) where
  table : String
  columns : Option (List K)
  batchSize : ℕ
  unique : ∀ names ∈ columns, names ≠ [] ∧ names.Nodup
  positive : 0 < batchSize

variable (config : Config K) {Row : Type}

/-- The loop over the chunks: the rows that were inserted, and what ended it, with the number
of chunks before. The fuel bounds the rows. -/
def insertChunks (insert : ℕ → Outcome Raised Unit) :
    ℕ → ℕ → List Row → List Row × Except (ℕ × Interrupt Raised) Unit
  | _,_,[] => ([],.ok ())
  | 0,_,_ => ([],.ok ())
  | fuel+1,committed,rows =>
    match insert committed with
    | .error i => ([],.error (committed,i))
    | .ok () =>
      let rest := insertChunks insert fuel (committed+1) (rows.drop config.batchSize)
      (rows.take config.batchSize++rest.1,rest.2)

def operationError (kind : ConnectorErrorKind) : Exn where
  typeName := "ConnectorOperationError"
  message := .ok ("clickhouse send failed ("++kind.value++") for clickhouse.table:"++config.table)
  connector := some ⟨"clickhouse",.send,kind,none⟩

/-- The except clause: a cancellation passes, and what is not classified is raised again. -/
def reported (committed : ℕ) : Interrupt Raised → Outcome Exn Unit
  | .cancelled => .error .cancelled
  | .raised e =>
    match classifyClickhouseError e with
    | none => .error (.raised e.exn)
    | some kind => .error (.raised (operationError config (if 0 < committed then .uncertain else kind)))

/-- `send`: the rows that were inserted, and how it ends. -/
def send (attempt : Attempt) (body : Body K W) : List (List W) × Outcome Exn Unit :=
  match normalize config.columns body with
  | .error _ => ([],.error (.raised (operationError config .permanent)))
  | .ok (_,rows) =>
    match attempt.client with
    | .error i => ([],reported config 0 i)
    | .ok () =>
      match insertChunks config attempt.insert rows.length 0 rows with
      | (inserted,.ok ()) => (inserted,.ok ())
      | (inserted,.error (committed,i)) => (inserted,reported config committed i)

/-- The executor with this sink at every position. -/
def connected (x : Executor (Body K W)) (attempts : ℕ → Attempt) : Executor (Body K W) :=
  {x with env := {x.env with outcome := fun
    | .send _ tries _ (some body) => (send config (attempts tries) body).2
    | c => x.env.outcome c}}

def insertedRows (attempts : ℕ → Attempt) (calls : List (Call (Body K W))) : List (List W) :=
  calls.flatMap fun
    | .send _ tries _ (some body) => (send config (attempts tries) body).1
    | _ => []

end Sending

section Rows
variable {K W : Type} [DecidableEq K] {config : Config K} {columns : List K} {body : Body K W}
  {rows : List (List W)}

/-- A row holds the values of its document in the order of the columns. -/
def InOrder (columns : List K) (document : Document K W) (row : List W) : Prop :=
  List.Forall₂ (fun c w => (c,w) ∈ document.fields) columns row

theorem rowsOf_inOrder {documents : List (Document K W)} {index : ℕ}
    (h : rowsOf columns index documents = .ok rows) :
    List.Forall₂ (InOrder columns) documents rows := by
  induction documents generalizing index rows with
  | nil =>
    cases h
    exact .nil
  | cons document documents ih =>
    rw [rowsOf] at h
    split at h
    · cases h
    · next row hrow =>
        cases hrest : rowsOf columns (index+1) documents with
        | error e =>
          rw [hrest] at h
          cases h
        | ok rest =>
          rw [hrest] at h
          cases h
          refine .cons ?_ (ih hrest)
          rw [rowOf] at hrow
          split at hrow
          · exact (mapM_some hrow).imp fun _ _ => mem_of_lookup
          · cases hrow

omit [DecidableEq K] in
theorem documents_ne_nil {documents : List (Document K W)} (h : body.documents = .ok documents) :
    documents ≠ [] := by
  rintro rfl
  cases body with
  | mapping document => cases h
  | other => cases h
  | sequence items =>
    cases items with
    | nil => cases h
    | cons item items =>
      rw [Body.documents] at h
      split at h
      · next hall =>
          cases h
          cases mapM_some hall
      · cases h
      · nofun

theorem normalize_rows (h : normalize config.columns body = .ok (columns,rows)) : rows ≠ [] ∧
    ∃ documents, body.documents = .ok documents ∧ List.Forall₂ (InOrder columns) documents rows := by
  rw [normalize] at h
  split at h
  · cases h
  · next documents hdocuments =>
      dsimp only at h
      split at h
      · cases h
      · generalize config.columns.getD _ = names at h
        cases hrows : rowsOf names 0 documents with
        | error e =>
          rw [hrows] at h
          cases h
        | ok found =>
          rw [hrows] at h
          cases h
          have hall := rowsOf_inOrder hrows
          refine ⟨?_,documents,hdocuments,hall⟩
          rintro rfl
          cases hall
          exact documents_ne_nil hdocuments rfl

end Rows

section Inserts
variable {K W Row : Type} [DecidableEq K] {config : Config K} {attempts : ℕ → Attempt}

omit [DecidableEq K] in
variable {committed : ℕ}

omit [DecidableEq K] in
/-- What was inserted is a prefix, and all of it if nothing raised; an insert that raises first
leaves nothing. -/
theorem insertChunks_spec (insert : ℕ → Outcome Raised Unit) {fuel : ℕ} {rows : List Row}
    (hfuel : rows.length ≤ fuel) {r : List Row × Except (ℕ × Interrupt Raised) Unit}
    (hr : insertChunks config insert fuel committed rows = r) :
    r.1 <+: rows ∧ (r.1 = rows ↔ r.2 = .ok ()) ∧
      ∀ k i, r.2 = .error (k,i) → committed ≤ k ∧ (k = committed → r.1 = []) := by
  induction fuel generalizing committed rows r with
  | zero =>
    obtain rfl := List.length_eq_zero_iff.mp (Nat.le_zero.mp hfuel)
    cases hr
    exact ⟨List.prefix_rfl,iff_of_true rfl rfl,fun _ _ h => nomatch h⟩
  | succ fuel ih =>
    cases rows with
    | nil =>
      cases hr
      exact ⟨List.prefix_rfl,iff_of_true rfl rfl,fun _ _ h => nomatch h⟩
    | cons row rows =>
      rw [insertChunks] at hr
      · split at hr
        · next i hi =>
            cases hr
            refine ⟨List.nil_prefix,iff_of_false (List.cons_ne_nil row rows).symm ?_,fun k j h => ?_⟩
            · intro h
              cases h
            · cases h
              exact ⟨le_rfl,fun _ => rfl⟩
        · next hi =>
            cases hr
            have hpositive := config.positive
            obtain ⟨hfront,hall,herror⟩ := @ih (committed+1)
              ((row::rows).drop config.batchSize)
              (by rw [List.length_drop]; simp only [List.length_cons] at hfuel ⊢; omega) _ rfl
            refine ⟨?_,?_,fun k i h => ?_⟩
            · conv_rhs => rw [← List.take_append_drop config.batchSize (row::rows)]
              exact (List.prefix_append_right_inj _).mpr hfront
            · rw [← hall]
              conv_lhs => rhs; rw [← List.take_append_drop config.batchSize (row::rows)]
              exact List.append_right_inj _
            · obtain ⟨hle,-⟩ := herror k i h
              exact ⟨by omega,fun heq => absurd heq (by omega)⟩
      · nofun

omit [DecidableEq K] in
/-- An error that the executor may cure by sending again comes before any chunk. -/
theorem reported_retryable {i : Interrupt Raised} {e : Exn} {exc : ConnectorOperationError}
    (h : reported config committed i = .error (.raised e)) (hexc : e.connector = some exc)
    (hretry : isRetryableConnectorError exc = true) : committed = 0 := by
  cases i with
  | cancelled => cases h
  | raised raised =>
    rw [reported] at h
    split at h
    · cases h
      rw [raised.foreign] at hexc
      cases hexc
    · cases h
      cases hexc
      by_contra hcommitted
      rw [if_pos (Nat.pos_of_ne_zero hcommitted)] at hretry
      cases hretry

omit [DecidableEq K] in
theorem reported_ne_ok {i : Interrupt Raised} : reported config committed i ≠ .ok () := by
  cases i with
  | cancelled => nofun
  | raised e =>
    rw [reported]
    split <;> nofun

/-- One attempt inserts a prefix, all of it if it returns, and nothing before an error after
which the payload is sent again. -/
theorem send_spec {columns : List K} {rows : List (List W)} {body : Body K W} (attempt : Attempt)
    (h : normalize config.columns body = .ok (columns,rows))
    {r : List (List W) × Outcome Exn Unit} (hr : send config attempt body = r) :
    r.1 <+: rows ∧ (r.1 = rows ↔ r.2 = .ok ()) ∧
      ∀ e exc, r.2 = .error (.raised e) → e.connector = some exc →
        isRetryableConnectorError exc = true → r.1 = [] := by
  have hrows := (normalize_rows h).1
  simp only [send,h] at hr
  split at hr
  · cases hr
    exact ⟨List.nil_prefix,iff_of_false hrows.symm reported_ne_ok,fun _ _ _ _ _ => rfl⟩
  · split at hr
    · next inserted hchunks =>
        cases hr
        obtain ⟨hfront,hall,-⟩ := insertChunks_spec attempt.insert le_rfl hchunks
        exact ⟨hfront,iff_of_true (hall.mpr rfl) rfl,fun _ _ h => nomatch h⟩
    · next inserted committed i hchunks =>
        cases hr
        obtain ⟨hfront,hall,herror⟩ := insertChunks_spec attempt.insert le_rfl hchunks
        refine ⟨hfront,iff_of_false (fun heq => ?_) reported_ne_ok,fun e exc he hexc hretry => ?_⟩
        · cases hall.mp heq
        · exact (herror committed i rfl).2 (reported_retryable he hexc hretry)

theorem insertedRows_sends (calls : List (Call (Body K W))) :
    insertedRows config attempts calls = insertedRows config attempts (calls.filter isSend) := by
  induction calls with
  | nil => rfl
  | cons c calls ih =>
    rw [insertedRows] at ih ⊢
    rw [List.flatMap_cons,ih]
    cases c <;> rfl

end Inserts

section Dispatch
variable {K W : Type} [DecidableEq K] {config : Config K} {attempts : ℕ → Attempt}
  {columns : List K} {rows : List (List W)} {body : Body K W}

/-- Over the attempts of one dispatch a prefix of the rows is inserted, and all of them if and
only if the dispatch returns. -/
theorem rows_inserted (x : Executor (Body K W)) (position : ℕ) (sink : Sink)
    (s : ExecutionOutcome (Body K W)) (h : normalize config.columns body = .ok (columns,rows))
    {r : Ended (ExecutionOutcome (Body K W)) (Call (Body K W)) Exn Unit}
    (hr : (sendToSink (connected config x attempts) position sink (some body)).run s = r) :
    insertedRows config attempts r.calls <+: rows ∧
    (insertedRows config attempts r.calls = rows ↔ r.result = .ok ()) ∧
    ∃ documents, body.documents = .ok documents ∧ List.Forall₂ (InOrder columns) documents rows := by
  have hone : ∀ tries, insertedRows config attempts [.send position tries sink (some body)] =
      (send config (attempts tries) body).1 := fun tries => List.append_nil _
  rw [← and_assoc]
  refine ⟨?_,(normalize_rows h).2⟩
  obtain ⟨hfront,hall,hcure⟩ := send_spec (attempts 0) h rfl
  rw [insertedRows_sends]
  rcases sendToSink_ends _ position sink (some body) s hr with
    ⟨hcalls,hresult⟩ | ⟨hcalls,⟨e,exc,he,hexc,hretry⟩,hresult⟩
  · rw [hcalls,hone]
    exact ⟨hfront,hall.trans hresult.symm⟩
  · obtain ⟨hfront',hall',-⟩ := send_spec (attempts 1) h rfl
    have hnone := hcure e exc he hexc hretry
    have htwo : insertedRows config attempts [.send position 0 sink (some body),
        .send position 1 sink (some body)] = (send config (attempts 1) body).1 := by
      rw [← List.singleton_append,insertedRows,List.flatMap_append]
      exact (congrArg₂ (· ++ ·) ((hone 0).trans hnone) (hone 1)).trans (List.nil_append _)
    rw [hcalls,htwo]
    exact ⟨hfront',hall'.trans hresult.symm⟩

end Dispatch

section Samples

def readings : Body String ℤ :=
  .sequence [some ⟨[("host",1),("load",10)],by decide⟩,some ⟨[("load",20),("host",2)],by decide⟩]

def metrics : Config String where
  table := "metrics"
  columns := none
  batchSize := 1
  unique := nofun
  positive := Nat.one_pos

/-- Too many queries on the first attempt; the second one inserts. -/
def busy : ℕ → Attempt
  | 0 => ⟨.ok (),fun _ => .error (.raised ⟨.plain "DatabaseError",false,false,some 202,rfl⟩)⟩
  | _ => ⟨.ok (),fun _ => .ok ()⟩

/-- The application is stopping, so that a send is tried again at once. -/
def recorder : Executor (Body String ℤ) where
  task := DeliverySettlement.resize
  delivery := ⟨some readings,none,0,false⟩
  applyDeliveryActions := true
  env :=
    {outcome := fun _ => .ok ()
     handler := .ok (some readings)
     predicate := fun _ => .ok true
     transform := fun _ => .ok (some readings)
     isStopping := fun _ _ => true
     cancelRequested := false
     retryPolicy := fun _ _ => .ok ⟨.fail,none⟩
     copyMeta := fun _ => .ok ()
     succeededMeta := .ok ()
     copyPayload := .ok ()
     copyOriginalMeta := .ok ()
     copyEnvelope := .ok ()
     copyResult := .ok ()}

/-- The second attempt inserts both rows, once. -/
theorem readings_inserted : insertedRows metrics busy
    ((sendToSink (connected metrics recorder busy) 0 {name := "metrics"} (some readings)).run {}).calls =
      [[1,10],[2,20]] := by
  obtain ⟨-,hall,-⟩ := @rows_inserted _ _ _ metrics busy _ _ _ recorder 0
    {name := "metrics"} {} (show normalize none readings = .ok (["host","load"],[[1,10],[2,20]]) from rfl)
    _ rfl
  exact hall.mpr rfl

end Samples

end OneStep.ClickHouseInserts
