import OneStep.JsonValues
import OneStep.SortedPages
import OneStep.Transition
import Mathlib.Data.Finset.Basic
import Mathlib.Data.Prod.Lex
import Mathlib.Data.String.Basic

/-!
# Incremental reads of a Feishu table

The source searches the table in the order of a cursor field, from the first page
on at every fetch, and keeps the records above its cursor until a page size of
them is reached. The cursor is a pair of a value and a record id, while the server
knows of the values only. When it refuses to sort, every page is read instead, up
to a limit. The table does not change; its pages are those of one order for the
sorted search, and of another one without sorting.
-/
namespace OneStep.FeishuIncremental
open JsonValues KeyedTable KeysetPages SortedPages Transition

/-- `float` of an integer, unless it is too large, and `str` of what is no text. -/
structure Builtins where
  float : ℤ → Option Double
  str : Json → String

inductive FetchError where
  | missingRecordId
  | missingFields
  | missingCursorField (recordId cursorField : String)
  | overflow
  | scanLimit (fallbackScanPageLimit : ℕ)
  deriving DecidableEq

/-- Doubles by their order; JSON has no other numbers. -/
def rank (x : Double) : ℤ :=
  let magnitude : ℤ := (x.bits.toNat%2^63 : ℕ)
  if x.bits.msb then -magnitude else magnitude

/-- The kind of a value, with its number or its text. -/
abbrev ValueKey := ℕ ×ₗ ℤ ×ₗ String

abbrev Record := List (String × Json)

def numberKey (x : Double) : ValueKey := toLex (0,toLex (rank x,""))

def textKey (kind : ℕ) (text : String) : ValueKey := toLex (kind,toLex (0,text))

def automaticCursorFieldAliases : List (String × String) :=
  [("创建时间","created_time"),("最后修改时间","last_modified_time"),
    ("最后更新时间","last_modified_time")]

/-- The `value` of a token, with a record id. -/
structure Cursor where
  value : Json
  recordId : String
  deriving DecidableEq

/-- A record with what was read from it. -/
structure Entry where
  record : Record
  fields : Record
  cursor : Cursor
  valueKey : ValueKey

def Entry.sortKey (e : Entry) : ValueKey ×ₗ String := toLex (e.valueKey,e.cursor.recordId)

structure Delivery where
  token : Cursor
  body : Json

section Records

def recordId (record : Record) : Except FetchError String :=
  match record.lookup "record_id" with
  | some (.str value) => if value = "" then .error .missingRecordId else .ok value
  | _ => .error .missingRecordId

def recordFields (record : Record) : Except FetchError Record :=
  match record.lookup "fields" with
  | some (.obj fields) => .ok fields
  | _ => .error .missingFields

def recordCursorValue (cursorField : String) (record fields : Record) : Json :=
  match fields.lookup cursorField with
  | some value => value
  | none =>
    (record.lookup ((automaticCursorFieldAliases.lookup cursorField).getD cursorField)).getD .null

variable (py : Builtins) (cursorField : String)

def cursorValueSortKey : Json → Except FetchError ValueKey
  | .bool b => .ok (textKey 2 (if b then "True" else "False"))
  | .int n => match py.float n with
      | some x => .ok (numberKey x)
      | none => .error .overflow
  | .float x => .ok (numberKey x)
  | .str s => .ok (textKey 1 s)
  | value => .ok (textKey 1 (py.str value))

def entry (record : Record) : Except FetchError Entry := do
  let fields ← recordFields record
  let value := recordCursorValue cursorField record fields
  let id ← recordId record
  if value = .null then .error (.missingCursorField id cursorField)
  else
    let valueKey ← cursorValueSortKey py value
    return ⟨record,fields,⟨value,id⟩,valueKey⟩

/-- An item of a response, when it is a record above the cursor. -/
def candidate (readCursor : Option Cursor) : Json → Except FetchError (Option Entry)
  | .obj record => do
    let e ← entry py cursorField record
    match readCursor with
    | none => return some e
    | some cursor =>
      let key ← cursorValueSortKey py cursor.value
      return if toLex (key,cursor.recordId) < e.sortKey then some e else none
  | _ => return none

def Entry.delivery (e : Entry) : Delivery where
  token := e.cursor
  body := .obj ([("record_id",.str e.cursor.recordId),("fields",.obj e.fields)]++
    ["created_time","last_modified_time","created_by","last_modified_by"].filterMap fun field =>
      (e.record.lookup field).map fun value => (field,value))

end Records

section Search

/-- The records in the order of a sorted search and in that of a plain one. -/
structure Table (py : Builtins) (cursorField : String) where
  records : List Record
  entries : List Entry
  read : records.mapM (entry py cursorField) = .ok entries
  sorted : entries.Pairwise fun r s => r.valueKey ≤ s.valueKey
  distinct : (entries.map fun e => e.cursor.recordId).Nodup
  unsorted : List Record
  shuffled : unsorted.Perm records

structure Config where
  batchSize : ℕ
  fallbackScanPageLimit : ℕ
  sized : 1 ≤ batchSize ∧ batchSize ≤ 500
  positive : 1 ≤ fallbackScanPageLimit

def Config.pageSize (config : Config) (limit : ℤ) : ℕ := (max 1 (min limit config.batchSize)).toNat

variable {py : Builtins} {cursorField : String} (t : Table py cursorField) (config : Config)

def normalizePageSize (value : ℕ) : ℕ := max 1 (min value 500)

/-- The pages of a search, one after the other; a page has a token for the next one
exactly when there is one. -/
def Table.searchRecords (sort : Bool) (pageSize : ℕ) : List (List Json) :=
  let records := if sort then t.records else t.unsorted
  pagesOf (normalizePageSize pageSize) (records.length+1) (records.map .obj)

variable (py cursorField)

/-- The loop of `_fetch_records_with_body`. -/
def readPages (limit : ℕ) (scanAllPages : Bool) (readCursor : Option Cursor) :
    List (List Json) → List Entry → ℕ → Except FetchError (List Entry)
  | [],records,_ => return records
  | items::rest,records,scanned => do
    let candidates ← items.mapM (candidate py cursorField readCursor)
    let page := ascending Entry.sortKey (candidates.filterMap id)
    let records := records++if scanAllPages then page else page.take (limit-records.length)
    if scanAllPages && !rest.isEmpty && config.fallbackScanPageLimit ≤ scanned+1 then
      .error (.scanLimit config.fallbackScanPageLimit)
    else if !scanAllPages && limit ≤ records.length then return records
    else readPages limit scanAllPages readCursor rest records (scanned+1)

variable {py cursorField}

def Table.fetchRecordsWithBody (limit : ℕ) (scanAllPages : Bool) (readCursor : Option Cursor) :
    Except FetchError (List Entry) := do
  let pages := t.searchRecords (!scanAllPages) limit
  let records ← readPages py cursorField config limit scanAllPages readCursor pages [] 0
  return (ascending Entry.sortKey records).take limit

/-- `_fetch_records`, with a server that refuses to sort or not. -/
def Table.fetchRecords (refuses : Bool) (limit : ℕ) (readCursor : Option Cursor) :
    Except FetchError (List Entry) :=
  t.fetchRecordsWithBody config limit refuses readCursor

end Search

section Source

/-- `fetching` is the cursor and the page size of a fetch under way, `stored` what the
cursor store has. -/
structure Source where
  pending : List Cursor := []
  acked : Finset Cursor := ∅
  committedCursor : Option Cursor := none
  fetchedCursor : Option Cursor := none
  fetching : Option (Option Cursor × ℕ) := none
  stored : Option Json := none

/-- `open` of a new source. -/
def opened (stored : Option Json) : Source :=
  match stored with
  | some (.arr [value,.str recordId]) =>
    {committedCursor := some ⟨value,recordId⟩,fetchedCursor := some ⟨value,recordId⟩,stored}
  | _ => {stored}

def Source.readCursor (q : Source) : Option Cursor := q.fetchedCursor.or q.committedCursor

def hashable : Json → Bool
  | .arr _ | .obj _ => false
  | _ => true

/-- The acked tokens at the head of the queue leave it; the last of them is given back. -/
def advance : List Cursor → Finset Cursor → Option Cursor → List Cursor × Finset Cursor × Option Cursor
  | [],acked,advanced => ([],acked,advanced)
  | head::pending,acked,advanced =>
    if head ∈ acked then advance pending (acked.erase head) (some head)
    else (head::pending,acked,advanced)

/-- `ack_token`; a token with a value that has no hash raises. -/
def Source.ackToken (q : Source) (token : Cursor) : Source :=
  if hashable token.value then
    match advance q.pending (insert token q.acked) none with
    | (pending,acked,none) => {q with pending,acked}
    | (pending,acked,some advanced) =>
      {q with
        pending
        acked
        committedCursor := some advanced
        fetchedCursor := if pending.isEmpty then some advanced else q.fetchedCursor
        stored := some (.arr [advanced.value,.str advanced.recordId])}
  else q

def Source.register (q : Source) (entries : List Entry) : Source :=
  {q with
    pending := q.pending++entries.map Entry.cursor
    fetchedCursor := (entries.getLast?.map Entry.cursor).or q.fetchedCursor
    fetching := none}

inductive Op where
  | fetch (limit : ℤ)
  | gotRecords
  | ack (token : Cursor)
  | reopen

structure Event where
  before : Source
  op : Op
  returned : List Delivery

variable {py : Builtins} {cursorField : String} (t : Table py cursorField) (config : Config)

/-- A source is opened anew when all its deliveries are acked. -/
def perform (refuses : Bool) (q : Source) : Op → Option (List Delivery × Source)
  | .fetch limit =>
    if q.fetching.isNone then
      some ([],{q with fetching := some (q.readCursor,config.pageSize limit)})
    else none
  | .gotRecords =>
    match q.fetching with
    | none => none
    | some (readCursor,limit) =>
      match t.fetchRecords config refuses limit readCursor with
      | .error _ => some ([],{q with fetching := none})
      | .ok entries => some (entries.map Entry.delivery,q.register entries)
  | .ack token => some ([],q.ackToken token)
  | .reopen => if q.pending.isEmpty && q.fetching.isNone then some ([],opened q.stored) else none

def Step (refuses : Bool) (q : Source) (e : Event) (q' : Source) : Prop :=
  e.before = q ∧ perform t config refuses q e.op = some (e.returned,q')

end Source

end OneStep.FeishuIncremental
