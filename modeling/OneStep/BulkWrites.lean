import OneStep.DeliveryModel
import Mathlib.Data.List.Nodup
import Mathlib.Tactic

/-!
# Bulk writes to Elasticsearch

A send encodes its documents one after another, cuts them into chunks and sends one
chunk at a time; of a chunk, what was refused for the moment is sent again. An action is
known by the place of its document. The text of a chunk is split into its actions again
before each request, which gives them back, as no line of an action holds a line break.

The endpoint answers as it likes. What it has applied without saying so is part of its
reply.
-/
namespace OneStep.BulkWrites
open DeliveryModel

section Replies

inductive Operation where
  | index | create
  deriving DecidableEq

/-- The exceptions of a request: one with a TLS error in its chain, those of the HTTP client,
of the operating system, a type or value error, and any other. -/
inductive Raised where
  | sslError
  | connectTimeout
  | connectError
  | readTimeout
  | writeError
  | readError
  | timeoutException
  | osError
  | valueError
  | other
  deriving DecidableEq

/-- An item of an answer; one without a readable status is invalid. -/
inductive Item where
  | answered (status : ℤ) (errorType : Option String)
  | invalid

structure Payload where
  items : Option (List Item)
  errors : Bool

inductive Answer where
  | raises (exc : Raised)
  | responds (status : ℤ) (payload : Payload)

/-- An answer, and whether actions have been applied whose answers do not say it. -/
structure Reply where
  answer : Answer
  unsaid : Bool

structure ItemError where
  actionIndex : ℕ
  status : ℤ
  errorType : Option String

structure BulkError where
  items : List ItemError
  partialSuccess : Bool
  outcomeUncertain : Bool

inductive Failure where
  | bulk (exc : BulkError)
  | raised (exc : Raised)

def classifyStatus (status : ℤ) : ConnectorErrorKind :=
  if status = 429 then .throttled
  else if status = 502 ∨ status = 503 ∨ status = 504 then .transient
  else if status = 401 ∨ status = 403 ∨ status = 404 then .misconfigured
  else .permanent

def classifyException : Raised → Option ConnectorErrorKind
  | .sslError => some .misconfigured
  | .connectTimeout => some .disconnected
  | .connectError => some .disconnected
  | .readTimeout => some .uncertain
  | .writeError => some .uncertain
  | .readError => some .uncertain
  | .timeoutException => some .uncertain
  | .osError => some .disconnected
  | .valueError => none
  | .other => none

def isSuccess (status : ℤ) : Bool := 200 ≤ status && status < 300

def isAmbiguous (status : ℤ) : Bool := status = 502 || status = 503 || status = 504

def Item.succeeded : Item → Bool
  | .answered status _ => isSuccess status
  | .invalid => false

def invalidResponse : Option String := some "invalid_response"

def Item.error (index : ℕ) : Item → Option ItemError
  | .answered status errorType => if isSuccess status then none else some ⟨index,status,errorType⟩
  | .invalid => some ⟨index,0,invalidResponse⟩

def parseItems (items : List Item) : List ItemError :=
  items.zipIdx.filterMap fun p => p.1.error p.2

def originalItemErrors (failures : List ItemError) (pendingIndexes : List ℕ) : List ItemError :=
  failures.map fun e => {e with actionIndex := pendingIndexes.getD e.actionIndex e.actionIndex}

end Replies

section Chunks
variable {D A : Type}

structure Settings (D A : Type) where
  operation : Operation
  idField : Option String
  chunkSize : ℕ
  maxChunkBytes : ℕ
  maxRetries : ℤ
  holds : String → D → Bool
  encodeAction : D → Option A
  size : A → ℕ
  positive : 0 < chunkSize ∧ 0 < maxChunkBytes

inductive Body (D : Type) where
  | mapping (document : D)
  | sequence (items : List (Option D))
  | other

/-- `_logical_document_views`; an item of a sequence that is no mapping raises. -/
def Body.documents : Body D → Option (List D)
  | .mapping document => some [document]
  | .sequence items => if items.isEmpty then none else items.mapM id
  | .other => none

variable (settings : Settings D A)

def replaySafe (documents : List D) : Bool :=
  settings.operation = .index &&
    settings.idField.any fun idField => documents.all (settings.holds idField)

/-- The chunks, and whether the last document was reached: one that cannot be encoded or
is too large ends the iteration, and what was collected before it is not sent. -/
def iterEncodedChunks (current : List (ℕ × A)) : List (D × ℕ) → List (List (ℕ × A)) × Bool
  | [] => (if current.isEmpty then [] else [current],true)
  | (document,place)::documents =>
    match settings.encodeAction document with
    | none => ([],false)
    | some action =>
      if settings.maxChunkBytes < settings.size action then ([],false)
      else if !current.isEmpty && (settings.chunkSize ≤ current.length ||
          settings.maxChunkBytes < (current.map fun a => settings.size a.2).sum+settings.size action) then
        let r := iterEncodedChunks [(place,action)] documents
        (current::r.1,r.2)
      else iterEncodedChunks (current++[(place,action)]) documents

section Equations
attribute [local simp] iterEncodedChunks
end Equations

end Chunks

section Sending
variable {D A : Type} (settings : Settings D A) (replaySafe : Bool)

/-- What a request leads to: the end of its chunk, or a further request. -/
inductive Attempt where
  | returned
  | failed (failure : Failure)
  | requestAgain
  | itemsAgain (retryableIndexes : List ℕ) (partialSuccess : Bool)

/-- The failed items; an answer that reports errors without one counts as a failed item. -/
def reportedErrors (pendingIndexes : List ℕ) (items : List Item) : List ItemError :=
  if (parseItems items).isEmpty then [⟨pendingIndexes.headD 0,0,invalidResponse⟩] else parseItems items

def ItemError.retryable (e : ItemError) : Bool := e.status = 429 || isAmbiguous e.status

/-- The part of `_send_chunk` for failed items. -/
def itemsFailed (last : Bool) (pendingIndexes : List ℕ) (partialSuccess : Bool)
    (failures : List ItemError) : Attempt :=
  let retryableIndexes := (failures.filter ItemError.retryable).map ItemError.actionIndex
  let permanent := failures.filter fun e => e.actionIndex ∉ retryableIndexes
  if !permanent.isEmpty || retryableIndexes.isEmpty || last then
    .failed (.bulk ⟨originalItemErrors failures pendingIndexes,partialSuccess,
      !replaySafe && failures.any fun e => e.errorType = invalidResponse⟩)
  else .itemsAgain retryableIndexes partialSuccess

/-- The part of `_send_chunk` for an answer with one item for each action. -/
def parseAnswer (last : Bool) (pendingIndexes : List ℕ) (partialSuccess : Bool) (items : List Item)
    (errors : Bool) : Attempt :=
  if (parseItems items).isEmpty && !errors then .returned
  else
    let failures := reportedErrors pendingIndexes items
    itemsFailed replaySafe last pendingIndexes (partialSuccess || failures.length < items.length) failures

/-- The body of the loop of `_send_chunk`, once the request is over. -/
def attempt (last : Bool) (pendingIndexes : List ℕ) (partialSuccess : Bool) : Answer → Attempt
  | .raises exc => .failed (.raised exc)
  | .responds status payload =>
    if !isSuccess status then
      if (status = 429 || isAmbiguous status && replaySafe) && !last then .requestAgain
      else .failed (.bulk ⟨[⟨pendingIndexes.headD 0,status,none⟩],partialSuccess,
        isAmbiguous status && !replaySafe⟩)
    else
      let items := payload.items.getD []
      if payload.items.isNone || items.length ≠ pendingIndexes.length then
        .failed (.bulk ⟨[⟨pendingIndexes.headD 0,0,invalidResponse⟩],
          partialSuccess || items.any Item.succeeded,!replaySafe⟩)
      else parseAnswer replaySafe last pendingIndexes partialSuccess items payload.errors

/-- A request, by the places of its documents, with what was known before it; or a
document that ends the iteration. -/
inductive Event where
  | request (pending : List ℕ) (committedChunks : ℕ) (partialSuccess : Bool) (reply : Reply)
  | unencodable (committedChunks : ℕ)

variable (replies : ℕ → Reply) (committedChunks : ℕ)

/-- `_send_chunk`, with the number of attempts that are left. -/
def sendChunk : ℕ → ℕ → List ℕ → List ℕ → Bool → Option Failure × List Event
  | 0,_,_,_,_ => (some (.raised .other),[])
  | left+1,n,pending,pendingIndexes,partialSuccess =>
    let event := Event.request pending committedChunks partialSuccess (replies n)
    match attempt replaySafe (left = 0) pendingIndexes partialSuccess (replies n).answer with
    | .returned => (none,[event])
    | .failed failure => (some failure,[event])
    | .requestAgain =>
      let r := sendChunk left (n+1) pending pendingIndexes partialSuccess
      (r.1,event::r.2)
    | .itemsAgain retryableIndexes partialSuccess =>
      let r := sendChunk left (n+1) (retryableIndexes.filterMap (pending[·]?))
        (retryableIndexes.filterMap (pendingIndexes[·]?)) partialSuccess
      (r.1,event::r.2)

/-- How a send ends; an exception without a kind is raised as it is. -/
inductive Outcome where
  | returned
  | raised (kind : Option ConnectorErrorKind)
  deriving DecidableEq

/-- The except clauses of `send`. -/
def Failure.kind : Failure → Option ConnectorErrorKind
  | .bulk exc =>
    if exc.outcomeUncertain || (0 < committedChunks || exc.partialSuccess) && !replaySafe then
      some .uncertain
    else some (exc.items.head?.elim .permanent fun e => classifyStatus e.status)
  | .raised .valueError => some .permanent
  | .raised exc => (classifyException exc).map fun kind =>
    if 0 < committedChunks && !replaySafe then .uncertain else kind

/-- The loop of `send` over its chunks. -/
def sendChunks (encoded : Bool) : ℕ → ℕ → List (List (ℕ × A)) → Outcome × List Event
  | committedChunks,_,[] =>
    if encoded then (.returned,[]) else (.raised (some .permanent),[.unencodable committedChunks])
  | committedChunks,n,chunk::chunks =>
    let r := sendChunk replaySafe replies committedChunks (settings.maxRetries+1).toNat n
      (chunk.map Prod.fst) (List.range chunk.length) false
    match r.1 with
    | some failure => (.raised (failure.kind replaySafe committedChunks),r.2)
    | none =>
      let s := sendChunks encoded (committedChunks+1) (n+r.2.length) chunks
      (s.1,r.2++s.2)

section Equations
attribute [local simp] sendChunk sendChunks
end Equations

def send (body : Body D) : Outcome × List Event :=
  match body.documents with
  | none => (.raised (some .permanent),[])
  | some documents =>
    let r := iterEncodedChunks settings [] documents.zipIdx
    sendChunks settings (BulkWrites.replaySafe settings documents) replies r.2 0 0 r.1

end Sending

section Observed

def answeredItems (pending : List ℕ) : Answer → List Item
  | .raises _ => []
  | .responds status payload =>
    let items := payload.items.getD []
    if isSuccess status && items.length = pending.length then items else []

def Event.pending : Event → List ℕ
  | .request pending _ _ _ => pending
  | .unencodable _ => []

/-- The actions that were answered with a success status. -/
def Event.succeeded : Event → List ℕ
  | .request pending _ _ reply =>
    ((pending.zip (answeredItems pending reply.answer)).filter fun p => p.2.succeeded).map Prod.fst
  | .unencodable _ => []

/-- Whether an action has been applied by the request: an answer says so, or one that has no
readable status for each action leaves it unsaid. -/
def Event.applies : Event → Bool
  | .request pending committedChunks partialSuccess reply =>
    let items := answeredItems pending reply.answer
    !(Event.request pending committedChunks partialSuccess reply).succeeded.isEmpty ||
      reply.unsaid && (items.isEmpty || items.any fun item => item matches .invalid)
  | .unencodable _ => false

end Observed

section Items

theorem error_index {item : Item} {index : ℕ} {e : ItemError} (h : item.error index = some e) :
    e.actionIndex = index := by
  cases item with
  | answered status errorType =>
    simp only [Item.error] at h
    split at h <;> cases h
    rfl
  | invalid =>
    cases h
    rfl

variable {items : List Item}

theorem mem_parseItems {e : ItemError} :
    e ∈ parseItems items ↔ ∃ item, items[e.actionIndex]? = some item ∧ item.error e.actionIndex = some e := by
  rw [parseItems,List.mem_filterMap]
  constructor
  · rintro ⟨⟨item,index⟩,hin,herror⟩
    rw [error_index herror]
    exact ⟨item,List.mem_zipIdx_iff_getElem?.mp hin,herror⟩
  · rintro ⟨item,hitem,herror⟩
    exact ⟨(item,e.actionIndex),List.mem_zipIdx_iff_getElem?.mpr hitem,herror⟩

theorem error_eq_none {item : Item} {index : ℕ} : item.error index = none ↔ item.succeeded = true := by
  cases item with
  | answered status errorType => simp [Item.error,Item.succeeded]
  | invalid => simp [Item.error,Item.succeeded]

theorem mem_errorIndexes {i : ℕ} :
    i ∈ (parseItems items).map ItemError.actionIndex ↔
      ∃ item, items[i]? = some item ∧ item.succeeded = false := by
  rw [List.mem_map]
  constructor
  · rintro ⟨e,he,rfl⟩
    obtain ⟨item,hitem,herror⟩ := mem_parseItems.mp he
    refine ⟨item,hitem,?_⟩
    rw [← Bool.not_eq_true,← error_eq_none,herror]
    exact Option.some_ne_none e
  · rintro ⟨item,hitem,hfail⟩
    have hsome : item.error i ≠ none := by
      rw [Ne,error_eq_none,hfail]
      exact Bool.false_ne_true
    obtain ⟨e,herror⟩ := Option.ne_none_iff_exists'.mp hsome
    have hindex := error_index herror
    exact ⟨e,mem_parseItems.mpr ⟨item,hindex ▸ hitem,hindex ▸ herror⟩,hindex⟩

theorem parseItems_length (items : List Item) :
    (parseItems items).length+items.countP Item.succeeded = items.length := by
  have hgen : ∀ k, ((items.zipIdx k).filterMap fun p => p.1.error p.2).length+
      items.countP Item.succeeded = items.length := by
    induction items with
    | nil => exact fun _ => rfl
    | cons item items ih =>
      intro k
      have hrest := ih (k+1)
      rw [List.zipIdx_cons,List.filterMap_cons,List.countP_cons,List.length_cons]
      cases hitem : item.error k with
      | none =>
        rw [error_eq_none] at hitem
        simp only [hitem,if_true]
        omega
      | some e =>
        have hfail : item.succeeded = false := by
          rw [← Bool.not_eq_true,← error_eq_none,hitem]
          exact Option.some_ne_none e
        simp only [hfail,List.length_cons,Bool.false_eq_true,if_false]
        omega
  exact hgen 0

theorem parseItems_lt (h : items.any Item.succeeded = true) :
    (parseItems items).length < items.length := by
  have hlength := parseItems_length items
  have hpos : 0 < items.countP Item.succeeded := by
    obtain ⟨item,hitem,hsuccess⟩ := List.any_eq_true.mp h
    exact List.countP_pos_iff.mpr ⟨item,hitem,hsuccess⟩
  omega

theorem parseItems_nil (h : parseItems items = []) : items.all Item.succeeded = true := by
  have hlength := parseItems_length items
  rw [h,List.length_nil,Nat.zero_add] at hlength
  rw [List.all_eq_true]
  exact List.countP_eq_length.mp hlength

theorem errorIndexes_nodup (items : List Item) :
    ((parseItems items).map ItemError.actionIndex).Nodup := by
  have hgen : ∀ k, (((items.zipIdx k).filterMap fun p => p.1.error p.2).map
      ItemError.actionIndex).Sublist (List.range' k items.length) := by
    induction items with
    | nil => exact fun _ => List.Sublist.slnil
    | cons item items ih =>
      intro k
      rw [List.zipIdx_cons,List.filterMap_cons,List.length_cons,List.range'_succ]
      have hrest := ih (k+1)
      cases hitem : item.error k with
      | none => exact hrest.cons k
      | some e =>
        rw [List.map_cons,error_index hitem]
        exact hrest.cons_cons k
  exact (hgen 0).nodup List.nodup_range'

end Items

section Attempts
variable {last : Bool} {pending pendingIndexes : List ℕ} {partialSuccess : Bool} {answer : Answer}

variable {replaySafe : Bool}

theorem answeredItems_counted {status : ℤ} {payload : Payload} (hstatus : isSuccess status = true)
    (hcount : (payload.items.getD []).length = pending.length) :
    answeredItems pending (.responds status payload) = payload.items.getD [] := by
  simp only [answeredItems,hstatus,Bool.true_and,decide_eq_true_eq]
  rw [if_pos hcount]

theorem attempt_wellFormed {a : Attempt}
    (h : attempt replaySafe last pendingIndexes partialSuccess answer = a)
    (hlength : pending.length = pendingIndexes.length)
    (ha : a = .returned ∨ ∃ retryableIndexes partialSuccess', a = .itemsAgain retryableIndexes partialSuccess') :
    (answeredItems pending answer).length = pending.length ∧ ∃ errors,
      parseAnswer replaySafe last pendingIndexes partialSuccess (answeredItems pending answer) errors = a := by
  cases answer with
  | raises exc =>
    rcases ha with rfl | ⟨_,_,rfl⟩ <;> cases h
  | responds status payload =>
    simp only [attempt] at h
    split at h
    · split at h <;> rcases ha with rfl | ⟨_,_,rfl⟩ <;> cases h
    · next hstatus =>
        split at h
        · rcases ha with rfl | ⟨_,_,rfl⟩ <;> cases h
        · next hcount =>
            simp only [Bool.or_eq_true,Option.isNone_iff_eq_none,decide_eq_true_eq,not_or,ne_eq,
              Decidable.not_not] at hcount
            rw [answeredItems_counted (by simpa using hstatus) (hcount.2.trans hlength.symm)]
            exact ⟨hcount.2.trans hlength.symm,payload.errors,h⟩

theorem itemsFailed_ne_returned {failures : List ItemError} :
    itemsFailed replaySafe last pendingIndexes partialSuccess failures ≠ .returned := by
  unfold itemsFailed
  dsimp only
  split <;> exact Attempt.noConfusion

theorem attempt_returned
    (h : attempt replaySafe last pendingIndexes partialSuccess answer = .returned)
    (hlength : pending.length = pendingIndexes.length) :
    (answeredItems pending answer).length = pending.length ∧
      (answeredItems pending answer).all Item.succeeded = true := by
  obtain ⟨hitems,errors,hparse⟩ := attempt_wellFormed h hlength (.inl rfl)
  refine ⟨hitems,parseItems_nil ?_⟩
  unfold parseAnswer at hparse
  split at hparse
  · next hnone =>
      rw [Bool.and_eq_true,List.isEmpty_iff] at hnone
      exact hnone.1
  · exact absurd hparse itemsFailed_ne_returned

theorem itemsFailed_again {failures : List ItemError} {retryableIndexes : List ℕ}
    {partialSuccess' : Bool}
    (h : itemsFailed replaySafe last pendingIndexes partialSuccess failures =
      .itemsAgain retryableIndexes partialSuccess')
    (hunique : ∀ e ∈ failures, ∀ e' ∈ failures, e.actionIndex = e'.actionIndex → e = e') :
    partialSuccess' = partialSuccess ∧ retryableIndexes = failures.map ItemError.actionIndex ∧
      (∀ e ∈ failures, e.retryable = true) ∧ failures ≠ [] ∧ last = false := by
  unfold itemsFailed at h
  dsimp only at h
  split at h
  · cases h
  · next hagain =>
      rw [Bool.or_eq_true,Bool.or_eq_true,not_or,not_or] at hagain
      simp only [Bool.not_eq_true',Bool.not_eq_false,List.isEmpty_iff,List.filter_eq_nil_iff] at hagain
      have hall : ∀ e ∈ failures, e.retryable = true := by
        intro e he
        have hin := hagain.1.1 e he
        rw [decide_eq_true_eq,not_not,List.mem_map] at hin
        obtain ⟨e',hin,hindex⟩ := hin
        obtain ⟨he',hretry⟩ := List.mem_filter.mp hin
        rw [hunique e he e' he' hindex.symm]
        exact hretry
      cases h
      refine ⟨rfl,by rw [List.filter_eq_self.mpr hall],hall,fun hnil => ?_,by simpa using hagain.2⟩
      rw [hnil] at hagain
      exact hagain.1.2 rfl

theorem parseItems_unique {items : List Item} : ∀ e ∈ parseItems items, ∀ e' ∈ parseItems items,
    e.actionIndex = e'.actionIndex → e = e' := by
  intro e he e' he' hindex
  obtain ⟨item,hitem,herror⟩ := mem_parseItems.mp he
  obtain ⟨item',hitem',herror'⟩ := mem_parseItems.mp he'
  rw [hindex,hitem'] at hitem
  cases hitem
  rw [hindex,herror'] at herror
  cases herror
  rfl

/-- What is sent again: all actions that did not succeed; and what succeeded is known. -/
structure Again (pending : List ℕ) (answer : Answer) (last : Bool) (partialSuccess : Bool)
    (retryableIndexes : List ℕ) (partialSuccess' : Bool) : Prop where
  length : (answeredItems pending answer).length = pending.length
  indexes : retryableIndexes = (parseItems (answeredItems pending answer)).map ItemError.actionIndex
  some : answeredItems pending answer ≠ []
  known : (answeredItems pending answer).any Item.succeeded = true → partialSuccess' = true
  keep : partialSuccess = true → partialSuccess' = true
  valid : Item.invalid ∉ answeredItems pending answer
  more : last = false

theorem attempt_itemsAgain {retryableIndexes : List ℕ} {partialSuccess' : Bool}
    (h : attempt replaySafe last pendingIndexes partialSuccess answer =
      .itemsAgain retryableIndexes partialSuccess')
    (hlength : pending.length = pendingIndexes.length) :
    Again pending answer last partialSuccess retryableIndexes partialSuccess' := by
  obtain ⟨hitems,errors,hparse⟩ := attempt_wellFormed h hlength (.inr ⟨_,_,rfl⟩)
  generalize hanswer : answeredItems pending answer = items at hparse hitems
  unfold parseAnswer at hparse
  split at hparse
  · cases hparse
  · by_cases hnone : parseItems items = []
    · simp only [reportedErrors,hnone,List.isEmpty_nil,if_true] at hparse
      obtain ⟨-,-,hall,-,-⟩ := itemsFailed_again hparse (by simp)
      exact absurd (hall _ List.mem_cons_self) Bool.false_ne_true
    · have hreported : reportedErrors pendingIndexes items = parseItems items := by
        rw [reportedErrors,if_neg (by rw [List.isEmpty_iff]; exact hnone)]
      simp only [hreported] at hparse
      obtain ⟨rfl,hindexes,hall,hsome,hlast⟩ := itemsFailed_again hparse parseItems_unique
      subst hanswer
      refine ⟨hitems,hindexes,fun hnil => ?_,fun hany => ?_,fun hpart => ?_,fun hinvalid => ?_,hlast⟩
      · rw [hnil] at hsome
        exact hsome rfl
      · rw [decide_eq_true (parseItems_lt hany),Bool.or_true]
      · rw [hpart,Bool.true_or]
      · obtain ⟨i,hi⟩ := List.getElem?_of_mem hinvalid
        have herror : (⟨i,0,invalidResponse⟩ : ItemError) ∈ parseItems (answeredItems pending answer) :=
          mem_parseItems.mpr ⟨.invalid,hi,rfl⟩
        exact absurd (hall _ herror) Bool.false_ne_true

theorem attempt_requestAgain
    (h : attempt false last pendingIndexes partialSuccess answer = .requestAgain) :
    (∃ payload, answer = .responds 429 payload) ∧ last = false := by
  cases answer with
  | raises exc => cases h
  | responds status payload =>
    simp only [attempt,Bool.and_false,Bool.or_false] at h
    split at h
    · split at h
      · next hagain =>
          rw [Bool.and_eq_true,decide_eq_true_eq] at hagain
          exact ⟨⟨payload,by rw [hagain.1]⟩,by simpa using hagain.2⟩
      · cases h
    · split at h
      · cases h
      · unfold parseAnswer at h
        split at h
        · cases h
        · unfold itemsFailed at h
          dsimp only at h
          split at h <;> cases h

end Attempts

section Kinds
variable {last : Bool} {pending pendingIndexes : List ℕ} {partialSuccess : Bool} {answer : Answer}
  {committedChunks : ℕ}

/-- Where the operation is not replay safe: a request that failed for another reason than an
open outcome has applied nothing, or something was known to be applied that the error
takes along; and a document that ends the iteration comes before the first chunk. -/
def Event.Fair : Event → Prop
  | .unencodable committedChunks => committedChunks = 0
  | .request _ committedChunks partialSuccess reply =>
    match reply.answer with
    | .raises exc => classifyException exc = some .uncertain ∨
        (committedChunks = 0 ∧ partialSuccess = false ∧ reply.unsaid = false) ∨
        (0 < committedChunks ∧ classifyException exc ≠ none)
    | .responds status _ => isSuccess status = true ∨ isAmbiguous status = true ∨
        0 < committedChunks ∨ partialSuccess = true ∨ reply.unsaid = false

/-- What has been applied is known by a committed chunk or a success in the chunk. -/
def Known (committedChunks : ℕ) (partialSuccess : Bool) : Prop :=
  0 < committedChunks ∨ partialSuccess = true

theorem kind_bulk {exc : BulkError} (h : exc.outcomeUncertain = true ∨ Known committedChunks exc.partialSuccess) :
    (Failure.bulk exc).kind false committedChunks = some .uncertain := by
  refine if_pos ?_
  rcases h with h | h | h
  · rw [h,Bool.true_or]
  · simp only [h,decide_true,Bool.true_or,Bool.not_false,Bool.and_true,Bool.or_true]
  · simp only [h,Bool.or_true,Bool.not_false,Bool.and_true]

variable {failure : Failure}

theorem kind_itemsFailed {failures : List ItemError}
    (h : itemsFailed false last pendingIndexes partialSuccess failures = .failed failure) :
    ∃ exc, failure = .bulk exc ∧ exc.partialSuccess = partialSuccess ∧
      exc.outcomeUncertain = failures.any fun e => e.errorType = invalidResponse := by
  unfold itemsFailed at h
  dsimp only at h
  split at h
  · cases h
    exact ⟨_,rfl,rfl,rfl⟩
  · cases h

theorem succeeded_any {reply : Reply} {n : ℕ} {b : Bool}
    (h : (Event.request pending n b reply).succeeded.isEmpty = false) :
    (answeredItems pending reply.answer).any Item.succeeded = true := by
  cases hs : (Event.request pending n b reply).succeeded with
  | nil =>
    rw [hs] at h
    cases h
  | cons p l =>
    have hp : p ∈ (Event.request pending n b reply).succeeded := by rw [hs]; exact List.mem_cons_self
    obtain ⟨⟨p',item⟩,hin,-⟩ := List.mem_map.mp hp
    obtain ⟨hzip,hsuccess⟩ := List.mem_filter.mp hin
    exact List.any_eq_true.mpr ⟨item,(List.of_mem_zip hzip).2,hsuccess⟩

theorem parseItems_invalid {items : List Item} (h : Item.invalid ∈ items) :
    (parseItems items).any (fun e => e.errorType = invalidResponse) = true := by
  obtain ⟨i,hi⟩ := List.getElem?_of_mem h
  exact List.any_eq_true.mpr ⟨⟨i,0,invalidResponse⟩,mem_parseItems.mpr ⟨.invalid,hi,rfl⟩,decide_eq_true rfl⟩

/-- A failed item takes along what succeeded beside it, or tells that the outcome is open. -/
theorem kind_parseAnswer {items : List Item} {errors : Bool}
    (h : parseAnswer false last pendingIndexes partialSuccess items errors = .failed failure)
    (happlied : Known committedChunks partialSuccess ∨ items.any Item.succeeded = true ∨
      items = [] ∨ Item.invalid ∈ items) :
    failure.kind false committedChunks = some .uncertain := by
  unfold parseAnswer at h
  split at h
  · cases h
  · obtain ⟨exc,rfl,hpart,huncertain⟩ := kind_itemsFailed h
    apply kind_bulk
    rw [hpart,huncertain]
    by_cases hnone : parseItems items = []
    · left
      simp only [reportedErrors,hnone,List.isEmpty_nil,if_true]
      exact List.any_eq_true.mpr ⟨_,List.mem_cons_self,decide_eq_true rfl⟩
    · have hreported : reportedErrors pendingIndexes items = parseItems items := by
        rw [reportedErrors,if_neg (by rw [List.isEmpty_iff]; exact hnone)]
      rw [hreported]
      rcases happlied with (hcommitted | hsuccess) | hany | hempty | hinvalid
      · exact .inr (.inl hcommitted)
      · exact .inr (.inr (by rw [hsuccess,Bool.true_or]))
      · exact .inr (.inr (by rw [decide_eq_true (parseItems_lt hany),Bool.or_true]))
      · rw [hempty] at hnone
        exact absurd rfl hnone
      · exact .inl (parseItems_invalid hinvalid)

theorem attempt_failed {reply : Reply}
    (h : attempt false last pendingIndexes partialSuccess reply.answer = .failed failure)
    (hlength : pending.length = pendingIndexes.length)
    (hfair : (Event.request pending committedChunks partialSuccess reply).Fair)
    (happlied : Known committedChunks partialSuccess ∨
      (Event.request pending committedChunks partialSuccess reply).applies = true) :
    failure.kind false committedChunks = some .uncertain := by
  obtain ⟨answer,unsaid⟩ := reply
  have hsaid : (Event.request pending committedChunks partialSuccess ⟨answer,unsaid⟩).applies = true →
      (answeredItems pending answer).any Item.succeeded = true ∨ unsaid = true ∧
        (answeredItems pending answer = [] ∨ Item.invalid ∈ answeredItems pending answer) := by
    intro happlies
    simp only [Event.applies,Bool.or_eq_true,Bool.and_eq_true,Bool.not_eq_true',List.isEmpty_iff] at happlies
    rcases happlies with hsome | ⟨hunsaid,hwhich⟩
    · exact .inl (succeeded_any hsome)
    · refine .inr ⟨hunsaid,hwhich.imp id fun hany => ?_⟩
      obtain ⟨item,hitem,hinvalid⟩ := List.any_eq_true.mp hany
      cases item with
      | answered status errorType => cases hinvalid
      | invalid => exact hitem
  cases answer with
  | raises exc =>
    cases h
    rcases hfair with huncertain | ⟨hcommitted,hpart,hunsaid⟩ | ⟨hcommitted,hclass⟩
    · cases exc <;> cases huncertain <;> simp [Failure.kind,classifyException]
    · rcases happlied with (hknown | hknown) | happlies
      · omega
      · rw [hpart] at hknown
        cases hknown
      · rcases hsaid happlies with hany | ⟨hsaid,-⟩
        · cases hany
        · exact absurd (hunsaid.symm.trans hsaid) Bool.false_ne_true
    · cases exc <;> simp_all [Failure.kind,classifyException]
  | responds status payload =>
    simp only [attempt,Bool.and_false,Bool.or_false,Bool.not_false,Bool.and_true] at h
    split at h
    · next hstatus =>
        have hno : answeredItems pending (.responds status payload) = [] := by
          have hfail : isSuccess status = false := by simpa using hstatus
          simp only [answeredItems,hfail,Bool.false_and,Bool.false_eq_true,if_false]
        split at h
        · cases h
        · cases h
          apply kind_bulk
          rcases hfair with hsuccess | hambiguous | hcommitted | hpart | hunsaid
          · rw [hsuccess] at hstatus
            cases hstatus
          · exact .inl hambiguous
          · exact .inr (.inl hcommitted)
          · exact .inr (.inr hpart)
          · refine .inr (happlied.resolve_right fun happlies => ?_)
            rcases hsaid happlies with hany | ⟨hsaid,-⟩
            · rw [hno] at hany
              cases hany
            · exact absurd (hunsaid.symm.trans hsaid) Bool.false_ne_true
    · next hstatus =>
        split at h
        · cases h
          exact kind_bulk (.inl rfl)
        · next hcount =>
            simp only [Bool.or_eq_true,Option.isNone_iff_eq_none,decide_eq_true_eq,not_or,ne_eq,
              Decidable.not_not] at hcount
            rw [answeredItems_counted (by simpa using hstatus) (hcount.2.trans hlength.symm)] at hsaid
            refine kind_parseAnswer h (happlied.imp id fun happlies => ?_)
            exact (hsaid happlies).imp id And.right

end Kinds

section Chunk
variable {replaySafe : Bool} {replies : ℕ → Reply} {committedChunks : ℕ}

theorem filterMap_getElem?_length {α β : Type} {as : List α} {bs : List β}
    (h : as.length = bs.length) (is : List ℕ) :
    (is.filterMap (as[·]?)).length = (is.filterMap (bs[·]?)).length := by
  induction is with
  | nil => rfl
  | cons i is ih =>
    by_cases hi : i < as.length
    · simp only [List.filterMap_cons,List.getElem?_eq_getElem hi,List.getElem?_eq_getElem (h ▸ hi),
        List.length_cons,ih]
    · have hi' : ¬i < bs.length := h ▸ hi
      simp only [List.filterMap_cons,List.getElem?_eq_none_iff.mpr (Nat.le_of_not_lt hi),
        List.getElem?_eq_none_iff.mpr (Nat.le_of_not_lt hi'),ih]

variable {left n : ℕ} {pending pendingIndexes : List ℕ} {partialSuccess : Bool}

theorem sendChunk_uncertain {failure : Failure} (hlength : pending.length = pendingIndexes.length)
    (h : (sendChunk false replies committedChunks left n pending pendingIndexes partialSuccess).1 =
      some failure)
    (hfair : ∀ e ∈ (sendChunk false replies committedChunks left n pending pendingIndexes
      partialSuccess).2,e.Fair)
    (happlied : Known committedChunks partialSuccess ∨ ∃ e ∈ (sendChunk false replies committedChunks
      left n pending pendingIndexes partialSuccess).2,e.applies = true) (hleft : 0 < left) :
    failure.kind false committedChunks = some .uncertain := by
  induction left generalizing n pending pendingIndexes partialSuccess with
  | zero => cases hleft
  | succ left ih =>
    rw [sendChunk] at h hfair happlied
    dsimp only at h hfair happlied
    split at h
    · cases h
    · next hattempt =>
        cases h
        rw [hattempt] at hfair happlied
        simp only [List.mem_singleton,forall_eq,exists_eq_left] at hfair happlied
        exact attempt_failed hattempt hlength hfair happlied
    · next hattempt =>
        rw [hattempt] at hfair happlied
        simp only [List.forall_mem_cons,List.exists_mem_cons_iff] at hfair happlied
        obtain ⟨⟨payload,hanswer⟩,hlast⟩ := attempt_requestAgain hattempt
        refine ih hlength h hfair.2 ?_ (Nat.pos_of_ne_zero (by simpa using hlast))
        rcases happlied with hknown | happlies | hlater
        · exact .inl hknown
        · left
          have hok := hfair.1
          simp only [Event.Fair,hanswer] at hok
          rcases hok with hok | hok | hcommitted | hpart | hunsaid
          · cases hok
          · cases hok
          · exact .inl hcommitted
          · exact .inr hpart
          · have hnothing : (Event.request pending committedChunks partialSuccess (replies n)).applies =
                false := by
              simp only [Event.applies,Event.succeeded,hanswer,hunsaid,answeredItems]
              simp [isSuccess]
            rw [hnothing] at happlies
            cases happlies
        · exact .inr hlater
    · next retryableIndexes partialSuccess' hattempt =>
        rw [hattempt] at hfair happlied
        simp only [List.forall_mem_cons,List.exists_mem_cons_iff] at hfair happlied
        have hagain := attempt_itemsAgain hattempt hlength
        refine ih (filterMap_getElem?_length hlength _) h hfair.2 ?_
          (Nat.pos_of_ne_zero (by simpa using hagain.more))
        rcases happlied with hknown | happlies | hlater
        · exact .inl (hknown.imp id hagain.keep)
        · simp only [Event.applies,Bool.or_eq_true,Bool.and_eq_true,Bool.not_eq_true',
            List.isEmpty_iff] at happlies
          rcases happlies with hsome | ⟨-,hempty | hinvalid⟩
          · exact .inl (.inr (hagain.known (succeeded_any hsome)))
          · exact absurd hempty hagain.some
          · obtain ⟨item,hitem,hmatch⟩ := List.any_eq_true.mp hinvalid
            cases item with
            | answered status errorType => cases hmatch
            | invalid => exact absurd hitem hagain.valid
        · exact .inr hlater

theorem mem_succeeded {b : Bool} {reply : Reply} {p : ℕ} :
    p ∈ (Event.request pending n b reply).succeeded ↔ ∃ i : ℕ, pending[i]? = some p ∧
      ∃ item : Item, (answeredItems pending reply.answer)[i]? = some item ∧ item.succeeded = true := by
  rw [Event.succeeded,List.mem_map]
  constructor
  · rintro ⟨⟨p',item⟩,hin,rfl⟩
    obtain ⟨hzip,hsuccess⟩ := List.mem_filter.mp hin
    obtain ⟨i,hi⟩ := List.getElem?_of_mem hzip
    obtain ⟨hp,hitem⟩ := List.getElem?_zip_eq_some.mp hi
    exact ⟨i,hp,item,hitem,hsuccess⟩
  · rintro ⟨i,hp,item,hitem,hsuccess⟩
    have hzip : (p,item) ∈ pending.zip (answeredItems pending reply.answer) :=
      List.mem_of_getElem? (List.getElem?_zip_eq_some.mpr ⟨hp,hitem⟩)
    exact ⟨(p,item),List.mem_filter.mpr ⟨hzip,hsuccess⟩,rfl⟩

variable {last : Bool} {answer : Answer}

theorem requestAgain_unanswered
    (h : attempt replaySafe last pendingIndexes partialSuccess answer = .requestAgain) :
    answeredItems pending answer = [] ∧ last = false := by
  cases answer with
  | raises exc => cases h
  | responds status payload =>
    simp only [attempt] at h
    split at h
    · next hstatus =>
        have hfail : isSuccess status = false := by simpa using hstatus
        split at h
        · next hagain =>
            rw [Bool.and_eq_true] at hagain
            refine ⟨?_,by simpa using hagain.2⟩
            simp only [answeredItems,hfail,Bool.false_and,Bool.false_eq_true,if_false]
        · cases h
    · split at h
      · cases h
      · unfold parseAnswer at h
        split at h
        · cases h
        · unfold itemsFailed at h
          dsimp only at h
          split at h <;> cases h

theorem mem_itemsAgain {partialSuccess' : Bool} {retryableIndexes : List ℕ} {p : ℕ}
    (h : Again pending answer last partialSuccess retryableIndexes partialSuccess') :
    p ∈ retryableIndexes.filterMap (pending[·]?) ↔ ∃ i : ℕ, pending[i]? = some p ∧
      ∃ item : Item, (answeredItems pending answer)[i]? = some item ∧ item.succeeded = false := by
  rw [List.mem_filterMap]
  constructor
  · rintro ⟨i,hi,hp⟩
    rw [h.indexes] at hi
    exact ⟨i,hp,mem_errorIndexes.mp hi⟩
  · rintro ⟨i,hp,hitem⟩
    refine ⟨i,?_,hp⟩
    rw [h.indexes]
    exact mem_errorIndexes.mpr hitem

theorem nodup_itemsAgain {partialSuccess' : Bool} {retryableIndexes : List ℕ}
    (h : Again pending answer last partialSuccess retryableIndexes partialSuccess')
    (hnodup : pending.Nodup) : (retryableIndexes.filterMap (pending[·]?)).Nodup := by
  have hindexes : retryableIndexes.Nodup := by
    rw [h.indexes]
    exact errorIndexes_nodup _
  refine List.Nodup.filterMap (fun i j p hi hj => ?_) hindexes
  obtain ⟨hlt,hi⟩ := List.getElem?_eq_some_iff.mp hi
  obtain ⟨hlt',hj⟩ := List.getElem?_eq_some_iff.mp hj
  exact (hnodup.getElem_inj_iff).mp (hi.trans hj.symm)

theorem sendChunk_pending {e : Event} (hlength : pending.length = pendingIndexes.length)
    (he : e ∈ (sendChunk replaySafe replies committedChunks left n pending pendingIndexes
      partialSuccess).2) : e.pending ⊆ pending := by
  induction left generalizing n pending pendingIndexes partialSuccess with
  | zero => cases he
  | succ left ih =>
    rw [sendChunk] at he
    dsimp only at he
    split at he
    · rw [List.mem_singleton.mp he]
      exact List.Subset.refl _
    · rw [List.mem_singleton.mp he]
      exact List.Subset.refl _
    · rcases List.mem_cons.mp he with rfl | he
      · exact List.Subset.refl _
      · exact ih hlength he
    · next hattempt =>
        rcases List.mem_cons.mp he with rfl | he
        · exact List.Subset.refl _
        · intro p hp
          have hin := ih (filterMap_getElem?_length hlength _) he hp
          obtain ⟨i,hi,-⟩ := (mem_itemsAgain (attempt_itemsAgain hattempt hlength)).mp hin
          exact List.mem_of_getElem? hi

/-- What was answered with a success is in no later request of its chunk. -/
theorem sendChunk_apart (hlength : pending.length = pendingIndexes.length)
    (hnodup : pending.Nodup) :
    (sendChunk replaySafe replies committedChunks left n pending pendingIndexes partialSuccess).2.Pairwise
      fun e e' => ∀ p ∈ e.succeeded, p ∉ e'.pending := by
  induction left generalizing n pending pendingIndexes partialSuccess with
  | zero => exact List.Pairwise.nil
  | succ left ih =>
    rw [sendChunk]
    dsimp only
    split
    · exact List.pairwise_singleton _ _
    · exact List.pairwise_singleton _ _
    · next hattempt =>
        refine List.pairwise_cons.mpr ⟨fun e' _ p hp => ?_,ih hlength hnodup⟩
        obtain ⟨i,-,item,hitem,-⟩ := mem_succeeded.mp hp
        rw [(requestAgain_unanswered hattempt).1] at hitem
        cases hitem
    · next retryableIndexes partialSuccess' hattempt =>
        have hagain := attempt_itemsAgain hattempt hlength
        have hlength' := filterMap_getElem?_length hlength retryableIndexes
        refine List.pairwise_cons.mpr ⟨fun e' he' p hp hin => ?_,
          ih hlength' (nodup_itemsAgain hagain hnodup)⟩
        obtain ⟨i,hi,item,hitem,hsuccess⟩ := mem_succeeded.mp hp
        obtain ⟨j,hj,item',hitem',hfail⟩ :=
          (mem_itemsAgain hagain).mp (sendChunk_pending hlength' he' hin)
        obtain ⟨hlt,hi⟩ := List.getElem?_eq_some_iff.mp hi
        obtain ⟨hlt',hj⟩ := List.getElem?_eq_some_iff.mp hj
        have hij : i = j := (hnodup.getElem_inj_iff).mp (hi.trans hj.symm)
        rw [hij,hitem'] at hitem
        cases hitem
        rw [hfail] at hsuccess
        cases hsuccess

theorem sendChunk_returned (hlength : pending.length = pendingIndexes.length)
    (h : (sendChunk replaySafe replies committedChunks left n pending pendingIndexes partialSuccess).1 = none) :
    ∀ p ∈ pending, ∃ e ∈ (sendChunk replaySafe replies committedChunks left n pending pendingIndexes
      partialSuccess).2,p ∈ e.succeeded := by
  induction left generalizing n pending pendingIndexes partialSuccess with
  | zero => cases h
  | succ left ih =>
    intro p hp
    obtain ⟨i,hi⟩ := List.getElem?_of_mem hp
    have hitem : (answeredItems pending (replies n).answer).length = pending.length →
        ∃ item, (answeredItems pending (replies n).answer)[i]? = some item := by
      intro hitems
      have hlt : i < (answeredItems pending (replies n).answer).length := by
        rw [hitems]
        exact (List.getElem?_eq_some_iff.mp hi).1
      exact ⟨_,List.getElem?_eq_getElem hlt⟩
    rw [sendChunk] at h ⊢
    dsimp only at h ⊢
    split at h
    · next hattempt =>
        obtain ⟨hitems,hall⟩ := attempt_returned hattempt hlength
        obtain ⟨item,hitem⟩ := hitem hitems
        refine ⟨_,List.mem_singleton_self _,mem_succeeded.mpr ⟨i,hi,item,hitem,?_⟩⟩
        exact List.all_eq_true.mp hall item (List.mem_of_getElem? hitem)
    · cases h
    · next hattempt =>
        obtain ⟨e,he,hpe⟩ := ih hlength h p hp
        exact ⟨e,List.mem_cons_of_mem _ he,hpe⟩
    · next hattempt =>
        have hagain := attempt_itemsAgain hattempt hlength
        obtain ⟨item,hitem⟩ := hitem hagain.length
        cases hsuccess : item.succeeded with
        | true =>
          exact ⟨_,List.mem_cons_self,mem_succeeded.mpr ⟨i,hi,item,hitem,hsuccess⟩⟩
        | false =>
          have hlater := (mem_itemsAgain hagain).mpr ⟨i,hi,item,hitem,hsuccess⟩
          obtain ⟨e,he,hpe⟩ := ih (filterMap_getElem?_length hlength _) h p hlater
          exact ⟨e,List.mem_cons_of_mem _ he,hpe⟩

end Chunk

section Send
variable {D A : Type} {settings : Settings D A} {replies : ℕ → Reply}

theorem iterEncodedChunks_places (current : List (ℕ × A)) (documents : List (D × ℕ)) :
    ((iterEncodedChunks settings current documents).1.flatten.map Prod.fst) <+:
        current.map Prod.fst++documents.map Prod.snd ∧
      ((iterEncodedChunks settings current documents).2 = true →
        (iterEncodedChunks settings current documents).1.flatten.map Prod.fst =
          current.map Prod.fst++documents.map Prod.snd) := by
  induction documents generalizing current with
  | nil =>
    have hall : (iterEncodedChunks settings current []).1.flatten.map Prod.fst =
        current.map Prod.fst++([] : List (D × ℕ)).map Prod.snd := by
      cases current with
      | nil => rfl
      | cons a current =>
        simp only [iterEncodedChunks,List.isEmpty_cons,Bool.false_eq_true,if_false,List.flatten_cons,
          List.flatten_nil,List.append_nil,List.map_nil]
    exact ⟨hall ▸ List.prefix_rfl,fun _ => hall⟩
  | cons document documents ih =>
    obtain ⟨document,place⟩ := document
    rw [iterEncodedChunks]
    split
    · exact ⟨List.nil_prefix,fun h => (by cases h)⟩
    · next action _ =>
        split
        · exact ⟨List.nil_prefix,fun h => (by cases h)⟩
        · split
          · obtain ⟨hfront,hall⟩ := ih [(place,action)]
            simp only [List.flatten_cons,List.map_append]
            exact ⟨(List.prefix_append_right_inj _).mpr hfront,fun h => by rw [hall h]; rfl⟩
          · obtain ⟨hfront,hall⟩ := ih (current++[(place,action)])
            rw [List.map_append,List.append_assoc] at hfront hall
            exact ⟨hfront,hall⟩

variable {replaySafe encoded : Bool} {committedChunks n : ℕ} {chunks : List (List (ℕ × A))}

theorem chunk_length (chunk : List (ℕ × A)) :
    (chunk.map Prod.fst).length = (List.range chunk.length).length := by
  rw [List.length_map,List.length_range]

theorem sendChunks_returned
    (h : (sendChunks settings replaySafe replies encoded committedChunks n chunks).1 = .returned) :
    encoded = true ∧ ∀ p ∈ chunks.flatten.map Prod.fst,
      ∃ e ∈ (sendChunks settings replaySafe replies encoded committedChunks n chunks).2, p ∈ e.succeeded := by
  induction chunks generalizing committedChunks n with
  | nil =>
    cases encoded with
    | true => exact ⟨rfl,fun p hp => (by cases hp)⟩
    | false => cases h
  | cons chunk chunks ih =>
    rw [sendChunks] at h ⊢
    dsimp only at h ⊢
    split at h
    · cases h
    · next hchunk =>
        obtain ⟨hencoded,hrest⟩ := ih h
        refine ⟨hencoded,fun p hp => ?_⟩
        rw [List.flatten_cons,List.map_append] at hp
        rcases List.mem_append.mp hp with hp | hp
        · obtain ⟨e,he,hpe⟩ := sendChunk_returned (chunk_length chunk) hchunk p hp
          exact ⟨e,List.mem_append_left _ he,hpe⟩
        · obtain ⟨e,he,hpe⟩ := hrest p hp
          exact ⟨e,List.mem_append_right _ he,hpe⟩

theorem sendChunks_pending {e : Event}
    (he : e ∈ (sendChunks settings replaySafe replies encoded committedChunks n chunks).2) :
    e.pending ⊆ chunks.flatten.map Prod.fst := by
  induction chunks generalizing committedChunks n with
  | nil =>
    cases encoded with
    | true => cases he
    | false =>
      rw [List.mem_singleton.mp he]
      exact List.nil_subset _
  | cons chunk chunks ih =>
    rw [List.flatten_cons,List.map_append]
    rw [sendChunks] at he
    dsimp only at he
    split at he
    · exact List.Subset.trans (sendChunk_pending (chunk_length chunk) he) (List.subset_append_left _ _)
    · rcases List.mem_append.mp he with he | he
      · exact List.Subset.trans (sendChunk_pending (chunk_length chunk) he)
          (List.subset_append_left _ _)
      · exact List.Subset.trans (ih he) (List.subset_append_right _ _)

theorem succeeded_pending {e : Event} : e.succeeded ⊆ e.pending := by
  cases e with
  | unencodable committedChunks => exact List.nil_subset _
  | request pending committedChunks partialSuccess reply =>
    intro p hp
    obtain ⟨i,hi,-⟩ := mem_succeeded.mp hp
    exact List.mem_of_getElem? hi

theorem sendChunks_apart (hnodup : (chunks.flatten.map Prod.fst).Nodup) :
    (sendChunks settings replaySafe replies encoded committedChunks n chunks).2.Pairwise
      fun e e' => ∀ p ∈ e.succeeded, p ∉ e'.pending := by
  induction chunks generalizing committedChunks n with
  | nil =>
    cases encoded with
    | true => exact List.Pairwise.nil
    | false => exact List.pairwise_singleton _ _
  | cons chunk chunks ih =>
    rw [List.flatten_cons,List.map_append] at hnodup
    obtain ⟨hchunk,hchunks,hcross⟩ := List.nodup_append.mp hnodup
    rw [sendChunks]
    dsimp only
    split
    · exact sendChunk_apart (chunk_length chunk) hchunk
    · refine List.pairwise_append.mpr ⟨sendChunk_apart (chunk_length chunk) hchunk,ih hchunks,?_⟩
      intro e he e' he' p hp hin
      exact hcross p (sendChunk_pending (chunk_length chunk) he (succeeded_pending hp)) p
        (sendChunks_pending he' hin) rfl

theorem sendChunks_uncertain {kind : Option ConnectorErrorKind}
    (h : (sendChunks settings false replies encoded committedChunks n chunks).1 = .raised kind)
    (hfair : ∀ e ∈ (sendChunks settings false replies encoded committedChunks n chunks).2, e.Fair)
    (hleft : 0 < committedChunks → 0 < (settings.maxRetries+1).toNat)
    (happlied : 0 < committedChunks ∨
      ∃ e ∈ (sendChunks settings false replies encoded committedChunks n chunks).2, e.applies = true) :
    kind = some .uncertain := by
  induction chunks generalizing committedChunks n with
  | nil =>
    cases encoded with
    | true => cases h
    | false =>
      have hzero : committedChunks = 0 := hfair _ (List.mem_singleton_self _)
      rcases happlied with hpos | ⟨e,he,happlies⟩
      · omega
      · rw [List.mem_singleton.mp he] at happlies
        cases happlies
  | cons chunk chunks ih =>
    rw [sendChunks] at h hfair happlied
    dsimp only at h hfair happlied
    split at h
    · next failure hchunk =>
        cases h
        rw [hchunk] at hfair happlied
        have hpos : 0 < (settings.maxRetries+1).toNat := by
          rcases happlied with hpos | ⟨e,he,-⟩
          · exact hleft hpos
          · by_contra hzero
            rw [Nat.eq_zero_of_not_pos hzero] at he
            cases he
        exact sendChunk_uncertain (chunk_length chunk) hchunk hfair
          (happlied.imp .inl id) hpos
    · next hchunk =>
        rw [hchunk] at hfair
        have hpos : 0 < (settings.maxRetries+1).toNat := by
          by_contra hzero
          rw [Nat.eq_zero_of_not_pos hzero] at hchunk
          cases hchunk
        exact ih h (fun e he => hfair e (List.mem_append_right _ he)) (fun _ => hpos)
          (.inl (Nat.succ_pos committedChunks))

/-- A send that returns was answered with a success for every action; no such action is in a
later request of the send; and where its operation is not replay safe, a send that raises
after something was applied raises that its outcome is open, as long as no step hides it. -/
theorem bulk_send (settings : Settings D A) (replies : ℕ → Reply) (body : Body D) :
    ((send settings replies body).1 = .returned → ∀ documents, body.documents = some documents →
      ∀ p < documents.length, ∃ e ∈ (send settings replies body).2, p ∈ e.succeeded) ∧
    (send settings replies body).2.Pairwise (fun e e' => ∀ p ∈ e.succeeded, p ∉ e'.pending) ∧
    ((∀ e ∈ (send settings replies body).2, e.Fair) → ∀ documents, body.documents = some documents →
      BulkWrites.replaySafe settings documents = false → ∀ kind, (send settings replies body).1 = .raised kind →
        (∃ e ∈ (send settings replies body).2, e.applies = true) → kind = some .uncertain) := by
  cases hbody : body.documents with
  | none =>
    simp only [send,hbody]
    exact ⟨fun h => (by cases h),List.Pairwise.nil,fun _ documents h => (by cases h)⟩
  | some documents =>
    obtain ⟨hfront,hall⟩ := @iterEncodedChunks_places D A settings [] documents.zipIdx
    have hplaces : documents.zipIdx.map Prod.snd = List.range documents.length := by
      rw [List.zipIdx_map_snd,List.range_eq_range']
    rw [List.map_nil,List.nil_append,hplaces] at hfront hall
    simp only [send,hbody]
    refine ⟨fun h documents' hdocuments p hp => ?_,?_,fun hfair documents' hdocuments hreplay kind h happlied => ?_⟩
    · cases hdocuments
      obtain ⟨hencoded,hreturned⟩ := sendChunks_returned h
      exact hreturned p (by rw [hall hencoded]; exact List.mem_range.mpr hp)
    · exact sendChunks_apart (hfront.sublist.nodup List.nodup_range)
    · cases hdocuments
      rw [hreplay] at h hfair happlied
      exact sendChunks_uncertain h hfair (fun hpos => absurd hpos (lt_irrefl 0)) (.inr happlied)

/-- Creates of documents by number; an odd one cannot be encoded. -/
def creates (chunkSize : ℕ) (positive : 0 < chunkSize) : Settings ℕ ℕ where
  operation := .create
  idField := none
  chunkSize := chunkSize
  maxChunkBytes := 10
  maxRetries := 2
  holds := fun _ _ => false
  encodeAction := fun n => if n % 2 = 1 then none else some n
  size := fun _ => 1
  positive := ⟨positive,by decide⟩

/-- The first request succeeds for its first action and defers the second, the next one has
the given answer. -/
def halfDone (next : Answer) : ℕ → Reply
  | 0 => ⟨.responds 200 ⟨some [.answered 201 none,.answered 429 none],true⟩,false⟩
  | _ => ⟨next,true⟩

/-- What was deferred is sent again and the connection breaks while the answer is read. -/
theorem bulk_send_readError : ∃ r, r = send (creates 5 (by decide)) (halfDone (.raises .readError))
      (.sequence [some 0,some 2]) ∧
    r.2.map Event.pending = [[0,1],[1]] ∧ r.1 = .raised (some .uncertain) := by
  refine ⟨_,rfl,rfl,?_⟩
  have h := (bulk_send (creates 5 (by decide)) (halfDone (.raises .readError))
    (.sequence [some 0,some 2])).2.2 ?_ [0,2] rfl rfl (some .uncertain) rfl ⟨_,List.mem_cons_self,rfl⟩
  · exact congrArg Outcome.raised h
  · intro e he
    rcases List.mem_cons.mp he with rfl | he
    · exact .inl rfl
    · rw [List.mem_singleton.mp he]
      exact .inl rfl

/-- The first action is applied and the connection is refused when the second is sent again:
the error forgets the first; and a document that cannot be encoded makes a permanent error
although a chunk before it was applied. -/
theorem refused_retry_forgets :
    (∃ r, r = send (creates 5 (by decide)) (halfDone (.raises .connectError))
        (.sequence [some 0,some 2]) ∧
      BulkWrites.replaySafe (creates 5 (by decide)) [0,2] = false ∧ r.1 = .raised (some .disconnected) ∧
      ∃ e ∈ r.2, e.succeeded = [0]) ∧
    ∃ r, r = send (creates 1 (by decide)) (fun _ => ⟨.responds 200 ⟨some [.answered 201 none],false⟩,false⟩)
        (.sequence [some 0,some 2,some 1]) ∧
      BulkWrites.replaySafe (creates 1 (by decide)) [0,2,1] = false ∧ r.1 = .raised (some .permanent) ∧
      ∃ e ∈ r.2, e.succeeded = [0] :=
  ⟨⟨_,rfl,rfl,rfl,_,List.mem_cons_self,rfl⟩,⟨_,rfl,rfl,rfl,_,List.mem_cons_self,rfl⟩⟩

end Send

end OneStep.BulkWrites
