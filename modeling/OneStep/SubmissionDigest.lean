import OneStep.CanonicalValues
import OneStep.CodecRoundTrip
import OneStep.ExecutionBackend

/-!
# The digest of a submission

`_encode_submission` of the PostgreSQL execution backend, on requests that keep
what their constructor validates. SHA-256 and the text of a float are parameters.
Two digests agree exactly when the requests are identical: the same values with
the order of dictionaries kept that have the tag as a key, one float for the
delay, and one text for the expiry.
-/
namespace OneStep.SubmissionDigest
open CanonicalJson CanonicalValues CaptureCodec CodecRoundTrip DateTimeText EncodedValues
open ExecutionBackend ExecutionModel ItemLists JsonText JsonValues PythonValues ValueEquality

section Model

/-- What the backend is given, the modules that are loaded, and the database: what a
JSON column gives back, and the rows that are accepted. -/
structure Environment where
  floatText : Double → List Char
  loaded : Loaded
  sha256 : List Char → String
  excText : Exc → String
  maxPayloadBytes : ℕ
  maxMetadataBytes : ℕ
  maxResultBytes : ℕ
  reclaimBatchSize : ℕ
  equal : Json → Json → Bool
  stored : Json → Json
  accepts : ExecutionRow Json → Bool
  equal_null : equal .null .null = true
  stored_null : stored .null = .null

/-- The number of seconds a float stands for. -/
def seconds (x : Double) : ℚ :=
  match doubleNum x with
  | .rat q => q
  | _ => 0

/-- An `ExecutionRequest`: the delay is a finite float that is not below zero, and
the expiry has an offset. -/
structure Submission (loaded : Loaded) where
  namespaceName : String
  taskName : String
  payload : Value
  idempotencyKey : Option String := none
  metadata : List (Key × Value) := []
  delayS : Option Double := none
  expiresAt : Option DateTime := none
  existing : Valid loaded payload ∧ Valid loaded (.dict metadata)
  delayed : ∀ x ∈ delayS, x.isFinite = true ∧ 0 ≤ seconds x
  aware : ∀ d ∈ expiresAt, d.offset.isSome = true

variable (env : Environment)

/-- `str` of a `CaptureEncodingError`. -/
def encodingText (e : EncodingError) : String :=
  "cannot encode "++e.typeName++" at "++e.path++": "++e.reason

/-- `_encode_value`. -/
def encodeValue (v : Value) (field : String) : Except BackendError Json :=
  match encode env.floatText env.loaded "" v with
  | .ok j => .ok j
  | .error e =>
    .error (.executionEncodingError ("cannot encode execution "++field++": "++encodingText e))

/-- `_encoded_size`. -/
def encodedSize (j : Json) : ℕ := (dumps env.floatText j).length

def digestPayload (request : Submission env.loaded) (payload metadata : Json) : Json :=
  .obj [("namespace",.str request.namespaceName),("task_name",.str request.taskName),
    ("payload",payload),("metadata",metadata),("delay_s",request.delayS.elim .null .float),
    ("expires_at",request.expiresAt.elim .null fun d => .str (String.ofList (isoformat d)))]

def digest (request : Submission env.loaded) (payload metadata : Json) : String :=
  env.sha256 (dumps env.floatText (digestPayload env request payload metadata))

/-- `_encode_submission`. -/
def encodeSubmission (request : Submission env.loaded) :
    Except BackendError (EncodedSubmission Json) := do
  if (request.metadata.map Prod.fst).contains (.str "onestep.execution") then
    throw (.valueError "metadata key 'onestep.execution' is reserved")
  let payload ← encodeValue env request.payload "payload"
  let metadata ← encodeValue env (.dict request.metadata) "metadata"
  if env.maxPayloadBytes < encodedSize env payload then
    throw (.executionEncodingError "execution payload exceeds the configured limit")
  if env.maxMetadataBytes < encodedSize env metadata then
    throw (.executionEncodingError "execution metadata exceeds the configured limit")
  return ⟨payload,metadata,digest env request payload metadata⟩

/-- The backend, with the codec of captured values. -/
def backend : Backend Value Json where
  pyNone := .none
  null := .null
  encodeValue v := (encode env.floatText env.loaded "" v).mapError encodingText
  decodeValue j := (decode env.loaded "" j).mapError env.excText
  encodedSize := encodedSize env
  maxResultBytes := env.maxResultBytes
  reclaimBatchSize := env.reclaimBatchSize
  equal := env.equal
  stored := env.stored
  accepts := env.accepts
  equal_null := env.equal_null
  stored_null := env.stored_null

/-- The request as the backend's transactions read it. -/
def toRequest (request : Submission env.loaded) : ExecutionRequest Value where
  namespaceName := request.namespaceName
  taskName := request.taskName
  payload := request.payload
  idempotencyKey := request.idempotencyKey
  metadata := .dict request.metadata
  delayS := request.delayS.map seconds
  expiresAt := request.expiresAt.bind instant

end Model

section Requests
variable {loaded : Loaded}

/-- Requests that are equal as values: dictionaries have no order, the delays are
one number and the expiries one instant. -/
structure Equal (a b : Submission loaded) : Prop where
  payload : Same unordered a.payload b.payload
  metadata : Same unordered (.dict a.metadata) (.dict b.metadata)
  delayS : a.delayS.map doubleNum = b.delayS.map doubleNum
  expiresAt : a.expiresAt.map instant = b.expiresAt.map instant

/-- Equal requests that are also spelled alike where the digest shows it: the order
of a dictionary with the tag as a key, the delay as a float, the offset of the
expiry. -/
structure Identical (a b : Submission loaded) : Prop where
  payload : Same Escaped a.payload b.payload
  metadata : Same Escaped (.dict a.metadata) (.dict b.metadata)
  delayS : a.delayS = b.delayS
  expiresAt : a.expiresAt.map isoformat = b.expiresAt.map isoformat

theorem unordered_all {vs ws : List Value} (ih : ∀ v ∈ vs, ∀ w, Same Escaped v w → Same unordered v w)
    (h : List.Forall₂ (Same Escaped) vs ws) : List.Forall₂ (Same unordered) vs ws := by
  induction h with
  | nil => exact .nil
  | cons hv _ hrest =>
    rw [List.forall_mem_cons] at ih
    exact .cons (ih.1 _ hv) (hrest ih.2)

theorem unordered_bag {vs ws : List Value} (ih : ∀ v ∈ vs, ∀ w, Same Escaped v w → Same unordered v w)
    (h : SameBag Escaped vs ws) : SameBag unordered vs ws := by
  obtain ⟨us,hperm,hall⟩ := sameBag_iff.mp h
  exact sameBag_iff.mpr ⟨us,hperm,unordered_all ih hall⟩

theorem unordered_items {items others : List (Key × Value)}
    (ih : ∀ item ∈ items, ∀ w, Same Escaped item.2 w → Same unordered item.2 w)
    (h : List.Forall₂ (SameItem Escaped) items others) :
    List.Forall₂ (SameItem unordered) items others := by
  induction h with
  | nil => exact .nil
  | cons hitem _ hrest =>
    rw [List.forall_mem_cons] at ih
    exact .cons ⟨hitem.1,ih.1 _ hitem.2⟩ (hrest ih.2)

theorem unordered_cases : Cases fun v => ∀ w, Same Escaped v w → Same unordered v w where
  leaf v hleaf w h := by
    rw [same_leaf hleaf] at h ⊢
    exact h
  list vs ih w h := by
    rw [Same] at h ⊢
    obtain ⟨ws,rfl,hall⟩ := h
    exact ⟨ws,rfl,sameAll_iff.mpr (unordered_all ih (sameAll_iff.mp hall))⟩
  tuple vs ih w h := by
    rw [Same] at h ⊢
    obtain ⟨ws,rfl,hall⟩ := h
    exact ⟨ws,rfl,sameAll_iff.mpr (unordered_all ih (sameAll_iff.mp hall))⟩
  set vs ih w h := by
    rw [Same] at h ⊢
    obtain ⟨ws,rfl,hbag⟩ := h
    exact ⟨ws,rfl,unordered_bag ih hbag⟩
  frozenset vs ih w h := by
    rw [Same] at h ⊢
    obtain ⟨ws,rfl,hbag⟩ := h
    exact ⟨ws,rfl,unordered_bag ih hbag⟩
  dict items ih w h := by
    rw [Same] at h ⊢
    obtain ⟨others,rfl,hitems,-⟩ := h
    obtain ⟨us,hperm,hall⟩ := sameItems_iff.mp hitems
    exact ⟨others,rfl,sameItems_iff.mpr ⟨us,hperm,unordered_items ih hall⟩,False.elim⟩
  enum cls name v ih w h := by
    rw [Same] at h ⊢
    obtain ⟨u,rfl,hu⟩ := h
    exact ⟨u,rfl,ih u hu⟩
  namedtuple cls vs ih w h := by
    rw [Same] at h ⊢
    obtain ⟨ws,rfl,hall⟩ := h
    exact ⟨ws,rfl,sameAll_iff.mpr (unordered_all ih (sameAll_iff.mp hall))⟩

theorem instant_of_isoformat {d e : DateTime} (h : isoformat d = isoformat e) :
    instant d = instant e := by
  have hfolded : ({d with fold := e.fold} : DateTime) = e := isoformat_inj h rfl
  rw [← hfolded]
  rfl

theorem instants_of_texts {d e : Option DateTime} (h : d.map isoformat = e.map isoformat) :
    d.map instant = e.map instant := by
  cases d with
  | none =>
    cases e with
    | none => rfl
    | some e => cases h
  | some d =>
    cases e with
    | none => cases h
    | some e => exact congrArg some (instant_of_isoformat (Option.some.inj h))

theorem Identical.equal {a b : Submission loaded} (h : Identical a b) : Equal a b where
  payload := unordered_cases.all _ _ h.payload
  metadata := unordered_cases.all _ _ h.metadata
  delayS := by rw [h.delayS]
  expiresAt := instants_of_texts h.expiresAt

end Requests

section Digest
variable {env : Environment}

/-- What an accepted submission was encoded to. -/
structure EncodedAs (env : Environment) (request : Submission env.loaded)
    (encoded : EncodedSubmission Json) : Prop where
  payload : encode env.floatText env.loaded "" request.payload = .ok encoded.payload
  metadata : encode env.floatText env.loaded "" (.dict request.metadata) = .ok encoded.metadata
  digest : encoded.digest = digest env request encoded.payload encoded.metadata

theorem encodeValue_ok {v : Value} {field : String} {j : Json}
    (h : encodeValue env v field = .ok j) : encode env.floatText env.loaded "" v = .ok j := by
  unfold encodeValue at h
  split at h
  · next heq =>
      cases h
      exact heq
  · cases h

theorem encodeSubmission_ok {request : Submission env.loaded} {encoded : EncodedSubmission Json}
    (h : encodeSubmission env request = .ok encoded) : EncodedAs env request encoded := by
  unfold encodeSubmission at h
  simp only [bind,Except.bind,pure,Except.pure,throw,throwThe,MonadExceptOf.throw] at h
  split at h
  · cases h
  · split at h
    · cases h
    · next payload hpayload =>
        split at h
        · cases h
        · next metadata hmetadata =>
            split at h
            · cases h
            · split at h
              · cases h
              · cases h
                exact ⟨encodeValue_ok hpayload,encodeValue_ok hmetadata,rfl⟩

theorem canon_optional {α : Type} {o : Option α} {f : α → Json} (hf : ∀ a, canon (f a) = f a) :
    canon (o.elim .null f) = o.elim .null f := by
  cases o with
  | none => simp [canon]
  | some a => exact hf a

def digestFields (request : Submission env.loaded) (payload metadata : Json) :
    List (String × Json) :=
  [("namespace",.str request.namespaceName),("task_name",.str request.taskName),
    ("payload",canon payload),("metadata",canon metadata),
    ("delay_s",request.delayS.elim .null .float),
    ("expires_at",request.expiresAt.elim .null fun d => .str (String.ofList (isoformat d)))]

variable (request : Submission env.loaded)

theorem digestFields_nodup (payload metadata : Json) :
    ((digestFields request payload metadata).map Prod.fst).Nodup := by
  simp [digestFields]

theorem canon_digestPayload (payload metadata : Json) :
    canon (digestPayload env request payload metadata) =
      .obj (sortFields (digestFields request payload metadata)) := by
  have hdelay := canon_optional (o := request.delayS) (f := Json.float) (by simp [canon])
  have hexpires : canon (request.expiresAt.elim .null fun d => .str (String.ofList (isoformat d))) =
      request.expiresAt.elim .null fun d => .str (String.ofList (isoformat d)) := by
    apply canon_optional
    simp [canon]
  rw [digestPayload,canon]
  simp [canonFields,canon,digestFields,hdelay,hexpires]

theorem portable_digestPayload {payload metadata : Json} (hpayload : Portable payload)
    (hmetadata : Portable metadata) : Portable (digestPayload env request payload metadata) := by
  have hdelay : Portable (request.delayS.elim .null .float) := by
    cases hd : request.delayS with
    | none => simp [Portable]
    | some x =>
      simp only [Option.elim_some,Portable]
      exact (request.delayed x hd).1
  have hexpires : Portable (request.expiresAt.elim .null fun d => .str (String.ofList (isoformat d))) := by
    cases request.expiresAt with
    | none => simp [Portable]
    | some d => simp [Portable]
  simp [digestPayload,Portable,PortableFields,hpayload,hmetadata,hdelay,hexpires]

theorem sorted_lookup {fields others : List (String × Json)} (hnodup : (fields.map Prod.fst).Nodup)
    (h : Json.obj (sortFields fields) = .obj (sortFields others)) (key : String) :
    fields.lookup key = others.lookup key := by
  apply lookup_perm _ hnodup
  have hsorted := Json.obj.inj h
  exact (sortFields_perm fields).symm.trans (hsorted ▸ sortFields_perm others)

theorem optional_inj {α : Type} {o o' : Option α} {f : α → Json} (hf : ∀ a, f a ≠ .null)
    (h : o.elim .null f = o'.elim .null f) : o.map f = o'.map f := by
  cases o with
  | none =>
    cases o' with
    | none => rfl
    | some b => exact absurd h.symm (hf b)
  | some a =>
    cases o' with
    | none => exact absurd h (hf a)
    | some b => exact congrArg some h

variable {a b : Submission env.loaded} {x y : EncodedSubmission Json}

theorem identical_of_digest (htexts : FloatTexts env.floatText) (hx : EncodedAs env a x)
    (hy : EncodedAs env b y) (h : dumps env.floatText (digestPayload env a x.payload x.metadata) =
      dumps env.floatText (digestPayload env b y.payload y.metadata)) : Identical a b := by
  have hpayload := portable_cases.all _ a.existing.1 _ ⟨"",hx.payload⟩
  have hmetadata := portable_cases.all _ a.existing.2 _ ⟨"",hx.metadata⟩
  have hpayload' := portable_cases.all _ b.existing.1 _ ⟨"",hy.payload⟩
  have hmetadata' := portable_cases.all _ b.existing.2 _ ⟨"",hy.metadata⟩
  rw [dumps_eq_iff htexts (portable_digestPayload a hpayload hmetadata)
    (portable_digestPayload b hpayload' hmetadata'),canon_digestPayload,canon_digestPayload] at h
  have hlookup := sorted_lookup (digestFields_nodup a x.payload x.metadata) h
  have hcanonPayload : canon x.payload = canon y.payload := by
    simpa [digestFields,List.lookup_cons] using hlookup "payload"
  have hcanonMetadata : canon x.metadata = canon y.metadata := by
    simpa [digestFields,List.lookup_cons] using hlookup "metadata"
  have hdelay : a.delayS.elim .null Json.float = b.delayS.elim .null Json.float := by
    simpa [digestFields,List.lookup_cons] using hlookup "delay_s"
  have hexpires : (a.expiresAt.elim .null fun d => Json.str (String.ofList (isoformat d))) =
      b.expiresAt.elim .null fun d => .str (String.ofList (isoformat d)) := by
    simpa [digestFields,List.lookup_cons] using hlookup "expires_at"
  constructor
  · exact told_cases.all _ a.existing.1 _ _ b.existing.1 ⟨_,⟨"",hx.payload⟩,rfl⟩
      ⟨_,⟨"",hy.payload⟩,hcanonPayload.symm⟩
  · exact told_cases.all _ a.existing.2 _ _ b.existing.2 ⟨_,⟨"",hx.metadata⟩,rfl⟩
      ⟨_,⟨"",hy.metadata⟩,hcanonMetadata.symm⟩
  · have hmap := optional_inj (by simp) hdelay
    exact Option.map_injective (fun x y heq => Json.float.inj heq) hmap
  · have hmap := optional_inj (by simp) hexpires
    have htexts : (a.expiresAt.map isoformat).map (fun cs => Json.str (String.ofList cs)) =
        (b.expiresAt.map isoformat).map (fun cs => Json.str (String.ofList cs)) := by
      rw [Option.map_map,Option.map_map]
      exact hmap
    exact Option.map_injective (fun cs ds heq => String.ofList_inj.mp (Json.str.inj heq)) htexts

theorem digest_of_identical (htexts : FloatTexts env.floatText) (hx : EncodedAs env a x)
    (hy : EncodedAs env b y) (hnamespace : a.namespaceName = b.namespaceName)
    (htask : a.taskName = b.taskName) (h : Identical a b) :
    dumps env.floatText (digestPayload env a x.payload x.metadata) =
      dumps env.floatText (digestPayload env b y.payload y.metadata) := by
  have hpayload : canon x.payload = canon y.payload :=
    (determined_cases htexts).all _ a.existing.1 _ _ _ b.existing.1 h.payload
      ⟨_,⟨"",hx.payload⟩,rfl⟩ ⟨_,⟨"",hy.payload⟩,rfl⟩
  have hmetadata : canon x.metadata = canon y.metadata :=
    (determined_cases htexts).all _ a.existing.2 _ _ _ b.existing.2 h.metadata
      ⟨_,⟨"",hx.metadata⟩,rfl⟩ ⟨_,⟨"",hy.metadata⟩,rfl⟩
  have hexpires : (a.expiresAt.elim .null fun d => Json.str (String.ofList (isoformat d))) =
      b.expiresAt.elim .null fun d => .str (String.ofList (isoformat d)) := by
    have htext := h.expiresAt
    cases ha : a.expiresAt <;> cases hb : b.expiresAt <;> simp_all
  rw [dumps_cases.all,dumps_cases.all,canon_digestPayload,canon_digestPayload,digestFields,
    digestFields,hnamespace,htask,hpayload,hmetadata,h.delayS,hexpires]

/-- Digests of requests with one namespace and task agree exactly when the requests
are identical. -/
theorem digest_iff (htexts : FloatTexts env.floatText) (hsha : Function.Injective env.sha256)
    (hx : EncodedAs env a x) (hy : EncodedAs env b y) (hnamespace : a.namespaceName = b.namespaceName)
    (htask : a.taskName = b.taskName) : x.digest = y.digest ↔ Identical a b := by
  rw [hx.digest,hy.digest]
  exact ⟨fun h => identical_of_digest htexts hx hy (hsha h),
    fun h => congrArg env.sha256 (digest_of_identical htexts hx hy hnamespace htask h)⟩

end Digest

end OneStep.SubmissionDigest
