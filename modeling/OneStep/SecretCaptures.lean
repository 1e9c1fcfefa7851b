import OneStep.IdempotentSubmissions
import OneStep.VariedSecrets
import OneStep.WrittenCaptures

/-!
# Secrets and captures

The document of a capture is the same for all envelopes that differ in secret values
only, exactly when the redaction comes to no named tuple with a secret field and leaves
no set and no member of an enumeration with a secret in it. The redaction knows the keys
of dictionaries only, while the encoder writes the fields of named tuples and the values
of enumerations.
-/
namespace OneStep.SecretCaptures
open CanonicalJson CanonicalValues CaptureCodec CaptureRedaction EncodedValues FailureCaptures
open IdempotentSubmissions JsonText JsonValues PythonValues RedactedValues SecretValues
open ValueEquality VariedSecrets WritableValues WrittenCaptures

section Documents
variable {occasion : Occasion}

theorem document_congr {body body' metadata metadata' : Json} (attempts : ℤ) (paths : List String)
    (hbody : canon body = canon body') (hmeta : canon metadata = canon metadata') :
    canon (document occasion (envelopeJson body metadata attempts) paths) =
      canon (document occasion (envelopeJson body' metadata' attempts) paths) := by
  rw [canon_document,canon_document,documentFields,documentFields,canon_envelope,canon_envelope,
    envelopeFields,envelopeFields,hbody,hmeta]

theorem document_parts {body body' metadata metadata' : Json} {attempts attempts' : ℤ}
    {paths paths' : List String}
    (h : canon (document occasion (envelopeJson body metadata attempts) paths) =
      canon (document occasion (envelopeJson body' metadata' attempts') paths')) :
    canon body = canon body' ∧ canon metadata = canon metadata' ∧ paths = paths' := by
  rw [canon_document,canon_document] at h
  have hfields := Json.obj.inj h
  have hvalue : ∀ key, valueOf (documentFields occasion (envelopeJson body metadata attempts) paths)
      key = valueOf (documentFields occasion (envelopeJson body' metadata' attempts') paths') key := by
    intro key
    rw [← documentFields_value,← documentFields_value,hfields]
  have henvelope : canon (envelopeJson body metadata attempts) =
      canon (envelopeJson body' metadata' attempts') := hvalue "envelope"
  have hpaths : canon (.arr (paths.map .str)) = canon (.arr (paths'.map .str)) :=
    hvalue "redacted_paths"
  rw [canon_envelope,canon_envelope] at henvelope
  have hparts := Json.obj.inj henvelope
  have hpart : ∀ key, valueOf (envelopeFields body metadata attempts) key =
      valueOf (envelopeFields body' metadata' attempts') key := by
    intro key
    rw [← envelopeFields_value,← envelopeFields_value,hparts]
  refine ⟨hpart "body",hpart "meta",?_⟩
  rw [canon,canon,canonAll_texts,canonAll_texts] at hpaths
  have htexts := congrArg stringsOf (Json.arr.inj hpaths)
  rwa [stringsOf_texts,stringsOf_texts,Option.some.injEq] at htexts

end Documents

section Reports
variable {envelope envelope' e e' : Envelope} {pointers paths paths' : List String} {p : String}

theorem redactEnvelope_paths (h : redactEnvelope envelope pointers = some (e,paths)) :
    ∃ r, redactPointers pointers (redactSecretKeys (logicalOf envelope))
      (secretPaths "" (logicalOf envelope)) = some r ∧ paths = sortedPaths r.2 := by
  unfold redactEnvelope at h
  obtain ⟨r,hr,heq⟩ := Option.map_eq_some_iff.mp h
  cases heq
  exact ⟨r,hr,rfl⟩

theorem redactPointers_some {ps : List (List String)} (h : pointers.mapM decodePointer = some ps)
    (v : Value) (paths : List String) : ∃ r, redactPointers pointers v paths = some r := by
  induction pointers generalizing v paths ps with
  | nil => exact ⟨(v,paths),rfl⟩
  | cons pointer pointers ih =>
    obtain ⟨tokens,rest,htokens,hrest,-⟩ := mapM_cons h
    rw [redactPointers,htokens]
    exact ih hrest _ _

theorem redactPointers_grows {v : Value} {r : Value × List String}
    (h : redactPointers pointers v paths = some r) : paths ⊆ r.2 := by
  induction pointers generalizing v paths with
  | nil =>
    cases h
    exact List.Subset.refl _
  | cons pointer pointers ih =>
    rw [redactPointers] at h
    obtain ⟨tokens,-,h⟩ := Option.bind_eq_some_iff.mp h
    have hrest := ih h
    intro p hp
    apply hrest
    split
    · exact List.mem_append_left _ hp
    · exact hp

theorem reported (h : redactEnvelope envelope pointers = some (e,paths))
    (hp : p ∈ secretPaths "" (logicalOf envelope)) : p ∈ paths := by
  obtain ⟨r,hr,rfl⟩ := redactEnvelope_paths h
  have hmem := redactPointers_grows hr hp
  exact (List.perm_insertionSort _ _).symm.subset (List.mem_dedup.mpr hmem)

theorem body_paths (h : p ∈ secretPaths (pointer "" "body") envelope.body) :
    p ∈ secretPaths "" (logicalOf envelope) := by
  rw [logicalOf,secretPaths]
  exact mem_itemPaths (k := .str "body") List.mem_cons_self (by decide) h

theorem meta_paths (h : p ∈ secretPaths (pointer "" "meta") envelope.metadata) :
    p ∈ secretPaths "" (logicalOf envelope) := by
  rw [logicalOf,secretPaths]
  exact mem_itemPaths (k := .str "meta") (List.mem_cons_of_mem _ List.mem_cons_self) (by decide) h

theorem paths_congr (hbody : SameReport envelope.body envelope'.body)
    (hmeta : SameReport envelope.metadata envelope'.metadata)
    (h : redactEnvelope envelope pointers = some (e,paths))
    (h' : redactEnvelope envelope' pointers = some (e',paths')) : paths = paths' := by
  have hitems : List.Forall₂ SameItemReport
      [(.str "body",envelope.body),(.str "meta",envelope.metadata)]
      [(.str "body",envelope'.body),(.str "meta",envelope'.metadata)] :=
    .cons ⟨rfl,fun _ => hbody⟩ (.cons ⟨rfl,fun _ => hmeta⟩ .nil)
  have hpaths : secretPaths "" (logicalOf envelope) = secretPaths "" (logicalOf envelope') := by
    rw [logicalOf,logicalOf,secretPaths,secretPaths,itemPaths_congr hitems]
  have hsketch : sketch (redactSecretKeys (logicalOf envelope)) =
      sketch (redactSecretKeys (logicalOf envelope')) := by
    rw [logicalOf,logicalOf,redactSecretKeys,redactSecretKeys,sketch,sketch,redactItems_eq,
      redactItems_eq,sketchItems_eq,sketchItems_eq,sketchItems_congr hitems]
  obtain ⟨r,hr,rfl⟩ := redactEnvelope_paths h
  obtain ⟨r',hr',rfl⟩ := redactEnvelope_paths h'
  rw [← hpaths] at hr'
  rw [redactPointers_sketch hsketch hr hr']

end Reports

section Canonical
variable {floatText : Double → List Char} {loaded other : Loaded} {v w : Value} {j k : Json}

theorem same_mono {kept kept' : List (Key × Value) → Prop} (h : ∀ items, kept' items → kept items) :
    Parts fun v => ∀ w, Same kept v w → Same kept' v w where
  leaf v hleaf w hsame := by
    rw [same_leaf hleaf] at hsame ⊢
    exact hsame
  elements v vs hvs ih w hsame := by
    obtain ⟨ws,rfl,hall⟩ := (same_elements hvs).mp hsame
    obtain ⟨hlength,hpart⟩ := forall₂_iff_getElem?.mp hall
    refine (same_elements hvs).mpr ⟨ws,rfl,forall₂_iff_getElem?.mpr ⟨hlength,?_⟩⟩
    intro i u x hu hx
    exact ih u (List.mem_of_getElem? hu) x (hpart i u x hu hx)
  members v vs hvs ih w hsame := by
    obtain ⟨ws,rfl,us,hperm,hall⟩ := (same_members hvs).mp hsame
    obtain ⟨hlength,hpart⟩ := forall₂_iff_getElem?.mp hall
    refine (same_members hvs).mpr ⟨ws,rfl,us,hperm,forall₂_iff_getElem?.mpr ⟨hlength,?_⟩⟩
    intro i u x hu hx
    exact ih u (List.mem_of_getElem? hu) x (hpart i u x hu hx)
  dict items ih w hsame := by
    rw [Same] at hsame ⊢
    obtain ⟨others,rfl,hitems,hkeys⟩ := hsame
    obtain ⟨us,hperm,hall⟩ := sameItems_iff.mp hitems
    obtain ⟨hlength,hpart⟩ := forall₂_iff_getElem?.mp hall
    refine ⟨others,rfl,sameItems_iff.mpr ⟨us,hperm,forall₂_iff_getElem?.mpr ⟨hlength,?_⟩⟩,
      fun hkept => hkeys (h items hkept)⟩
    intro i a b ha hb
    obtain ⟨hkey,hvalue⟩ := hpart i a b ha hb
    exact ⟨hkey,ih a (List.mem_of_getElem? ha) b.2 hvalue⟩
  enum cls name v ih w hsame := by
    rw [Same] at hsame ⊢
    obtain ⟨u,rfl,hu⟩ := hsame
    exact ⟨u,rfl,ih u hu⟩

theorem canonical_outline (h : outline other = outline loaded)
    (hencode : encode floatText other "" v = .ok j) :
    Canonical floatText (outline loaded) v (canon j) := by
  have hback : outline (outline loaded) = outline other := by rw [outline_outline,h]
  exact ⟨j,⟨"",encode_outline hback hencode ""⟩,rfl⟩

theorem valid_in_outline (h : outline other = outline loaded) (hvalid : Valid other v) :
    Valid (outline loaded) v := h ▸ valid_outline.all v hvalid

theorem canon_of_same (htexts : FloatTexts floatText) (h : outline other = outline loaded)
    (hvalid : Valid loaded v) (hvalid' : Valid other w) (hsame : Same ordered v w)
    (hv : encode floatText loaded "" v = .ok j) (hw : encode floatText other "" w = .ok k) :
    canon j = canon k := by
  have hescaped : Same Escaped v w := (same_mono fun _ _ => trivial).all v w hsame
  exact (determined_cases htexts).all v (valid_in_outline rfl hvalid) w _ _
    (valid_in_outline h hvalid') hescaped (canonical_outline rfl hv) (canonical_outline h hw)

theorem same_of_canon (hvalid : Valid (outline loaded) v) (hvalid' : Valid (outline loaded) w)
    (hv : encode floatText (outline loaded) "" v = .ok j)
    (hw : encode floatText (outline loaded) "" w = .ok k) (heq : canon j = canon k) :
    Same Escaped v w :=
  CanonicalValues.told_cases.all v hvalid w _ hvalid' ⟨j,⟨"",hv⟩,rfl⟩ ⟨k,⟨"",hw⟩,heq.symm⟩

end Canonical

section Noninterference
variable (floatText : Double → List Char) (loaded : Loaded) (config : FailureCaptureConfig)
variable (occasion : Occasion)

/-- The envelopes differ in secret values only. -/
structure DifferInSecrets (a b : Envelope) : Prop where
  body : Alike loaded a.body b.body
  metadata : Alike loaded a.metadata b.metadata
  attempts : a.attempts = b.attempts

/-- Whatever the secret values are, also in the members of enumerations, the document is
this one. -/
def SecretsStay (envelope : Envelope) (data : Json) : Prop :=
  ∀ other envelope' data', outline other = outline loaded → Valid other envelope'.body →
    Valid other envelope'.metadata → DifferInSecrets loaded envelope envelope' →
      captureData floatText other config occasion envelope' = .ok data' → data' = data

/-- No named tuple that the redaction comes to has a secret field, and nothing that it
leaves as it is holds a secret. -/
structure Guarded (envelope : Envelope) : Prop where
  body : ¬Exposes loaded envelope.body
  metadata : ¬Exposes loaded envelope.metadata
  bodyLeft : ∀ ps, config.redactPaths.mapM decodePointer = some ps →
    ¬Leaks loaded (below "body" ps) envelope.body
  metadataLeft : ∀ ps, config.redactPaths.mapM decodePointer = some ps →
    ¬Leaks loaded (below "meta" ps) envelope.metadata

variable {floatText loaded config occasion} {envelope envelope' : Envelope} {data : Json}

theorem stay_of_guarded (htexts : FloatTexts floatText) (hbody : Valid loaded envelope.body)
    (hmeta : Valid loaded envelope.metadata)
    (hwrite : captureData floatText loaded config occasion envelope = .ok data)
    (h : Guarded loaded config envelope) :
    SecretsStay floatText loaded config occasion envelope data := by
  intro other envelope' data' hother hbody' hmeta' hdiffer hwrite'
  obtain ⟨ps,paths,body,metadata,hwritten⟩ := captureData_ok hwrite
  obtain ⟨ps',paths',body',metadata',hwritten'⟩ := captureData_ok hwrite'
  cases hwritten.pointers.symm.trans hwritten'.pointers
  have hpaths : paths = paths' := by
    apply paths_congr _ _ hwritten.redacted hwritten'.redacted
    · exact report_walk.all _ hbody h.body _ hbody' hdiffer.body
    · exact report_walk.all _ hmeta h.metadata _ hmeta' hdiffer.metadata
  have hsame := remaining_walk.all _ hbody h.body _ (h.bodyLeft ps hwritten.pointers) _ hbody'
    hdiffer.body
  have hsame' := remaining_walk.all _ hmeta h.metadata _ (h.metadataLeft ps hwritten.pointers) _
    hmeta' hdiffer.metadata
  have hcanon := canon_of_same htexts hother (valid_remaining.all _ hbody _)
    (valid_remaining.all _ hbody' _) hsame hwritten.encodedBody hwritten'.encodedBody
  have hcanon' := canon_of_same htexts hother (valid_remaining.all _ hmeta _)
    (valid_remaining.all _ hmeta' _) hsame' hwritten.encodedMeta hwritten'.encodedMeta
  rw [hwritten.data,hwritten'.data,← hpaths,← hdiffer.attempts]
  exact (document_congr envelope.attempts paths hcanon hcanon').symm

/-- The envelope with its secrets varied. -/
def varied (loaded : Loaded) (f g : Value → Value) (envelope : Envelope) : Envelope :=
  ⟨vary loaded f g envelope.body,vary loaded f g envelope.metadata,envelope.attempts⟩

theorem captureData_written (occasion : Occasion) (envelope : Envelope) {ps : List (List String)}
    (hps : config.redactPaths.mapM decodePointer = some ps)
    (hbody : Writable floatText loaded (remaining (below "body" ps) envelope.body))
    (hmeta : Writable floatText loaded (remaining (below "meta" ps) envelope.metadata)) :
    ∃ data, captureData floatText loaded config occasion envelope = .ok data := by
  obtain ⟨r,hr⟩ := redactPointers_some hps (redactSecretKeys (logicalOf envelope))
    (secretPaths "" (logicalOf envelope))
  cases hredact : redactEnvelope envelope config.redactPaths with
  | none =>
    rw [redactEnvelope,hr] at hredact
    cases hredact
  | some result =>
    obtain ⟨e,paths⟩ := result
    obtain ⟨ps',hps',rfl,-⟩ := redactEnvelope_ok hredact
    cases hps.symm.trans hps'
    obtain ⟨body,hb⟩ := hbody ""
    obtain ⟨metadata,hm⟩ := hmeta ""
    refine ⟨canon (document occasion (envelopeJson body metadata envelope.attempts) paths),?_⟩
    unfold captureData
    rw [hredact]
    simp only [hb,hm,Except.mapError,bind,Except.bind]

theorem writable_outline {v : Value} (h : Writable floatText loaded v) :
    Writable floatText (outline loaded) v := by
  intro path
  obtain ⟨j,hj⟩ := h path
  exact ⟨j,encode_outline (outline_outline loaded) hj path⟩

variable {s : String} {f g : Value → Value}

theorem alike_vary (h : Variation floatText loaded s f g) (v : Value) :
    Alike loaded v (vary loaded f g v) := by
  unfold Alike
  rw [(mask_vary h).all v]
  exact same_refl _

theorem varied_written (h : Variation floatText loaded s f g) (hbody : Valid loaded envelope.body)
    (hmeta : Valid loaded envelope.metadata) (hnew : ¬Mentions s envelope.body)
    (hnew' : ¬Mentions s envelope.metadata)
    (hwrite : captureData floatText loaded config occasion envelope = .ok data)
    (hstay : SecretsStay floatText loaded config occasion envelope data) :
    captureData floatText (outline loaded) config occasion (varied loaded f g envelope) =
      .ok data := by
  obtain ⟨ps,paths,body,metadata,hwritten⟩ := captureData_ok hwrite
  have hvaried := (writable_vary h).all _ hbody hnew _ (writable_of_encode hwritten.encodedBody)
  have hvaried' := (writable_vary h).all _ hmeta hnew' _ (writable_of_encode hwritten.encodedMeta)
  obtain ⟨data',hdata'⟩ := captureData_written occasion (varied loaded f g envelope)
    hwritten.pointers (writable_outline hvaried)
    (writable_outline hvaried')
  have hsame := hstay (outline loaded) (varied loaded f g envelope) data' (outline_outline loaded)
    ((valid_vary h).all _ hbody hnew) ((valid_vary h).all _ hmeta hnew')
    ⟨alike_vary h _,alike_vary h _,rfl⟩ hdata'
  rw [hdata',hsame]

/-- A text that is longer than any in the values. -/
def marker (n : ℕ) : String := String.ofList (List.replicate (n+1) '#')

theorem marker_length (n : ℕ) : (marker n).length = n+1 := by simp [marker]

theorem marker_new {n : ℕ} {v : Value} (h : Within n v) : ¬Mentions (marker n) v := by
  intro hs
  have hle := h _ hs
  rw [marker_length] at hle
  omega

theorem paths_bounded (paths : List String) : ∃ n, ∀ p ∈ paths, p.length ≤ n :=
  common_bound paths (R := fun n (p : String) => p.length ≤ n) (fun hmn h => h.trans hmn)
    fun p _ => ⟨p.length,le_refl _⟩

/-- A text that is longer than all that is written, and all that is given. -/
theorem new_marker (paths : List String) (vs : List Value) :
    ∃ s : String, (∀ p ∈ paths, p.length < s.length) ∧ ∀ v ∈ vs, ¬Mentions s v := by
  obtain ⟨m,hm⟩ := paths_bounded paths
  obtain ⟨n,hn⟩ := common_bound vs (R := Within) Within.mono fun v _ => within_parts.all v
  refine ⟨marker (max m n),fun p hp => ?_,fun v hv => ?_⟩
  · rw [marker_length]
    exact Nat.lt_succ_of_le ((hm p hp).trans (le_max_left m n))
  · exact marker_new ((hn v hv).mono (le_max_right m n))

/-- A walk that comes to a secret field reports what is in it. -/
theorem exposed_unstable (hbody : Valid loaded envelope.body) (hmeta : Valid loaded envelope.metadata)
    (hwrite : captureData floatText loaded config occasion envelope = .ok data)
    (hstay : SecretsStay floatText loaded config occasion envelope data) :
    ¬Exposes loaded envelope.body ∧ ¬Exposes loaded envelope.metadata := by
  obtain ⟨ps,paths,body,metadata,hwritten⟩ := captureData_ok hwrite
  obtain ⟨s,hlong,hnew⟩ := new_marker paths [envelope.body,envelope.metadata]
  have hvaried := varied_written (f := id) (g := fun _ => pathed s) pathed_variation hbody hmeta
    (hnew _ List.mem_cons_self) (hnew _ (List.mem_cons_of_mem _ List.mem_cons_self)) hwrite hstay
  obtain ⟨ps',paths',body',metadata',hwritten'⟩ := captureData_ok hvaried
  obtain ⟨-,-,hpaths⟩ := document_parts (hwritten.data.symm.trans hwritten'.data)
  have hshort : ∀ p ∈ secretPaths "" (logicalOf (varied loaded id (fun _ => pathed s) envelope)),
      p.length < s.length := by
    intro p hp
    apply hlong
    rw [hpaths]
    exact reported hwritten'.redacted hp
  constructor
  · intro hexposes
    obtain ⟨p,hp,hlength⟩ := paths_exposed hexposes s (pointer "" "body")
    exact absurd (hshort p (body_paths hp)) (not_lt.mpr hlength)
  · intro hexposes
    obtain ⟨p,hp,hlength⟩ := paths_exposed hexposes s (pointer "" "meta")
    exact absurd (hshort p (meta_paths hp)) (not_lt.mpr hlength)

theorem leaked_unstable {ps : List (List String)} {v : Value} {j k : Json}
    (hvalid : Valid loaded v) (hexposes : ¬Exposes loaded v) (hnew : ¬Mentions s v)
    (hleft : ¬Mentions s (remaining ps v))
    (hv : encode floatText loaded "" (remaining ps v) = .ok j)
    (hw : encode floatText (outline loaded) ""
      (remaining ps (vary loaded (mark loaded s) id v)) = .ok k)
    (heq : canon j = canon k) : ¬Leaks loaded ps v := by
  intro hleaks
  have hvariation : Variation floatText loaded s (mark loaded s) id := mark_variation
  have hvaried := (valid_vary hvariation).all v hvalid hnew
  have hsame := same_of_canon (valid_remaining.all _ (valid_outline.all v hvalid) ps)
    (valid_remaining.all _ hvaried ps) (encode_outline (outline_outline loaded) hv "") hw heq
  exact hleft ((mentions_leaked hleaks hvalid hexposes hnew).same (same_symm.all _ _ hsame))

theorem guarded_of_stay (hbody : Valid loaded envelope.body) (hmeta : Valid loaded envelope.metadata)
    (hwrite : captureData floatText loaded config occasion envelope = .ok data)
    (hstay : SecretsStay floatText loaded config occasion envelope data) :
    Guarded loaded config envelope := by
  obtain ⟨hexposes,hexposes'⟩ := exposed_unstable hbody hmeta hwrite hstay
  obtain ⟨ps,paths,body,metadata,hwritten⟩ := captureData_ok hwrite
  obtain ⟨s,-,hnew⟩ := new_marker [] [envelope.body,envelope.metadata,
    remaining (below "body" ps) envelope.body,remaining (below "meta" ps) envelope.metadata]
  simp only [List.forall_mem_cons] at hnew
  obtain ⟨hnewBody,hnewMeta,hleftBody,hleftMeta,-⟩ := hnew
  have hvaried := varied_written mark_variation hbody hmeta hnewBody hnewMeta hwrite hstay
  obtain ⟨ps',paths',body',metadata',hwritten'⟩ := captureData_ok hvaried
  cases hwritten.pointers.symm.trans hwritten'.pointers
  obtain ⟨hcanon,hcanon',-⟩ := document_parts (hwritten.data.symm.trans hwritten'.data)
  refine ⟨hexposes,hexposes',?_,?_⟩
  · intro qs hqs
    cases hwritten.pointers.symm.trans hqs
    exact leaked_unstable hbody hexposes hnewBody hleftBody hwritten.encodedBody
      hwritten'.encodedBody hcanon
  · intro qs hqs
    cases hwritten.pointers.symm.trans hqs
    exact leaked_unstable hmeta hexposes' hnewMeta hleftMeta hwritten.encodedMeta
      hwritten'.encodedMeta hcanon'

/-- The document of a capture does not depend on secret values exactly when the envelope
is guarded. -/
theorem secrets_stay_iff (htexts : FloatTexts floatText) (hbody : Valid loaded envelope.body)
    (hmeta : Valid loaded envelope.metadata)
    (hwrite : captureData floatText loaded config occasion envelope = .ok data) :
    SecretsStay floatText loaded config occasion envelope data ↔
      Guarded loaded config envelope :=
  ⟨guarded_of_stay hbody hmeta hwrite,stay_of_guarded htexts hbody hmeta hwrite⟩

end Noninterference

section Example

def credentialsClass : ClassRef := ⟨"shop.models","Credentials",0⟩

/-- `class Credentials(NamedTuple): user: str; password: str`. -/
def shopModels : Loaded where
  resolve moduleName qualname :=
    if moduleName = "shop.models" then
      if qualname = "Credentials" then .type credentialsClass else .noAttribute
    else .noModule
  definition cls := if cls = credentialsClass then .namedtuple ["user","password"] else .other
  call _ := .error .typeError

def redactNothing : FailureCaptureConfig :=
  {redactCards with redactPaths := [], pointers := by decide}

/-- A mapping with a password. -/
def mappedLogin (password : String) : Envelope where
  body := .dict [(.str "user",.str "ada"),(.str "password",.str password)]
  metadata := .dict []
  attempts := 1

/-- A named tuple with a password. -/
def namedLogin (password : String) : Envelope where
  body := .namedtuple credentialsClass [.str "ada",.str password]
  metadata := .dict []
  attempts := 1

theorem mappedLogin_guarded (password : String) :
    Guarded shopModels redactNothing (mappedLogin password) := by
  have hexposes : ¬Exposes shopModels (.dict []) := by
    intro h
    cases h with
    | item hmem => cases hmem
    | field hvs | element hvs => cases hvs
  have hleaks : ∀ ps, ¬Leaks shopModels ps (.dict []) := by
    intro ps h
    cases h with
    | closed _ hclosed => exact hclosed trivial
    | item _ hmem => cases hmem
    | element _ hvs => cases hvs
  have hstr : ∀ {items : List (Key × Value)} {k : Key} {u : Value},
      items = [(.str "user",.str "ada"),(.str "password",.str password)] →
        (k,u) ∈ items → secretKey k = false → u = .str "ada" := by
    intro items k u hitems hmem hsecret
    rw [hitems,List.mem_cons,List.mem_singleton] at hmem
    rcases hmem with heq | heq
    · cases heq
      rfl
    · cases heq
      exact absurd hsecret (by decide)
  constructor
  · intro h
    cases h with
    | item hmem hsecret hrest =>
      cases hstr rfl hmem hsecret
      cases hrest with
      | field hvs | element hvs => cases hvs
    | field hvs | element hvs => cases hvs
  · exact hexposes
  · intro ps _ h
    cases h with
    | closed _ hclosed => exact hclosed trivial
    | item _ hmem hsecret hrest =>
      cases hstr rfl hmem hsecret
      cases hrest with
      | closed _ _ hholds =>
        cases hholds with
        | field hvs | element hvs | member hvs => cases hvs
      | element _ hvs => cases hvs
    | element _ hvs => cases hvs
  · exact fun ps _ => hleaks _

/-- The mapped password stays out of the capture. -/
theorem mappedLogin_stays : ∃ data,
    captureData bitsText shopModels redactNothing failedRow (mappedLogin "s3cret") = .ok data ∧
      SecretsStay bitsText shopModels redactNothing failedRow (mappedLogin "s3cret") data := by
  have hbody : Valid shopModels (mappedLogin "s3cret").body := by
    simp [mappedLogin,Valid,ValidItems]
  have hmeta : Valid shopModels (mappedLogin "s3cret").metadata := by
    simp [mappedLogin,Valid,ValidItems]
  have hwritten : ∃ data, captureData bitsText shopModels redactNothing failedRow
      (mappedLogin "s3cret") = .ok data := ⟨_,rfl⟩
  obtain ⟨data,hdata⟩ := hwritten
  exact ⟨data,hdata,(secrets_stay_iff bitsText_texts hbody hmeta hdata).mpr (mappedLogin_guarded _)⟩

theorem namedLogin_valid (password : String) : Valid shopModels (namedLogin password).body := by
  simp [namedLogin,Valid,ValidAll,shopModels]

/-- The field of a named tuple is written, whatever its name. -/
theorem namedLogin_leaks : ∃ data,
    captureData bitsText shopModels redactNothing failedRow (namedLogin "s3cret") = .ok data ∧
      ¬SecretsStay bitsText shopModels redactNothing failedRow (namedLogin "s3cret") data := by
  have hwritten : ∀ password, ∃ data, captureData bitsText shopModels redactNothing failedRow
      (namedLogin password) = .ok data := fun _ => ⟨_,rfl⟩
  obtain ⟨data,hdata⟩ := hwritten "s3cret"
  refine ⟨data,hdata,fun hstay => ?_⟩
  obtain ⟨data',hdata'⟩ := hwritten "hunter2"
  have hdiffer : DifferInSecrets shopModels (namedLogin "s3cret") (namedLogin "hunter2") := by
    have hmasked : ∀ password, mask shopModels (namedLogin password).body =
        .namedtuple credentialsClass [.str "ada",.none] := fun _ => rfl
    refine ⟨?_,same_refl _,rfl⟩
    unfold Alike
    rw [hmasked,hmasked]
    exact same_refl _
  have hmeta : Valid shopModels (namedLogin "hunter2").metadata := by
    simp [namedLogin,Valid,ValidItems]
  have heq := hstay shopModels (namedLogin "hunter2") data' rfl (namedLogin_valid _) hmeta hdiffer
    hdata'
  subst heq
  obtain ⟨ps,paths,body,metadata,hone⟩ := captureData_ok hdata
  obtain ⟨ps',paths',body',metadata',htwo⟩ := captureData_ok hdata'
  cases hone.pointers
  cases htwo.pointers
  obtain ⟨hcanon,-,-⟩ := document_parts (hone.data.symm.trans htwo.data)
  have hsame := same_of_canon (valid_outline.all _ (namedLogin_valid "s3cret"))
    (valid_outline.all _ (namedLogin_valid "hunter2"))
    (encode_outline (outline_outline shopModels) hone.encodedBody "")
    (encode_outline (outline_outline shopModels) htwo.encodedBody "") hcanon
  simp [namedLogin,Same,SameAll] at hsame

end Example

end OneStep.SecretCaptures
