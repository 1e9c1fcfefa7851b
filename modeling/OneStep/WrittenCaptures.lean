import OneStep.CanonicalValues
import OneStep.FailureCaptures
import OneStep.RedactedValues

/-!
# Captures that are written

A capture that is written holds what the redaction leaves of the body and of the metadata,
encoded, and the paths of what it replaced. The fields of the document and of its envelope
stand in the order of their names, and each is looked up as before they were sorted.
-/
namespace OneStep.WrittenCaptures
open CanonicalJson CanonicalValues CaptureCodec CaptureRedaction DateTimeText FailureCaptures
open ItemLists JsonText JsonValues PythonValues RedactedValues

section Documents

/-- The value of a field, or null. -/
def valueOf (fields : List (String × Json)) (key : String) : Json := (fields.lookup key).getD .null

/-- The strings of a list that holds nothing else. -/
def stringsOf : List Json → Option (List String)
  | [] => some []
  | .str s::items => (stringsOf items).map fun rest => s::rest
  | _ => none

theorem valueOf_sorted {fields : List (String × Json)} (hnodup : (fields.map Prod.fst).Nodup)
    (key : String) : valueOf (sortFields fields) key = valueOf fields key := by
  unfold valueOf
  rw [lookup_perm (sortFields_perm fields) ((sortFields_perm fields).map Prod.fst |>.nodup_iff.mpr
    hnodup)]

theorem stringsOf_texts (texts : List String) : stringsOf (texts.map .str) = some texts := by
  induction texts with
  | nil => rfl
  | cons s texts ih => rw [List.map_cons,stringsOf,ih,Option.map_some]

theorem canonAll_texts (texts : List String) : canonAll (texts.map .str) = texts.map .str := by
  induction texts with
  | nil => rw [List.map_nil,canonAll]
  | cons s texts ih => rw [List.map_cons,canonAll,ih,canon] <;> simp

def documentFields (occasion : Occasion) (envelope : Json) (paths : List String) :
    List (String × Json) :=
  [("schema",.str captureSchema),("version",.int 1),
    ("captured_at",.str (capturedAt occasion.now)),("app",.str occasion.app),
    ("task",.str occasion.task),("stage",.str occasion.stage),
    ("terminal",.bool occasion.terminal),("failure",canon (failureJson occasion.failure)),
    ("envelope",canon envelope),("redacted_paths",canon (.arr (paths.map .str)))]

theorem canon_document (occasion : Occasion) (envelope : Json) (paths : List String) :
    canon (document occasion envelope paths) =
      .obj (sortFields (documentFields occasion envelope paths)) := by
  simp [document,documentFields,canon,canonFields]

theorem documentFields_value (occasion : Occasion) (envelope : Json) (paths : List String)
    (key : String) : valueOf (sortFields (documentFields occasion envelope paths)) key =
      valueOf (documentFields occasion envelope paths) key := by
  apply valueOf_sorted
  simp [documentFields]

def envelopeFields (body metadata : Json) (attempts : ℤ) : List (String × Json) :=
  [("body",canon body),("meta",canon metadata),("attempts",.int attempts)]

theorem canon_envelope (body metadata : Json) (attempts : ℤ) :
    canon (envelopeJson body metadata attempts) =
      .obj (sortFields (envelopeFields body metadata attempts)) := by
  simp [envelopeJson,envelopeFields,canon,canonFields]

theorem envelopeFields_value (body metadata : Json) (attempts : ℤ) (key : String) :
    valueOf (sortFields (envelopeFields body metadata attempts)) key =
      valueOf (envelopeFields body metadata attempts) key := by
  apply valueOf_sorted
  simp [envelopeFields]

end Documents

section Paths

theorem below_root (path s : String) : path.toList++['/'] <+: (path++"/"++s).toList := by
  refine ⟨s.toList,?_⟩
  rw [String.toList_append,String.toList_append]
  rfl

theorem elementPaths_below {vs : List Value} (ih : ∀ v ∈ vs, ∀ path, ∀ p ∈ secretPaths path v,
    path.toList++['/'] <+: p.toList) (path : String) (i : ℕ) :
    ∀ p ∈ elementPaths path i vs, path.toList++['/'] <+: p.toList := by
  induction vs generalizing i with
  | nil =>
    intro p hp
    rw [elementPaths] at hp
    cases hp
  | cons v vs hrest =>
    intro p hp
    rw [List.forall_mem_cons] at ih
    rw [elementPaths] at hp
    rcases List.mem_append.mp hp with hp | hp
    · have hroot := below_root path (toString i)
      have hlonger := ih.1 _ p hp
      exact hroot.trans ((List.prefix_append _ _).trans hlonger)
    · exact hrest ih.2 (i+1) p hp

theorem memberPaths_below {vs : List Value} (ih : ∀ v ∈ vs, ∀ path, ∀ p ∈ secretPaths path v,
    path.toList++['/'] <+: p.toList) (path : String) :
    ∀ p ∈ memberPaths path vs, path.toList++['/'] <+: p.toList := by
  induction vs with
  | nil =>
    intro p hp
    rw [memberPaths] at hp
    cases hp
  | cons v vs hrest =>
    intro p hp
    rw [List.forall_mem_cons] at ih
    rw [memberPaths] at hp
    rcases List.mem_append.mp hp with hp | hp
    · exact ih.1 _ p hp
    · exact hrest ih.2 p hp

theorem itemPaths_below {items : List (Key × Value)} (ih : ∀ item ∈ items, ∀ path,
    ∀ p ∈ secretPaths path item.2, path.toList++['/'] <+: p.toList) (path : String) :
    ∀ p ∈ itemPaths path items, path.toList++['/'] <+: p.toList := by
  induction items with
  | nil =>
    intro p hp
    rw [itemPaths] at hp
    cases hp
  | cons item items hrest =>
    intro p hp
    obtain ⟨k,v⟩ := item
    rw [List.forall_mem_cons] at ih
    rw [itemPaths] at hp
    have hroot := below_root path (String.ofList ((keyText k).toList.flatMap fun c =>
      if c = '~' then ['~','0'] else if c = '/' then ['~','1'] else [c]))
    rcases List.mem_append.mp hp with hp | hp
    · split at hp
      · rw [List.mem_singleton.mp hp]
        exact hroot
      · have hlonger := ih.1 _ p hp
        exact hroot.trans ((List.prefix_append _ _).trans hlonger)
    · exact hrest ih.2 p hp

theorem secretPaths_below : Cases fun v => ∀ path, ∀ p ∈ secretPaths path v,
    path.toList++['/'] <+: p.toList where
  leaf v hleaf path p hp := by
    rw [(untouched_leaf hleaf).2] at hp
    cases hp
  list vs ih path p hp := by
    rw [secretPaths] at hp
    exact elementPaths_below ih path 0 p hp
  tuple vs ih path p hp := by
    rw [secretPaths] at hp
    exact elementPaths_below ih path 0 p hp
  namedtuple cls vs ih path p hp := by
    rw [secretPaths] at hp
    exact elementPaths_below ih path 0 p hp
  set vs ih path p hp := by
    rw [secretPaths] at hp
    exact memberPaths_below ih path p hp
  frozenset vs ih path p hp := by
    rw [secretPaths] at hp
    exact memberPaths_below ih path p hp
  dict items ih path p hp := by
    rw [secretPaths] at hp
    exact itemPaths_below ih path p hp
  enum cls name v _ path p hp := by
    rw [secretPaths] at hp
    · cases hp
    all_goals nofun

end Paths

section Writing
variable {floatText : Double → List Char} {loaded : Loaded}
  {config : FailureCaptureConfig} {occasion : Occasion} {envelope : Envelope} {data : Json}

/-- What a capture that was written is made of. -/
structure Written (floatText : Double → List Char) (loaded : Loaded)
    (config : FailureCaptureConfig) (occasion : Occasion) (envelope : Envelope) (data : Json)
    (ps : List (List String)) (paths : List String) (body metadata : Json) : Prop where
  pointers : config.redactPaths.mapM decodePointer = some ps
  redacted : redactEnvelope envelope config.redactPaths =
    some (⟨remaining (below "body" ps) envelope.body,remaining (below "meta" ps) envelope.metadata,
      envelope.attempts⟩,paths)
  encodedBody : encode floatText loaded "" (remaining (below "body" ps) envelope.body) = .ok body
  encodedMeta : encode floatText loaded "" (remaining (below "meta" ps) envelope.metadata) =
    .ok metadata
  rooted : ∀ path ∈ paths, path.toList.head? = some '/'
  data : data = canon (document occasion (envelopeJson body metadata envelope.attempts) paths)

theorem captureData_ok (h : captureData floatText loaded config occasion envelope = .ok data) :
    ∃ ps paths body metadata,
      Written floatText loaded config occasion envelope data ps paths body metadata := by
  unfold captureData at h
  split at h
  · cases h
  · next e paths hredact =>
      obtain ⟨ps,hps,rfl,hpaths⟩ := redactEnvelope_ok hredact
      cases hbody : encode floatText loaded "" (remaining (below "body" ps) envelope.body) with
      | error e => simp [hbody,Except.mapError,bind,Except.bind] at h
      | ok body =>
        cases hmeta : encode floatText loaded ""
            (remaining (below "meta" ps) envelope.metadata) with
        | error e => simp [hbody,hmeta,Except.mapError,bind,Except.bind] at h
        | ok metadata =>
          simp only [hbody,hmeta,Except.mapError,bind,Except.bind] at h
          refine ⟨ps,paths,body,metadata,hps,hredact,hbody,hmeta,?_,(Except.ok.inj h).symm⟩
          intro path hpath
          rcases hpaths path hpath with hsecret | hpointer
          · obtain ⟨rest,hrest⟩ := secretPaths_below.all _ "" path hsecret
            rw [← hrest]
            rfl
          · exact config.pointers path hpointer

end Writing

section Example

def failedRow : Occasion where
  app := "billing"
  task := "sync"
  stage := "handler"
  terminal := true
  failure := ⟨.error,"ValueError","bad row"⟩
  now := {
    year := 2026, month := 7, day := 29, hour := 10, minute := 0, second := 0, microsecond := 0
    offset := some 0
    dated := by decide
    timed := by decide
    bounded := utc_bounded }
  utc := rfl

def redactCards : FailureCaptureConfig where
  redactPaths := ["/body/rows/0"]
  bounded := by decide
  pointers := by decide

end Example

end OneStep.WrittenCaptures
