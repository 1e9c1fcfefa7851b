import OneStep.CanonicalJson
import OneStep.CaptureRedaction

/-!
# Failure captures

`FailureCaptureWriter._write_sync`. A file is the document that is read of it, with the
keys of its objects sorted. The files themselves and their names are left out, and the
number of bytes of a document is a parameter.
-/
namespace OneStep.FailureCaptures
open CanonicalJson CaptureCodec CaptureRedaction DateTimeText JsonValues PythonValues

section Write

/-- What the constructor of the configuration validates. -/
structure FailureCaptureConfig where
  maxBytes : ℕ := 1048576
  redactPaths : List String := []
  bounded : 1 ≤ maxBytes
  pointers : ∀ path ∈ redactPaths, path.toList.head? = some '/'

inductive FailureKind where
  | error | timeout | cancelled
  deriving DecidableEq, Repr

def FailureKind.value : FailureKind → String
  | .error => "error"
  | .timeout => "timeout"
  | .cancelled => "cancelled"

structure FailureInfo where
  kind : FailureKind
  exceptionType : String
  message : String
  deriving DecidableEq, Repr

/-- What is written besides the envelope, at a time in UTC. -/
structure Occasion where
  app : String
  task : String
  stage : String
  terminal : Bool
  failure : FailureInfo
  now : DateTime
  utc : now.offset = some 0

/-- `str.replace`; the number counts the characters of a match that are still ahead. -/
def replaceText (old new : List Char) : ℕ → List Char → List Char
  | _,[] => []
  | 0,c::cs =>
    if old.isPrefixOf (c::cs) then new++replaceText old new (old.length-1) cs
    else c::replaceText old new 0 cs
  | skipped+1,_::cs => replaceText old new skipped cs

def utcOffset : List Char := ['+','0','0',':','0','0']

def capturedAt (now : DateTime) : String := String.ofList (replaceText utcOffset ['Z'] 0 (isoformat now))

def failureJson (failure : FailureInfo) : Json :=
  .obj [("kind",.str failure.kind.value),("exception_type",.str failure.exceptionType),
    ("message",.str failure.message)]

def envelopeJson (body metadata : Json) (attempts : ℤ) : Json :=
  .obj [("body",body),("meta",metadata),("attempts",.int attempts)]

def captureSchema : String := "onestep/envelope-capture"

def document (occasion : Occasion) (envelope : Json) (paths : List String) : Json :=
  .obj [("schema",.str captureSchema),("version",.int 1),
    ("captured_at",.str (capturedAt occasion.now)),("app",.str occasion.app),
    ("task",.str occasion.task),("stage",.str occasion.stage),
    ("terminal",.bool occasion.terminal),("failure",failureJson occasion.failure),
    ("envelope",envelope),("redacted_paths",.arr (paths.map .str))]

inductive WriteError where
  | pointer
  | encoding (e : EncodingError)
  | tooLarge (size : ℕ)

/-- `_write_sync`, up to the data that goes to the file. -/
def captureData (floatText : Double → List Char) (loaded : Loaded) (config : FailureCaptureConfig)
    (occasion : Occasion) (envelope : Envelope) : Except WriteError Json :=
  match redactEnvelope envelope config.redactPaths with
  | none => .error .pointer
  | some (envelope,paths) => do
    let body ← (encode floatText loaded "" envelope.body).mapError .encoding
    let metadata ← (encode floatText loaded "" envelope.metadata).mapError .encoding
    .ok (canon (document occasion (envelopeJson body metadata envelope.attempts) paths))

/-- `_write_sync`. -/
def writeSync (floatText : Double → List Char) (bytes : Json → ℕ) (loaded : Loaded)
    (config : FailureCaptureConfig) (occasion : Occasion) (envelope : Envelope) :
    Except WriteError Json := do
  let data ← captureData floatText loaded config occasion envelope
  if config.maxBytes < bytes data then .error (.tooLarge (bytes data)) else .ok data

end Write

end OneStep.FailureCaptures
