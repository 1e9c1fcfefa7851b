import OneStep.GenerationTracker

/-!
# The MongoDB sources

The polling source reads above its scan position and resets that position to the
committed cursor when a delivery is retried or released. The change-stream source
reads from a stream, drops the stream then, and opens the next one after the
saved resume token, or where the server stands when no token was ever saved. One
fetch runs at a time, as the task runner has it, and is cut at each `await`.

The tokens of both are compared in source order. Of the driver it is assumed that
a read returns tokens in that order, above where it began, and passes over none
that was handed out before: documents and events are not taken back.
-/
namespace OneStep.MongoSources
open GenerationTracker

/-- The steps that settle deliveries. -/
inductive Call where
  | settle (i : ℕ) (call : Settlement)
  | invalidate (i : ℕ)
  | complete (i : ℕ)
  | saveReturns (ok : Bool)
  deriving DecidableEq, Repr

def Call.perform {τ : Type} (c : Core τ) : Call → Option (Core τ)
  | .settle i call => c.settle i call
  | .invalidate i => c.invalidate i
  | .complete i => c.complete i
  | .saveReturns ok => c.saveReturns ok

def Call.invalidates : Call → Bool
  | .invalidate _ => true
  | _ => false

section Driver
variable {τ : Type} [LinearOrder τ]

/-- What the driver may return for a read above `start`. -/
structure Reads (c : Core τ) (start : WithBot τ) (batch : List τ) : Prop where
  above : ∀ x ∈ batch, start < (x : WithBot τ)
  ascending : batch.Pairwise (· < ·)
  skipsNone : ∀ x ∈ c.tracker.tokens, start < (x.token : WithBot τ) →
    (∃ y ∈ batch, x.token ≤ y) → x.token ∈ batch

instance (c : Core τ) (start : WithBot τ) (batch : List τ) : Decidable (Reads c start batch) :=
  decidable_of_iff ((∀ x ∈ batch, start < (x : WithBot τ)) ∧ batch.Pairwise (· < ·) ∧
      ∀ x ∈ c.tracker.tokens, start < (x.token : WithBot τ) → (∃ y ∈ batch, x.token ≤ y) →
        x.token ∈ batch)
    ⟨fun h => ⟨h.1,h.2.1,h.2.2⟩,fun h => ⟨h.above,h.ascending,h.skipsNone⟩⟩

end Driver

/-- Where a batch leaves a reader that stood at `start`. -/
def endOf {τ : Type} (start : WithBot τ) (batch : List τ) : WithBot τ :=
  batch.foldl (fun _ x => (x : WithBot τ)) start

theorem endOf_snoc {τ : Type} (start : WithBot τ) (batch : List τ) (x : τ) :
    endOf start (batch++[x]) = x := by
  simp [endOf]

section Polling
variable {τ : Type}

/-- A `find` in the driver, with the generation in which it began. -/
structure PollRead (τ : Type) where
  scan : WithBot τ
  generation : ℕ
  limit : ℕ

structure Polling (τ : Type) where
  core : Core τ := {}
  scan : WithBot τ := ⊥
  reading : Option (PollRead τ) := none

inductive PollOp (τ : Type) where
  | startFetch (limit : ℕ)
  | fetched (documents : List τ)
  | fetchRaised
  | call (op : Call)

/-- A source that loaded the cursor `committed`. -/
def Polling.opened (committed : WithBot τ) : Polling τ :=
  {core := {committed := committed},scan := committed}

/-- A limit of zero is no limit for the driver. -/
def Polling.perform (batchSize : ℕ) (p : Polling τ) : PollOp τ → Option (Polling τ)
  | .startFetch limit =>
    match p.reading with
    | some _ => none
    | none =>
      if p.core.tracker.canFetch then
        some {p with reading := some ⟨p.scan,p.core.tracker.generation,min limit batchSize⟩}
      else some p
  | .fetched documents =>
    match p.reading with
    | none => none
    | some r =>
      if r.limit = 0 ∨ documents.length ≤ r.limit then
        some {
          core := p.core.deliverAll r.generation documents
          scan := endOf p.scan documents
          reading := none}
      else none
  | .fetchRaised =>
    match p.reading with
    | none => none
    | some _ => some {p with reading := none}
  | .call op =>
    (op.perform p.core).map fun core =>
      {p with core := core,scan := if op.invalidates then core.committed else p.scan}

section Equations
attribute [local simp] Polling.perform
end Equations

variable [LinearOrder τ]

/-- What the driver does for the polling source. -/
def PollOp.Genuine (p : Polling τ) : PollOp τ → Prop
  | .fetched documents => ∀ r ∈ p.reading, Reads p.core r.scan documents
  | _ => True

/-- Documents are handed out in the generation in which they were read. -/
def PollOp.InGeneration (p : Polling τ) : PollOp τ → Prop
  | .fetched documents => documents ≠ [] → ∀ r ∈ p.reading,
      r.generation = p.core.tracker.generation
  | _ => True

instance (p : Polling τ) (op : PollOp τ) : Decidable (op.Genuine p) :=
  match op with
  | .fetched documents => inferInstanceAs (Decidable (∀ r ∈ p.reading, Reads p.core r.scan documents))
  | .startFetch _ | .fetchRaised | .call _ => .isTrue trivial

instance (p : Polling τ) (op : PollOp τ) : Decidable (op.InGeneration p) :=
  match op with
  | .fetched documents => inferInstanceAs (Decidable (documents ≠ [] → ∀ r ∈ p.reading,
      r.generation = p.core.tracker.generation))
  | .startFetch _ | .fetchRaised | .call _ => .isTrue trivial

end Polling

section ChangeStream
variable {τ : Type}

/-- A `try_next` in the driver: where its stream stands, the generation in which
the fetch began to read, and what the loop has left and has read. -/
structure StreamRead (τ : Type) where
  position : WithBot τ
  generation : ℕ
  left : ℕ
  events : List τ

inductive Fetching (τ : Type) where
  | idle
  | opening (resume : WithBot τ) (limit : ℕ)
  | reading (r : StreamRead τ)
  | failing (generation : ℕ)

/-- The stream is given by where it stands. -/
structure ChangeStream (τ : Type) where
  core : Core τ := {}
  stream : Option (WithBot τ) := none
  fetching : Fetching τ := .idle

inductive StreamOp (τ : Type) where
  | startFetch (limit : ℕ)
  | watched (start : WithBot τ)
  | watchRaised
  | gotEvent (event : τ)
  | gotNone
  | readRaised
  | failed
  | call (op : Call)

def ChangeStream.opened (committed : WithBot τ) : ChangeStream τ :=
  {core := {committed := committed}}

namespace ChangeStream
variable (s : ChangeStream τ)

/-- `fetch` after `open` up to its first `try_next`. -/
def startReading (count : ℕ) : ChangeStream τ :=
  match s.stream with
  | none => {s with fetching := .idle}
  | some position =>
    if s.core.tracker.canFetch ∧ count ≠ 0 then
      {s with fetching := .reading ⟨position,s.core.tracker.generation,count,[]⟩}
    else {s with fetching := .idle}

/-- The end of `fetch`, where the events become deliveries. -/
def finishFetch (r : StreamRead τ) : ChangeStream τ :=
  {s with core := s.core.deliverAll r.generation r.events,fetching := .idle}

/-- The loop of `fetch` after an event; without a stream the next `try_next`
raises. -/
def nextRead (r : StreamRead τ) : ChangeStream τ :=
  if r.left = 0 then s.finishFetch r
  else match s.stream with
    | none => {s with fetching := .failing s.core.tracker.generation}
    | some _ => {s with fetching := .reading r}

def StreamRead.next (r : StreamRead τ) (event : τ) : StreamRead τ :=
  {r with position := event,left := r.left-1,events := r.events++[event]}

def perform (batchSize : ℕ) (s : ChangeStream τ) : StreamOp τ → Option (ChangeStream τ)
  | .startFetch limit =>
    match s.fetching with
    | .idle =>
      if s.stream = none ∧ s.core.tracker.canFetch then
        some {s with fetching := .opening s.core.committed limit}
      else some (s.startReading (min limit batchSize))
    | _ => none
  | .watched start =>
    match s.fetching with
    | .opening _ limit => some (startReading {s with stream := some start} (min limit batchSize))
    | _ => none
  | .watchRaised =>
    match s.fetching with
    | .opening _ _ => some {s with fetching := .idle}
    | _ => none
  | .gotEvent event =>
    match s.fetching with
    | .reading r =>
      some (nextRead {s with stream := s.stream.map fun _ => (event : WithBot τ)}
        (StreamRead.next r event))
    | _ => none
  | .gotNone =>
    match s.fetching with
    | .reading r => some (s.finishFetch r)
    | _ => none
  | .readRaised =>
    match s.fetching with
    | .reading _ => some {s with fetching := .failing s.core.tracker.generation}
    | _ => none
  | .failed =>
    match s.fetching,s.core.save with
    | .failing generation,none =>
      some {
        core := {s.core with tracker := s.core.tracker.invalidate generation}
        stream := none
        fetching := .idle}
    | _,_ => none
  | .call op =>
    (op.perform s.core).map fun core =>
      {s with core := core,stream := if op.invalidates then none else s.stream}

end ChangeStream

variable [LinearOrder τ]

/-- What the driver does for the change-stream source: a stream opened with a
resume token starts after it. -/
def StreamOp.Genuine (s : ChangeStream τ) (op : StreamOp τ) : Prop :=
  match op,s.fetching with
  | .watched start,.opening resume _ => resume ≠ ⊥ → start = resume
  | .gotEvent event,.reading r => Reads s.core r.position [event]
  | _,_ => True

/-- Events are handed out in the generation in which the fetch began to read, and
a stream is opened without a resume token only when nothing was retried or
released and all is settled. -/
def StreamOp.InGeneration (s : ChangeStream τ) (op : StreamOp τ) : Prop :=
  match op,s.fetching with
  | .watched _,.opening resume _ => resume = ⊥ → ∀ i < s.core.tracker.tokens.length, s.core.Acked i
  | .gotEvent _,.reading r => r.left ≤ 1 → r.generation = s.core.tracker.generation
  | .gotNone,.reading r => r.events ≠ [] → r.generation = s.core.tracker.generation
  | _,_ => True

instance (s : ChangeStream τ) (op : StreamOp τ) : Decidable (op.Genuine s) := by
  unfold StreamOp.Genuine
  split <;> infer_instance

instance (s : ChangeStream τ) (op : StreamOp τ) : Decidable (op.InGeneration s) := by
  unfold StreamOp.InGeneration
  split <;> infer_instance

end ChangeStream

end OneStep.MongoSources
