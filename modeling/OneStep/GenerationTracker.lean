import Mathlib.Data.Finset.Card
import Mathlib.Data.List.Basic
import Mathlib.Data.List.TakeWhile
import Mathlib.Order.WithBot
import Mathlib.Tactic

/-!
# Cursor tokens by generation

`_ContiguousGenerationTracker` of the MongoDB plugin, and the settlement calls
of its deliveries. A call is cut where it may be suspended: at the sleep and the
lock before an invalidation, at the lock before a completion, and in the store
while the lock is held. The two sources differ only in where they read next.
-/
namespace OneStep.GenerationTracker

variable {τ : Type}

structure TrackedToken (τ : Type) where
  generation : ℕ
  token : τ
  completed : Bool := false
  advances : Bool := false
  deriving Repr

/-- `tokens` holds every token that was added; its sequence number is its index. -/
structure Tracker (τ : Type) where
  generation : ℕ := 0
  tokens : List (TrackedToken τ) := []
  pending : List ℕ := []
  outstanding : ℕ → Option ℕ := fun _ => none
  invalidated : Finset ℕ := ∅

namespace Tracker
variable (t : Tracker τ)

def canFetch : Bool := decide (∀ g ∈ t.invalidated, (t.outstanding g).getD 0 = 0)

def add (token : τ) : Tracker τ :=
  {t with
    tokens := t.tokens++[⟨t.generation,token,false,false⟩]
    pending := t.pending++[t.tokens.length]
    outstanding := Function.update t.outstanding t.generation
      (some ((t.outstanding t.generation).getD 0+1))}

def invalidate (generation : ℕ) : Tracker τ :=
  if generation = t.generation then
    {t with
      invalidated := insert generation t.invalidated
      tokens := t.tokens.mapIdx fun i x =>
        if i ∈ t.pending ∧ x.generation = generation then {x with advances := false} else x
      generation := t.generation+1}
  else t

def discardSettledGenerations : Tracker τ :=
  {t with
    outstanding := fun g => if t.outstanding g = some 0 then none else t.outstanding g
    invalidated := t.invalidated.filter fun g => t.outstanding g ≠ some 0}

/-- The flags of a token, as `complete` sets them and as it restores them. -/
def setFlags (sequence : ℕ) (completed advances : Bool) : Tracker τ :=
  {t with tokens := t.tokens.modify sequence fun x =>
    {x with completed := completed, advances := advances}}

def completedPrefix : List ℕ := t.pending.takeWhile fun i => t.tokens[i]?.any (·.completed)

/-- The token that `complete` saves: the last of the prefix that advances. -/
def saved : Option ℕ :=
  (t.completedPrefix.filter fun i => t.tokens[i]?.any (·.advances)).getLast?

/-- One delivery less is outstanding, unless it was completed before. -/
def uncount (generation : ℕ) (completed : Bool) : ℕ → Option ℕ :=
  if completed then t.outstanding
  else Function.update t.outstanding generation (some ((t.outstanding generation).getD 1-1))

/-- The end of `complete`, after the store has saved or when it need not. -/
def finish (generation : ℕ) (completed : Bool) (taken : ℕ) : Tracker τ :=
  discardSettledGenerations {t with
    outstanding := t.uncount generation completed
    pending := t.pending.drop taken}

end Tracker

inductive Settlement where
  | ack
  | fail
  | retry
  | releaseUnstarted
  deriving DecidableEq, Repr

/-- Whether the call completes the token with `advance=True`. -/
def Settlement.advances : Settlement → Bool
  | .ack | .fail => true
  | .retry | .releaseUnstarted => false

/-- Where the settlement call of a delivery stands. -/
inductive Phase where
  | out
  | invalidating
  | completing (advance : Bool)
  | saving
  | terminal
  deriving DecidableEq, Repr

/-- A delivery, with the calls made on it and the generation in which the read
that returned it began. -/
structure Delivery where
  phase : Phase := .out
  calls : List Settlement := []
  readGeneration : ℕ := 0
  deriving DecidableEq, Repr

def Delivery.called (d : Delivery) (call : Settlement) : Delivery :=
  {d with
    phase := if call.advances then .completing true else .invalidating
    calls := d.calls++[call]}

/-- A `complete` that waits for the store: the token it completes, the flags it
had, the length of the prefix, and the token whose position is saved. -/
structure Save where
  sequence : ℕ
  generation : ℕ
  completed : Bool
  advances : Bool
  taken : ℕ
  item : ℕ
  deriving DecidableEq, Repr

/-- What the two sources have in common. The lock is held while `save` is set. -/
structure Core (τ : Type) where
  tracker : Tracker τ := {}
  committed : WithBot τ := ⊥
  deliveries : ℕ → Delivery := fun _ => {}
  save : Option Save := none

namespace Core
variable (c : Core τ)

def setPhase (i : ℕ) (phase : Phase) : Core τ :=
  {c with deliveries := Function.update c.deliveries i {(c.deliveries i) with phase := phase}}

/-- A settlement method is called on a delivery that no call is settling. -/
def settle (i : ℕ) (call : Settlement) : Option (Core τ) :=
  if i < c.tracker.tokens.length ∧ (c.deliveries i).phase = .out then
    some {c with deliveries := Function.update c.deliveries i ((c.deliveries i).called call)}
  else none

/-- `retry` and `release_unstarted` reach the tracker's `invalidate`. -/
def invalidate (i : ℕ) : Option (Core τ) :=
  match c.tracker.tokens[i]?,(c.deliveries i).phase,c.save with
  | some x,.invalidating,none =>
    some (setPhase {c with tracker := c.tracker.invalidate x.generation} i (.completing false))
  | _,_,_ => none

/-- `complete` up to its `await`, or to its end when nothing is to be saved. -/
def complete (i : ℕ) : Option (Core τ) :=
  match c.tracker.tokens[i]?,(c.deliveries i).phase,c.save with
  | some x,.completing advance,none =>
    let t := c.tracker.setFlags i true (advance && decide (x.generation ∉ c.tracker.invalidated))
    match t.saved with
    | none => some (setPhase
        {c with tracker := t.finish x.generation x.completed t.completedPrefix.length} i .terminal)
    | some item => some (setPhase {c with
        tracker := t
        save := some ⟨i,x.generation,x.completed,x.advances,t.completedPrefix.length,item⟩} i
        .saving)
  | _,_,_ => none

/-- The store has saved, or raised. -/
def saveReturns (ok : Bool) : Option (Core τ) :=
  match c.save with
  | none => none
  | some s =>
    if ok then
      some (setPhase {c with
        tracker := c.tracker.finish s.generation s.completed s.taken
        committed := (c.tracker.tokens[s.item]?.map (·.token)).elim c.committed WithBot.some
        save := none} s.sequence .terminal)
    else
      some (setPhase {c with
        tracker := c.tracker.setFlags s.sequence s.completed s.advances
        save := none} s.sequence .out)

/-- One token of a batch is handed out. -/
def deliver (readGeneration : ℕ) (token : τ) : Core τ :=
  {c with
    tracker := c.tracker.add token
    deliveries := Function.update c.deliveries c.tracker.tokens.length
      {readGeneration := readGeneration}}

def deliverAll (readGeneration : ℕ) (batch : List τ) : Core τ :=
  batch.foldl (deliver · readGeneration) c

/-- The generation and the token of a delivery. -/
def handed (i : ℕ) : Option (ℕ × τ) := c.tracker.tokens[i]?.map fun x => (x.generation,x.token)

/-- No later generation has delivered the token of this delivery again. -/
def IsLast (i : ℕ) : Prop :=
  ∀ x ∈ c.tracker.tokens[i]?, ∀ y ∈ c.tracker.tokens, y.token = x.token →
    y.generation ≤ x.generation

/-- Acked or failed, and neither retried nor released. -/
def Acked (i : ℕ) : Prop :=
  (c.deliveries i).phase = .terminal ∧ ∀ call ∈ (c.deliveries i).calls, call.advances = true

/-- As `Acked`, or in the call that is saving. -/
def Acking (i : ℕ) : Prop :=
  ((c.deliveries i).phase = .terminal ∨ (c.deliveries i).phase = .saving) ∧
    ∀ call ∈ (c.deliveries i).calls, call.advances = true

end Core

/-- What a save must respect: no generation was invalidated since the read that
returned the saved token began, and every token handed out at or before it is
acked or failed where it was last delivered. -/
def SavesSettled [LE τ] (c : Core τ) : Prop :=
  ∀ s ∈ c.save, ∃ x ∈ c.tracker.tokens[s.item]?,
    (c.deliveries s.item).readGeneration = c.tracker.generation ∧
    ∀ j < c.tracker.tokens.length, ∀ y ∈ c.tracker.tokens[j]?, y.token ≤ x.token →
      c.IsLast j → c.Acking j

instance [DecidableEq τ] (c : Core τ) (i : ℕ) : Decidable (c.IsLast i) :=
  inferInstanceAs (Decidable (∀ x ∈ c.tracker.tokens[i]?, ∀ y ∈ c.tracker.tokens,
    y.token = x.token → y.generation ≤ x.generation))

instance (c : Core τ) (i : ℕ) : Decidable (c.Acking i) :=
  inferInstanceAs (Decidable (_ ∧ _))

instance (c : Core τ) (i : ℕ) : Decidable (c.Acked i) :=
  inferInstanceAs (Decidable (_ ∧ _))

instance [LinearOrder τ] (c : Core τ) : Decidable (SavesSettled c) :=
  inferInstanceAs (Decidable (∀ s ∈ c.save, ∃ x ∈ c.tracker.tokens[s.item]?, _ ∧
    ∀ j < c.tracker.tokens.length, ∀ y ∈ c.tracker.tokens[j]?, y.token ≤ x.token →
      c.IsLast j → c.Acking j))

end OneStep.GenerationTracker
