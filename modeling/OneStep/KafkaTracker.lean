import Mathlib.Data.Finset.Card
import Mathlib.Order.Interval.Finset.Nat
import Mathlib.Logic.Function.Basic

/-!
# The offset tracker of a Kafka consumer

`KafkaOffsetTracker` keeps, for each partition, the next offset to commit and
the offsets that were fetched, started and completed. Every operation looks the
partition up through `_state`, which creates it at the given offset, or lowers
the next offset to commit when an older offset reappears.

The source types that field as optional, but every state is created with an
offset, so that here it is a number.
-/
namespace OneStep.KafkaTracker

structure TopicPartition where
  topic : String
  partition : ℕ
  deriving DecidableEq, Repr

structure PartitionOffsetState where
  nextCommitOffset : ℕ
  fetchedOffsets : Finset ℕ := ∅
  startedOffsets : Finset ℕ := ∅
  completedOffsets : Finset ℕ := ∅
  deriving DecidableEq

abbrev KafkaOffsetTracker := TopicPartition → Option PartitionOffsetState

section Gap

/-- The loop that walks over the members of a set, with a bound on its steps. -/
def advance (s : Finset ℕ) : ℕ → ℕ → ℕ
  | 0,n => n
  | fuel+1,n => if n ∈ s then advance s fuel (n+1) else n

variable (s : Finset ℕ)

theorem advance_le (fuel n : ℕ) : n ≤ advance s fuel n := by
  induction fuel generalizing n with
  | zero => exact le_rfl
  | succ fuel ih =>
    rw [advance]
    split
    · have hnext := ih (n+1)
      omega
    · exact le_rfl

theorem advance_mem {s : Finset ℕ} {fuel n m : ℕ} (hn : n ≤ m) (hm : m < advance s fuel n) :
    m ∈ s := by
  induction fuel generalizing n with
  | zero =>
    rw [advance] at hm
    omega
  | succ fuel ih =>
    rw [advance] at hm
    split at hm
    · rename_i hmem
      rcases Nat.eq_or_lt_of_le hn with rfl | hlt
      · exact hmem
      · exact ih hlt hm
    · omega

/-- The bound is reached only by walking over as many members. -/
theorem advance_stops (fuel n : ℕ) : advance s fuel n ∉ s ∨ advance s fuel n = n+fuel := by
  induction fuel generalizing n with
  | zero => exact .inr rfl
  | succ fuel ih =>
    rw [advance]
    split
    · rcases ih (n+1) with h | h
      · exact .inl h
      · exact .inr (by omega)
    · rename_i hmem
      exact .inl hmem

/-- The first number from `n` on that is not in the set. -/
def firstGap (s : Finset ℕ) (n : ℕ) : ℕ := advance s s.card n

theorem firstGap_le (n : ℕ) : n ≤ firstGap s n := advance_le s _ n

theorem mem_of_lt_firstGap {s : Finset ℕ} {n m : ℕ} (hn : n ≤ m) (hm : m < firstGap s n) :
    m ∈ s := advance_mem hn hm

theorem firstGap_not_mem (n : ℕ) : firstGap s n ∉ s := by
  intro hmem
  have hend : firstGap s n = n+s.card :=
    (advance_stops s s.card n).resolve_left fun h => h hmem
  have hsub : Finset.Icc n (n+s.card) ⊆ s := by
    intro m hm
    rw [Finset.mem_Icc] at hm
    rcases Nat.eq_or_lt_of_le hm.2 with rfl | hlt
    · rw [← hend]
      exact hmem
    · exact mem_of_lt_firstGap hm.1 (by rw [hend]; exact hlt)
  have hcard := Finset.card_le_card hsub
  rw [Nat.card_Icc] at hcard
  omega

end Gap

section Operations
variable (t : KafkaOffsetTracker) (tp : TopicPartition) (offset : ℕ)

def KafkaOffsetTracker.state : PartitionOffsetState :=
  match t tp with
  | none => {nextCommitOffset := offset}
  | some s => if offset < s.nextCommitOffset then {s with nextCommitOffset := offset} else s

def KafkaOffsetTracker.set (s : PartitionOffsetState) : KafkaOffsetTracker :=
  Function.update t tp (some s)

def KafkaOffsetTracker.markFetched : KafkaOffsetTracker :=
  let s := t.state tp offset
  t.set tp {s with fetchedOffsets := insert offset s.fetchedOffsets}

def KafkaOffsetTracker.markStarted : KafkaOffsetTracker :=
  let s := t.state tp offset
  t.set tp {s with startedOffsets := insert offset s.startedOffsets}

def nextCommittableOffset (s : PartitionOffsetState) : Option ℕ :=
  let nextOffset := firstGap s.completedOffsets s.nextCommitOffset
  if nextOffset = s.nextCommitOffset then none else some nextOffset

def KafkaOffsetTracker.markCompleted : Option ℕ × KafkaOffsetTracker :=
  let s := t.state tp offset
  let s' := {s with completedOffsets := insert offset s.completedOffsets}
  (nextCommittableOffset s',t.set tp s')

def KafkaOffsetTracker.markCommitted (nextOffset : ℕ) : KafkaOffsetTracker :=
  let s := t.state tp nextOffset
  t.set tp {
    nextCommitOffset := nextOffset
    completedOffsets := s.completedOffsets.filter fun o => ¬o < nextOffset
    fetchedOffsets := s.fetchedOffsets.filter fun o => ¬o < nextOffset
    startedOffsets := s.startedOffsets.filter fun o => ¬o < nextOffset}

/-- None when the offset was started or completed; else the offset to seek. -/
def KafkaOffsetTracker.markReleasedUnstarted : Option ℕ × KafkaOffsetTracker :=
  let s := t.state tp offset
  if offset ∈ s.startedOffsets ∨ offset ∈ s.completedOffsets then (none,t.set tp s)
  else (some offset,t.set tp {s with fetchedOffsets := s.fetchedOffsets.erase offset})

def KafkaOffsetTracker.nextCommittedOffset : Option ℕ :=
  (t tp).map PartitionOffsetState.nextCommitOffset

end Operations

section Lookup
variable {t : KafkaOffsetTracker} {tp tp' : TopicPartition} {offset : ℕ} {s : PartitionOffsetState}

@[simp] theorem set_same (s : PartitionOffsetState) : t.set tp s tp = some s := by
  simp [KafkaOffsetTracker.set]

@[simp] theorem set_other (h : tp' ≠ tp) (s : PartitionOffsetState) : t.set tp s tp' = t tp' := by
  simp [KafkaOffsetTracker.set,h]

theorem state_le : (t.state tp offset).nextCommitOffset ≤ offset := by
  unfold KafkaOffsetTracker.state
  split
  · exact le_rfl
  · split
    · exact le_rfl
    · rename_i h
      exact Nat.le_of_not_lt h

theorem state_some (h : t tp = some s) :
    t.state tp offset = {s with nextCommitOffset := min offset s.nextCommitOffset} := by
  unfold KafkaOffsetTracker.state
  rw [h]
  dsimp only
  split
  · rename_i hlt
    rw [Nat.min_eq_left (Nat.le_of_lt hlt)]
  · rename_i hge
    rw [Nat.min_eq_right (Nat.le_of_not_lt hge)]

theorem state_none (h : t tp = none) : t.state tp offset = {nextCommitOffset := offset} := by
  unfold KafkaOffsetTracker.state
  rw [h]

/-- Passing over completed offsets is the only way to a new offset to commit. -/
theorem nextCommittableOffset_some {next : ℕ} (h : nextCommittableOffset s = some next) :
    s.nextCommitOffset < next ∧ next ∉ s.completedOffsets ∧
      ∀ o, s.nextCommitOffset ≤ o → o < next → o ∈ s.completedOffsets := by
  unfold nextCommittableOffset at h
  dsimp only at h
  split at h
  · cases h
  · rename_i hne
    cases h
    have hle := firstGap_le s.completedOffsets s.nextCommitOffset
    exact ⟨by omega,firstGap_not_mem _ _,fun o h₁ h₂ => mem_of_lt_firstGap h₁ h₂⟩

theorem nextCommittableOffset_none (h : nextCommittableOffset s = none) :
    s.nextCommitOffset ∉ s.completedOffsets := by
  unfold nextCommittableOffset at h
  dsimp only at h
  split at h
  · rename_i he
    have hgap := firstGap_not_mem s.completedOffsets s.nextCommitOffset
    rwa [he] at hgap
  · cases h

end Lookup

end OneStep.KafkaTracker
