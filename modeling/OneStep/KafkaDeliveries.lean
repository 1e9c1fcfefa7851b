import OneStep.KafkaTracker

/-!
# Deliveries of a Kafka topic

A `KafkaTopic` hands out deliveries and settles them through the offset tracker,
under a lock; each step below is one section that holds it. A fetch of several
records is that many steps, which allows more interleavings than the source has.
The poll of a fetch is taken together with its marks. A run belongs to one event
loop, since the tracker is replaced with the loop.

The main result is that a commit never passes a record that was fetched and not
acked or failed, in any order of steps and whether or not commits succeed.
-/
namespace OneStep.KafkaDeliveries
open KafkaTracker

structure Record where
  tp : TopicPartition
  offset : ℕ
  deriving DecidableEq, Repr

/-- A record as handed out by one fetch; after a seek it is handed out again. -/
structure KafkaDelivery where
  record : Record
  copy : ℕ
  deriving DecidableEq, Repr

structure KafkaTopic where
  tracker : KafkaOffsetTracker
  /-- Where the consumer reads next in each partition. -/
  position : TopicPartition → ℕ

/-- A commit may raise or be cancelled, which the last argument tells. -/
inductive Op where
  | fetch (d : KafkaDelivery)
  | startProcessing (d : KafkaDelivery)
  | ack (d : KafkaDelivery) (committed : Bool)
  | fail (d : KafkaDelivery) (committed : Bool)
  | retry (d : KafkaDelivery)
  | releaseUnstarted (d : KafkaDelivery)
  deriving DecidableEq, Repr

def Op.delivery : Op → KafkaDelivery
  | .fetch d | .startProcessing d | .ack d _ | .fail d _ | .retry d | .releaseUnstarted d => d

def Op.record (op : Op) : Record := op.delivery.record

/-- An ack or a fail, and whether its commit would succeed. -/
def Op.completes : Op → Option Bool
  | .ack _ committed | .fail _ committed => some committed
  | _ => none

section Steps
variable (k : KafkaTopic) (r : Record)

/-- `_seek_to_offset_unlocked`. -/
def KafkaTopic.seekToOffset (offset : ℕ) : KafkaTopic :=
  {k with position := Function.update k.position r.tp offset}

def KafkaTopic.fetchRecord : KafkaTopic where
  tracker := k.tracker.markFetched r.tp r.offset
  position := Function.update k.position r.tp (r.offset+1)

def KafkaTopic.markStarted : KafkaTopic :=
  {k with tracker := k.tracker.markStarted r.tp r.offset}

/-- The offset it asks the consumer to commit comes first. -/
def KafkaTopic.ackRecord (committed : Bool) : Option ℕ × KafkaTopic :=
  let marked := k.tracker.markCompleted r.tp r.offset
  match marked.1 with
  | none => (none,{k with tracker := marked.2})
  | some nextOffset =>
    (some nextOffset,{k with
      tracker := if committed then marked.2.markCommitted r.tp nextOffset else marked.2})

def KafkaTopic.releaseUnstartedRecord : KafkaTopic :=
  let released := k.tracker.markReleasedUnstarted r.tp r.offset
  match released.1 with
  | none => {k with tracker := released.2}
  | some seekOffset => KafkaTopic.seekToOffset {k with tracker := released.2} r seekOffset

def KafkaTopic.seekRecord : KafkaTopic := k.seekToOffset r r.offset

/-- One step, after the offset it commits. -/
def perform : Op → Option ℕ × KafkaTopic
  | .fetch d => (none,k.fetchRecord d.record)
  | .startProcessing d => (none,k.markStarted d.record)
  | .ack d committed => k.ackRecord d.record committed
  | .fail d committed => k.ackRecord d.record committed
  | .retry d => (none,k.seekRecord d.record)
  | .releaseUnstarted d => (none,k.releaseUnstartedRecord d.record)

def after (ops : List Op) : KafkaTopic := ops.foldl (fun k op => (perform k op).2) k

/-- The offsets committed for a partition, in order. -/
def commits (tp : TopicPartition) : KafkaTopic → List Op → List ℕ
  | _,[] => []
  | k,op::ops =>
    (if op.record.tp = tp then (perform k op).1.toList else [])++commits tp (perform k op).2 ops

end Steps

/-- A topic that has fetched nothing yet. -/
def opened (position : TopicPartition → ℕ) : KafkaTopic := ⟨fun _ => none,position⟩

section Effects

/-- What a step makes of the state of its partition, by the offset it commits;
the state is the one `_state` returned. -/
inductive Stepped (s : PartitionOffsetState) : Op → Option ℕ → PartitionOffsetState → Prop
  | fetch (d : KafkaDelivery) :
      Stepped s (.fetch d) none {s with fetchedOffsets := insert d.record.offset s.fetchedOffsets}
  | startProcessing (d : KafkaDelivery) :
      Stepped s (.startProcessing d) none
        {s with startedOffsets := insert d.record.offset s.startedOffsets}
  | waits {op : Op} {committed : Bool} {s' : PartitionOffsetState} :
      op.completes = some committed →
      s' = {s with completedOffsets := insert op.record.offset s.completedOffsets} →
      nextCommittableOffset s' = none → Stepped s op none s'
  | commitFails {op : Op} {next : ℕ} {s' : PartitionOffsetState} :
      op.completes = some false →
      s' = {s with completedOffsets := insert op.record.offset s.completedOffsets} →
      nextCommittableOffset s' = some next → Stepped s op (some next) s'
  | commits {op : Op} {next : ℕ} {s' : PartitionOffsetState} :
      op.completes = some true →
      s' = {s with completedOffsets := insert op.record.offset s.completedOffsets} →
      nextCommittableOffset s' = some next →
      Stepped s op (some next) {
        nextCommitOffset := next
        completedOffsets := s'.completedOffsets.filter fun o => ¬o < next
        fetchedOffsets := s'.fetchedOffsets.filter fun o => ¬o < next
        startedOffsets := s'.startedOffsets.filter fun o => ¬o < next}
  | releaseUnstarted (d : KafkaDelivery) (fetched : Finset ℕ) :
      Stepped s (.releaseUnstarted d) none {s with fetchedOffsets := fetched}

variable {k : KafkaTopic} {op : Op} {tp : TopicPartition}

theorem set_set (t : KafkaOffsetTracker) (s s' : PartitionOffsetState) :
    (t.set tp s).set tp s' = t.set tp s' := Function.update_idem _ _ _

theorem markCommitted_set {t : KafkaOffsetTracker} {s : PartitionOffsetState} {next : ℕ}
    (h : s.nextCommitOffset < next) :
    (t.set tp s).markCommitted tp next = t.set tp {
      nextCommitOffset := next
      completedOffsets := s.completedOffsets.filter fun o => ¬o < next
      fetchedOffsets := s.fetchedOffsets.filter fun o => ¬o < next
      startedOffsets := s.startedOffsets.filter fun o => ¬o < next} := by
  have hstate : (t.set tp s).state tp next = s := by
    rw [state_some (set_same s),Nat.min_eq_right (Nat.le_of_lt h)]
  unfold KafkaOffsetTracker.markCommitted
  rw [hstate,set_set]

theorem ackRecord_stepped (op : Op) {committed : Bool} (h : op.completes = some committed) :
    ∃ s', (k.ackRecord op.record committed).2.tracker = k.tracker.set op.record.tp s' ∧
      Stepped (k.tracker.state op.record.tp op.record.offset) op
        (k.ackRecord op.record committed).1 s' := by
  unfold KafkaTopic.ackRecord KafkaOffsetTracker.markCompleted
  dsimp only
  generalize hs : k.tracker.state op.record.tp op.record.offset = s
  generalize hs' : {s with completedOffsets := insert op.record.offset s.completedOffsets} = s'
  cases hnext : nextCommittableOffset s' with
  | none => exact ⟨s',rfl,.waits h hs'.symm hnext⟩
  | some next =>
    cases committed with
    | false => exact ⟨s',rfl,.commitFails h hs'.symm hnext⟩
    | true =>
      have hlt := (nextCommittableOffset_some hnext).1
      exact ⟨_,markCommitted_set hlt,.commits h hs'.symm hnext⟩

theorem releaseUnstartedRecord_tracker (r : Record) :
    (k.releaseUnstartedRecord r).tracker =
      (k.tracker.markReleasedUnstarted r.tp r.offset).2 := by
  unfold KafkaTopic.releaseUnstartedRecord
  dsimp only
  split <;> rfl

theorem perform_stepped (k : KafkaTopic) (op : Op) :
    (∃ d, op = .retry d ∧ (perform k op).1 = none ∧ (perform k op).2.tracker = k.tracker) ∨
      ∃ s', (perform k op).2.tracker = k.tracker.set op.record.tp s' ∧
        Stepped (k.tracker.state op.record.tp op.record.offset) op (perform k op).1 s' := by
  cases op with
  | fetch d => exact .inr ⟨_,rfl,.fetch d⟩
  | startProcessing d => exact .inr ⟨_,rfl,.startProcessing d⟩
  | ack d committed => exact .inr (ackRecord_stepped (.ack d committed) rfl)
  | fail d committed => exact .inr (ackRecord_stepped (.fail d committed) rfl)
  | retry d => exact .inl ⟨d,rfl,rfl,rfl⟩
  | releaseUnstarted d =>
    have htracker := releaseUnstartedRecord_tracker (k := k) d.record
    refine .inr ?_
    unfold KafkaOffsetTracker.markReleasedUnstarted at htracker
    dsimp only at htracker
    split at htracker
    · exact ⟨_,htracker,.releaseUnstarted d _⟩
    · exact ⟨_,htracker,.releaseUnstarted d _⟩

theorem perform_other (h : op.record.tp ≠ tp) : (perform k op).2.tracker tp = k.tracker tp := by
  rcases perform_stepped k op with ⟨d,-,-,ht⟩ | ⟨s',ht,-⟩
  · rw [ht]
  · rw [ht]
    exact set_other (fun e => h e.symm) s'

/-- Where a step moves the consumer in its partition. -/
def moves (k : KafkaTopic) : Op → Option ℕ
  | .fetch d => some (d.record.offset+1)
  | .retry d => some d.record.offset
  | .releaseUnstarted d => (k.tracker.markReleasedUnstarted d.record.tp d.record.offset).1
  | _ => none

theorem ackRecord_position (k : KafkaTopic) (r : Record) (committed : Bool) :
    (k.ackRecord r committed).2.position = k.position := by
  unfold KafkaTopic.ackRecord
  dsimp only
  split <;> rfl

theorem perform_position (k : KafkaTopic) (op : Op) : (perform k op).2.position =
    (moves k op).elim k.position (Function.update k.position op.record.tp) := by
  cases op with
  | ack d committed => exact ackRecord_position k d.record committed
  | fail d committed => exact ackRecord_position k d.record committed
  | releaseUnstarted d =>
    change (k.releaseUnstartedRecord d.record).position = _
    simp only [KafkaTopic.releaseUnstartedRecord,moves]
    cases (k.tracker.markReleasedUnstarted d.record.tp d.record.offset).1 <;> rfl
  | _ => rfl

theorem position_other (h : op.record.tp ≠ tp) : (perform k op).2.position tp = k.position tp := by
  rw [perform_position]
  cases moves k op with
  | none => rfl
  | some p => exact Function.update_of_ne (fun e => h e.symm) p k.position

theorem position_own (k : KafkaTopic) (op : Op) : (perform k op).2.position op.record.tp =
    (moves k op).getD (k.position op.record.tp) := by
  rw [perform_position]
  cases moves k op with
  | none => rfl
  | some p => exact Function.update_self _ _ _

theorem moves_release (k : KafkaTopic) (d : KafkaDelivery) :
    moves k (.releaseUnstarted d) = none ∨
      moves k (.releaseUnstarted d) = some d.record.offset := by
  simp only [moves,KafkaOffsetTracker.markReleasedUnstarted]
  split
  · exact .inl rfl
  · exact .inr rfl

end Effects

section Runs
variable {k : KafkaTopic} {ops : List Op} {op : Op} {tp : TopicPartition}

theorem after_append (ops ops' : List Op) : after k (ops++ops') = after (after k ops) ops' :=
  List.foldl_append

theorem after_snoc : after k (ops++[op]) = (perform (after k ops) op).2 := by
  rw [after_append]
  rfl

theorem commits_append (ops ops' : List Op) :
    commits tp k (ops++ops') = commits tp k ops++commits tp (after k ops) ops' := by
  induction ops generalizing k with
  | nil => rfl
  | cons op ops ih =>
    simp only [List.cons_append,commits,ih,List.append_assoc]
    rfl

theorem commits_snoc : commits tp k (ops++[op]) = commits tp k ops++
    if op.record.tp = tp then (perform (after k ops) op).1.toList else [] := by
  rw [commits_append]
  simp [commits]

end Runs

section History
variable {ops : List Op} {op : Op} {tp : TopicPartition} {r : Record}

/-- The record was handed out. -/
def Fetched (ops : List Op) (r : Record) : Prop := ∃ d, .fetch d ∈ ops ∧ d.record = r

/-- A delivery of the record was acked or failed. -/
def Acked (ops : List Op) (r : Record) : Prop :=
  ∃ op ∈ ops, op.completes.isSome = true ∧ op.record = r

theorem fetched_snoc : Fetched (ops++[op]) r ↔ Fetched ops r ∨ ∃ d, op = .fetch d ∧ d.record = r := by
  constructor
  · rintro ⟨d,hd,hr⟩
    rcases List.mem_append.mp hd with hd | hd
    · exact .inl ⟨d,hd,hr⟩
    · exact .inr ⟨d,(List.mem_singleton.mp hd).symm,hr⟩
  · rintro (⟨d,hd,hr⟩ | ⟨d,rfl,hr⟩)
    · exact ⟨d,List.mem_append_left _ hd,hr⟩
    · exact ⟨d,by simp,hr⟩

theorem acked_snoc : Acked (ops++[op]) r ↔
    Acked ops r ∨ (op.completes.isSome = true ∧ op.record = r) := by
  constructor
  · rintro ⟨op',hin,hdone,hr⟩
    rcases List.mem_append.mp hin with hin | hin
    · exact .inl ⟨op',hin,hdone,hr⟩
    · rw [List.mem_singleton.mp hin] at hdone hr
      exact .inr ⟨hdone,hr⟩
  · rintro (⟨op',hin,hdone,hr⟩ | ⟨hdone,hr⟩)
    · exact ⟨op',List.mem_append_left _ hin,hdone,hr⟩
    · exact ⟨op,by simp,hdone,hr⟩

theorem fetched_same (h : ∀ d, op ≠ .fetch d) : Fetched (ops++[op]) r ↔ Fetched ops r := by
  rw [fetched_snoc]
  refine or_iff_left ?_
  rintro ⟨d,he,-⟩
  exact h d he

theorem acked_same (h : op.completes = none) : Acked (ops++[op]) r ↔ Acked ops r := by
  rw [acked_snoc]
  refine or_iff_left ?_
  rintro ⟨hdone,-⟩
  rw [h] at hdone
  cases hdone

end History

section Prefix
variable {k : KafkaTopic} {ops : List Op} {op : Op} {tp : TopicPartition}
  {s s' : PartitionOffsetState}

/-- Below the next offset to commit, and among the completed offsets, every
fetched record was acked. -/
structure Sound (ops : List Op) (tp : TopicPartition) (s : PartitionOffsetState) : Prop where
  passed : ∀ o < s.nextCommitOffset, Fetched ops ⟨tp,o⟩ → Acked ops ⟨tp,o⟩
  completed : ∀ o ∈ s.completedOffsets, Acked ops ⟨tp,o⟩

structure Tracked (ops : List Op) (k : KafkaTopic) (tp : TopicPartition) : Prop where
  known : ∀ s, k.tracker tp = some s → Sound ops tp s
  unknown : k.tracker tp = none → ∀ o, ¬Fetched ops ⟨tp,o⟩

theorem Tracked.state (h : Tracked ops k tp) (offset : ℕ) :
    Sound ops tp (k.tracker.state tp offset) := by
  cases ht : k.tracker tp with
  | none =>
    rw [state_none ht]
    exact ⟨fun o _ hf => absurd hf (h.unknown ht o),fun o ho => absurd ho (Finset.notMem_empty o)⟩
  | some s =>
    have hs := h.known s ht
    rw [state_some ht]
    refine ⟨fun o ho hf => hs.passed o ?_ hf,hs.completed⟩
    exact Nat.lt_of_lt_of_le ho (Nat.min_le_right _ _)

theorem Sound.snoc (h : Sound ops op.record.tp s) (hle : s.nextCommitOffset ≤ op.record.offset) :
    Sound (ops++[op]) op.record.tp s := by
  refine ⟨fun o ho hf => acked_snoc.mpr ?_,fun o ho => acked_snoc.mpr (.inl (h.completed o ho))⟩
  rcases fetched_snoc.mp hf with hf | ⟨d,rfl,hr⟩
  · exact .inl (h.passed o ho hf)
  · have hoffset : d.record.offset = o := congrArg Record.offset hr
    change s.nextCommitOffset ≤ d.record.offset at hle
    omega

theorem Sound.insert {committed : Bool} (h : Sound ops op.record.tp s)
    (hle : s.nextCommitOffset ≤ op.record.offset) (hdone : op.completes = some committed)
    (hs' : s' = {s with completedOffsets := insert op.record.offset s.completedOffsets}) :
    Sound (ops++[op]) op.record.tp s' := by
  have hsnoc := h.snoc hle
  rw [hs']
  refine ⟨hsnoc.passed,fun o ho => ?_⟩
  rcases Finset.mem_insert.mp ho with rfl | ho
  · exact acked_snoc.mpr (.inr ⟨by rw [hdone]; rfl,rfl⟩)
  · exact hsnoc.completed o ho

theorem Sound.committable {next : ℕ} (h : Sound ops tp s)
    (hnext : nextCommittableOffset s = some next) (o : ℕ) (ho : o < next)
    (hf : Fetched ops ⟨tp,o⟩) : Acked ops ⟨tp,o⟩ := by
  by_cases hlt : o < s.nextCommitOffset
  · exact h.passed o hlt hf
  · have hmem := (nextCommittableOffset_some hnext).2.2 o (Nat.le_of_not_lt hlt) ho
    exact h.completed o hmem

theorem stepped_sound {c : Option ℕ} (hstep : Stepped s op c s') (h : Sound ops op.record.tp s)
    (hle : s.nextCommitOffset ≤ op.record.offset) : Sound (ops++[op]) op.record.tp s' := by
  cases hstep with
  | fetch d => exact ⟨(h.snoc hle).passed,(h.snoc hle).completed⟩
  | startProcessing d => exact ⟨(h.snoc hle).passed,(h.snoc hle).completed⟩
  | waits hdone hs' _ => exact h.insert hle hdone hs'
  | commitFails hdone hs' _ => exact h.insert hle hdone hs'
  | commits hdone hs' hnext =>
    have hinsert := h.insert hle hdone hs'
    refine ⟨hinsert.committable hnext,fun o ho => hinsert.completed o ?_⟩
    exact (Finset.mem_filter.mp ho).1
  | releaseUnstarted d fetched => exact ⟨(h.snoc hle).passed,(h.snoc hle).completed⟩

theorem stepped_commit {next : ℕ} (hstep : Stepped s op (some next) s')
    (h : Sound ops op.record.tp s) (hle : s.nextCommitOffset ≤ op.record.offset) :
    ∀ o < next, Fetched ops ⟨op.record.tp,o⟩ → Acked (ops++[op]) ⟨op.record.tp,o⟩ := by
  intro o ho hf
  have hf' : Fetched (ops++[op]) ⟨op.record.tp,o⟩ := fetched_snoc.mpr (.inl hf)
  cases hstep with
  | commitFails hdone hs' hnext => exact (h.insert hle hdone hs').committable hnext o ho hf'
  | commits hdone hs' hnext => exact (h.insert hle hdone hs').committable hnext o ho hf'

theorem Tracked.unchanged {k' : KafkaTopic} (h : Tracked ops k tp)
    (ht : k'.tracker tp = k.tracker tp)
    (hf : ∀ o, Fetched (ops++[op]) ⟨tp,o⟩ → Fetched ops ⟨tp,o⟩) : Tracked (ops++[op]) k' tp := by
  constructor
  · intro s hs
    rw [ht] at hs
    have hsound := h.known s hs
    exact ⟨fun o ho hfetched => acked_snoc.mpr (.inl (hsound.passed o ho (hf o hfetched))),
      fun o ho => acked_snoc.mpr (.inl (hsound.completed o ho))⟩
  · intro hnone o hfetched
    rw [ht] at hnone
    exact h.unknown hnone o (hf o hfetched)

theorem fetched_other (hne : op.record.tp ≠ tp) (o : ℕ) (hf : Fetched (ops++[op]) ⟨tp,o⟩) :
    Fetched ops ⟨tp,o⟩ := by
  rcases fetched_snoc.mp hf with hf | ⟨d,rfl,hr⟩
  · exact hf
  · exact absurd (congrArg Record.tp hr) hne

/-- One step keeps the invariant, in its partition and in the others. -/
theorem perform_tracked (h : Tracked ops k tp) : Tracked (ops++[op]) (perform k op).2 tp := by
  by_cases htp : op.record.tp = tp
  · subst htp
    rcases perform_stepped k op with ⟨d,rfl,-,ht⟩ | ⟨s',ht,hstep⟩
    · exact h.unchanged (by rw [ht]) fun o => (fetched_same fun d he => by cases he).mp
    · have hsound := stepped_sound hstep (h.state op.record.offset) state_le
      refine ⟨fun s hs => ?_,fun hnone => ?_⟩
      · rw [ht,set_same] at hs
        cases hs
        exact hsound
      · rw [ht,set_same] at hnone
        cases hnone
  · exact h.unchanged (perform_other htp) (fetched_other htp)

theorem after_tracked (position : TopicPartition → ℕ) (ops : List Op) (tp : TopicPartition) :
    Tracked ops (after (opened position) ops) tp := by
  induction ops using List.reverseRecOn with
  | nil =>
    constructor
    · intro s hs
      cases hs
    · rintro _ o ⟨d,hd,-⟩
      cases hd
  | append_singleton ops op ih =>
    rw [after_snoc]
    exact perform_tracked ih

/-- When an offset is committed, every record below it that was ever fetched was
acked or failed. -/
theorem commit_passes_acked (position : TopicPartition → ℕ) (ops : List Op) (op : Op) (next : ℕ)
    (h : (perform (after (opened position) ops) op).1 = some next) :
    ∀ o < next, Fetched ops ⟨op.record.tp,o⟩ → Acked (ops++[op]) ⟨op.record.tp,o⟩ := by
  rcases perform_stepped (after (opened position) ops) op with ⟨d,-,hnone,-⟩ | ⟨s',-,hstep⟩
  · rw [h] at hnone
    cases hnone
  · rw [h] at hstep
    exact stepped_commit hstep ((after_tracked position ops op.record.tp).state _) state_le

end Prefix

section Samples

def orders : TopicPartition := ⟨"orders",0⟩

/-- The delivery of an offset by the fetch of this number. -/
def delivery (offset copy : ℕ) : KafkaDelivery := ⟨⟨orders,offset⟩,copy⟩

end Samples

/-- Two records, acked in the other order: the second ack commits both. -/
theorem outOfOrder_commit_passes_acked :
    (perform (after (opened fun _ => 10) [.fetch (delivery 10 0),.fetch (delivery 11 0),
      .ack (delivery 11 0) true]) (.ack (delivery 10 0) true)).1 = some 12 ∧
    ∀ o < 12, Fetched [.fetch (delivery 10 0),.fetch (delivery 11 0),
      .ack (delivery 11 0) true] ⟨orders,o⟩ →
      Acked ([.fetch (delivery 10 0),.fetch (delivery 11 0),.ack (delivery 11 0) true]++
        [.ack (delivery 10 0) true]) ⟨orders,o⟩ := by
  have hcommit : (perform (after (opened fun _ => 10) [.fetch (delivery 10 0),
      .fetch (delivery 11 0),.ack (delivery 11 0) true]) (.ack (delivery 10 0) true)).1 = some 12 := by
    decide
  exact ⟨hcommit,commit_passes_acked (fun _ => 10) _ _ 12 hcommit⟩

end OneStep.KafkaDeliveries
