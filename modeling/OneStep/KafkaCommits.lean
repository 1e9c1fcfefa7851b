import OneStep.KafkaDeliveries

/-!
# Commits catch up

With consecutive offsets, one consumer and commits that succeed, the committed
offsets should not go back, and should end one past the last fetched offset when
every record was acked or failed. Both hold as long as no step concerns an
offset below the next one to commit: such a step lowers that offset, although
the completed offsets above it were already forgotten.
-/
namespace OneStep.KafkaCommits
open KafkaTracker KafkaDeliveries

/-- A fetch returns the record at the position of the consumer; any other step
settles or starts a delivery that was handed out. -/
def Genuine (k : KafkaTopic) (ops : List Op) : Op → Prop
  | .fetch d => d.record.offset = k.position d.record.tp
  | op => .fetch op.delivery ∈ ops

/-- The runs of one consumer whose commits succeed. -/
inductive ConsumerRun (position : TopicPartition → ℕ) : List Op → Prop
  | nil : ConsumerRun position []
  | snoc {ops : List Op} {op : Op} : ConsumerRun position ops →
      Genuine (after (opened position) ops) ops op → op.completes ≠ some false →
      ConsumerRun position (ops++[op])

def settles : Op → Bool
  | .fetch _ | .startProcessing _ => false
  | _ => true

/-- The last step that settled a delivery of the record. -/
def lastSettlement (ops : List Op) (r : Record) : Option Op :=
  (ops.filter fun op => settles op ∧ op.record = r).getLast?

/-- The commits of the partition never go back, and they are complete when all
deliveries are settled and all records finally acked or failed. -/
structure CatchesUp (position : TopicPartition → ℕ) (ops : List Op) (tp : TopicPartition) :
    Prop where
  ordered : (commits tp (opened position) ops).Pairwise (· ≤ ·)
  complete : (∀ d, .fetch d ∈ ops → d.record.tp = tp →
      ∃ op ∈ ops, settles op = true ∧ op.delivery = d) →
    (∀ o, Fetched ops ⟨tp,o⟩ → ∃ op, lastSettlement ops ⟨tp,o⟩ = some op ∧
      op.completes.isSome = true) →
    ∀ m, Fetched ops ⟨tp,m⟩ → (∀ o, Fetched ops ⟨tp,o⟩ → o ≤ m) →
      (commits tp (opened position) ops).getLast? = some (m+1)

/-- The branch of `_state` that lowers the next offset to commit is not taken. -/
def NotLate (k : KafkaTopic) : Op → Prop
  | .retry _ => True
  | op => ∀ s ∈ k.tracker op.record.tp, s.nextCommitOffset ≤ op.record.offset

section Progress
variable {position : TopicPartition → ℕ} {k : KafkaTopic} {ops : List Op} {op : Op}
  {tp : TopicPartition} {s s' : PartitionOffsetState} {last : ℕ}

/-- A partition of which the offsets up to `last` were fetched. -/
structure Follows (position : TopicPartition → ℕ) (ops : List Op) (k : KafkaTopic)
    (tp : TopicPartition) (s : PartitionOffsetState) (last : ℕ) : Prop where
  fetched : ∀ o, Fetched ops ⟨tp,o⟩ ↔ position tp ≤ o ∧ o ≤ last
  began : position tp ≤ last
  reads : position tp ≤ k.position tp ∧ k.position tp ≤ last+1
  bounds : position tp ≤ s.nextCommitOffset ∧ s.nextCommitOffset ≤ last+1
  completed : ∀ o ∈ s.completedOffsets, o ≤ last
  gap : s.nextCommitOffset ∉ s.completedOffsets
  acked : ∀ o, Acked ops ⟨tp,o⟩ → o < s.nextCommitOffset ∨ o ∈ s.completedOffsets
  ordered : (commits tp (opened position) ops).Pairwise (· ≤ ·)
  reached : (commits tp (opened position) ops).getLast? = some s.nextCommitOffset ∨
    (commits tp (opened position) ops = [] ∧ s.nextCommitOffset = position tp)

/-- Nothing of the partition was fetched. -/
structure Unread (position : TopicPartition → ℕ) (ops : List Op) (k : KafkaTopic)
    (tp : TopicPartition) : Prop where
  fetched : ∀ o, ¬Fetched ops ⟨tp,o⟩
  acked : ∀ o, ¬Acked ops ⟨tp,o⟩
  reads : k.position tp = position tp
  uncommitted : commits tp (opened position) ops = []

/-- The invariant of a partition. -/
def Progress (position : TopicPartition → ℕ) (ops : List Op) (k : KafkaTopic)
    (tp : TopicPartition) : Prop :=
  match k.tracker tp with
  | none => Unread position ops k tp
  | some s => ∃ last, Follows position ops k tp s last

theorem getLast_le {l : List ℕ} {n : ℕ} (h : l.Pairwise (· ≤ ·)) (hn : l.getLast? = some n) :
    ∀ m ∈ l, m ≤ n := by
  obtain ⟨l',rfl⟩ := List.getLast?_eq_some_iff.mp hn
  intro m hm
  rcases List.mem_append.mp hm with hm | hm
  · exact (List.pairwise_append.mp h).2.2 m hm n (by simp)
  · rw [List.mem_singleton.mp hm]

theorem Follows.commits_le (h : Follows position ops k tp s last) :
    ∀ m ∈ commits tp (opened position) ops, m ≤ s.nextCommitOffset := by
  rcases h.reached with hlast | ⟨hnil,-⟩
  · exact getLast_le h.ordered hlast
  · rw [hnil]
    intro m hm
    cases hm

theorem Follows.complete (h : Follows position ops k tp s last)
    (hall : ∀ o, Fetched ops ⟨tp,o⟩ → Acked ops ⟨tp,o⟩) :
    (commits tp (opened position) ops).getLast? = some (last+1) := by
  have hbegan := h.began
  have hnext : s.nextCommitOffset = last+1 := by
    by_contra hne
    have hle : s.nextCommitOffset ≤ last := by
      have hbound := h.bounds.2
      omega
    have hfetched := (h.fetched s.nextCommitOffset).mpr ⟨h.bounds.1,hle⟩
    rcases h.acked _ (hall _ hfetched) with hlt | hmem
    · exact absurd hlt (Nat.lt_irrefl _)
    · exact h.gap hmem
  rcases h.reached with hlast | ⟨-,hstart⟩
  · rw [hlast,hnext]
  · omega

variable {k' : KafkaTopic} {d : KafkaDelivery}

/-- A step that fetches and completes nothing here keeps everything, as long as
the consumer stays within the fetched offsets. -/
theorem Follows.keep (h : Follows position ops k tp s last)
    (hfetched : ∀ o, Fetched (ops++[op]) ⟨tp,o⟩ ↔ Fetched ops ⟨tp,o⟩)
    (hacked : ∀ o, Acked (ops++[op]) ⟨tp,o⟩ → Acked ops ⟨tp,o⟩)
    (hcommits : commits tp (opened position) (ops++[op]) = commits tp (opened position) ops)
    (hreads : position tp ≤ k'.position tp ∧ k'.position tp ≤ last+1)
    (hnext : s'.nextCommitOffset = s.nextCommitOffset)
    (hcompleted : s'.completedOffsets = s.completedOffsets) :
    Follows position (ops++[op]) k' tp s' last := by
  constructor
  · intro o
    rw [hfetched]
    exact h.fetched o
  · exact h.began
  · exact hreads
  · rw [hnext]
    exact h.bounds
  · rw [hcompleted]
    exact h.completed
  · rw [hnext,hcompleted]
    exact h.gap
  · intro o ho
    rw [hnext,hcompleted]
    exact h.acked o (hacked o ho)
  · rw [hcommits]
    exact h.ordered
  · rw [hcommits,hnext]
    exact h.reached

theorem Follows.fetch (h : Follows position ops k d.record.tp s last)
    (hgenuine : d.record.offset = k.position d.record.tp)
    (hreads : k'.position d.record.tp = d.record.offset+1)
    (hnext : s'.nextCommitOffset = s.nextCommitOffset)
    (hcompleted : s'.completedOffsets = s.completedOffsets) :
    Follows position (ops++[.fetch d]) k' d.record.tp s' (max last d.record.offset) := by
  have hcommits : commits d.record.tp (opened position) (ops++[.fetch d]) =
      commits d.record.tp (opened position) ops := by
    rw [commits_snoc]
    simp [perform]
  obtain ⟨hlow,hhigh⟩ := h.reads
  have hbegan := h.began
  have hbounds := h.bounds
  rw [← hgenuine] at hlow hhigh
  constructor
  · intro o
    rw [fetched_snoc,h.fetched]
    constructor
    · rintro (⟨h₁,h₂⟩ | ⟨d',he,hr⟩)
      · omega
      · cases he
        have hoffset : d.record.offset = o := congrArg Record.offset hr
        omega
    · rintro ⟨h₁,h₂⟩
      by_cases ho : o ≤ last
      · exact .inl ⟨h₁,ho⟩
      · have hoffset : d.record.offset = o := by omega
        exact .inr ⟨d,rfl,by rw [← hoffset]⟩
  · omega
  · omega
  · omega
  · intro o ho
    rw [hcompleted] at ho
    have hle := h.completed o ho
    omega
  · rw [hnext,hcompleted]
    exact h.gap
  · intro o ho
    rw [hnext,hcompleted]
    exact h.acked o ((acked_same rfl).mp ho)
  · rw [hcommits]
    exact h.ordered
  · rw [hcommits,hnext]
    exact h.reached

theorem Follows.completing (h : Follows position ops k op.record.tp s last)
    (hlast : op.record.offset ≤ last)
    (hs' : s' = {s with completedOffsets := insert op.record.offset s.completedOffsets}) :
    (∀ o ∈ s'.completedOffsets, o ≤ last) ∧
      ∀ o, Acked (ops++[op]) ⟨op.record.tp,o⟩ →
        o < s.nextCommitOffset ∨ o ∈ s'.completedOffsets := by
  rw [hs']
  constructor
  · intro o ho
    rcases Finset.mem_insert.mp ho with rfl | ho
    · exact hlast
    · exact h.completed o ho
  · intro o ho
    rcases acked_snoc.mp ho with ho | ⟨-,hr⟩
    · exact (h.acked o ho).imp_right fun hmem => Finset.mem_insert_of_mem hmem
    · have hoffset : op.record.offset = o := congrArg Record.offset hr
      rw [← hoffset]
      exact .inr (Finset.mem_insert_self _ _)

theorem completes_not_fetch {committed : Bool} (h : op.completes = some committed)
    (d : KafkaDelivery) : op ≠ .fetch d := by
  rintro rfl
  cases h

theorem Follows.waits (h : Follows position ops k op.record.tp s last) {committed : Bool}
    (hdone : op.completes = some committed) (hlast : op.record.offset ≤ last)
    (hs' : s' = {s with completedOffsets := insert op.record.offset s.completedOffsets})
    (hnone : nextCommittableOffset s' = none)
    (hcommit : (perform (after (opened position) ops) op).1 = none)
    (hreads : k'.position op.record.tp = k.position op.record.tp) :
    Follows position (ops++[op]) k' op.record.tp s' last := by
  have hcommits : commits op.record.tp (opened position) (ops++[op]) =
      commits op.record.tp (opened position) ops := by
    rw [commits_snoc,hcommit]
    simp
  obtain ⟨hcompleted,hacked⟩ := h.completing hlast hs'
  have hnext : s'.nextCommitOffset = s.nextCommitOffset := by rw [hs']
  constructor
  · intro o
    rw [fetched_same (completes_not_fetch hdone)]
    exact h.fetched o
  · exact h.began
  · rw [hreads]
    exact h.reads
  · rw [hnext]
    exact h.bounds
  · exact hcompleted
  · exact nextCommittableOffset_none hnone
  · intro o ho
    rw [hnext]
    exact hacked o ho
  · rw [hcommits]
    exact h.ordered
  · rw [hcommits,hnext]
    exact h.reached

theorem Follows.commit (h : Follows position ops k op.record.tp s last) {next : ℕ}
    {fetched started : Finset ℕ} (hdone : op.completes = some true)
    (hlast : op.record.offset ≤ last)
    (hs' : s' = {s with completedOffsets := insert op.record.offset s.completedOffsets})
    (hsome : nextCommittableOffset s' = some next)
    (hcommit : (perform (after (opened position) ops) op).1 = some next)
    (hreads : k'.position op.record.tp = k.position op.record.tp) :
    Follows position (ops++[op]) k' op.record.tp {
      nextCommitOffset := next
      completedOffsets := s'.completedOffsets.filter fun o => ¬o < next
      fetchedOffsets := fetched
      startedOffsets := started} last := by
  have hcommits : commits op.record.tp (opened position) (ops++[op]) =
      commits op.record.tp (opened position) ops++[next] := by
    rw [commits_snoc,hcommit]
    simp
  obtain ⟨hcompleted,hacked⟩ := h.completing hlast hs'
  obtain ⟨hgt,hgap,hwalked⟩ := nextCommittableOffset_some hsome
  have hnext : s'.nextCommitOffset = s.nextCommitOffset := by rw [hs']
  rw [hnext] at hgt hwalked
  have hbounds := h.bounds
  have hbound : next ≤ last+1 := by
    have hbefore := hcompleted (next-1) (hwalked (next-1) (by omega) (by omega))
    omega
  constructor
  · intro o
    rw [fetched_same (completes_not_fetch hdone)]
    exact h.fetched o
  · exact h.began
  · rw [hreads]
    exact h.reads
  · exact ⟨by dsimp only; omega,hbound⟩
  · exact fun o ho => hcompleted o (Finset.mem_filter.mp ho).1
  · exact fun hmem => hgap (Finset.mem_filter.mp hmem).1
  · intro o ho
    by_cases hlt : o < next
    · exact .inl hlt
    · refine .inr (Finset.mem_filter.mpr ⟨?_,hlt⟩)
      exact (hacked o ho).resolve_left (by omega)
  · rw [hcommits,List.pairwise_append]
    refine ⟨h.ordered,List.pairwise_singleton _ _,?_⟩
    intro m hm n hn
    have hle := h.commits_le m hm
    rw [List.mem_singleton.mp hn]
    omega
  · rw [hcommits]
    exact .inl (by simp)

theorem commits_none (h : (perform (after (opened position) ops) op).1 = none) :
    commits tp (opened position) (ops++[op]) = commits tp (opened position) ops := by
  rw [commits_snoc,h]
  simp

theorem commits_other (h : op.record.tp ≠ tp) :
    commits tp (opened position) (ops++[op]) = commits tp (opened position) ops := by
  rw [commits_snoc,if_neg h,List.append_nil]

theorem acked_other (h : op.record.tp ≠ tp) (o : ℕ) (ha : Acked (ops++[op]) ⟨tp,o⟩) :
    Acked ops ⟨tp,o⟩ := by
  rcases acked_snoc.mp ha with ha | ⟨-,hr⟩
  · exact ha
  · exact absurd (congrArg Record.tp hr) h

theorem progress_other (h : Progress position ops (after (opened position) ops) tp)
    (hne : op.record.tp ≠ tp) :
    Progress position (ops++[op]) (perform (after (opened position) ops) op).2 tp := by
  have hfetched : ∀ o, Fetched (ops++[op]) ⟨tp,o⟩ ↔ Fetched ops ⟨tp,o⟩ :=
    fun o => ⟨fetched_other hne o,fun hf => fetched_snoc.mpr (.inl hf)⟩
  unfold Progress at h ⊢
  rw [perform_other hne]
  cases ht : (after (opened position) ops).tracker tp with
  | none =>
    rw [ht] at h
    refine ⟨fun o hf => h.fetched o ((hfetched o).mp hf),
      fun o ha => h.acked o (acked_other hne o ha),?_,?_⟩
    · rw [position_other hne]
      exact h.reads
    · rw [commits_other hne]
      exact h.uncommitted
  | some s =>
    rw [ht] at h
    obtain ⟨last,hfollows⟩ := h
    refine ⟨last,hfollows.keep hfetched (acked_other hne) (commits_other hne) ?_ rfl rfl⟩
    rw [position_other hne]
    exact hfollows.reads

theorem Unread.fetch (h : Unread position ops k d.record.tp)
    (hgenuine : d.record.offset = k.position d.record.tp)
    (hreads : k'.position d.record.tp = d.record.offset+1) (fetched : Finset ℕ) :
    Follows position (ops++[.fetch d]) k' d.record.tp
      {nextCommitOffset := d.record.offset, fetchedOffsets := fetched} d.record.offset := by
  have hcommits : commits d.record.tp (opened position) (ops++[.fetch d]) = [] := by
    rw [commits_none rfl,h.uncommitted]
  have hstart : d.record.offset = position d.record.tp := by rw [hgenuine,h.reads]
  constructor
  · intro o
    rw [fetched_snoc]
    constructor
    · rintro (hf | ⟨d',he,hr⟩)
      · exact absurd hf (h.fetched o)
      · cases he
        have hoffset : d.record.offset = o := congrArg Record.offset hr
        omega
    · rintro ⟨h₁,h₂⟩
      have hoffset : d.record.offset = o := by omega
      exact .inr ⟨d,rfl,by rw [← hoffset]⟩
  · omega
  · omega
  · exact ⟨by dsimp only; omega,by dsimp only; omega⟩
  · exact fun o ho => absurd ho (Finset.notMem_empty o)
  · exact Finset.notMem_empty _
  · intro o ho
    exact absurd ((acked_same rfl).mp ho) (h.acked o)
  · rw [hcommits]
    exact List.Pairwise.nil
  · exact .inr ⟨hcommits,hstart⟩

theorem progress_retry (h : Progress position ops (after (opened position) ops) d.record.tp)
    (hin : .fetch d ∈ ops) :
    Progress position (ops++[.retry d]) (perform (after (opened position) ops) (.retry d)).2
      d.record.tp := by
  have hfetched : Fetched ops d.record := ⟨d,hin,rfl⟩
  unfold Progress at h ⊢
  change match (after (opened position) ops).tracker d.record.tp with
    | none => _
    | some s => _
  cases ht : (after (opened position) ops).tracker d.record.tp with
  | none =>
    rw [ht] at h
    exact absurd hfetched (h.fetched d.record.offset)
  | some s =>
    rw [ht] at h
    obtain ⟨last,hfollows⟩ := h
    have hrange := (hfollows.fetched d.record.offset).mp hfetched
    refine ⟨last,hfollows.keep (fun o => fetched_same fun d' he => by cases he)
      (fun o => (acked_same rfl).mp) (commits_none rfl) ?_ rfl rfl⟩
    have hpos := position_own (after (opened position) ops) (.retry d)
    change (perform _ _).2.position d.record.tp = d.record.offset at hpos
    omega

theorem Follows.stepped {c : Option ℕ}
    (h : Follows position ops (after (opened position) ops) op.record.tp s last)
    (hstep : Stepped s op c s') (hc : (perform (after (opened position) ops) op).1 = c)
    (hgenuine : Genuine (after (opened position) ops) ops op)
    (hcommitted : op.completes ≠ some false) :
    ∃ last, Follows position (ops++[op]) (perform (after (opened position) ops) op).2
      op.record.tp s' last := by
  have hpos := position_own (after (opened position) ops) op
  have hrange : (∀ d, op ≠ .fetch d) → op.record.offset ≤ last ∧
      position op.record.tp ≤ op.record.offset := by
    intro hnot
    have hin : .fetch op.delivery ∈ ops := by
      cases op with
      | fetch d => exact absurd rfl (hnot d)
      | _ => exact hgenuine
    have hfetched := (h.fetched op.record.offset).mp ⟨op.delivery,hin,rfl⟩
    exact ⟨hfetched.2,hfetched.1⟩
  have hquiet : op.completes.isSome = true → (perform (after (opened position) ops) op).2.position
      op.record.tp = (after (opened position) ops).position op.record.tp := by
    intro hdone
    cases op with
    | ack d b => exact hpos
    | fail d b => exact hpos
    | _ => cases hdone
  cases hstep with
  | fetch d => exact ⟨_,h.fetch hgenuine hpos rfl rfl⟩
  | startProcessing d =>
    refine ⟨last,h.keep (fun o => fetched_same fun d' he => by cases he)
      (fun o => (acked_same rfl).mp) (commits_none rfl) ?_ rfl rfl⟩
    exact h.reads
  | waits hdone hs' hnone =>
    exact ⟨last,h.waits hdone (hrange (completes_not_fetch hdone)).1 hs' hnone hc
      (hquiet (by rw [hdone]; rfl))⟩
  | commitFails hdone _ _ => exact absurd hdone hcommitted
  | commits hdone hs' hsome =>
    exact ⟨last,h.commit hdone (hrange (completes_not_fetch hdone)).1 hs' hsome hc
      (hquiet (by rw [hdone]; rfl))⟩
  | releaseUnstarted d fetched =>
    refine ⟨last,h.keep (fun o => fetched_same fun d' he => by cases he)
      (fun o => (acked_same rfl).mp) (commits_none rfl) ?_ rfl rfl⟩
    have hrecord := hrange fun d' he => by cases he
    rw [hpos]
    rcases moves_release (after (opened position) ops) d with hmove | hmove
    · rw [hmove]
      exact h.reads
    · rw [hmove]
      exact ⟨hrecord.2,Nat.le_succ_of_le hrecord.1⟩

theorem stepped_not_retry {c : Option ℕ} (h : Stepped s op c s') (d : KafkaDelivery) :
    op ≠ .retry d := by
  rintro rfl
  cases h with
  | waits hdone => cases hdone
  | commitFails hdone => cases hdone
  | commits hdone => cases hdone

theorem NotLate.le (h : NotLate k op) (hretry : ∀ d, op ≠ .retry d)
    (hs : k.tracker op.record.tp = some s) : s.nextCommitOffset ≤ op.record.offset := by
  cases op with
  | retry d => exact absurd rfl (hretry d)
  | _ => exact h s hs

theorem progress_step (h : ∀ tp, Progress position ops (after (opened position) ops) tp)
    (hgenuine : Genuine (after (opened position) ops) ops op)
    (hcommitted : op.completes ≠ some false) (hlate : NotLate (after (opened position) ops) op)
    (tp : TopicPartition) :
    Progress position (ops++[op]) (perform (after (opened position) ops) op).2 tp := by
  by_cases hne : op.record.tp = tp
  · subst hne
    have hold := h op.record.tp
    rcases perform_stepped (after (opened position) ops) op with ⟨d,rfl,-,-⟩ | ⟨s',htracker,hstep⟩
    · exact progress_retry hold hgenuine
    · unfold Progress at hold ⊢
      rw [htracker,set_same]
      cases ht : (after (opened position) ops).tracker op.record.tp with
      | none =>
        rw [ht] at hold
        rw [state_none ht] at hstep
        cases op with
        | fetch d =>
          cases hstep with
          | fetch d => exact ⟨_,hold.fetch hgenuine (position_own _ _) _⟩
          | waits hdone => cases hdone
        | _ => exact absurd ⟨_,hgenuine,rfl⟩ (hold.fetched _)
      | some s =>
        rw [ht] at hold
        obtain ⟨last,hfollows⟩ := hold
        have hstate : (after (opened position) ops).tracker.state op.record.tp
            op.record.offset = s := by
          rw [state_some ht,Nat.min_eq_right (hlate.le (stepped_not_retry hstep) ht)]
        rw [hstate] at hstep
        exact hfollows.stepped hstep rfl hgenuine hcommitted
  · exact progress_other (h tp) hne

end Progress

section Runs
variable {position : TopicPartition → ℕ} {ops : List Op}

/-- No step of the run concerns an offset below the next one to commit. -/
def NeverLate (position : TopicPartition → ℕ) (ops : List Op) : Prop :=
  ∀ pre op post, ops = pre++op::post → NotLate (after (opened position) pre) op

theorem NeverLate.before {op : Op} (h : NeverLate position (ops++[op])) :
    NeverLate position ops := by
  intro pre op' post he
  exact h pre op' (post++[op]) (by rw [he]; simp)

theorem run_progress (h : ConsumerRun position ops) (hlate : NeverLate position ops)
    (tp : TopicPartition) : Progress position ops (after (opened position) ops) tp := by
  induction h generalizing tp with
  | nil =>
    refine ⟨?_,?_,rfl,rfl⟩
    · rintro o ⟨d,hd,-⟩
      cases hd
    · rintro o ⟨op,hop,-⟩
      cases hop
  | @snoc ops op _ hgenuine hcommitted ih =>
    rw [after_snoc]
    exact progress_step (ih hlate.before) hgenuine hcommitted (hlate ops op [] rfl) tp

theorem acked_of_lastSettlement {r : Record} {op : Op} (h : lastSettlement ops r = some op)
    (hdone : op.completes.isSome = true) : Acked ops r := by
  have hmem := List.mem_of_getLast? h
  obtain ⟨hin,hkind⟩ := List.mem_filter.mp hmem
  exact ⟨op,hin,hdone,(of_decide_eq_true hkind).2⟩

/-- In every run of one consumer with consecutive offsets and successful commits,
no step of which concerns an offset below the next one to commit, the commits
never go back and catch up. -/
theorem commits_catch_up (position : TopicPartition → ℕ) (ops : List Op)
    (h : ConsumerRun position ops) (hlate : NeverLate position ops) (tp : TopicPartition) :
    CatchesUp position ops tp := by
  have hprogress := run_progress h hlate tp
  unfold Progress at hprogress
  cases ht : (after (opened position) ops).tracker tp with
  | none =>
    rw [ht] at hprogress
    constructor
    · rw [hprogress.uncommitted]
      exact List.Pairwise.nil
    · intro _ _ m hm
      exact absurd hm (hprogress.fetched m)
  | some s =>
    rw [ht] at hprogress
    obtain ⟨last,hfollows⟩ := hprogress
    refine ⟨hfollows.ordered,fun _ hlast m hm hgreatest => ?_⟩
    have hall : ∀ o, Fetched ops ⟨tp,o⟩ → Acked ops ⟨tp,o⟩ := by
      intro o hf
      obtain ⟨op,hop,hdone⟩ := hlast o hf
      exact acked_of_lastSettlement hop hdone
    have hbegan := hfollows.began
    have hsame : m = last := by
      have hle := hgreatest last ((hfollows.fetched last).mpr ⟨hbegan,le_rfl⟩)
      have hge := ((hfollows.fetched m).mp hm).2
      omega
    rw [hsame]
    exact hfollows.complete hall

end Runs

section Checking
variable {position : TopicPartition → ℕ} {ops : List Op} {op : Op} {k : KafkaTopic}

instance : Decidable (Genuine k ops op) :=
  match op with
  | .fetch d => inferInstanceAs (Decidable (d.record.offset = k.position d.record.tp))
  | .startProcessing d | .ack d _ | .fail d _ | .retry d | .releaseUnstarted d =>
    inferInstanceAs (Decidable (Op.fetch d ∈ ops))

instance : Decidable (NotLate k op) :=
  match op with
  | .retry _ => isTrue trivial
  | .fetch d | .startProcessing d | .ack d _ | .fail d _ | .releaseUnstarted d =>
    inferInstanceAs (Decidable (∀ s ∈ k.tracker d.record.tp,
      s.nextCommitOffset ≤ d.record.offset))

/-- Checks a condition at every step of a run. -/
def atEachStep (p : KafkaTopic → List Op → Op → Bool) : KafkaTopic → List Op → List Op → Bool
  | _,_,[] => true
  | k,before,op::rest =>
    p k before op && atEachStep p (perform k op).2 (before++[op]) rest

theorem atEachStep_split {p : KafkaTopic → List Op → Op → Bool} (before : List Op)
    {rest pre post : List Op}
    (h : atEachStep p (after k before) before rest = true) (hsplit : rest = pre++op::post) :
    p (after k (before++pre)) (before++pre) op = true := by
  induction pre generalizing before rest with
  | nil =>
    rw [hsplit,List.nil_append,atEachStep,Bool.and_eq_true] at h
    rw [List.append_nil]
    exact h.1
  | cons op' pre ih =>
    rw [hsplit,List.cons_append,atEachStep,Bool.and_eq_true,← after_snoc] at h
    have hrest := ih _ h.2 rfl
    rwa [List.append_assoc] at hrest

theorem consumerRun_of_check (h : atEachStep (fun k before op => Genuine k before op ∧
    op.completes ≠ some false) (opened position) [] ops = true) : ConsumerRun position ops := by
  have hsplit : ∀ pre op post, ops = pre++op::post →
      Genuine (after (opened position) pre) pre op ∧ op.completes ≠ some false :=
    fun pre op post hops => of_decide_eq_true (atEachStep_split [] h hops)
  clear h
  induction ops using List.reverseRecOn with
  | nil => exact .nil
  | append_singleton ops op ih =>
    have hlast := hsplit ops op [] rfl
    refine .snoc (ih fun pre op' post hops => ?_) hlast.1 hlast.2
    exact hsplit pre op' (post++[op]) (by rw [hops]; simp)

theorem neverLate_of_check
    (h : atEachStep (fun k _ op => NotLate k op) (opened position) [] ops = true) :
    NeverLate position ops :=
  fun _ _ _ hops => of_decide_eq_true (atEachStep_split [] h hops)

end Checking

/-- Offset 0 is retried and fetched again with 1, and both are acked. -/
def retried : List Op :=
  [.fetch (delivery 0 0),.retry (delivery 0 0),.fetch (delivery 0 1),.fetch (delivery 1 1),
    .ack (delivery 1 1) true,.ack (delivery 0 1) true]

/-- The commit passes the retried offset. -/
theorem retried_catches_up : ConsumerRun (fun _ => 0) retried ∧ NeverLate (fun _ => 0) retried ∧
    CatchesUp (fun _ => 0) retried orders := by
  have hrun : ConsumerRun (fun _ => 0) retried := consumerRun_of_check (by decide)
  have hlate : NeverLate (fun _ => 0) retried := neverLate_of_check (by decide)
  exact ⟨hrun,hlate,commits_catch_up (fun _ => 0) retried hrun hlate orders⟩

/-- After a retry of offset 0 the offsets 1 and 2 are acked twice, the second
time when 3 was committed already. -/
def lateAcks : List Op :=
  [.fetch (delivery 0 0),.fetch (delivery 1 0),.fetch (delivery 2 0),.retry (delivery 0 0),
    .ack (delivery 1 0) true,.ack (delivery 2 0) true,
    .fetch (delivery 0 1),.fetch (delivery 1 1),.fetch (delivery 2 1),
    .ack (delivery 0 1) true,.ack (delivery 2 1) true,.ack (delivery 1 1) true]

/-- The last commit goes back from 3 to 2. -/
theorem lateAcks_go_back : ConsumerRun (fun _ => 0) lateAcks ∧
    ¬CatchesUp (fun _ => 0) lateAcks orders := by
  have hrun : ConsumerRun (fun _ => 0) lateAcks := consumerRun_of_check (by decide)
  have hcommits : commits orders (opened fun _ => 0) lateAcks = [3,3,2] := by decide
  refine ⟨hrun,fun h => ?_⟩
  have hordered := h.ordered
  rw [hcommits] at hordered
  revert hordered
  decide

end OneStep.KafkaCommits
