import OneStep.KafkaCommits

/-!
# Redelivery after release or retry

A released or retried record is fetched again only if the consumer has not been
moved past it. Each release and each retry seeks to its own offset, whatever
other offsets are waiting, and a release of an offset that was started before
does not seek at all. The position stays at or below every waiting offset
exactly when each seek goes to the smallest of them and no release is refused
for an offset the consumer has passed.
-/
namespace OneStep.KafkaRedelivery
open KafkaTracker KafkaDeliveries KafkaCommits

/-- What a step adds to the offsets that were released or retried since the last
fetch from the partition. -/
def sought (tp : TopicPartition) (offsets : Finset ℕ) : Op → Finset ℕ
  | .fetch d => if d.record.tp = tp then ∅ else offsets
  | .retry d | .releaseUnstarted d =>
    if d.record.tp = tp then insert d.record.offset offsets else offsets
  | _ => offsets

def soughtAfter (tp : TopicPartition) (ops : List Op) : Finset ℕ := ops.foldl (sought tp) ∅

/-- Released or retried since the last fetch, and not yet acked. -/
def Waiting (ops : List Op) (tp : TopicPartition) (o : ℕ) : Prop :=
  o ∈ soughtAfter tp ops ∧ ¬Acked ops ⟨tp,o⟩

/-- The next fetch reads from at most the smallest waiting offset. -/
def Redelivers (position : TopicPartition → ℕ) (ops : List Op) (tp : TopicPartition) : Prop :=
  ∀ o, Waiting ops tp o → (after (opened position) ops).position tp ≤ o

/-- A release or retry seeks to an offset that no waiting one is below, and a
release that does not seek is of an offset that is acked or not yet passed. -/
def InTurn (k : KafkaTopic) (ops : List Op) : Op → Prop
  | .retry d => ∀ o, Waiting ops d.record.tp o → d.record.offset ≤ o
  | .releaseUnstarted d =>
    if (k.tracker.markReleasedUnstarted d.record.tp d.record.offset).1 = none then
      Acked ops d.record ∨ k.position d.record.tp ≤ d.record.offset
    else ∀ o, Waiting ops d.record.tp o → d.record.offset ≤ o
  | _ => True

section Steps
variable {position : TopicPartition → ℕ} {ops : List Op} {op : Op} {tp : TopicPartition}

theorem soughtAfter_snoc : soughtAfter tp (ops++[op]) = sought tp (soughtAfter tp ops) op := by
  rw [soughtAfter,List.foldl_append]
  rfl

theorem sought_other (offsets : Finset ℕ) (h : op.record.tp ≠ tp) :
    sought tp offsets op = offsets := by
  cases op with
  | fetch d => exact if_neg h
  | retry d => exact if_neg h
  | releaseUnstarted d => exact if_neg h
  | _ => rfl

/-- A step that seeks, at an offset that is now waiting unless it is acked. -/
theorem redelivers_seek {d : KafkaDelivery} (hdone : op.completes = none) (hop : op.delivery = d)
    (hsought : ∀ offsets, sought d.record.tp offsets op = insert d.record.offset offsets)
    (hmove : moves (after (opened position) ops) op = some d.record.offset) :
    Redelivers position (ops++[op]) d.record.tp ↔
      ∀ o, Waiting ops d.record.tp o → d.record.offset ≤ o := by
  have hpos : (after (opened position) (ops++[op])).position d.record.tp = d.record.offset := by
    have hown := position_own (after (opened position) ops) op
    rw [hmove,Op.record,hop] at hown
    rw [after_snoc]
    exact hown
  have hwaiting : ∀ o, Waiting (ops++[op]) d.record.tp o ↔
      (o = d.record.offset ∨ o ∈ soughtAfter d.record.tp ops) ∧ ¬Acked ops ⟨d.record.tp,o⟩ := by
    intro o
    rw [Waiting,soughtAfter_snoc,hsought,Finset.mem_insert,acked_same hdone]
  unfold Redelivers
  rw [hpos]
  constructor
  · intro h o ho
    exact h o ((hwaiting o).mpr ⟨.inr ho.1,ho.2⟩)
  · intro h o ho
    obtain ⟨rfl | hin,hnot⟩ := (hwaiting o).mp ho
    · exact le_rfl
    · exact h o ⟨hin,hnot⟩

theorem redelivers_refused {d : KafkaDelivery}
    (hmove : moves (after (opened position) ops) (.releaseUnstarted d) = none)
    (h : Redelivers position ops d.record.tp) :
    Redelivers position (ops++[.releaseUnstarted d]) d.record.tp ↔
      Acked ops d.record ∨ (after (opened position) ops).position d.record.tp ≤ d.record.offset := by
  have hpos : (after (opened position) (ops++[.releaseUnstarted d])).position d.record.tp =
      (after (opened position) ops).position d.record.tp := by
    have hown := position_own (after (opened position) ops) (.releaseUnstarted d)
    rw [hmove] at hown
    rw [after_snoc]
    exact hown
  have hwaiting : ∀ o, Waiting (ops++[.releaseUnstarted d]) d.record.tp o ↔
      (o = d.record.offset ∨ o ∈ soughtAfter d.record.tp ops) ∧ ¬Acked ops ⟨d.record.tp,o⟩ := by
    intro o
    rw [Waiting,soughtAfter_snoc,acked_same rfl,sought,if_pos rfl,Finset.mem_insert]
  unfold Redelivers at h ⊢
  rw [hpos]
  constructor
  · intro hall
    by_cases hacked : Acked ops d.record
    · exact .inl hacked
    · exact .inr (hall _ ((hwaiting _).mpr ⟨.inl rfl,hacked⟩))
  · intro hkept o ho
    obtain ⟨rfl | hin,hnot⟩ := (hwaiting o).mp ho
    · exact hkept.resolve_left hnot
    · exact h o ⟨hin,hnot⟩

theorem redelivers_keep (h : Redelivers position ops tp)
    (hpos : (after (opened position) (ops++[op])).position tp =
      (after (opened position) ops).position tp)
    (hsought : ∀ offsets, sought tp offsets op = offsets) :
    Redelivers position (ops++[op]) tp := by
  intro o ho
  rw [hpos]
  refine h o ⟨?_,fun hacked => ho.2 (acked_snoc.mpr (.inl hacked))⟩
  have hin := ho.1
  rwa [soughtAfter_snoc,hsought] at hin

/-- One step keeps the position right exactly when it is in turn. -/
theorem redelivers_step (h : Redelivers position ops tp) :
    Redelivers position (ops++[op]) tp ↔
      (op.record.tp = tp → InTurn (after (opened position) ops) ops op) := by
  by_cases htp : op.record.tp = tp
  · subst htp
    simp only [forall_const]
    cases op with
    | fetch d =>
      refine iff_of_true (fun o ho => ?_) trivial
      have hin : o ∈ soughtAfter d.record.tp (ops++[.fetch d]) := ho.1
      rw [soughtAfter_snoc,sought,if_pos rfl] at hin
      cases hin
    | startProcessing d =>
      exact iff_of_true (redelivers_keep h (by rw [after_snoc]; rfl) fun _ => rfl) trivial
    | ack d committed =>
      refine iff_of_true (redelivers_keep h ?_ fun _ => rfl) trivial
      rw [after_snoc]
      exact position_own _ _
    | fail d committed =>
      refine iff_of_true (redelivers_keep h ?_ fun _ => rfl) trivial
      rw [after_snoc]
      exact position_own _ _
    | retry d => exact redelivers_seek rfl rfl (fun _ => if_pos rfl) rfl
    | releaseUnstarted d =>
      rcases moves_release (after (opened position) ops) d with hmove | hmove
      · have hturn : InTurn (after (opened position) ops) ops (.releaseUnstarted d) ↔
            Acked ops d.record ∨
              (after (opened position) ops).position d.record.tp ≤ d.record.offset :=
          iff_of_eq (if_pos hmove)
        exact (redelivers_refused hmove h).trans hturn.symm
      · have hsome : ¬moves (after (opened position) ops) (.releaseUnstarted d) = none := by
          rw [hmove]
          simp
        have hturn : InTurn (after (opened position) ops) ops (.releaseUnstarted d) ↔
            ∀ o, Waiting ops d.record.tp o → d.record.offset ≤ o :=
          iff_of_eq (if_neg hsome)
        have hseek : Redelivers position (ops++[.releaseUnstarted d]) d.record.tp ↔
            ∀ o, Waiting ops d.record.tp o → d.record.offset ≤ o :=
          redelivers_seek rfl rfl (fun _ => if_pos rfl) hmove
        exact hseek.trans hturn.symm
  · refine iff_of_true (redelivers_keep h ?_ fun _ => sought_other _ htp) fun he => absurd he htp
    rw [after_snoc]
    exact position_other htp

end Steps

/-- Throughout a run the position is at most every waiting offset, exactly when
each of its releases and retries is in turn. -/
theorem redelivers_iff (position : TopicPartition → ℕ) (ops : List Op) (tp : TopicPartition) :
    (∀ pre post, ops = pre++post → Redelivers position pre tp) ↔
      ∀ pre op post, ops = pre++op::post → op.record.tp = tp →
        InTurn (after (opened position) pre) pre op := by
  constructor
  · intro h pre op post hops
    have hbefore := h pre (op::post) hops
    refine (redelivers_step hbefore).mp (h (pre++[op]) post ?_)
    rw [hops]
    simp
  · intro h pre post hops
    induction pre using List.reverseRecOn generalizing post with
    | nil =>
      intro o ho
      cases ho.1
    | append_singleton pre op ih =>
      have hsplit : ops = pre++op::post := by
        rw [hops]
        simp
      exact (redelivers_step (ih (op::post) hsplit)).mpr (h pre op post hsplit)

def releasedBatch : List Op :=
  [.fetch (delivery 0 0),.fetch (delivery 1 0),.fetch (delivery 2 0),
    .releaseUnstarted (delivery 0 0),.releaseUnstarted (delivery 1 0),
    .releaseUnstarted (delivery 2 0)]

/-- The consumer ends at the last of them, past the other two. -/
theorem releasedBatch_skipped : ConsumerRun (fun _ => 0) releasedBatch ∧
    ¬∀ pre post, releasedBatch = pre++post → Redelivers (fun _ => 0) pre orders := by
  have hrun : ConsumerRun (fun _ => 0) releasedBatch := consumerRun_of_check (by decide)
  refine ⟨hrun,fun h => ?_⟩
  have hpos : (after (opened fun _ => 0) releasedBatch).position orders = 2 := by decide
  have hnone : ¬Acked releasedBatch ⟨orders,0⟩ := by
    rintro ⟨op,hop,hdone,-⟩
    simp only [releasedBatch,List.mem_cons,List.not_mem_nil,or_false] at hop
    rcases hop with rfl | rfl | rfl | rfl | rfl | rfl <;> cases hdone
  have hle := h releasedBatch [] (by simp) 0 ⟨by decide,hnone⟩
  rw [hpos] at hle
  omega

end OneStep.KafkaRedelivery
