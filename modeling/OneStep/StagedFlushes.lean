import OneStep.BatchedSettlements

/-!
# What a flush leaves staged

A flush sends what is staged a request at a time until nothing is left or it raises. What
it leaves is, in order, what it did not send and what it sent without a confirmation. An
SQS answer names the entries that failed, and these stay. A Cloudflare answer is not looked
at: a lease that it says was not acknowledged is dropped with the others of its request.
-/
namespace OneStep.StagedFlushes
open BatchedSettlements

section Turns
variable {E A : Type}

/-- One request of a flush, with what came back. -/
structure Turn (E A : Type) where
  sent : List E
  answer : A

/-- Of what was staged, `turns` sent the front in order, and what is staged afterwards is what
they left unconfirmed and what they did not reach. -/
def Conserved (confirms : A → E → Bool) (before after : List E) (turns : List (Turn E A)) : Prop :=
  ∃ rest, before = turns.flatMap Turn.sent++rest ∧
    after = (turns.flatMap fun t => t.sent.filter fun e => !confirms t.answer e)++rest

variable {confirms : A → E → Bool} {before after sent : List E} {turns : List (Turn E A)} {a : A}

theorem conserved_nil : Conserved confirms before before [] := ⟨before,rfl,rfl⟩

theorem conserved_last (hsplit : before = sent++before.drop sent.length) :
    Conserved confirms before
      (sent.filter (fun e => !confirms a e)++before.drop sent.length) [⟨sent,a⟩] :=
  ⟨before.drop sent.length,by rw [List.flatMap_singleton]; exact hsplit,
    by rw [List.flatMap_singleton]⟩

/-- A request that was confirmed as a whole, before the others. -/
theorem conserved_cons (hsplit : before = sent++before.drop sent.length)
    (hall : ∀ e ∈ sent, confirms a e = true)
    (h : Conserved confirms (before.drop sent.length) after turns) :
    Conserved confirms before after (⟨sent,a⟩::turns) := by
  obtain ⟨rest,hbefore,hafter⟩ := h
  refine ⟨rest,?_,?_⟩
  · rw [List.flatMap_cons,List.append_assoc,← hbefore]
    exact hsplit
  · have hnone : (sent.filter fun e => !confirms a e) = [] := by
      rw [List.filter_eq_nil_iff]
      intro e he
      simp [hall e he]
    rw [List.flatMap_cons,hnone,List.nil_append]
    exact hafter

theorem take_split (before : List α) (n : ℕ) : before = before.take n++before.drop (before.take n).length := by
  conv_lhs => rw [← List.take_append_drop n before]
  rw [List.length_take]
  congr 1
  rcases Nat.le_total n before.length with h | h
  · rw [Nat.min_eq_left h]
  · rw [Nat.min_eq_right h,List.drop_of_length_le h,List.drop_length]

end Turns

section SQS
variable (s : SQSSettings)

/-- An answer confirms what it does not name. -/
def SQSResponse.confirms : SQSResponse → DeleteEntry → Bool
  | .answered failedIds,e => !failedIds.contains e.id
  | .raised,_ => false

/-- `_flush_locked` with these answers; none while it waits for another one. -/
def SQSQueue.flushLocked (caller : Caller) (answers : List SQSResponse) (q : SQSQueue) :
    Option (List (Turn DeleteEntry SQSResponse) × SQSQueue) :=
  match (q.request s caller).2.flush with
  | some ⟨_,some entries⟩ =>
    match answers with
    | [] => none
    | a::as =>
      let q' := (q.request s caller).2.respond caller entries a
      match q'.flush with
      | none => some ([⟨entries,a⟩],q')
      | some _ => (flushLocked caller as q').map fun r => (⟨entries,a⟩::r.1,r.2)
  | _ => some ([],(q.request s caller).2)

variable {s} {caller : Caller} {q : SQSQueue} {entries : List DeleteEntry}

/-- What a turn of the loop does: it ends the flush, or it sends the front of what is staged. -/
theorem sqs_request (q : SQSQueue) (caller : Caller) :
    (q.pendingDelete = [] ∧ (q.request s caller).2.flush = none ∧
        (q.request s caller).2.pendingDelete = []) ∨
      (q.pendingDelete ≠ [] ∧ (q.request s caller).2.pendingDelete = q.pendingDelete ∧
        (q.request s caller).2.flush =
          some ⟨caller,some (q.pendingDelete.take (min 10 s.deleteBatchSize))⟩) := by
  unfold SQSQueue.request
  cases hp : q.pendingDelete with
  | nil => exact .inl ⟨rfl,rfl,rfl⟩
  | cons e es => exact .inr ⟨List.cons_ne_nil _ _,rfl,rfl⟩

/-- What an answer leaves staged; a flush goes on only when all was confirmed. -/
theorem sqs_respond (q : SQSQueue) (caller : Caller) (entries : List DeleteEntry)
    (hsplit : q.pendingDelete = entries++q.pendingDelete.drop entries.length) (a : SQSResponse) :
    (q.respond caller entries a).pendingDelete =
        entries.filter (fun e => !SQSResponse.confirms a e)++q.pendingDelete.drop entries.length ∧
      ((q.respond caller entries a).flush = none ∨
        ∀ e ∈ entries, SQSResponse.confirms a e = true) := by
  cases a with
  | raised =>
    refine ⟨?_,.inl rfl⟩
    simpa [SQSQueue.respond,SQSResponse.confirms] using hsplit
  | answered failedIds =>
    cases failedIds with
    | nil => simp [SQSQueue.respond,SQSResponse.confirms]
    | cons i ids => simp [SQSQueue.respond,SQSResponse.confirms]

theorem sqs_conserved {answers : List SQSResponse}
    {r : List (Turn DeleteEntry SQSResponse) × SQSQueue}
    (h : SQSQueue.flushLocked s caller answers q = some r) :
    Conserved SQSResponse.confirms q.pendingDelete r.2.pendingDelete r.1 ∧
      ∀ t ∈ r.1, t.sent.length ≤ min 10 s.deleteBatchSize := by
  induction answers generalizing q r with
  | nil =>
    rcases sqs_request (s := s) q caller with ⟨hnil,hflush,hkept⟩ | ⟨-,-,hflush⟩
    · rw [SQSQueue.flushLocked,hflush] at h
      cases h
      rw [hnil,hkept]
      exact ⟨conserved_nil,by simp⟩
    · rw [SQSQueue.flushLocked,hflush] at h
      cases h
  | cons a as ih =>
    rcases sqs_request (s := s) q caller with ⟨hnil,hflush,hkept⟩ | ⟨-,hkept,hflush⟩
    · rw [SQSQueue.flushLocked,hflush] at h
      cases h
      rw [hnil,hkept]
      exact ⟨conserved_nil,by simp⟩
    · have hsplit := take_split q.pendingDelete (min 10 s.deleteBatchSize)
      have hsized : (q.pendingDelete.take (min 10 s.deleteBatchSize)).length ≤
          min 10 s.deleteBatchSize := List.length_take_le _ _
      obtain ⟨hleft,hgoes⟩ := sqs_respond (q.request s caller).2 caller
        (q.pendingDelete.take (min 10 s.deleteBatchSize)) (by rw [hkept]; exact hsplit) a
      rw [hkept] at hleft
      rw [SQSQueue.flushLocked,hflush] at h
      simp only at h
      split at h
      · cases h
        rw [hleft]
        exact ⟨conserved_last hsplit,fun t ht => by rw [List.mem_singleton.mp ht]; exact hsized⟩
      · next f hf =>
          obtain ⟨r',hr',rfl⟩ := Option.map_eq_some_iff.mp h
          rw [hf] at hgoes
          have hall := hgoes.resolve_left (Option.some_ne_none _)
          have hnone : ((q.pendingDelete.take (min 10 s.deleteBatchSize)).filter fun e =>
              !SQSResponse.confirms a e) = [] := by
            rw [List.filter_eq_nil_iff]
            intro e he
            simp [hall e he]
          rw [hnone,List.nil_append] at hleft
          obtain ⟨hrest,hrest'⟩ := ih hr'
          rw [hleft] at hrest
          refine ⟨conserved_cons hsplit hall hrest,fun t ht => ?_⟩
          rcases List.mem_cons.mp ht with rfl | ht
          · exact hsized
          · exact hrest' t ht

theorem sqs_ends {answers : List SQSResponse} (h : q.pendingDelete.length ≤ answers.length) :
    (SQSQueue.flushLocked s caller answers q).isSome := by
  induction answers generalizing q with
  | nil =>
    have hnil : q.pendingDelete = [] := List.length_eq_zero_iff.mp (Nat.le_zero.mp h)
    rcases sqs_request (s := s) q caller with ⟨-,hflush,-⟩ | ⟨hne,-,-⟩
    · rw [SQSQueue.flushLocked,hflush]
      rfl
    · exact absurd hnil hne
  | cons a as ih =>
    rcases sqs_request (s := s) q caller with ⟨-,hflush,-⟩ | ⟨hne,hkept,hflush⟩
    · rw [SQSQueue.flushLocked,hflush]
      rfl
    · rw [SQSQueue.flushLocked,hflush]
      simp only
      split
      · rfl
      · next f hf =>
          have hsplit := take_split q.pendingDelete (min 10 s.deleteBatchSize)
          obtain ⟨hleft,hgoes⟩ := sqs_respond (q.request s caller).2 caller
            (q.pendingDelete.take (min 10 s.deleteBatchSize)) (by rw [hkept]; exact hsplit) a
          rw [hf] at hgoes
          have hall := hgoes.resolve_left (Option.some_ne_none _)
          have hpos := List.length_pos_iff.mpr hne
          have hsized := s.sized
          rw [Option.isSome_map]
          refine ih ?_
          rw [hleft,hkept,List.length_append,List.length_drop,List.length_take,
            (List.filter_eq_nil_iff.mpr fun e he => by simp [hall e he])]
          simp only [List.length_cons,List.length_nil] at h ⊢
          omega

end SQS

section Cloudflare
variable (s : CFSettings)

/-- An answer with the leases that it says were not acknowledged, or an error or a
cancellation in its place. -/
inductive CFAnswer where
  | answered (unacknowledged : List ℕ)
  | raised
  deriving DecidableEq

def CFAnswer.returned : CFAnswer → Bool
  | .answered _ => true
  | .raised => false

def CFAnswer.confirms : CFAnswer → ℕ → Bool
  | .answered unacknowledged,lease => !unacknowledged.contains lease
  | .raised,_ => false

/-- One request of a flush, with what came back. -/
structure CFTurn where
  request : CFRequest
  answer : CFAnswer

def CFTurn.acks (t : CFTurn) : Turn ℕ CFAnswer := ⟨t.request.acks,t.answer⟩

def CFTurn.retries (t : CFTurn) : Turn RetryEntry CFAnswer := ⟨t.request.retries,t.answer⟩

/-- `_flush_locked` with these answers; none while it waits for another one. -/
def CFQueue.flushLocked (caller : CFCaller) (answers : List CFAnswer) (q : CFQueue) :
    Option (List CFTurn × CFQueue) :=
  match (q.request s caller).2.flush with
  | some ⟨_,some request⟩ =>
    match answers with
    | [] => none
    | a::as =>
      let q' := (q.request s caller).2.respond caller request a.returned
      match q'.flush with
      | none => some ([⟨request,a⟩],q')
      | some _ => (flushLocked caller as q').map fun r => (⟨request,a⟩::r.1,r.2)
  | _ => some ([],(q.request s caller).2)

/-- No answer says of a lease of its request that it was not acknowledged. -/
def CFTurn.Confirmed (t : CFTurn) : Prop :=
  t.answer = .raised ∨ (∀ lease ∈ t.request.acks, t.answer.confirms lease = true) ∧
    ∀ e ∈ t.request.retries, t.answer.confirms e.leaseId = true

/-- What a flush leaves of the acks and of the retries. -/
def CFConserved (q q' : CFQueue) (turns : List CFTurn) : Prop :=
  Conserved CFAnswer.confirms q.pendingAcks q'.pendingAcks (turns.map CFTurn.acks) ∧
    Conserved (fun a e => CFAnswer.confirms a e.leaseId) q.pendingRetries q'.pendingRetries
      (turns.map CFTurn.retries)

variable {s} {caller : CFCaller} {q : CFQueue}

theorem cf_request (q : CFQueue) (caller : CFCaller) :
    ((q.pendingAcks = [] ∧ q.pendingRetries = []) ∧ (q.request s caller).2.flush = none ∧
        (q.request s caller).2.pendingAcks = [] ∧ (q.request s caller).2.pendingRetries = []) ∨
      (¬(q.pendingAcks = [] ∧ q.pendingRetries = []) ∧
        (q.request s caller).2.pendingAcks = q.pendingAcks ∧
        (q.request s caller).2.pendingRetries = q.pendingRetries ∧
        (q.request s caller).2.flush = some ⟨caller,some ⟨q.pendingAcks.take s.ackBatchSize,
          q.pendingRetries.take (s.ackBatchSize-(q.pendingAcks.take s.ackBatchSize).length)⟩⟩) := by
  unfold CFQueue.request
  split
  · next hempty =>
      simp only [Bool.and_eq_true,List.isEmpty_iff] at hempty
      refine .inl ⟨hempty,?_⟩
      cases caller <;> exact ⟨rfl,hempty⟩
  · next hsome =>
      simp only [Bool.and_eq_true,List.isEmpty_iff] at hsome
      exact .inr ⟨hsome,rfl,rfl,rfl⟩

section Dropping
variable {E : Type} {confirms : CFAnswer → E → Bool} {before after : List E}
  {turns : List (Turn E CFAnswer)}

/-- What the loop does with a request: an answer drops it, an error keeps it. -/
def Dropped (before after : List E) (turns : List (Turn E CFAnswer)) : Prop :=
  ∃ rest, before = turns.flatMap Turn.sent++rest ∧
    after = (turns.flatMap fun t => if t.answer.returned then [] else t.sent)++rest

theorem dropped_cons {sent : List E} {a : CFAnswer} (hsplit : before = sent++before.drop sent.length)
    (ha : a.returned = true) (h : Dropped (before.drop sent.length) after turns) :
    Dropped before after (⟨sent,a⟩::turns) := by
  obtain ⟨rest,hbefore,hafter⟩ := h
  refine ⟨rest,?_,?_⟩
  · rw [List.flatMap_cons,List.append_assoc,← hbefore]
    exact hsplit
  · rw [List.flatMap_cons,ha,if_pos rfl,List.nil_append]
    exact hafter

theorem dropped_raised {sent : List E} (hsplit : before = sent++before.drop sent.length) :
    Dropped before before [⟨sent,.raised⟩] :=
  ⟨before.drop sent.length,by rw [List.flatMap_singleton]; exact hsplit,
    by rw [List.flatMap_singleton]; exact hsplit⟩

theorem length_flatMap_le {f g : Turn E CFAnswer → List E} (hle : ∀ t, (f t).length ≤ (g t).length)
    (turns : List (Turn E CFAnswer)) : (turns.flatMap f).length ≤ (turns.flatMap g).length := by
  induction turns with
  | nil => exact le_refl _
  | cons t turns ih =>
    rw [List.flatMap_cons,List.flatMap_cons,List.length_append,List.length_append]
    exact Nat.add_le_add (hle t) ih

/-- Lists that are no longer part by part, and as long together. -/
theorem length_flatMap_eq {f g : Turn E CFAnswer → List E} (hle : ∀ t, (f t).length ≤ (g t).length)
    (h : (turns.flatMap f).length = (turns.flatMap g).length) :
    ∀ t ∈ turns, (f t).length = (g t).length := by
  induction turns with
  | nil => simp
  | cons t turns ih =>
    rw [List.flatMap_cons,List.flatMap_cons,List.length_append,List.length_append] at h
    have hrest := length_flatMap_le hle turns
    have ht := hle t
    intro u hu
    rcases List.mem_cons.mp hu with rfl | hu
    · omega
    · exact ih (by omega) u hu

theorem dropped_conserved_iff (hraised : ∀ e, confirms .raised e = false)
    (h : Dropped before after turns) : Conserved confirms before after turns ↔
      ∀ t ∈ turns, t.answer ≠ .raised → ∀ e ∈ t.sent, confirms t.answer e = true := by
  obtain ⟨rest,hbefore,hafter⟩ := h
  have hle : ∀ t : Turn E CFAnswer, (if t.answer.returned then [] else t.sent).length ≤
      (t.sent.filter fun e => !confirms t.answer e).length := by
    rintro ⟨sent,a | -⟩
    · exact Nat.zero_le _
    · simp [CFAnswer.returned,hraised]
  constructor
  · rintro ⟨rest',hbefore',hafter'⟩
    have hrest : rest = rest' := List.append_cancel_left (hbefore.symm.trans hbefore')
    subst hrest
    have hsame := congrArg List.length (List.append_cancel_right (hafter.symm.trans hafter'))
    intro t ht hanswer e he
    have hlength := length_flatMap_eq hle hsame t ht
    obtain ⟨sent,a | -⟩ := t
    · have hnil := List.length_eq_zero_iff.mp hlength.symm
      have hnot := List.filter_eq_nil_iff.mp hnil e he
      simpa using hnot
    · exact absurd rfl hanswer
  · intro hall
    refine ⟨rest,hbefore,?_⟩
    rw [hafter]
    congr 1
    refine List.flatMap_congr fun t ht => ?_
    have ht := hall t ht
    obtain ⟨sent,a | -⟩ := t
    · have hnone := ht (by simp)
      exact (List.filter_eq_nil_iff.mpr fun e he => by simp [hnone e he]).symm
    · simp [CFAnswer.returned,hraised]

end Dropping

theorem cf_dropped {answers : List CFAnswer} {r : List CFTurn × CFQueue}
    (h : CFQueue.flushLocked s caller answers q = some r) :
    (Dropped q.pendingAcks r.2.pendingAcks (r.1.map CFTurn.acks) ∧
        Dropped q.pendingRetries r.2.pendingRetries (r.1.map CFTurn.retries)) ∧
      ∀ t ∈ r.1, t.request.acks.length+t.request.retries.length ≤ s.ackBatchSize := by
  induction answers generalizing q r with
  | nil =>
    rcases cf_request (s := s) q caller with ⟨⟨hacks,hretries⟩,hflush,hacks',hretries'⟩ | ⟨-,-,-,hflush⟩
    · rw [CFQueue.flushLocked,hflush] at h
      cases h
      rw [hacks,hretries,hacks',hretries']
      exact ⟨⟨⟨[],rfl,rfl⟩,⟨[],rfl,rfl⟩⟩,by simp⟩
    · rw [CFQueue.flushLocked,hflush] at h
      cases h
  | cons a as ih =>
    rcases cf_request (s := s) q caller with
      ⟨⟨hacks,hretries⟩,hflush,hacks',hretries'⟩ | ⟨-,hacks,hretries,hflush⟩
    · rw [CFQueue.flushLocked,hflush] at h
      cases h
      rw [hacks,hretries,hacks',hretries']
      exact ⟨⟨⟨[],rfl,rfl⟩,⟨[],rfl,rfl⟩⟩,by simp⟩
    · have hacked := take_split q.pendingAcks s.ackBatchSize
      have hretried := take_split q.pendingRetries
        (s.ackBatchSize-(q.pendingAcks.take s.ackBatchSize).length)
      have hsized : (q.pendingAcks.take s.ackBatchSize).length+(q.pendingRetries.take
          (s.ackBatchSize-(q.pendingAcks.take s.ackBatchSize).length)).length ≤ s.ackBatchSize := by
        simp only [List.length_take]
        omega
      rw [CFQueue.flushLocked,hflush] at h
      simp only at h
      cases a with
      | raised =>
        cases h
        simp only [CFQueue.respond,CFAnswer.returned,Bool.false_eq_true,if_false,hacks,hretries]
        refine ⟨⟨dropped_raised hacked,dropped_raised hretried⟩,fun t ht => ?_⟩
        rw [List.mem_singleton.mp ht]
        exact hsized
      | answered ids =>
        obtain ⟨r',hr',rfl⟩ := Option.map_eq_some_iff.mp h
        obtain ⟨⟨hrest,hrest'⟩,hturns⟩ := ih hr'
        simp only [CFQueue.respond,CFAnswer.returned,if_true,hacks,hretries] at hrest hrest'
        refine ⟨⟨dropped_cons hacked rfl hrest,dropped_cons hretried rfl hrest'⟩,fun t ht => ?_⟩
        rcases List.mem_cons.mp ht with rfl | ht
        · exact hsized
        · exact hturns t ht

theorem cf_ends {answers : List CFAnswer}
    (h : q.pendingAcks.length+q.pendingRetries.length ≤ answers.length) :
    (CFQueue.flushLocked s caller answers q).isSome := by
  induction answers generalizing q with
  | nil =>
    rcases cf_request (s := s) q caller with ⟨-,hflush,-⟩ | ⟨hne,-⟩
    · rw [CFQueue.flushLocked,hflush]
      rfl
    · rw [List.length_nil] at h
      have hacks : q.pendingAcks = [] := List.length_eq_zero_iff.mp (by omega)
      have hretries : q.pendingRetries = [] := List.length_eq_zero_iff.mp (by omega)
      exact absurd ⟨hacks,hretries⟩ hne
  | cons a as ih =>
    rcases cf_request (s := s) q caller with ⟨-,hflush,-⟩ | ⟨hne,hacks,hretries,hflush⟩
    · rw [CFQueue.flushLocked,hflush]
      rfl
    · rw [CFQueue.flushLocked,hflush]
      cases a with
      | raised => rfl
      | answered ids =>
        simp only [CFQueue.respond,CFAnswer.returned,if_true,Option.isSome_map]
        refine ih ?_
        have hpos : q.pendingAcks.length ≠ 0 ∨ q.pendingRetries.length ≠ 0 := by
          by_contra hzero
          simp only [ne_eq,List.length_eq_zero_iff,not_or,not_not] at hzero
          exact hne hzero
        have hsized := s.sized
        simp only [hacks,hretries,List.length_drop,List.length_take,List.length_cons] at h ⊢
        omega

/-- What a flush of either queue leaves staged is what it did not send and what was not
confirmed, for SQS whatever is answered, and for Cloudflare exactly when no answer says of a
lease it was sent that it was not acknowledged. -/
theorem flushes_conserve_iff (sqs : SQSSettings) (cf : CFSettings) :
    (∀ (q : SQSQueue) caller answers,
      (q.pendingDelete.length ≤ answers.length →
        (SQSQueue.flushLocked sqs caller answers q).isSome) ∧
      ∀ r, SQSQueue.flushLocked sqs caller answers q = some r →
        Conserved SQSResponse.confirms q.pendingDelete r.2.pendingDelete r.1 ∧
        ∀ t ∈ r.1, t.sent.length ≤ min 10 sqs.deleteBatchSize) ∧
    ∀ (q : CFQueue) caller answers,
      (q.pendingAcks.length+q.pendingRetries.length ≤ answers.length →
        (CFQueue.flushLocked cf caller answers q).isSome) ∧
      ∀ r, CFQueue.flushLocked cf caller answers q = some r →
        (CFConserved q r.2 r.1 ↔ ∀ t ∈ r.1, t.Confirmed) ∧
        ∀ t ∈ r.1, t.request.acks.length+t.request.retries.length ≤ cf.ackBatchSize := by
  refine ⟨fun q caller answers => ⟨sqs_ends,fun r hr => sqs_conserved hr⟩,
    fun q caller answers => ⟨cf_ends,fun r hr => ?_⟩⟩
  obtain ⟨⟨hacks,hretries⟩,hsized⟩ := cf_dropped hr
  refine ⟨?_,hsized⟩
  unfold CFConserved
  rw [dropped_conserved_iff (fun _ => rfl) hacks,dropped_conserved_iff (fun _ => rfl) hretries]
  simp only [List.forall_mem_map,CFTurn.acks,CFTurn.retries,CFTurn.Confirmed]
  constructor
  · rintro ⟨hacks,hretries⟩ t ht
    by_cases hanswer : t.answer = .raised
    · exact .inl hanswer
    · exact .inr ⟨hacks t ht hanswer,hretries t ht hanswer⟩
  · intro h
    constructor
    · exact fun t ht hanswer => ((h t ht).resolve_left hanswer).1
    · exact fun t ht hanswer => ((h t ht).resolve_left hanswer).2

/-- The answer says that the first of two leases was not acknowledged. -/
theorem unacknowledged_dropped : ¬∀ (cf : CFSettings) (q : CFQueue) caller answers r,
    CFQueue.flushLocked cf caller answers q = some r → CFConserved q r.2 r.1 := by
  intro h
  have hconserved := h ⟨10,false,.leave,by decide⟩ {pendingAcks := [1,2]} .flusher [.answered [1]] _ rfl
  obtain ⟨⟨rest,-,hafter⟩,-⟩ := hconserved
  have hafter : [] = [1]++rest := hafter
  cases hafter

end Cloudflare

end OneStep.StagedFlushes
