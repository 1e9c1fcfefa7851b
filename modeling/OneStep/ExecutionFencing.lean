import OneStep.ExecutionHistory

/-!
# Fencing of stale workers

A worker speaks for an execution only through the triple it was handed: the
execution, the attempt and the lease token. Once that triple is no longer the
current unexpired lease, no call made with it changes anything, and all it can
still learn is that its own completion had already been stored.
-/
namespace OneStep.ExecutionFencing
open ExecutionModel ExecutionBackend ExecutionLifecycle ExecutionRefinement ExecutionRuns
open ExecutionInvariant ExecutionHistory KeyedTable Transaction Transition

variable {V J : Type}

/-- The stored lease carries this token, has not run out, and this attempt is
the one running under it. -/
def CurrentLease (t : Tables J) (now : Instant) (id attemptId token : UUID) : Prop :=
  ∃ row ∈ t.executions, row.id = id ∧ row.leaseToken = some token ∧
    (∃ e, row.leaseExpiresAt = some e ∧ now < e) ∧
    ∃ a ∈ t.attempts, a.id = attemptId ∧ a.executionId = id ∧ a.leaseToken = token ∧
      a.status = .running

/-- A success whose result has no JSON form, or one beyond the limit. -/
def Unencodable (b : Backend V J) (c : ExecutionCompletion V) : Prop :=
  c.status = .succeeded ∧ ∀ j, b.encodeValue c.result = .ok j → b.maxResultBytes < b.encodedSize j

/-- The stored terminal row says what the completion says. -/
structure Replayed (b : Backend V J) (t : Tables J) (id : UUID) (c : ExecutionCompletion V)
    (row : ExecutionRow J) : Prop where
  stored : row ∈ t.executions
  id : row.id = id
  terminal : row.status.terminal = true
  status : row.status = c.status.status
  result : ∃ expected, encodeResult b c row = .ok expected ∧ b.equal row.result expected = true
  error : row.error = c.error

/-- What `complete` may answer to a stale worker. -/
inductive StaleReply [DecidableEq J] (b : Backend V J) (t : Tables J) (id : UUID)
    (c : ExecutionCompletion V) : Except BackendError (Execution V) → Prop
  | stale (m : String) : StaleReply b t id c (.error (.staleExecutionLease m))
  | unencodable (m : String) : Unencodable b c →
      StaleReply b t id c (.error (.executionEncodingError m))
  | undecodable (m : String) {row : ExecutionRow J} : Replayed b t id c row →
      rowToExecution b row = .error (.executionEncodingError m) →
      StaleReply b t id c (.error (.executionEncodingError m))
  | replay {row : ExecutionRow J} {e : Execution V} : Replayed b t id c row →
      rowToExecution b row = .ok e → StaleReply b t id c (.ok e)

section Failures

def Stale (e : BackendError) : Prop := ∃ m, e = .staleExecutionLease m

variable (P : BackendError → Prop)

theorem raises_updateExecutions (p : ExecutionRow J → Bool) (f : ExecutionRow J → ExecutionRow J) :
    Raises P (updateExecutions p f) := by
  intro t e h
  cases h

theorem raises_updateAttempts (p : AttemptRow → Bool) (f : AttemptRow → AttemptRow) :
    Raises P (updateAttempts (J := J) p f) := by
  intro t e h
  cases h

theorem raises_selectExecution (id : UUID) : Raises P (selectExecution (J := J) id) := by
  intro t e h
  cases h

theorem raises_ofExcept {α : Type} {P : BackendError → Prop} {x : Except BackendError α}
    (h : ∀ e, x = .error e → P e) : Raises P (ofExcept (J := J) x) := by
  cases x with
  | ok a => exact raises_pure P a
  | error e => exact raises_throw (h e rfl)

theorem heartbeatTx_raises (id attemptId token : UUID) (expires now : Instant) :
    Raises (fun e => e = .staleExecutionLease "execution lease is no longer valid")
      (heartbeatTx (J := J) id attemptId token expires now) := by
  refine raises_bind (raises_updateExecutions _ _ _) fun updated => ?_
  refine raises_bind (raises_updateAttempts _ _ _) fun attemptUpdated => ?_
  refine raises_ite ?_ ?_
  · refine raises_bind (raises_throw rfl) fun _ => ?_
    exact raises_bind (raises_selectExecution _ _) fun _ => raises_pure _ _
  · exact raises_bind (raises_selectExecution _ _) fun _ => raises_pure _ _

theorem releaseTx_raises (id attemptId token : UUID) (now : Instant) :
    Raises Stale (releaseTx (J := J) id attemptId token now) := by
  refine raises_bind (raises_selectExecution _ _) fun row => ?_
  cases row with
  | none => exact raises_throw ⟨_,rfl⟩
  | some current =>
    have hend : Raises Stale (do
        let row ← selectExecution (J := J) id
        return row.getD current) :=
      raises_bind (raises_selectExecution _ _) fun _ => raises_pure _ _
    refine raises_bind (raises_updateExecutions _ _ _) fun updated => ?_
    refine raises_ite ?_ ?_
    · refine raises_bind (raises_throw ⟨_,rfl⟩) fun _ => ?_
      refine raises_bind (raises_updateAttempts _ _ _) fun attemptUpdated => ?_
      exact raises_ite (raises_bind (raises_throw ⟨_,rfl⟩) fun _ => hend) hend
    · refine raises_bind (raises_updateAttempts _ _ _) fun attemptUpdated => ?_
      exact raises_ite (raises_bind (raises_throw ⟨_,rfl⟩) fun _ => hend) hend

variable {b : Backend V J} {e : BackendError}

theorem encodeResult_error {c : ExecutionCompletion V} {row : ExecutionRow J}
    (h : encodeResult b c row = .error e) :
    Unencodable b c ∧ ∃ m, e = .executionEncodingError m := by
  unfold encodeResult at h
  split_ifs at h with hc
  cases he : b.encodeValue c.result with
  | error m =>
    rw [he] at h
    cases h
    exact ⟨⟨hc.1,by simp [he]⟩,_,rfl⟩
  | ok j =>
    rw [he] at h
    simp only at h
    split_ifs at h with hsize
    cases h
    refine ⟨⟨hc.1,?_⟩,_,rfl⟩
    intro j' hj'
    rw [he] at hj'
    cases hj'
    exact hsize

variable [DecidableEq J]

omit [DecidableEq J] in
theorem completeTx_raises (b : Backend V J) (id attemptId token : UUID)
    (c : ExecutionCompletion V) (now : Instant) :
    Raises (fun e => Stale e ∨ (Unencodable b c ∧ ∃ m, e = .executionEncodingError m))
      (completeTx b id attemptId token c now) := by
  refine raises_bind (raises_selectExecution _ _) fun row => ?_
  cases row with
  | none => exact raises_throw (.inl ⟨_,rfl⟩)
  | some current =>
    refine raises_bind (raises_ofExcept fun e he => .inr (encodeResult_error he)) fun result => ?_
    refine raises_bind (raises_updateExecutions _ _ _) fun updated => ?_
    refine raises_ite ?_ ?_
    · refine raises_bind (raises_selectExecution _ _) fun row => ?_
      cases row with
      | none => exact raises_throw (.inl ⟨_,rfl⟩)
      | some row => exact raises_ite (raises_pure _ _) (raises_throw (.inl ⟨_,rfl⟩))
    · refine raises_bind (raises_updateAttempts _ _ _) fun attemptUpdated => ?_
      refine raises_ite ?_ ?_
      · refine raises_bind (raises_throw (.inl ⟨_,rfl⟩)) fun _ => ?_
        exact raises_bind (raises_selectExecution _ _) fun _ => raises_pure _ _
      · exact raises_bind (raises_selectExecution _ _) fun _ => raises_pure _ _

omit [DecidableEq J] in
theorem decodeColumn_error {id : UUID} {j : J} (h : decodeColumn b id j = .error e) :
    ∃ m, e = .executionEncodingError m := by
  unfold decodeColumn at h
  cases hd : b.decodeValue j with
  | ok v => rw [hd] at h; cases h
  | error m =>
    rw [hd] at h
    cases h
    exact ⟨_,rfl⟩

theorem rowToExecution_error {row : ExecutionRow J} (h : rowToExecution b row = .error e) :
    ∃ m, e = .executionEncodingError m := by
  unfold rowToExecution at h
  cases hp : decodeColumn b row.id row.payload with
  | error x =>
    rw [hp] at h
    cases h
    exact decodeColumn_error hp
  | ok payload =>
    cases hm : decodeColumn b row.id row.metadata with
    | error x =>
      rw [hp,hm] at h
      cases h
      exact decodeColumn_error hm
    | ok metadata =>
      cases hr : decodeResult b row with
      | ok result => rw [hp,hm,hr] at h; cases h
      | error x =>
        rw [hp,hm,hr] at h
        cases h
        unfold decodeResult at hr
        split_ifs at hr
        exact decodeColumn_error hr

end Failures

section Refusals
variable {t : Tables J} {now : Instant} {id attemptId token : UUID}

theorem currentLease_of_holds {s : Snapshot J} {statuses : List ExecutionStatus}
    (hs : snapshot t id = some s) (hh : holds s.row.id token statuses now s.row = true)
    (hc : affected (heldBy attemptId s.row.id token) s.attempts = 1) :
    CurrentLease t now id attemptId token := by
  obtain ⟨hl,hg⟩ := snapshot_some.mp hs
  have hid := snapshot_id hs
  simp only [holds,Bool.and_eq_true,decide_eq_true_eq,Option.any_eq_true] at hh
  have hpos : 0 < List.countP (heldBy attemptId s.row.id token) s.attempts := by
    unfold affected at hc
    omega
  obtain ⟨a,ha,hheld⟩ := List.countP_pos_iff.mp hpos
  simp only [heldBy,Bool.and_eq_true,decide_eq_true_eq] at hheld
  rw [← hg] at ha
  refine ⟨s.row,lookup_mem hl,hid,hh.1.1.2,hh.2,a,(mem_group.mp ha).1,hheld.1.1.1,?_,
    hheld.1.2,hheld.2⟩
  rw [hheld.1.1.2,hid]

theorem heartbeatTx_stale (ht : Sound t) (hstale : ¬CurrentLease t now id attemptId token)
    (expires : Instant) (r : HeartbeatResult) (u : Tables J) :
    (heartbeatTx id attemptId token expires now).run t ≠ .ok (r,u) := by
  intro h
  obtain ⟨hn,hm,-⟩ := heartbeatTx_ok h
  obtain ⟨s,hs,hh,hc⟩ := holder_updates ht hn hm
  exact hstale (currentLease_of_holds hs hh hc)

theorem releaseTx_stale (ht : Sound t) (hstale : ¬CurrentLease t now id attemptId token)
    (row : ExecutionRow J) (u : Tables J) :
    (releaseTx id attemptId token now).run t ≠ .ok (row,u) := by
  intro h
  obtain ⟨hn,hm,-⟩ := releaseTx_ok h
  obtain ⟨s,hs,hh,hc⟩ := holder_updates ht hn hm
  exact hstale (currentLease_of_holds hs hh hc)

variable [DecidableEq J] {b : Backend V J}

omit [DecidableEq J] in
theorem replayed_of_replays {c : ExecutionCompletion V} {row : ExecutionRow J} {result : J}
    (hl : lookup ExecutionRow.id id t.executions = some row)
    (he : encodeResult b c row = .ok result) (hr : replays b c result row = true) :
    Replayed b t id c row := by
  simp only [replays,Bool.and_eq_true,decide_eq_true_eq,bne_iff_ne,ne_eq] at hr
  obtain ⟨⟨⟨hstatus,hne⟩,hresult⟩,herror⟩ := hr
  refine ⟨lookup_mem hl,lookup_key hl,?_,hstatus,⟨result,he,hresult⟩,herror⟩
  rw [hstatus]
  cases hc : c.status <;> simp_all [CompletionStatus.status,ExecutionStatus.terminal]

omit [DecidableEq J] in
theorem heartbeat_stale (ht : Sound t) (hstale : ¬CurrentLease t now id attemptId token)
    (leaseDurationS : ℚ) :
    heartbeat id attemptId token leaseDurationS now t =
      (.error (if leaseDurationS ≤ 0 then .valueError "lease_duration_s must be > 0"
        else .staleExecutionLease "execution lease is no longer valid"),t) := by
  unfold heartbeat
  split_ifs with hd
  · rfl
  · obtain ⟨e,rfl,hc⟩ := commit_raises
      (heartbeatTx_raises id attemptId token (now+timedelta leaseDurationS) now)
      (heartbeatTx_stale ht hstale _)
    exact hc

theorem release_stale (ht : Sound t) (hstale : ¬CurrentLease t now id attemptId token) :
    ∃ m, release b id attemptId token now t = (.error (.staleExecutionLease m),t) := by
  obtain ⟨e,⟨m,rfl⟩,hc⟩ := commit_raises (releaseTx_raises id attemptId token now)
    (releaseTx_stale ht hstale)
  refine ⟨m,?_⟩
  rw [release,hc]

theorem complete_stale (ht : Sound t) (hstale : ¬CurrentLease t now id attemptId token)
    (c : ExecutionCompletion V) :
    StaleReply b t id c (complete b id attemptId token c now t).1 ∧
      (complete b id attemptId token c now t).2 = t := by
  unfold complete
  rcases commit_cases (completeTx b id attemptId token c now) t with
    ⟨row,u,hrun,hc⟩ | ⟨e,hrun,hc⟩
  · rw [hc]
    rcases completeTx_cases ht hrun with ⟨s,result,hs,-,hh,haff,-⟩ | ⟨rfl,result,hl,he,hr⟩
    · exact absurd (currentLease_of_holds hs hh haff) hstale
    · have hrep := replayed_of_replays hl he hr
      refine ⟨?_,rfl⟩
      simp only
      cases hd : rowToExecution b row with
      | ok e => exact .replay hrep hd
      | error e =>
        obtain ⟨m,rfl⟩ := rowToExecution_error hd
        exact .undecodable m hrep hd
  · rw [hc]
    refine ⟨?_,rfl⟩
    rcases completeTx_raises b id attemptId token c now t e hrun with ⟨m,rfl⟩ | ⟨hun,m,rfl⟩
    · exact .stale m
    · exact .unencodable m hun

omit [DecidableEq J] in
theorem terminal_not_current {row : ExecutionRow J} (ht : Sound t) (hr : row ∈ t.executions)
    (hi : LeaseInvariant row (attemptsOf t row.id)) (hterm : row.status.terminal = true) :
    ¬CurrentLease t now row.id attemptId token := by
  rintro ⟨row',hr',hid,htok,-⟩
  have he : row' = row := by
    have h₁ := lookup_of_mem ht.executionIds hr
    have h₂ := lookup_of_mem ht.executionIds hr'
    rw [hid,h₁] at h₂
    exact (Option.some.inj h₂).symm
  have hl : row.status.leased = false := by
    cases hs : row.status <;> simp_all [ExecutionStatus.terminal,ExecutionStatus.leased]
  rw [he,(hi.unleased hl).1] at htok
  cases htok

theorem complete_terminal (ht : Sound t) {c : ExecutionCompletion V} (hc : c.status ≠ .retrying)
    (hne : (complete b id attemptId token c now t).2 ≠ t) :
    ∃ s, snapshot (complete b id attemptId token c now t).2 id = some s ∧
      s.row.status.terminal = true := by
  unfold complete at hne ⊢
  rcases commit_cases (completeTx b id attemptId token c now) t with
    ⟨row,u,hrun,hcommit⟩ | ⟨e,hrun,hcommit⟩
  · rw [hcommit] at hne ⊢
    rcases completeTx_cases ht hrun with ⟨s,result,hs,-,hh,haff,rfl⟩ | ⟨rfl,-⟩
    · have hid := snapshot_id hs
      rw [hid] at hh
      have hsnap := snapshot_update (x := id)
        (p := holds id token (expectedStatuses c.status) now)
        (f := completeRow (effectiveStatus c.status s.row) (b.stored result) (completionError c s.row)
          c.delayS now)
        (q := heldBy attemptId id token)
        (g := completeAttempt (attemptStatus (effectiveStatus c.status s.row))
          (completionError c s.row) now)
        (fun _ => rfl) (fun _ => rfl) (fun _ => holds_id) (fun _ => heldBy_executionId) t id
      rw [if_pos rfl,hs] at hsnap
      refine ⟨_,hsnap,?_⟩
      simp only [hh,if_true,completeRow]
      have heff : effectiveStatus c.status s.row ≠ .retrying := by
        unfold effectiveStatus
        split_ifs
        · simp
        · exact hc
      cases hs' : effectiveStatus c.status s.row <;>
        simp_all [CompletionStatus.status,ExecutionStatus.terminal]
    · exact absurd rfl hne
  · rw [hcommit] at hne
    exact absurd rfl hne

end Refusals

section Runs
variable [DecidableEq J] {b : Backend V J}

/-- A triple that is not the current lease is refused by every call, and at
most one completion other than a retry ever takes effect. -/
theorem reached_fencing {w : World J} (hw : Reached b w) :
    (∀ now id attemptId token, ¬CurrentLease w.tables now id attemptId token →
      (∀ leaseDurationS, heartbeat id attemptId token leaseDurationS now w.tables =
        (.error (if leaseDurationS ≤ 0 then .valueError "lease_duration_s must be > 0"
          else .staleExecutionLease "execution lease is no longer valid"),w.tables)) ∧
      (∃ m, release b id attemptId token now w.tables =
        (.error (.staleExecutionLease m),w.tables)) ∧
      ∀ c, StaleReply b w.tables id c (complete b id attemptId token c now w.tables).1 ∧
        (complete b id attemptId token c now w.tables).2 = w.tables) ∧
    ∀ (w₁ w₂ w₃ : World J) (e e' : Event V J) (es : List (Event V J)) (id : UUID)
      (attemptId token attemptId' token' : UUID) (c c' : ExecutionCompletion V),
      Step b w e w₁ → e.op = .complete id attemptId token c → c.status ≠ .retrying →
      w₁.tables ≠ w.tables → Run (Step b) w₁ es w₂ → Step b w₂ e' w₃ →
      e'.op = .complete id attemptId' token' c' → w₃.tables = w₂.tables := by
  have hsound := (reached_resultLaw hw).1
  constructor
  · intro now id attemptId token hstale
    exact ⟨heartbeat_stale hsound hstale,release_stale hsound hstale,complete_stale hsound hstale⟩
  · intro w₁ w₂ w₃ e e' es id attemptId token attemptId' token' c c' hstep hop hc hne hrun
      hstep' hop'
    have hr₁ : Reached b w₁ := hw.run (.single hstep)
    have hr₂ : Reached b w₂ := hr₁.run hrun
    obtain ⟨_,hperf,_⟩ := hstep
    obtain ⟨_,hperf',_⟩ := hstep'
    rw [hop] at hperf
    rw [hop'] at hperf'
    have hw₁ : (complete b id attemptId token c e.now w.tables).2 = w₁.tables :=
      (Prod.mk.inj hperf).2
    have hw₃ : (complete b id attemptId' token' c' e'.now w₂.tables).2 = w₃.tables :=
      (Prod.mk.inj hperf').2
    rw [← hw₁] at hne
    obtain ⟨s,hs,hterm⟩ := complete_terminal hsound hc hne
    rw [hw₁] at hs
    obtain ⟨s',hs',hf⟩ := run_follows (reached_resultLaw hr₁) hrun hs
    have hterm' : s'.row.status.terminal = true := by rw [(hf.final hterm).1]; exact hterm
    have hrow := lookup_mem (snapshot_some.mp hs').1
    have hsound₂ := (reached_resultLaw hr₂).1
    have hnot : ¬CurrentLease w₂.tables e'.now s'.row.id attemptId' token' :=
      terminal_not_current hsound₂ hrow (Throughout.row (reached_lease hr₂) hrow) hterm'
    rw [snapshot_id hs'] at hnot
    rw [← hw₃]
    exact (complete_stale hsound₂ hnot c').2

/-- A wrong token is stale while the right one is held. -/
theorem claimedOnce_fencing : ¬CurrentLease claimedOnce.tables 3 1 11 99 ∧
    (complete integers 1 11 99 ⟨.succeeded,some 5,none,none⟩ 3 claimedOnce.tables).2 =
      claimedOnce.tables := by
  have htoken : ∀ row ∈ claimedOnce.tables.executions, row.leaseToken ≠ some 99 := by
    decide +kernel
  have hstale : ¬CurrentLease claimedOnce.tables 3 1 11 99 := by
    rintro ⟨row,hr,-,htok,-⟩
    exact htoken row hr htok
  exact ⟨hstale,(((reached_fencing claimedOnce_reached).1 3 1 11 99 hstale).2.2 _).2⟩

/-- The execution, attempt and token of each lease an event handed out. -/
def handed (e : Event V J) : List (UUID × UUID × UUID) :=
  match e.reply with
  | .leases ls => ls.map fun l => (l.execution.id,l.attemptId,l.leaseToken)
  | _ => []

def retried : World (Option ℤ) :=
  after integers claimedOnce 3 (.complete 1 11 12 ⟨.retrying,none,none,none⟩)

def claimedTwice : World (Option ℤ) := after integers retried 4 (claiming 21 22)

/-- Two leases of one execution, each accepted by a completion that changes the
tables: a retry gives the execution back and it is claimed again. -/
theorem both_leases_accepted :
    handed (called integers (after integers (start 0) 1 (submission 1)) 2 (claiming 11 12)) =
        [(1,11,12)] ∧
      retried.tables ≠ claimedOnce.tables ∧
      handed (called integers retried 4 (claiming 21 22)) = [(1,21,22)] ∧
      Run (Step integers) claimedOnce
        [called integers claimedOnce 3 (.complete 1 11 12 ⟨.retrying,none,none,none⟩),
          called integers retried 4 (claiming 21 22)] claimedTwice ∧
      (after integers claimedTwice 5 (succeeding 21 22)).tables ≠ claimedTwice.tables := by
  refine ⟨by decide +kernel,by decide +kernel,by decide +kernel,?_,by decide +kernel⟩
  exact .cons (step_after (by decide) _) (.single (step_after (by decide) _))

end Runs

end OneStep.ExecutionFencing
