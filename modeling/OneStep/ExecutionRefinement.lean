import OneStep.ExecutionLifecycle

/-!
# Transactions refine lives

Each transaction body is taken apart once, here: what it requires of the
tables when it succeeds, and which moves it performs. Failure leaves the tables
alone by the rollback of `commit`, so nothing has to be said about it.
-/
namespace OneStep.ExecutionRefinement
open ExecutionModel ExecutionBackend ExecutionLifecycle KeyedTable Transaction

variable {V J : Type} {id : UUID}

variable {p : ExecutionRow J → Bool} {f : ExecutionRow J → ExecutionRow J} {t u : Tables J}

theorem updateExecutions_ok {n : ℕ} :
    (updateExecutions p f).run t = .ok (n,u) ↔
      n = affected p t.executions ∧ u = ⟨update p f t.executions,t.attempts⟩ := by
  constructor
  · intro h
    cases h
    exact ⟨rfl,rfl⟩
  · rintro ⟨rfl,rfl⟩
    rfl

theorem updateAttempts_ok {p : AttemptRow → Bool} {f : AttemptRow → AttemptRow} {n : ℕ} :
    (updateAttempts p f).run t = .ok (n,u) ↔
      n = affected p t.attempts ∧ u = ⟨t.executions,update p f t.attempts⟩ := by
  constructor
  · intro h
    cases h
    exact ⟨rfl,rfl⟩
  · rintro ⟨rfl,rfl⟩
    rfl

theorem selectExecution_ok {r : Option (ExecutionRow J)} :
    (selectExecution id).run t = .ok (r,u) ↔
      r = lookup ExecutionRow.id id t.executions ∧ u = t := by
  constructor
  · intro h
    cases h
    exact ⟨rfl,rfl⟩
  · rintro ⟨rfl,rfl⟩
    rfl

theorem ofExcept_ok {α : Type} {x : Except BackendError α} {a : α} :
    (ofExcept x).run t = .ok (a,u) ↔ x = .ok a ∧ u = t := by
  cases x with
  | error e =>
    constructor
    · intro h
      cases h
    · rintro ⟨h,_⟩
      cases h
  | ok v =>
    constructor
    · intro h
      cases h
      exact ⟨rfl,rfl⟩
    · rintro ⟨h,rfl⟩
      cases h
      rfl

private theorem update_never {R : Type} (f : R → R) (rows : List R) :
    update (fun _ => false) f rows = rows := by
  simp [update]

variable {R : Snapshot J → Snapshot J → Prop}

theorem evolves_execution {x : UUID} (hf : ∀ r, (f r).id = r.id) (hp : ∀ r, p r = true → r.id = x)
    {s : Snapshot J} (hs : snapshot t x = some s) (hps : p s.row = true)
    (hm : R s ⟨f s.row,s.attempts⟩) : EvolvesBy R t ⟨update p f t.executions,t.attempts⟩ := by
  have h : EvolvesBy R t ⟨update p f t.executions,update (fun _ => false) id t.attempts⟩ :=
    evolves_update hf (fun _ => rfl) hp (by simp) hs hps (by rw [update_never]; exact hm)
  rwa [update_never] at h

theorem Sound.updatedExecutions (ht : Sound t) (hf : ∀ r, (f r).id = r.id) :
    Sound (⟨update p f t.executions,t.attempts⟩ : Tables J) := by
  have h := ht.updated (p := p) (q := fun _ => false) (g := id) hf (fun _ => rfl) (fun _ => rfl)
  rwa [update_never] at h

/-- A guarded update of one execution: nothing matched and nothing changed, or
the stored row satisfied the guard. -/
theorem update_cases (ht : Sound t) {x : UUID} (hp : ∀ r, p r = true → r.id = x) :
    (affected p t.executions = 0 ∧ update p f t.executions = t.executions) ∨
      (affected p t.executions = 1 ∧ ∃ s, snapshot t x = some s ∧ p s.row = true) := by
  by_cases h : affected p t.executions = 1
  · exact .inr ⟨h,exists_of_affected ht hp h⟩
  · left
    have hz : affected p t.executions = 0 := by
      rw [affected_eq ht.executionIds hp] at h ⊢
      split_ifs at h ⊢
      · exact (h rfl).elim
      · rfl
    refine ⟨hz,?_⟩
    unfold update
    conv_rhs => rw [← List.map_id t.executions]
    apply List.map_congr_left
    intro r hr
    have hpr := List.countP_eq_zero.mp hz r hr
    simp [hpr]

variable {now : Instant}

theorem expireQueued_evolves {limit : ℕ}
    (hmove : ∀ s, pastExpiry now s.attempts s.row = true → R s ⟨expireRow now s.row,s.attempts⟩)
    (ht : Sound t) (h : (expireQueued now limit).run t = .ok ((),u)) :
    Sound u ∧ EvolvesBy R t u := by
  obtain ⟨_,_,hg,hrun⟩ := bind_ok.mp h
  obtain ⟨rfl,rfl⟩ := get_ok.mp hg
  rename_i t₀
  have key := each_relates (I := fun v : Tables J => Sound v ∧ v.attempts = t₀.attempts)
    (R := EvolvesBy R) (EvolvesBy.refl R) (fun _ _ _ => EvolvesBy.trans) ?_ ⟨ht,rfl⟩ hrun
  · exact ⟨key.1.1,key.2⟩
  · rintro row v w ⟨hv,hva⟩ hone
    obtain ⟨n,w',hupd,hpure⟩ := bind_ok.mp hone
    obtain ⟨rfl,rfl⟩ := updateExecutions_ok.mp hupd
    obtain ⟨_,rfl⟩ := pure_ok.mp hpure
    have hp : ∀ r : ExecutionRow J, (decide (r.id = row.id) && decide (r.version = row.version) &&
        pastExpiry now t₀.attempts r) = true → r.id = row.id := by
      intro r hr
      simp only [Bool.and_eq_true,decide_eq_true_eq] at hr
      exact hr.1.1
    refine ⟨⟨Sound.updatedExecutions hv (fun _ => rfl),hva⟩,?_⟩
    rcases update_cases (f := expireRow now) hv hp with ⟨_,he⟩ | ⟨_,s,hs,hps⟩
    · rw [he]
      exact EvolvesBy.refl R v
    · refine evolves_execution (f := expireRow now) (fun _ => rfl) hp hs hps ?_
      apply hmove
      simp only [Bool.and_eq_true] at hps
      rw [pastExpiry_snapshot hs,hva]
      exact hps.2

/-- Both lease sweeps at once: `settle` and `closed` say what becomes of the row
and of the attempt whose lease ran out. -/
theorem sweepLeases_evolves {status : ExecutionStatus} (settle : ExecutionRow J → ExecutionRow J)
    {closed : AttemptStatus} {limit : ℕ} (hid : ∀ r, (settle r).id = r.id)
    (hmove : ∀ s : Snapshot J, leaseExpired status now s.row = true →
      R s ⟨settle s.row,
        update (heldAttempt s.row.id s.row.leaseToken) (closeAttempt closed now) s.attempts⟩)
    (ht : Sound t) (h : (sweepLeases status settle closed now limit).run t = .ok ((),u)) :
    Sound u ∧ EvolvesBy R t u := by
  obtain ⟨_,_,hg,hrun⟩ := bind_ok.mp h
  obtain ⟨rfl,rfl⟩ := get_ok.mp hg
  refine each_relates (I := Sound) (R := EvolvesBy R) (EvolvesBy.refl R)
    (fun _ _ _ => EvolvesBy.trans) ?_ ht hrun
  intro row v w hv hone
  obtain ⟨n,v',hupd,hrest⟩ := bind_ok.mp hone
  obtain ⟨rfl,rfl⟩ := updateExecutions_ok.mp hupd
  have hp : ∀ r : ExecutionRow J, (decide (r.id = row.id) && decide (r.version = row.version) &&
      decide (r.leaseToken = row.leaseToken) && leaseExpired status now r) = true →
      r.id = row.id := by
    intro r hr
    simp only [Bool.and_eq_true,decide_eq_true_eq] at hr
    exact hr.1.1.1
  rcases update_cases (f := settle) hv hp with ⟨hn,he⟩ | ⟨hn,s,hs,hps⟩
  · rw [hn] at hrest
    obtain ⟨_,rfl⟩ := pure_ok.mp hrest
    rw [he]
    exact ⟨hv,EvolvesBy.refl R v⟩
  · rw [hn] at hrest
    obtain ⟨m,v'',hatt,hpure⟩ := bind_ok.mp hrest
    obtain ⟨rfl,rfl⟩ := updateAttempts_ok.mp hatt
    obtain ⟨_,rfl⟩ := pure_ok.mp hpure
    have hq : ∀ a, heldAttempt row.id row.leaseToken a = true → a.executionId = row.id := by
      intro a ha
      simp only [heldAttempt,Bool.and_eq_true,decide_eq_true_eq] at ha
      exact ha.1.1
    refine ⟨hv.updated hid (fun _ => rfl) (fun _ => rfl),?_⟩
    refine evolves_update (g := closeAttempt closed now) hid (fun _ => rfl) hp hq hs hps ?_
    simp only [Bool.and_eq_true,decide_eq_true_eq] at hps
    rw [← hps.1.1.1,← hps.1.2]
    exact hmove s hps.2

variable {n : String}

theorem requestCancelTx_evolves {reason : Option String} {r : Option (ExecutionRow J)}
    (hwait : ∀ s, s.row.status.waiting = true → R s ⟨cancelWaiting reason now s.row,s.attempts⟩)
    (hrunning : ∀ s, s.row.status = .running → R s ⟨cancelRunning reason now s.row,s.attempts⟩)
    (ht : Sound t) (h : (requestCancelTx n id reason now).run t = .ok (r,u)) :
    Sound u ∧ EvolvesBy R t u := by
  obtain ⟨row?,t₁,hsel,hrest⟩ := bind_ok.mp h
  obtain ⟨rfl,rfl⟩ := selectExecution_ok.mp hsel
  cases hl : (lookup ExecutionRow.id id t₁.executions).filter
      (fun r => r.namespaceName = n) with
  | none =>
    rw [hl] at hrest
    obtain ⟨_,rfl⟩ := pure_ok.mp hrest
    exact ⟨ht,EvolvesBy.refl R _⟩
  | some row =>
    rw [hl] at hrest
    have hrow := (Option.filter_eq_some_iff.mp hl).1
    have hs : snapshot t₁ id = some ⟨row,group AttemptRow.executionId id t₁.attempts⟩ :=
      snapshot_some.mpr ⟨hrow,rfl⟩
    have hp : ∀ r : ExecutionRow J, decide (r.id = id) = true → r.id = id := by simp
    have hps : decide (row.id = id) = true := by simpa using lookup_key hrow
    dsimp only at hrest
    split_ifs at hrest with hw hr
    · obtain ⟨_,t₂,hupd,hsel'⟩ := bind_ok.mp hrest
      obtain ⟨_,rfl⟩ := updateExecutions_ok.mp hupd
      obtain ⟨_,rfl⟩ := selectExecution_ok.mp hsel'
      exact ⟨Sound.updatedExecutions ht (fun _ => rfl),
        evolves_execution (f := cancelWaiting reason now) (fun _ => rfl) hp hs hps
          (hwait ⟨row,_⟩ hw)⟩
    · obtain ⟨_,t₂,hupd,hsel'⟩ := bind_ok.mp hrest
      obtain ⟨_,rfl⟩ := updateExecutions_ok.mp hupd
      obtain ⟨_,rfl⟩ := selectExecution_ok.mp hsel'
      exact ⟨Sound.updatedExecutions ht (fun _ => rfl),
        evolves_execution (f := cancelRunning reason now) (fun _ => rfl) hp hs hps
          (hrunning ⟨row,_⟩ hr)⟩
    · obtain ⟨_,rfl⟩ := pure_ok.mp hrest
      exact ⟨ht,EvolvesBy.refl R _⟩

variable {token : UUID}

variable {r : ExecutionRow J}

theorem holds_id {statuses : List ExecutionStatus} (h : holds id token statuses now r = true) :
    r.id = id := by
  simp only [holds,Bool.and_eq_true,decide_eq_true_eq] at h
  exact h.1.1.1

variable {attemptId : UUID}

theorem heldBy_executionId {executionId : UUID} {a : AttemptRow}
    (h : heldBy attemptId executionId token a = true) : a.executionId = executionId := by
  simp only [heldBy,Bool.and_eq_true,decide_eq_true_eq] at h
  exact h.1.1.2

/-- The pair of updates every holder operation makes: when both counts are one,
the stored row and its attempt satisfied the guards. -/
theorem holder_updates (ht : Sound t) {statuses : List ExecutionStatus}
    (hn : affected (holds id token statuses now) t.executions = 1)
    (hm : affected (heldBy attemptId id token) t.attempts = 1) :
    ∃ s, snapshot t id = some s ∧ holds s.row.id token statuses now s.row = true ∧
      affected (heldBy attemptId s.row.id token) s.attempts = 1 := by
  obtain ⟨s,hs,hp⟩ := exists_of_affected ht (fun _ => holds_id) hn
  have hi := snapshot_id hs
  refine ⟨s,hs,?_,?_⟩
  · rw [hi]
    exact hp
  · rw [hi,← affected_snapshot hs (fun _ => heldBy_executionId)]
    exact hm

variable {expires : Instant}

theorem heartbeatTx_ok {r : HeartbeatResult}
    (h : (heartbeatTx id attemptId token expires now).run t = .ok (r,u)) :
    affected (holds id token [.running,.cancelRequested] now) t.executions = 1 ∧
      affected (heldBy attemptId id token) t.attempts = 1 ∧
      u = ⟨update (holds id token [.running,.cancelRequested] now)
          (fun r => {r with leaseExpiresAt := some expires, updatedAt := now}) t.executions,
        update (heldBy attemptId id token) (fun a => {a with heartbeatAt := now}) t.attempts⟩ := by
  obtain ⟨n,t₁,hupd,h⟩ := bind_ok.mp h
  obtain ⟨rfl,rfl⟩ := updateExecutions_ok.mp hupd
  obtain ⟨m,t₂,hatt,h⟩ := bind_ok.mp h
  obtain ⟨rfl,rfl⟩ := updateAttempts_ok.mp hatt
  split_ifs at h with hc
  · obtain ⟨_,_,hthrow,_⟩ := bind_ok.mp h
    exact (throw_ok.mp hthrow).elim
  · obtain ⟨_,_,hsel,h⟩ := bind_ok.mp h
    obtain ⟨_,rfl⟩ := selectExecution_ok.mp hsel
    obtain ⟨_,rfl⟩ := pure_ok.mp h
    push Not at hc
    exact ⟨hc.1,hc.2,rfl⟩

theorem heartbeatTx_evolves {r : HeartbeatResult}
    (hmove : ∀ s, s.row.id = id → holds s.row.id token [.running,.cancelRequested] now s.row = true →
      affected (heldBy attemptId s.row.id token) s.attempts = 1 →
      R s ⟨{s.row with leaseExpiresAt := some expires, updatedAt := now},
        update (heldBy attemptId s.row.id token) (fun a => {a with heartbeatAt := now}) s.attempts⟩)
    (ht : Sound t) (h : (heartbeatTx id attemptId token expires now).run t = .ok (r,u)) :
    Sound u ∧ EvolvesBy R t u := by
  obtain ⟨hn,hm,rfl⟩ := heartbeatTx_ok h
  obtain ⟨s,hs,hh,hc⟩ := holder_updates ht hn hm
  have hi := snapshot_id hs
  refine ⟨ht.updated (fun _ => rfl) (fun _ => rfl) (fun _ => rfl),?_⟩
  refine evolves_update (f := fun r => {r with leaseExpiresAt := some expires, updatedAt := now})
    (g := fun a => {a with heartbeatAt := now}) (fun _ => rfl) (fun _ => rfl)
    (fun _ => holds_id) (fun _ => heldBy_executionId) hs (hi ▸ hh) ?_
  rw [← hi]
  exact hmove s hi hh hc

variable {c : ExecutionCompletion V} {row : ExecutionRow J}

variable {b : Backend V J}

/-- A successful completion either wrote both rows, or replayed a terminal one
without writing anything. -/
theorem completeTx_ok [DecidableEq J]
    (h : (completeTx b id attemptId token c now).run t = .ok (row,u)) :
    ∃ current result, lookup ExecutionRow.id id t.executions = some current ∧
      encodeResult b c current = .ok result ∧
      ((affected (holds id token (expectedStatuses c.status) now) t.executions = 1 ∧
        affected (heldBy attemptId id token) t.attempts = 1 ∧
        u = ⟨update (holds id token (expectedStatuses c.status) now)
            (completeRow (effectiveStatus c.status current) (b.stored result) (completionError c current)
              c.delayS now) t.executions,
          update (heldBy attemptId id token)
            (completeAttempt (attemptStatus (effectiveStatus c.status current))
              (completionError c current) now) t.attempts⟩ ∧
        row = (lookup ExecutionRow.id id u.executions).getD current) ∨
      (affected (holds id token (expectedStatuses c.status) now) t.executions ≠ 1 ∧
        lookup ExecutionRow.id id (update (holds id token (expectedStatuses c.status) now)
            (completeRow (effectiveStatus c.status current) (b.stored result) (completionError c current)
              c.delayS now) t.executions) = some row ∧
        replays b c result row = true ∧
        u = ⟨update (holds id token (expectedStatuses c.status) now)
            (completeRow (effectiveStatus c.status current) (b.stored result) (completionError c current)
              c.delayS now) t.executions,t.attempts⟩)) := by
  obtain ⟨row?,t₁,hsel,h₁⟩ := bind_ok.mp h
  obtain ⟨rfl,rfl⟩ := selectExecution_ok.mp hsel
  cases hl : lookup ExecutionRow.id id t₁.executions with
  | none =>
    rw [hl] at h₁
    exact (throw_ok.mp h₁).elim
  | some current =>
    rw [hl] at h₁
    obtain ⟨result,t₂,hres,h₂⟩ := bind_ok.mp h₁
    obtain ⟨henc,rfl⟩ := ofExcept_ok.mp hres
    obtain ⟨n,t₃,hupd,h₃⟩ := bind_ok.mp h₂
    obtain ⟨rfl,rfl⟩ := updateExecutions_ok.mp hupd
    refine ⟨current,result,rfl,henc,?_⟩
    split_ifs at h₃ with hn
    · right
      obtain ⟨row?,t₄,hsel',h₄⟩ := bind_ok.mp h₃
      obtain ⟨rfl,rfl⟩ := selectExecution_ok.mp hsel'
      split at h₄
      · exact (throw_ok.mp h₄).elim
      · rename_i stored hstored
        split_ifs at h₄ with hr
        · obtain ⟨rfl,rfl⟩ := pure_ok.mp h₄
          exact ⟨hn,hstored,hr,rfl⟩
        · exact (throw_ok.mp h₄).elim
    · left
      push Not at hn
      obtain ⟨m,t₄,hatt,h₄⟩ := bind_ok.mp h₃
      obtain ⟨rfl,rfl⟩ := updateAttempts_ok.mp hatt
      split_ifs at h₄ with hm
      · obtain ⟨_,_,hthrow,_⟩ := bind_ok.mp h₄
        exact (throw_ok.mp hthrow).elim
      · push Not at hm
        obtain ⟨_,_,hsel',h₅⟩ := bind_ok.mp h₄
        obtain ⟨rfl,rfl⟩ := selectExecution_ok.mp hsel'
        obtain ⟨rfl,rfl⟩ := pure_ok.mp h₅
        exact ⟨hn,hm,rfl,rfl⟩

theorem completeTx_cases [DecidableEq J] (ht : Sound t)
    (h : (completeTx b id attemptId token c now).run t = .ok (row,u)) :
    (∃ s result, snapshot t id = some s ∧ encodeResult b c s.row = .ok result ∧
      holds s.row.id token (expectedStatuses c.status) now s.row = true ∧
      affected (heldBy attemptId s.row.id token) s.attempts = 1 ∧
      u = ⟨update (holds id token (expectedStatuses c.status) now)
          (completeRow (effectiveStatus c.status s.row) (b.stored result) (completionError c s.row)
            c.delayS now) t.executions,
        update (heldBy attemptId id token)
          (completeAttempt (attemptStatus (effectiveStatus c.status s.row))
            (completionError c s.row) now) t.attempts⟩) ∨
      (u = t ∧ ∃ result, lookup ExecutionRow.id id t.executions = some row ∧
        encodeResult b c row = .ok result ∧ replays b c result row = true) := by
  obtain ⟨current,result,hl,henc,⟨hn,hm,hu,_⟩ | ⟨hn,hl',hr,hu⟩⟩ := completeTx_ok h
  · left
    obtain ⟨s,hs,hh,hc⟩ := holder_updates ht hn hm
    have he : s.row = current := by
      have h₁ := (snapshot_some.mp hs).1
      rw [hl] at h₁
      exact (Option.some.inj h₁).symm
    refine ⟨s,result,hs,?_,hh,hc,?_⟩
    · rw [he]
      exact henc
    · rw [he]
      exact hu
  · right
    rcases update_cases (f := completeRow (effectiveStatus c.status current) (b.stored result)
        (completionError c current) c.delayS now) ht
        (fun r (hr : holds id token (expectedStatuses c.status) now r = true) => holds_id hr)
      with ⟨_,he⟩ | ⟨he,_⟩
    · rw [he] at hl' hu
      have hrow : row = current := Option.some.inj (hl'.symm.trans hl)
      exact ⟨hu,result,hl',hrow ▸ henc,hr⟩
    · exact (hn he).elim

theorem completeTx_evolves [DecidableEq J]
    (hmove : ∀ s result, s.row.id = id → encodeResult b c s.row = .ok result →
      holds s.row.id token (expectedStatuses c.status) now s.row = true →
      affected (heldBy attemptId s.row.id token) s.attempts = 1 →
      R s ⟨completeRow (effectiveStatus c.status s.row) (b.stored result) (completionError c s.row)
          c.delayS now s.row,
        update (heldBy attemptId s.row.id token)
          (completeAttempt (attemptStatus (effectiveStatus c.status s.row))
            (completionError c s.row) now) s.attempts⟩) (ht : Sound t)
    (h : (completeTx b id attemptId token c now).run t = .ok (row,u)) :
    Sound u ∧ EvolvesBy R t u := by
  rcases completeTx_cases ht h with ⟨s,result,hs,henc,hh,hc,rfl⟩ | ⟨rfl,_⟩
  · have hi := snapshot_id hs
    refine ⟨ht.updated (fun _ => rfl) (fun _ => rfl) (fun _ => rfl),?_⟩
    refine evolves_update (f := completeRow (effectiveStatus c.status s.row) (b.stored result)
        (completionError c s.row) c.delayS now)
      (g := completeAttempt (attemptStatus (effectiveStatus c.status s.row))
        (completionError c s.row) now) (fun _ => rfl) (fun _ => rfl)
      (fun _ => holds_id) (fun _ => heldBy_executionId) hs (hi ▸ hh) ?_
    rw [← hi]
    exact hmove s result hi henc hh hc
  · exact ⟨ht,EvolvesBy.refl R _⟩

theorem releaseTx_ok (h : (releaseTx id attemptId token now).run t = .ok (row,u)) :
    affected (holds id token [.running] now) t.executions = 1 ∧
      affected (heldBy attemptId id token) t.attempts = 1 ∧
      u = ⟨update (holds id token [.running] now) (releaseRow now) t.executions,
        update (heldBy attemptId id token) (closeAttempt .leaseLost now) t.attempts⟩ := by
  obtain ⟨row?,t₁,hsel,h₁⟩ := bind_ok.mp h
  obtain ⟨rfl,rfl⟩ := selectExecution_ok.mp hsel
  cases hl : lookup ExecutionRow.id id t₁.executions with
  | none =>
    rw [hl] at h₁
    exact (throw_ok.mp h₁).elim
  | some current =>
    rw [hl] at h₁
    obtain ⟨n,t₂,hupd,h₂⟩ := bind_ok.mp h₁
    obtain ⟨rfl,rfl⟩ := updateExecutions_ok.mp hupd
    split_ifs at h₂ with hn
    · obtain ⟨_,_,hthrow,_⟩ := bind_ok.mp h₂
      exact (throw_ok.mp hthrow).elim
    · push Not at hn
      obtain ⟨m,t₃,hatt,h₃⟩ := bind_ok.mp h₂
      obtain ⟨rfl,rfl⟩ := updateAttempts_ok.mp hatt
      split_ifs at h₃ with hm
      · obtain ⟨_,_,hthrow,_⟩ := bind_ok.mp h₃
        exact (throw_ok.mp hthrow).elim
      · push Not at hm
        obtain ⟨_,_,hsel',h₄⟩ := bind_ok.mp h₃
        obtain ⟨_,rfl⟩ := selectExecution_ok.mp hsel'
        obtain ⟨_,rfl⟩ := pure_ok.mp h₄
        exact ⟨hn,hm,rfl⟩

theorem releaseTx_evolves
    (hmove : ∀ s, s.row.id = id → holds s.row.id token [.running] now s.row = true →
      affected (heldBy attemptId s.row.id token) s.attempts = 1 →
      R s ⟨releaseRow now s.row,
        update (heldBy attemptId s.row.id token) (closeAttempt .leaseLost now) s.attempts⟩)
    (ht : Sound t) (h : (releaseTx id attemptId token now).run t = .ok (row,u)) :
    Sound u ∧ EvolvesBy R t u := by
  obtain ⟨hn,hm,rfl⟩ := releaseTx_ok h
  obtain ⟨s,hs,hh,hc⟩ := holder_updates ht hn hm
  have hi := snapshot_id hs
  refine ⟨ht.updated (fun _ => rfl) (fun _ => rfl) (fun _ => rfl),?_⟩
  refine evolves_update (f := releaseRow now) (g := closeAttempt .leaseLost now)
    (fun _ => rfl) (fun _ => rfl) (fun _ => holds_id) (fun _ => heldBy_executionId)
    hs (hi ▸ hh) ?_
  rw [← hi]
  exact hmove s hi hh hc

theorem insertAttempt_ok {a : AttemptRow} (h : (insertAttempt a).run t = .ok ((),u)) :
    (∀ a' ∈ t.attempts, clashesAttempt a' a = false) ∧ u = ⟨t.executions,t.attempts++[a]⟩ := by
  obtain ⟨_,_,hg,h₁⟩ := bind_ok.mp h
  obtain ⟨rfl,rfl⟩ := get_ok.mp hg
  split_ifs at h₁ with hc
  · exact (throw_ok.mp h₁).elim
  · refine ⟨by simpa using hc,?_⟩
    cases h₁
    rfl

theorem insertExecution_ok (h : (insertExecution r).run t = .ok ((),u)) :
    (∀ r' ∈ t.executions, clashesExecution r' r = false) ∧
      u = ⟨t.executions++[r],t.attempts⟩ := by
  obtain ⟨_,_,hg,h₁⟩ := bind_ok.mp h
  obtain ⟨rfl,rfl⟩ := get_ok.mp hg
  split_ifs at h₁ with hc
  · exact (throw_ok.mp h₁).elim
  · refine ⟨by simpa using hc,?_⟩
    cases h₁
    rfl

theorem submitTx_ok {b : Backend V J} (h : (submitTx b r).run t = .ok ((),u)) :
    (insertExecution r).run t = .ok ((),u) := by
  unfold submitTx at h
  split at h
  · exact h
  · exact (throw_ok.mp h).elim

/-- The tables after one claim of `row`. -/
def claimed (now expires : Instant) (worker : String) (ids : UUID × UUID)
    (row : ExecutionRow J) (t : Tables J) : Tables J :=
  ⟨update (fun r => r.id = row.id) (claimRow now expires worker ids.2 row) t.executions,
    t.attempts++[claimedAttempt now worker ids.1 ids.2 row]⟩

variable {worker : String} {ids : UUID × UUID}

theorem snapshot_claimed (id : UUID) :
    snapshot (claimed now expires worker ids row t) id =
      if id = row.id then (snapshot t id).map fun s =>
        ⟨claimRow now expires worker ids.2 row s.row,
          s.attempts++[claimedAttempt now worker ids.1 ids.2 row]⟩
      else snapshot t id := by
  have hf : ∀ r : ExecutionRow J, (claimRow now expires worker ids.2 row r).id = r.id :=
    fun _ => rfl
  have hp : ∀ r : ExecutionRow J, decide (r.id = row.id) = true → r.id = row.id := by simp
  have he : (claimedAttempt now worker ids.1 ids.2 row).executionId = row.id := rfl
  unfold snapshot claimed
  simp only [group_append_singleton,he]
  split_ifs with h h' h'
  · rw [lookup_update ExecutionRow.id id _ _ hf,Option.map_map,Option.map_map]
    cases hl : lookup ExecutionRow.id id t.executions with
    | none => rfl
    | some r => simp [lookup_key hl,h]
  · exact (h' h.symm).elim
  · exact (h h'.symm).elim
  · rw [lookup_update_of_ne ExecutionRow.id hf hp h',List.append_nil]

theorem Sound.claimed (ht : Sound t) (hrow : row ∈ t.executions)
    (hc : ∀ a ∈ t.attempts, clashesAttempt a (claimedAttempt now worker ids.1 ids.2 row) = false) :
    Sound (claimed now expires worker ids row t) := by
  have hu := Sound.updatedExecutions (p := fun r => r.id = row.id)
    (f := claimRow now expires worker ids.2 row) ht (fun _ => rfl)
  refine ⟨hu.executionIds,unique_append_singleton ht.attemptIds ?_,?_⟩
  · intro a ha he
    have := hc a ha
    simp only [clashesAttempt,Bool.or_eq_false_iff,decide_eq_false_iff_not] at this
    exact this.1 he
  · intro a ha
    rcases List.mem_append.mp ha with ha | ha
    · exact hu.references a ha
    · have he : a = claimedAttempt now worker ids.1 ids.2 row := by simpa using ha
      refine ⟨claimRow now expires worker ids.2 row row,?_,by rw [he]; rfl⟩
      exact List.mem_map.mpr ⟨row,hrow,by simp⟩

theorem evolves_claimed {ts : List String}
    (hmove : ∀ s, claimable n ts now s.attempts s.row = true →
      R s ⟨claimRow now expires worker ids.2 s.row s.row,
        s.attempts++[claimedAttempt now worker ids.1 ids.2 s.row]⟩) (ht : Sound t)
    (hrow : row ∈ t.executions) (hc : claimable n ts now t.attempts row = true) :
    EvolvesBy R t (claimed now expires worker ids row t) := by
  intro id
  rw [snapshot_claimed]
  split_ifs with h
  · subst h
    have hs := snapshot_of_mem ht hrow
    rw [hs]
    refine .some (.single ?_)
    refine hmove ⟨row,_⟩ ?_
    rw [claimable_snapshot hs]
    exact hc
  · exact EvolvesBy.refl R t id

theorem claimable_claimed {ts : List String} (hne : r.id ≠ row.id) :
    claimable n ts now (claimed now expires worker ids row t).attempts r =
      claimable n ts now t.attempts r := by
  have he : (claimedAttempt now worker ids.1 ids.2 row).executionId = row.id := rfl
  have hl : leaseLostRetry (claimed now expires worker ids row t).attempts r =
      leaseLostRetry t.attempts r := by
    unfold leaseLostRetry claimed
    rw [List.any_append]
    simp [he,hne.symm]
  unfold claimable
  rw [hl]

section Claiming
variable [DecidableEq J]

variable {b : Backend V J}

theorem rowToExecution_ok {e : Execution V} (h : rowToExecution b row = .ok e) :
    e.id = row.id ∧ e.status = row.status ∧ e.attempts = row.attempts := by
  unfold rowToExecution at h
  cases hp : decodeColumn b row.id row.payload with
  | error x => rw [hp] at h; cases h
  | ok payload =>
    cases hm : decodeColumn b row.id row.metadata with
    | error x => rw [hp,hm] at h; cases h
    | ok metadata =>
      cases hr : decodeResult b row with
      | error x => rw [hp,hm,hr] at h; cases h
      | ok result =>
        rw [hp,hm,hr] at h
        cases h
        exact ⟨rfl,rfl,rfl⟩

variable {now : Instant} {worker : String} {t u : Tables J}

theorem claimOne_ok {lease : ExecutionLease V} (ht : Sound t) (hrow : row ∈ t.executions)
    (h : (claimOne b now expires worker ids row).run t = .ok (lease,u)) :
    Sound u ∧ u = claimed now expires worker ids row t ∧ lease.execution.id = row.id ∧
      lease.attemptId = ids.1 ∧ lease.leaseToken = ids.2 ∧
      lease.execution.attempts = row.attempts+1 := by
  obtain ⟨_,t₁,hupd,h₁⟩ := bind_ok.mp h
  obtain ⟨_,rfl⟩ := updateExecutions_ok.mp hupd
  obtain ⟨_,t₂,hins,h₂⟩ := bind_ok.mp h₁
  obtain ⟨hclash,rfl⟩ := insertAttempt_ok hins
  obtain ⟨_,t₃,hsel,h₃⟩ := bind_ok.mp h₂
  obtain ⟨rfl,rfl⟩ := selectExecution_ok.mp hsel
  obtain ⟨execution,t₄,hdec,h₄⟩ := bind_ok.mp h₃
  obtain ⟨hexec,rfl⟩ := ofExcept_ok.mp hdec
  obtain ⟨rfl,rfl⟩ := pure_ok.mp h₄
  have hf : ∀ r : ExecutionRow J, (claimRow now expires worker ids.2 row r).id = r.id :=
    fun _ => rfl
  have hstored : lookup ExecutionRow.id row.id (update (fun r => r.id = row.id)
      (claimRow now expires worker ids.2 row) t.executions) =
      some (claimRow now expires worker ids.2 row row) := by
    rw [lookup_update ExecutionRow.id row.id _ _ hf,lookup_of_mem ht.executionIds hrow]
    simp
  refine ⟨Sound.claimed ht hrow hclash,rfl,?_,rfl,rfl,?_⟩
  · rw [(rowToExecution_ok hexec).1,hstored]
    rfl
  · rw [(rowToExecution_ok hexec).2.2,hstored]
    rfl

/-- What a returned lease says of the tables. -/
def Leases (u : Tables J) (lease : ExecutionLease V) : Prop :=
  ∃ s, snapshot u lease.execution.id = some s ∧ s.row.status = .running ∧
    s.row.leaseToken = some lease.leaseToken ∧
    ∃ a ∈ s.attempts, a.id = lease.attemptId ∧ a.leaseToken = lease.leaseToken ∧
      a.attemptNo = s.row.attempts ∧ a.status = .running

/-- The attempt a returned lease is for. -/
def Granted (u : Tables J) (lease : ExecutionLease V) : Prop :=
  ∃ a ∈ u.attempts, a.id = lease.attemptId ∧ a.executionId = lease.execution.id ∧
    a.attemptNo = lease.execution.attempts

variable {R : Snapshot J → Snapshot J → Prop} {uuids : ℕ → UUID × UUID}
  {leases : List (ExecutionLease V)}

variable {n : String} {ts : List String}

/-- The loop over the selected rows. The rows still to come are untouched, so
each is claimed from the state in which it was selected. -/
theorem claimRows_evolves {i : ℕ} {rows : List (ExecutionRow J)}
    (hmove : ∀ s attemptId token, claimable n ts now s.attempts s.row = true →
      R s ⟨claimRow now expires worker token s.row s.row,
        s.attempts++[claimedAttempt now worker attemptId token s.row]⟩) (ht : Sound t)
    (hu : UniqueKey ExecutionRow.id rows)
    (hrows : ∀ r ∈ rows, r ∈ t.executions ∧ claimable n ts now t.attempts r = true)
    (h : (claimRows b now expires worker uuids i rows).run t = .ok (leases,u)) :
    Sound u ∧ EvolvesBy R t u ∧
      (∀ id, (∀ r ∈ rows, r.id ≠ id) → snapshot u id = snapshot t id) ∧
      leases.map (fun lease => lease.execution.id) = rows.map ExecutionRow.id ∧
      ∀ lease ∈ leases, Leases u lease ∧ Granted u lease := by
  induction rows generalizing i t leases with
  | nil =>
    obtain ⟨rfl,rfl⟩ := pure_ok.mp h
    exact ⟨ht,EvolvesBy.refl R _,fun _ _ => rfl,rfl,by simp⟩
  | cons row rows ih =>
    obtain ⟨hn,hu⟩ := List.nodup_cons.mp hu
    obtain ⟨lease,t₁,hone,h₁⟩ := bind_ok.mp h
    obtain ⟨ls,t₂,hrest,h₂⟩ := bind_ok.mp h₁
    obtain ⟨rfl,rfl⟩ := pure_ok.mp h₂
    obtain ⟨hrow,hc⟩ := hrows row (by simp)
    obtain ⟨ht₁,rfl,hid,ha,htok,hno⟩ := claimOne_ok ht hrow hone
    have hne : ∀ r ∈ rows, r.id ≠ row.id := fun r hr he =>
      hn (he ▸ List.mem_map_of_mem hr)
    have hrows' : ∀ r ∈ rows,
        r ∈ (claimed now expires worker (uuids i) row t).executions ∧
        claimable n ts now (claimed now expires worker (uuids i) row t).attempts r = true := by
      intro r hr
      obtain ⟨hm,hcl⟩ := hrows r (by simp [hr])
      refine ⟨List.mem_map.mpr ⟨r,hm,by simp [hne r hr]⟩,?_⟩
      rw [claimable_claimed (hne r hr)]
      exact hcl
    obtain ⟨hu₂,he₂,hframe,hids,hls⟩ := ih ht₁ hu hrows' hrest
    refine ⟨hu₂,(evolves_claimed (fun s => hmove s _ _) ht hrow hc).trans he₂,?_,?_,?_⟩
    · intro id hid'
      rw [hframe id fun r hr => hid' r (by simp [hr]),snapshot_claimed,
        if_neg (fun he => hid' row (by simp) he.symm)]
    · rw [List.map_cons,List.map_cons,hid,hids]
    · intro l hl
      rcases List.mem_cons.mp hl with rfl | hl
      · have hsnap : snapshot t₂ row.id = some
            ⟨claimRow now expires worker (uuids i).2 row row,
              group AttemptRow.executionId row.id t.attempts++
                [claimedAttempt now worker (uuids i).1 (uuids i).2 row]⟩ := by
          rw [hframe row.id hne,snapshot_claimed,if_pos rfl,snapshot_of_mem ht hrow]
          rfl
        constructor
        · unfold Leases
          rw [hid,hsnap]
          refine ⟨_,rfl,rfl,by rw [htok]; rfl,
            claimedAttempt now worker (uuids i).1 (uuids i).2 row,by simp,?_,?_,rfl,rfl⟩
          · rw [ha]
            rfl
          · rw [htok]
            rfl
        · have hmem : claimedAttempt now worker (uuids i).1 (uuids i).2 row ∈
              group AttemptRow.executionId row.id t₂.attempts := by
            rw [(snapshot_some.mp hsnap).2]
            simp
          refine ⟨_,(mem_group.mp hmem).1,?_,?_,?_⟩
          · rw [ha]
            rfl
          · rw [hid]
            rfl
          · rw [hno]
            rfl
      · exact hls l hl

/-- What a claim does before it selects. -/
def sweeps (b : Backend V J) (now : Instant) : Db J Unit := do
  expireQueued now b.reclaimBatchSize
  expireCancelRequests now b.reclaimBatchSize
  releaseExpiredLeases now b.reclaimBatchSize

theorem claimTx_ok {limit : ℕ} {leaseDurationS : ℚ}
    (h : (claimTx b n ts limit leaseDurationS worker uuids now).run t = .ok (leases,u)) :
    ∃ v, (sweeps b now).run t = .ok ((),v) ∧
      (claimRows b now (now+timedelta leaseDurationS) worker uuids 0
        (select (claimable n ts now v.attempts) claimOrder limit v.executions)).run v =
        .ok (leases,u) := by
  obtain ⟨_,t₁,hq,h₁⟩ := bind_ok.mp h
  obtain ⟨_,t₂,hx,h₂⟩ := bind_ok.mp h₁
  obtain ⟨_,t₃,hl,h₃⟩ := bind_ok.mp h₂
  obtain ⟨t₃',t₄,hg,h₄⟩ := bind_ok.mp h₃
  obtain ⟨rfl,rfl⟩ := get_ok.mp hg
  exact ⟨_,bind_ok.mpr ⟨_,t₁,hq,bind_ok.mpr ⟨_,t₂,hx,hl⟩⟩,h₄⟩

variable
    (hexpire : ∀ s, pastExpiry now s.attempts s.row = true → R s ⟨expireRow now s.row,s.attempts⟩)
    (hcancel : ∀ s : Snapshot J, leaseExpired .cancelRequested now s.row = true →
      R s ⟨cancelExpired now s.row,
        update (heldAttempt s.row.id s.row.leaseToken) (closeAttempt .cancelled now) s.attempts⟩)
    (hreclaim : ∀ s : Snapshot J, leaseExpired .running now s.row = true →
      R s ⟨reclaimRow now s.row,
        update (heldAttempt s.row.id s.row.leaseToken) (closeAttempt .leaseLost now) s.attempts⟩)

include hexpire hcancel hreclaim

omit [DecidableEq J] in
theorem sweeps_evolves (ht : Sound t) (h : (sweeps b now).run t = .ok ((),u)) :
    Sound u ∧ EvolvesBy R t u := by
  obtain ⟨_,t₁,hq,h₁⟩ := bind_ok.mp h
  obtain ⟨_,t₂,hx,h₂⟩ := bind_ok.mp h₁
  have e₁ := expireQueued_evolves hexpire ht hq
  have e₂ := sweepLeases_evolves (cancelExpired now) (fun _ => rfl) hcancel e₁.1 hx
  have e₃ := sweepLeases_evolves (reclaimRow now) (fun _ => rfl) hreclaim e₂.1 h₂
  exact ⟨e₃.1,(e₁.2.trans e₂.2).trans e₃.2⟩

theorem claimTx_evolves {limit : ℕ} {leaseDurationS : ℚ}
    (hclaim : ∀ s attemptId token, claimable n ts now s.attempts s.row = true →
      R s ⟨claimRow now (now+timedelta leaseDurationS) worker token s.row s.row,
        s.attempts++[claimedAttempt now worker attemptId token s.row]⟩) (ht : Sound t)
    (h : (claimTx b n ts limit leaseDurationS worker uuids now).run t = .ok (leases,u)) :
    Sound u ∧ EvolvesBy R t u ∧ ∀ lease ∈ leases, Leases u lease ∧ Granted u lease := by
  obtain ⟨v,hsweeps,hrows⟩ := claimTx_ok h
  obtain ⟨hv,he₁⟩ := sweeps_evolves hexpire hcancel hreclaim ht hsweeps
  obtain ⟨hs,he,_,_,hls⟩ := claimRows_evolves hclaim hv (unique_select hv.executionIds)
    (fun r hr => mem_select hr) hrows
  exact ⟨hs,he₁.trans he,hls⟩

end Claiming

end OneStep.ExecutionRefinement
