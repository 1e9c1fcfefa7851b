import OneStep.ExecutionRuns

/-!
# The lease and attempt invariant

What the two tables say of one execution never contradicts itself: a lease is
recorded exactly while a worker may hold one, exactly one attempt is then
running and it is the latest, attempts are numbered without gap, and the finish
time is set exactly by the terminal statuses.
-/
namespace OneStep.ExecutionInvariant
open ExecutionModel ExecutionBackend ExecutionLifecycle ExecutionRuns KeyedTable

variable {V J : Type}

def attemptsOf (t : Tables J) (id : UUID) : List AttemptRow :=
  group AttemptRow.executionId id t.attempts

def runningAttempts (attempts : List AttemptRow) : List AttemptRow :=
  attempts.filter fun a => a.status = .running

structure LeaseInvariant (row : ExecutionRow J) (attempts : List AttemptRow) : Prop where
  leased : row.status.leased = true → row.leaseToken.isSome ∧ row.leaseExpiresAt.isSome
  unleased : row.status.leased = false → row.leaseToken = none ∧ row.leaseExpiresAt = none
  held : ∀ token, row.leaseToken = some token → ∃ a, runningAttempts attempts = [a] ∧
    a.leaseToken = token ∧ a.attemptNo = row.attempts
  idle : row.leaseToken = none → runningAttempts attempts = []
  numbered : attempts.map AttemptRow.attemptNo = List.range' 1 row.attempts
  finished : row.finishedAt.isSome = row.status.terminal
  owned : ∀ a ∈ attempts, a.executionId = row.id

variable {a : AttemptRow}

variable {attempts : List AttemptRow}

theorem mem_runningAttempts :
    a ∈ runningAttempts attempts ↔ a ∈ attempts ∧ a.status = .running := by
  simp [runningAttempts]

theorem runningAttempts_close {p : AttemptRow → Bool} {f : AttemptRow → AttemptRow}
    (h : runningAttempts attempts = [a]) (hp : p a = true) (hf : ∀ x, (f x).status ≠ .running) :
    runningAttempts (update p f attempts) = [] := by
  apply List.filter_eq_nil_iff.mpr
  intro x hx
  obtain ⟨y,hy,rfl⟩ := List.mem_map.mp hx
  by_cases hpy : p y = true
  · simpa [hpy] using hf y
  · intro hrun
    have hrun' : y.status = .running := by simpa [hpy] using hrun
    have hmem : y ∈ runningAttempts attempts := mem_runningAttempts.mpr ⟨hy,hrun'⟩
    rw [h,List.mem_singleton] at hmem
    rw [hmem] at hpy
    exact hpy hp

theorem runningAttempts_update {p : AttemptRow → Bool} {f : AttemptRow → AttemptRow}
    (hf : ∀ x, (f x).status = x.status) :
    runningAttempts (update p f attempts) = update p f (runningAttempts attempts) := by
  unfold runningAttempts update
  rw [List.filter_map]
  congr 1
  apply List.filter_congr
  intro x _
  by_cases h : p x = true <;> simp [h,hf]

theorem heldBy_running {attemptId executionId token : UUID} (h : runningAttempts attempts = [a])
    (hc : affected (heldBy attemptId executionId token) attempts = 1) :
    heldBy attemptId executionId token a = true := by
  have hpos : 0 < List.countP (heldBy attemptId executionId token) attempts := by
    unfold affected at hc
    omega
  obtain ⟨x,hx,hh⟩ := List.countP_pos_iff.mp hpos
  have hrun : x.status = AttemptStatus.running := by
    simp only [heldBy,Bool.and_eq_true,decide_eq_true_eq] at hh
    exact hh.2
  have hmem : x ∈ runningAttempts attempts := mem_runningAttempts.mpr ⟨hx,hrun⟩
  rw [h,List.mem_singleton] at hmem
  rw [← hmem]
  exact hh

theorem submitted_invariant (b : Backend V J) (request : ExecutionRequest V)
    (encoded : EncodedSubmission J) (id : UUID) (now : Instant) :
    LeaseInvariant (submittedRow b request encoded id now) [] where
  leased := by simp [submittedRow,ExecutionStatus.leased]
  unleased := fun _ => ⟨rfl,rfl⟩
  held := by simp [submittedRow]
  idle := fun _ => rfl
  numbered := rfl
  finished := rfl
  owned := by simp

section Cases
variable {row row' : ExecutionRow J} {attempts : List AttemptRow}

theorem waiting_unleased {s : ExecutionStatus} (h : s.waiting = true) : s.leased = false := by
  cases s <;> simp_all [ExecutionStatus.waiting,ExecutionStatus.leased]

theorem LeaseInvariant.settleWaiting (h : LeaseInvariant row attempts)
    (hw : row.status.leased = false) (hl : row'.status.leased = false)
    (ht : row'.leaseToken = row.leaseToken) (he : row'.leaseExpiresAt = row.leaseExpiresAt)
    (ha : row'.attempts = row.attempts) (hid : row'.id = row.id)
    (hf : row'.finishedAt.isSome = row'.status.terminal) : LeaseInvariant row' attempts where
  leased := by simp [hl]
  unleased := by
    intro _
    rw [ht,he]
    exact h.unleased hw
  held := by
    intro token htok
    rw [ht,(h.unleased hw).1] at htok
    cases htok
  idle := by
    intro _
    exact h.idle (h.unleased hw).1
  numbered := by rw [ha]; exact h.numbered
  finished := hf
  owned := by rw [hid]; exact h.owned

theorem LeaseInvariant.settleLease (h : LeaseInvariant row attempts) {a : AttemptRow}
    {p : AttemptRow → Bool} {f : AttemptRow → AttemptRow}
    (ha : runningAttempts attempts = [a]) (hp : p a = true)
    (hf : ∀ x, (f x).status ≠ .running) (hno : ∀ x, (f x).attemptNo = x.attemptNo)
    (hown : ∀ x, (f x).executionId = x.executionId) (hl : row'.status.leased = false)
    (ht : row'.leaseToken = none) (he : row'.leaseExpiresAt = none)
    (hat : row'.attempts = row.attempts) (hid : row'.id = row.id)
    (hfin : row'.finishedAt.isSome = row'.status.terminal) :
    LeaseInvariant row' (update p f attempts) where
  leased := by simp [hl]
  unleased := fun _ => ⟨ht,he⟩
  held := by simp [ht]
  idle := fun _ => runningAttempts_close ha hp hf
  numbered := by
    rw [map_update hno,hat]
    exact h.numbered
  finished := hfin
  owned := by
    intro x hx
    obtain ⟨y,hy,rfl⟩ := List.mem_map.mp hx
    rw [hid,← h.owned y hy]
    split_ifs
    · exact hown y
    · rfl

theorem LeaseInvariant.keepLease (h : LeaseInvariant row attempts)
    {p : AttemptRow → Bool} {f : AttemptRow → AttemptRow}
    (hs : ∀ x, (f x).status = x.status) (htok : ∀ x, (f x).leaseToken = x.leaseToken)
    (hno : ∀ x, (f x).attemptNo = x.attemptNo)
    (hown : ∀ x, (f x).executionId = x.executionId)
    (hl : row.status.leased = true) (hl' : row'.status.leased = true)
    (ht : row'.leaseToken = row.leaseToken) (he : row'.leaseExpiresAt.isSome)
    (hat : row'.attempts = row.attempts) (hid : row'.id = row.id)
    (hfin : row'.finishedAt.isSome = row'.status.terminal) :
    LeaseInvariant row' (update p f attempts) where
  leased := by
    intro _
    rw [ht]
    exact ⟨(h.leased hl).1,he⟩
  unleased := by simp [hl']
  held := by
    intro token htoken
    rw [ht] at htoken
    obtain ⟨a,ha,hat',hno'⟩ := h.held token htoken
    refine ⟨if p a then f a else a,?_,?_,?_⟩
    · rw [runningAttempts_update hs,ha]
      rfl
    · split_ifs
      · rw [htok]
        exact hat'
      · exact hat'
    · rw [hat]
      split_ifs
      · rw [hno]
        exact hno'
      · exact hno'
  idle := by
    intro hnone
    have := (h.leased hl).1
    rw [← ht,hnone] at this
    cases this
  numbered := by
    rw [map_update hno,hat]
    exact h.numbered
  finished := hfin
  owned := by
    intro x hx
    obtain ⟨y,hy,rfl⟩ := List.mem_map.mp hx
    rw [hid,← h.owned y hy]
    split_ifs
    · exact hown y
    · rfl

theorem LeaseInvariant.holder (h : LeaseInvariant row attempts) {attemptId token : UUID}
    {statuses : List ExecutionStatus} {now : Instant}
    (hh : holds row.id token statuses now row = true)
    (hc : affected (heldBy attemptId row.id token) attempts = 1) :
    ∃ a, runningAttempts attempts = [a] ∧ heldBy attemptId row.id token a = true := by
  simp only [holds,Bool.and_eq_true,decide_eq_true_eq] at hh
  obtain ⟨a,ha,-,-⟩ := h.held token hh.1.1.2
  exact ⟨a,ha,heldBy_running ha hc⟩

theorem LeaseInvariant.swept (h : LeaseInvariant row attempts)
    (hl : row.status.leased = true) :
    ∃ a, runningAttempts attempts = [a] ∧ heldAttempt row.id row.leaseToken a = true := by
  obtain ⟨token,htok⟩ := Option.isSome_iff_exists.mp (h.leased hl).1
  obtain ⟨a,ha,hat,-⟩ := h.held token htok
  have hmem : a ∈ runningAttempts attempts := by simp [ha]
  obtain ⟨hin,hrun⟩ := mem_runningAttempts.mp hmem
  refine ⟨a,ha,?_⟩
  simp [heldAttempt,h.owned a hin,htok,hat,hrun]

theorem LeaseInvariant.claimed (h : LeaseInvariant row attempts)
    (hw : row.status.waiting = true) (now expires : Instant) (worker : String)
    (attemptId token : UUID) :
    LeaseInvariant (claimRow now expires worker token row row)
      (attempts++[claimedAttempt now worker attemptId token row]) where
  leased := fun _ => ⟨rfl,rfl⟩
  unleased := by simp [claimRow,ExecutionStatus.leased]
  held := by
    intro token' htok
    have hidle : runningAttempts attempts = [] :=
      h.idle (h.unleased (waiting_unleased hw)).1
    refine ⟨claimedAttempt now worker attemptId token row,?_,Option.some.inj htok,rfl⟩
    unfold runningAttempts at hidle ⊢
    rw [List.filter_append,hidle]
    rfl
  idle := by simp [claimRow]
  numbered := by
    have hcat : List.range' 1 (row.attempts+1) = List.range' 1 row.attempts++[row.attempts+1] := by
      rw [List.range'_concat]
      simp [Nat.add_comm]
    rw [List.map_append,h.numbered]
    exact hcat.symm
  finished := by
    have hf := h.finished
    have ht : row.status.terminal = false := by
      cases hs : row.status <;> simp_all [ExecutionStatus.waiting,ExecutionStatus.terminal]
    rw [ht] at hf
    exact hf
  owned := by
    intro a ha
    rcases List.mem_append.mp ha with ha | ha
    · exact h.owned a ha
    · rw [List.mem_singleton.mp ha]
      rfl

end Cases

variable {now : Instant}

theorem leaseExpired_status {row : ExecutionRow J} {status : ExecutionStatus}
    (h : leaseExpired status now row = true) : row.status = status := by
  simp only [leaseExpired,Bool.and_eq_true,decide_eq_true_eq] at h
  exact h.1

theorem waiting_of_pastExpiry {row : ExecutionRow J} (h : pastExpiry now attempts row = true) :
    row.status.waiting = true := by
  simp only [pastExpiry,Bool.and_eq_true] at h
  exact h.1.1

theorem waiting_of_claimable {row : ExecutionRow J} {n : String} {ts : List String}
    (h : claimable n ts now attempts row = true) : row.status.waiting = true := by
  simp only [claimable,Bool.and_eq_true] at h
  exact h.1.1.2

theorem status_of_holds {row : ExecutionRow J} {id token : UUID} {statuses : List ExecutionStatus}
    (h : holds id token statuses now row = true) : row.status ∈ statuses := by
  simp only [holds,Bool.and_eq_true,List.contains_iff_mem] at h
  exact h.1.2

variable {b : Backend V J}

theorem moves_lease {s s' : Snapshot J} (h : LeaseInvariant s.row s.attempts)
    (hm : Moves b now s s') : LeaseInvariant s'.row s'.attempts := by
  cases hm with
  | expire hp =>
    exact h.settleWaiting (waiting_unleased (waiting_of_pastExpiry hp)) rfl rfl rfl rfl rfl rfl
  | cancelWaiting reason hw =>
    exact h.settleWaiting (waiting_unleased hw) rfl rfl rfl rfl rfl rfl
  | cancelRunning reason hr =>
    have hl : s.row.status.leased = true := by rw [hr]; rfl
    have hfin := h.finished
    rw [hr] at hfin
    have hkeep : LeaseInvariant (cancelRunning reason now s.row)
        (update (fun _ => false) id s.attempts) :=
      h.keepLease (fun _ => rfl) (fun _ => rfl) (fun _ => rfl) (fun _ => rfl) hl rfl rfl
        (h.leased hl).2 rfl rfl hfin
    simpa [update] using hkeep
  | claim n ts expires worker attemptId token hc =>
    exact h.claimed (waiting_of_claimable hc) now expires worker attemptId token
  | cancelExpired hp =>
    have hl : s.row.status.leased = true := by rw [leaseExpired_status hp]; rfl
    obtain ⟨a,ha,hheld⟩ := h.swept hl
    exact h.settleLease ha hheld (by simp [closeAttempt]) (fun _ => rfl) (fun _ => rfl)
      rfl rfl rfl rfl rfl rfl
  | reclaim hp =>
    have hl : s.row.status.leased = true := by rw [leaseExpired_status hp]; rfl
    have hfin := h.finished
    rw [leaseExpired_status hp] at hfin
    obtain ⟨a,ha,hheld⟩ := h.swept hl
    exact h.settleLease ha hheld (by simp [closeAttempt]) (fun _ => rfl) (fun _ => rfl)
      rfl rfl rfl rfl rfl hfin
  | heartbeat attemptId token expires hh hc =>
    have hl : s.row.status.leased = true := by
      have hs := status_of_holds hh
      simp only [List.mem_cons,List.not_mem_nil,or_false] at hs
      rcases hs with hs | hs <;> rw [hs] <;> rfl
    exact h.keepLease (fun _ => rfl) (fun _ => rfl) (fun _ => rfl) (fun _ => rfl) hl hl rfl
      rfl rfl rfl h.finished
  | complete attemptId token c result he hh hc =>
    obtain ⟨a,ha,hheld⟩ := h.holder hh hc
    refine h.settleLease ha hheld ?_ (fun _ => rfl) (fun _ => rfl) ?_ rfl rfl rfl rfl ?_
    · intro x
      cases effectiveStatus c.status s.row <;> simp [completeAttempt,attemptStatus]
    · cases effectiveStatus c.status s.row <;> rfl
    · cases effectiveStatus c.status s.row <;> rfl
  | release attemptId token hh hc =>
    obtain ⟨a,ha,hheld⟩ := h.holder hh hc
    have hrun : s.row.status = .running := by simpa using status_of_holds hh
    have hfin := h.finished
    rw [hrun] at hfin
    exact h.settleLease ha hheld (by simp [closeAttempt]) (fun _ => rfl) (fun _ => rfl)
      rfl rfl rfl rfl rfl hfin

variable {w : World J}

theorem Throughout.row {I : Snapshot J → Prop} (h : Throughout I w) {row : ExecutionRow J}
    (hr : row ∈ w.tables.executions) : I ⟨row,attemptsOf w.tables row.id⟩ := by
  obtain ⟨hsound,hall⟩ := h
  exact hall row.id _ (snapshot_of_mem hsound hr)

variable [DecidableEq J]

theorem reached_lease (hw : Reached b w) :
    Throughout (fun s => LeaseInvariant s.row s.attempts) w :=
  reached_throughout (fun request encoded id now => submitted_invariant b request encoded id now)
    (fun _ _ _ hs hm => moves_lease hs hm) hw

/-- Whatever the clients and workers called, in whatever order. -/
theorem reached_leaseInvariant {b : Backend V J} {w : World J} (hw : Reached b w)
    {row : ExecutionRow J} (hr : row ∈ w.tables.executions) :
    LeaseInvariant row (attemptsOf w.tables row.id) :=
  Throughout.row (reached_lease hw) hr

theorem attempt_positive (hw : Reached b w) (ha : a ∈ w.tables.attempts) : 1 ≤ a.attemptNo := by
  obtain ⟨row,hr,hid⟩ := (reached_lease hw).1.references a ha
  have hno : a.attemptNo ∈ (attemptsOf w.tables row.id).map AttemptRow.attemptNo :=
    List.mem_map_of_mem (mem_group.mpr ⟨ha,hid.symm⟩)
  rw [(Throughout.row (reached_lease hw) hr).numbered] at hno
  exact (List.mem_range'_1.mp hno).1

def claimedOnce : World (Option ℤ) :=
  after integers (after integers (start 0) 1 (submission 1)) 2 (claiming 11 12)

theorem claimedOnce_reached : Reached integers claimedOnce :=
  ((reached_start 0).after (by decide) _).after (by decide) _

/-- The claimed row holds its lease. -/
theorem claimedOnce_leaseInvariant : claimedOnce.tables.executions.length = 1 ∧
    ∀ row ∈ claimedOnce.tables.executions, row.status = .running ∧
      LeaseInvariant row (attemptsOf claimedOnce.tables row.id) := by
  have hrun : ∀ row ∈ claimedOnce.tables.executions, row.status = .running := by decide +kernel
  refine ⟨by decide +kernel,fun row hr => ⟨hrun row hr,?_⟩⟩
  exact reached_leaseInvariant claimedOnce_reached hr

end OneStep.ExecutionInvariant
