import OneStep.ExecutionHistory

/-!
# Start-by deadlines

An execution carries the latest time at which it may be started. A claim expires
the waiting executions that are past it and hands out no others, except those
that had been started in time and lost their lease: the sweep that reclaims them
marks their latest attempt, and both the expiry and the selection look for that
mark. The batches only bound how many rows a sweep reaches. An execution given
back by its holder carries the mark too, but it is queued, not retrying, and
expires like any other.
-/
namespace OneStep.ExecutionDeadlines
open ExecutionModel ExecutionBackend ExecutionLifecycle ExecutionRefinement ExecutionRuns
open ExecutionInvariant ExecutionHistory KeyedTable Transaction Transition

variable {V J : Type} {s : Snapshot J} {clock : Instant} {now : Instant}

def LatestLost (s : Snapshot J) : Prop :=
  ∃ a ∈ s.attempts, a.attemptNo = s.row.attempts ∧ a.status = .leaseLost

/-- The lease of the current attempt ran out, whether or not a sweep has come. -/
def LeaseLost (clock : Instant) (s : Snapshot J) : Prop :=
  (s.row.status = .running ∧ ∃ e, s.row.leaseExpiresAt = some e ∧ e ≤ clock) ∨
    (s.row.status = .retrying ∧ LatestLost s)

/-- What an execution that lost its lease can be until it is handed out again. -/
def Protected (clock : Instant) (s : Snapshot J) : Prop :=
  LeaseLost clock s ∨ s.row.status = .cancelRequested ∨ s.row.status = .cancelled

theorem leaseLostRetry_iff (h : LeaseInvariant s.row s.attempts) :
    leaseLostRetry s.attempts s.row = true ↔ s.row.status = .retrying ∧ LatestLost s := by
  unfold leaseLostRetry LatestLost
  simp only [Bool.and_eq_true,decide_eq_true_eq,List.any_eq_true]
  constructor
  · rintro ⟨hs,a,ha,⟨-,hno⟩,hlost⟩
    exact ⟨hs,a,ha,hno,hlost⟩
  · rintro ⟨hs,a,ha,hno,hlost⟩
    exact ⟨hs,a,ha,⟨h.owned a ha,hno⟩,hlost⟩

theorem Protected.mono (hclock : clock ≤ now) (h : Protected clock s) : Protected now s := by
  rcases h with (⟨hrun,e,he,hle⟩ | hlost) | hc
  · exact .inl (.inl ⟨hrun,e,he,hle.trans hclock⟩)
  · exact .inl (.inr hlost)
  · exact .inr hc

theorem latestLost_reclaim (h : LeaseInvariant s.row s.attempts) (hrun : s.row.status = .running) :
    LatestLost ⟨reclaimRow now s.row,
      update (heldAttempt s.row.id s.row.leaseToken) (closeAttempt .leaseLost now) s.attempts⟩ := by
  have hleased : s.row.status.leased = true := by rw [hrun]; rfl
  obtain ⟨a,ha,hheld⟩ := h.swept hleased
  obtain ⟨token,htoken⟩ := Option.isSome_iff_exists.mp (h.leased hleased).1
  obtain ⟨a',ha',-,hno⟩ := h.held token htoken
  have hsame : a' = a := by
    rw [ha] at ha'
    exact (List.cons.inj ha').1.symm
  have hmem : a ∈ runningAttempts s.attempts := by rw [ha]; exact List.mem_singleton_self a
  refine ⟨_,List.mem_map_of_mem (mem_runningAttempts.mp hmem).1,?_,?_⟩
  · rw [if_pos hheld]
    rw [hsame] at hno
    exact hno
  · rw [if_pos hheld]
    rfl

theorem lease_current {row : ExecutionRow J} {id token : UUID} {statuses : List ExecutionStatus}
    (h : holds id token statuses now row = true) : ∃ e, row.leaseExpiresAt = some e ∧ now < e := by
  simp only [holds,Bool.and_eq_true,decide_eq_true_eq,Option.any_eq_true] at h
  exact h.2

/-- Nobody holds a lease that was lost. -/
theorem not_holds_lost {token : UUID} {statuses : List ExecutionStatus} (hclock : clock ≤ now)
    (h : LeaseLost clock s) (hopen : .retrying ∉ statuses) :
    ¬holds s.row.id token statuses now s.row = true := by
  intro hh
  rcases h with ⟨-,e,he,hle⟩ | ⟨hs,-⟩
  · obtain ⟨e',he',hlt⟩ := lease_current hh
    rw [he] at he'
    cases he'
    exact absurd hlt (not_lt.mpr (hle.trans hclock))
  · apply hopen
    rw [← hs]
    exact status_of_holds hh

theorem does_protected {b : Backend V J} {op : Op V J} {s' : Snapshot J} (hclock : clock ≤ now)
    (hinv : LeaseInvariant s.row s.attempts) (h : Does b now op s s')
    (hunclaimed : s'.row.attempts = s.row.attempts) (hs : Protected clock s) :
    Protected now s' := by
  cases h with
  | cancelWaiting n id reason hw => exact .inr (.inr rfl)
  | cancelRunning n id reason hr => exact .inr (.inl rfl)
  | expire n ts limit d worker uuids hp =>
    simp only [pastExpiry,Bool.and_eq_true,Bool.not_eq_true'] at hp
    have hw := hp.1.1
    rcases hs with (⟨hrun,-⟩ | hlost) | hc | hc
    · rw [hrun] at hw
      cases hw
    · rw [(leaseLostRetry_iff hinv).mpr hlost] at hp
      cases hp.2
    · rw [hc] at hw
      cases hw
    · rw [hc] at hw
      cases hw
  | cancelExpired n ts limit d worker uuids hp => exact .inr (.inr rfl)
  | reclaim n ts limit d worker uuids hp =>
    exact .inl (.inr ⟨rfl,latestLost_reclaim hinv (leaseExpired_status hp)⟩)
  | claim n ts limit d worker uuids attemptId token hc =>
    exact absurd hunclaimed (Nat.succ_ne_self _)
  | heartbeat id attemptId token d hid hh hc =>
    rcases hs with hlost | hcancel | hcancel
    · exact absurd hh (not_holds_lost hclock hlost (by decide))
    · exact .inr (.inl hcancel)
    · exact .inr (.inr hcancel)
  | complete id attemptId token c result hid he hh hc =>
    rcases hs with hlost | hcancel | hcancel
    · refine absurd hh (not_holds_lost hclock hlost ?_)
      cases c.status <;> decide
    · have heff := effectiveStatus_cancelRequested hcancel (status_of_holds hh)
      right
      right
      simp [completeRow,heff,CompletionStatus.status]
    · rcases expected_leased (status_of_holds hh) with hr | hr
      · rw [hcancel] at hr
        cases hr
      · rw [hcancel] at hr
        cases hr
  | release id attemptId token hid hh hc =>
    have hrun : s.row.status = .running := by simpa using status_of_holds hh
    rcases hs with hlost | hcancel | hcancel
    · exact absurd hh (not_holds_lost hclock hlost (by decide))
    · rw [hrun] at hcancel
      cases hcancel
    · rw [hrun] at hcancel
      cases hcancel

theorem protected_not_expired (h : Protected clock s) : s.row.status ≠ .expired := by
  rcases h with (⟨hs,-⟩ | ⟨hs,-⟩) | hs | hs
  · rw [hs]; decide
  · rw [hs]; decide
  · rw [hs]; decide
  · rw [hs]; decide

section Calls
variable [DecidableEq J] {b : Backend V J} {now : Instant} {t u : Tables J} {op : Op V J}

omit [DecidableEq J] in
variable {s s' : Snapshot J}

omit [DecidableEq J] in
theorem does_attempts (h : Does b now op s s') :
    s'.row.attempts = s.row.attempts ∨ ∃ n ts limit d worker uuids,
      op = .claim n ts limit d worker uuids := by
  cases h with
  | cancelWaiting n id reason hw => exact .inl rfl
  | cancelRunning n id reason hr => exact .inl rfl
  | heartbeat id attemptId token d hid hh hc => exact .inl rfl
  | complete id attemptId token c result hid he hh hc => exact .inl rfl
  | release id attemptId token hid hh hc => exact .inl rfl
  | expire n ts limit d worker uuids hp => exact .inr ⟨n,ts,limit,d,worker,uuids,rfl⟩
  | cancelExpired n ts limit d worker uuids hp => exact .inr ⟨n,ts,limit,d,worker,uuids,rfl⟩
  | reclaim n ts limit d worker uuids hp => exact .inr ⟨n,ts,limit,d,worker,uuids,rfl⟩
  | claim n ts limit d worker uuids attemptId token hc => exact .inr ⟨n,ts,limit,d,worker,uuids,rfl⟩

/-- A move that hands nothing out. -/
def Unclaimed (b : Backend V J) (now : Instant) (op : Op V J) (s s' : Snapshot J) : Prop :=
  Does b now op s s' ∧ s'.row.attempts = s.row.attempts

omit [DecidableEq J] in
variable {R : Snapshot J → Snapshot J → Prop}

omit [DecidableEq J] in
theorem rel_path {x y : Option (Snapshot J)} (h : Option.Rel (Relation.ReflTransGen R) x y)
    (hs : x = some s) : ∃ s', y = some s' ∧ Relation.ReflTransGen R s s' := by
  subst hs
  cases h with
  | some h => exact ⟨_,rfl,h⟩

omit [DecidableEq J] in
theorem rel_path_back {x y : Option (Snapshot J)} (h : Option.Rel (Relation.ReflTransGen R) x y)
    (hs : y = some s') : ∃ s, x = some s ∧ Relation.ReflTransGen R s s' := by
  subst hs
  cases h with
  | some h => exact ⟨_,rfl,h⟩

omit [DecidableEq J] in
variable {ts : List String} {limit : ℤ} {leaseDurationS : ℚ} {worker : String}
  {uuids : ℕ → UUID × UUID}

variable {n : String}

omit [DecidableEq J] in
theorem sweeps_unclaimed (ht : Sound t) (h : (sweeps b now).run t = .ok ((),u)) :
    Sound u ∧
      EvolvesBy (Unclaimed b now (.claim n ts limit leaseDurationS worker uuids)) t u :=
  sweeps_evolves (fun _ hp => ⟨.expire n ts limit leaseDurationS worker uuids hp,rfl⟩)
    (fun _ hp => ⟨.cancelExpired n ts limit leaseDurationS worker uuids hp,rfl⟩)
    (fun _ hp => ⟨.reclaim n ts limit leaseDurationS worker uuids hp,rfl⟩) ht h

/-- A claim hands out rows of the swept tables that are claimable there, each
named by one lease, and leaves the others as swept. -/
theorem claim_hands {leases : List (ExecutionLease V)} (ht : Sound t)
    (h : claim b n ts limit leaseDurationS worker uuids now t = (.ok leases,u)) :
    ∃ v, (sweeps b now).run t = .ok ((),v) ∧ Sound v ∧
      (∀ lease ∈ leases, ∃ s, snapshot v lease.execution.id = some s ∧
        claimable n ts now s.attempts s.row = true) ∧
      ∀ id, (∀ lease ∈ leases, lease.execution.id ≠ id) → snapshot u id = snapshot v id := by
  unfold claim at h
  split_ifs at h
  · cases h
  · cases h
  · cases h
  · cases h
  · rcases commit_cases (claimTx b n ts limit.toNat leaseDurationS worker uuids now) t with
      ⟨ls,u',hrun,hc⟩ | ⟨e,-,hc⟩
    · rw [hc] at h
      cases h
      obtain ⟨v,hsweeps,hrows⟩ := claimTx_ok hrun
      have hun : Sound v ∧
          EvolvesBy (Unclaimed b now (.claim n ts limit leaseDurationS worker uuids)) t v :=
        sweeps_unclaimed ht hsweeps
      have hv := hun.1
      have hsel : ∀ r ∈ select (claimable n ts now v.attempts) claimOrder limit.toNat v.executions,
          r ∈ v.executions ∧ claimable n ts now v.attempts r = true := fun r hr => mem_select hr
      obtain ⟨-,-,hframe,hids,-⟩ := claimRows_evolves (R := fun _ _ => True)
        (fun _ _ _ _ => trivial) hv (unique_select hv.executionIds) hsel hrows
      refine ⟨v,hsweeps,hv,?_,?_⟩
      · intro lease hlease
        have hid : lease.execution.id ∈ leases.map fun lease => lease.execution.id :=
          List.mem_map_of_mem hlease
        rw [hids] at hid
        obtain ⟨r,hr,he⟩ := List.mem_map.mp hid
        obtain ⟨hmem,hclaimable⟩ := hsel r hr
        have hsnap := snapshot_of_mem hv hmem
        rw [← he]
        refine ⟨_,hsnap,?_⟩
        rw [claimable_snapshot hsnap]
        exact hclaimable
      · intro id hnot
        refine hframe id fun r hr he => ?_
        have hid : r.id ∈ leases.map fun lease => lease.execution.id := by
          rw [hids]
          exact List.mem_map_of_mem hr
        obtain ⟨lease,hlease,hsame⟩ := List.mem_map.mp hid
        exact hnot lease hlease (hsame.trans he)
    · rw [hc] at h
      cases h

theorem claim_refused {e : BackendError}
    (h : claim b n ts limit leaseDurationS worker uuids now t = (.error e,u)) : u = t := by
  unfold claim at h
  split_ifs at h
  · exact (Prod.mk.inj h).2.symm
  · exact (Prod.mk.inj h).2.symm
  · exact (Prod.mk.inj h).2.symm
  · exact (Prod.mk.inj h).2.symm
  · rcases commit_cases (claimTx b n ts limit.toNat leaseDurationS worker uuids now) t with
      ⟨ls,u',hrun,hc⟩ | ⟨e',-,hc⟩
    · rw [hc] at h
      cases h
    · rw [hc] at h
      exact (Prod.mk.inj h).2.symm

theorem perform_unclaimed {r : Reply V} (ht : Sound t) (h : perform b now t op = (r,u)) {id : UUID}
    (hnot : ∀ leases, r = .leases leases → ∀ lease ∈ leases, lease.execution.id ≠ id)
    (hs : snapshot t id = some s) :
    ∃ s', snapshot u id = some s' ∧ Relation.ReflTransGen (Unclaimed b now op) s s' := by
  by_cases hclaim : ∃ n ts limit d worker uuids, op = .claim n ts limit d worker uuids
  · obtain ⟨n,ts,limit,d,worker,uuids,rfl⟩ := hclaim
    obtain ⟨hr,hu⟩ := Prod.mk.inj h
    cases hc : claim b n ts limit d worker uuids now t with
    | mk answer v =>
      rw [hc] at hr hu
      cases answer with
      | ok leases =>
        obtain ⟨v',hsweeps,-,-,hframe⟩ := claim_hands ht hc
        dsimp only at hu
        subst hu
        rw [hframe id (hnot leases hr.symm)]
        exact rel_path ((sweeps_unclaimed ht hsweeps).2 id) hs
      | error e =>
        have hsame := claim_refused hc
        dsimp only at hu
        rw [← hu,hsame]
        exact ⟨s,hs,.refl⟩
  · rcases (perform_makes ht h).2 id with hrel | ⟨hnone,-⟩
    · obtain ⟨s',hs',hpath⟩ := rel_path hrel hs
      refine ⟨s',hs',Relation.ReflTransGen.mono (fun x y hxy => ?_) _ _ hpath⟩
      exact ⟨hxy,(does_attempts hxy).resolve_right hclaim⟩
    · rw [hs] at hnone
      cases hnone

omit [DecidableEq J] in
/-- Expiry has one way in, and it is a move of a claim. -/
theorem does_expired (h : Does b now op s s') (hexp : s'.row.status = .expired) :
    pastExpiry now s.attempts s.row = true ∧
      ∃ n ts limit d worker uuids, op = .claim n ts limit d worker uuids := by
  cases h with
  | expire n ts limit d worker uuids hp => exact ⟨hp,n,ts,limit,d,worker,uuids,rfl⟩
  | cancelWaiting n id reason hw => cases hexp
  | cancelRunning n id reason hr => cases hexp
  | cancelExpired n ts limit d worker uuids hp => cases hexp
  | reclaim n ts limit d worker uuids hp => cases hexp
  | claim n ts limit d worker uuids attemptId token hc => cases hexp
  | heartbeat id attemptId token d hid hh hc =>
    have hs := status_of_holds hh
    dsimp only at hexp
    rw [hexp] at hs
    exact absurd hs (by decide)
  | complete id attemptId token c result hid he hh hc =>
    dsimp only [completeRow] at hexp
    cases heff : effectiveStatus c.status s.row <;> rw [heff] at hexp <;> cases hexp
  | release id attemptId token hid hh hc => cases hexp

omit [DecidableEq J] in
/-- A claim leaves nothing it touched to be expired at the same time. -/
theorem claim_not_past (hinv : LeaseInvariant s.row s.attempts)
    (h : Does b now (.claim n ts limit leaseDurationS worker uuids) s s') :
    ¬pastExpiry now s'.attempts s'.row = true := by
  intro hp
  have hw := waiting_of_pastExpiry hp
  cases h with
  | expire n ts limit d worker uuids hp => cases hw
  | cancelExpired n ts limit d worker uuids hp => cases hw
  | claim n ts limit d worker uuids attemptId token hc => cases hw
  | reclaim n ts limit d worker uuids hexp =>
    have hmove : Moves b now s _ := .reclaim hexp
    have hlost : leaseLostRetry _ (reclaimRow now s.row) = true :=
      (leaseLostRetry_iff (moves_lease hinv hmove)).mpr
        ⟨rfl,latestLost_reclaim hinv (leaseExpired_status hexp)⟩
    simp only [pastExpiry,Bool.and_eq_true,Bool.not_eq_true'] at hp
    rw [hp.2] at hlost
    cases hlost

omit [DecidableEq J] in
theorem path_lease (hmoves : ∀ x y, R x y → Does b now op x y) (h : Relation.ReflTransGen R s s')
    (hinv : LeaseInvariant s.row s.attempts) : LeaseInvariant s'.row s'.attempts := by
  induction h with
  | refl => exact hinv
  | tail _ hstep ih => exact moves_lease ih (hmoves _ _ hstep).moves

omit [DecidableEq J] in
theorem path_expired (h : Relation.ReflTransGen (Does b now op) s s')
    (hinv : LeaseInvariant s.row s.attempts) (hexp : s'.row.status = .expired) :
    s.row.status = .expired ∨ pastExpiry now s.attempts s.row = true := by
  rcases h.cases_tail with heq | ⟨x,hx,hlast⟩
  · rw [heq] at hexp
    exact .inl hexp
  · obtain ⟨hpast,n,ts,limit,d,worker,uuids,rfl⟩ := does_expired hlast hexp
    rcases hx.cases_tail with heq | ⟨y,hy,hbefore⟩
    · rw [heq] at hpast
      exact .inr hpast
    · exact absurd hpast (claim_not_past (path_lease (fun _ _ h => h) hy hinv) hbefore)

omit [DecidableEq J] in
theorem path_protected {clock : Instant} (hclock : clock ≤ now)
    (h : Relation.ReflTransGen (Unclaimed b now op) s s') (hinv : LeaseInvariant s.row s.attempts)
    (hs : Protected clock s) : Protected now s' := by
  induction h with
  | refl => exact Protected.mono hclock hs
  | tail hpath hstep ih =>
    exact does_protected le_rfl (path_lease (fun _ _ h => h.1) hpath hinv) hstep.1 hstep.2 ih

end Calls

section Runs
variable [DecidableEq J] {b : Backend V J} {w w' : World J} {e : Event V J}

/-- A reply that leases out the execution. -/
def HandsOut (e : Event V J) (id : UUID) : Prop :=
  ∃ leases, e.reply = .leases leases ∧ ∃ lease ∈ leases, lease.execution.id = id

theorem step_protected (hw : Throughout (fun s => LeaseInvariant s.row s.attempts) w)
    (h : Step b w e w') {id : UUID} (hnot : ¬HandsOut e id) {s : Snapshot J}
    (hs : snapshot w.tables id = some s) (hp : Protected w.clock s) :
    ∃ s', snapshot w'.tables id = some s' ∧ Protected w'.clock s' := by
  obtain ⟨hclock,hperf,hclock'⟩ := h
  have hother : ∀ leases, e.reply = .leases leases → ∀ lease ∈ leases, lease.execution.id ≠ id :=
    fun leases hr lease hl he => hnot ⟨leases,hr,lease,hl,he⟩
  obtain ⟨s',hs',hpath⟩ := perform_unclaimed hw.1 hperf hother hs
  rw [hclock']
  exact ⟨s',hs',path_protected hclock hpath (hw.2 id s hs) hp⟩

/-- A protected row stays so until it is handed out. -/
theorem run_protected {es : List (Event V J)}
    (hw : Throughout (fun s => LeaseInvariant s.row s.attempts) w) (h : Run (Step b) w es w')
    {id : UUID} (hnot : ∀ e ∈ es, ¬HandsOut e id) {s : Snapshot J}
    (hs : snapshot w.tables id = some s) (hp : Protected w.clock s) :
    ∃ s', snapshot w'.tables id = some s' ∧ Protected w'.clock s' := by
  induction h generalizing s with
  | nil w => exact ⟨s,hs,hp⟩
  | cons hstep _ ih =>
    obtain ⟨s₁,hs₁,hp₁⟩ := step_protected hw hstep (hnot _ List.mem_cons_self) hs hp
    exact ih (step_throughout (fun r c i n => submitted_invariant b r c i n)
      (fun _ _ _ hx hm => moves_lease hx hm) _ _ _ hw hstep)
      (fun e he => hnot e (List.mem_cons_of_mem _ he)) hs₁ hp₁

/-- A claim hands out executions that may still start, or that lost their lease. -/
theorem claim_deadline (hw : Reached b w) {now : Instant} {n : String} {ts : List String}
    {limit : ℤ} {leaseDurationS : ℚ} {worker : String} {uuids : ℕ → UUID × UUID}
    {leases : List (ExecutionLease V)} {u : Tables J}
    (h : claim b n ts limit leaseDurationS worker uuids now w.tables = (.ok leases,u)) :
    ∃ v, (sweeps b now).run w.tables = .ok ((),v) ∧ ∀ lease ∈ leases, ∃ s,
      snapshot v lease.execution.id = some s ∧ (s.row.expiresAt.all (fun e => now < e) = true ∨
        (s.row.status = .retrying ∧ LatestLost s)) := by
  obtain ⟨hsound,hlease⟩ := reached_lease hw
  obtain ⟨v,hsweeps,hv,hands,-⟩ := claim_hands hsound h
  refine ⟨v,hsweeps,fun lease hl => ?_⟩
  obtain ⟨s,hs,hc⟩ := hands lease hl
  refine ⟨s,hs,?_⟩
  simp only [claimable,Bool.and_eq_true,Bool.or_eq_true] at hc
  refine hc.2.imp_right fun hlost => ?_
  have hun : Sound v ∧ EvolvesBy (Unclaimed b now (.claim n ts limit leaseDurationS worker uuids))
      w.tables v := sweeps_unclaimed hsound hsweeps
  obtain ⟨s₀,hs₀,hpath⟩ := rel_path_back (hun.2 lease.execution.id) hs
  exact (leaseLostRetry_iff (path_lease (fun _ _ h => h.1) hpath (hlease _ _ hs₀))).mp hlost

theorem step_expired (hw : Reached b w) (h : Step b w e w') {id : UUID} {s' : Snapshot J}
    (hs' : snapshot w'.tables id = some s') (hexp : s'.row.status = .expired) :
    ∃ s, snapshot w.tables id = some s ∧ (s.row.status = .expired ∨
      (s.row.status.waiting = true ∧ ∃ d, s.row.expiresAt = some d ∧ d ≤ e.now)) := by
  obtain ⟨hsound,hlease⟩ := reached_lease hw
  rcases (perform_makes hsound h.2.1).2 id with hrel | ⟨-,request,encoded,-,hnew⟩
  · obtain ⟨s,hs,hpath⟩ := rel_path_back hrel hs'
    refine ⟨s,hs,(path_expired hpath (hlease id s hs) hexp).imp_right fun hp => ?_⟩
    refine ⟨waiting_of_pastExpiry hp,?_⟩
    simp only [pastExpiry,Bool.and_eq_true,Option.any_eq_true,decide_eq_true_eq] at hp
    exact hp.1.2
  · rw [hs'] at hnew
    cases hnew
    cases hexp

/-- Whatever is submitted, claimed, completed, released and reclaimed before: an
execution is handed out past its expiry only when it lost its lease, it expires
only while it waits and when the time has come, and a lost lease keeps it from
expiring until it is handed out again. -/
theorem start_deadline (hw : Reached b w) :
    (∀ now n ts limit leaseDurationS worker uuids leases u, w.clock ≤ now →
      claim b n ts limit leaseDurationS worker uuids now w.tables = (.ok leases,u) →
      ∃ v, (sweeps b now).run w.tables = .ok ((),v) ∧ ∀ lease ∈ leases, ∃ s,
        snapshot v lease.execution.id = some s ∧
          (s.row.expiresAt.all (fun e => now < e) = true ∨
            (s.row.status = .retrying ∧ LatestLost s))) ∧
    (∀ e w' id s', Step b w e w' → snapshot w'.tables id = some s' →
      s'.row.status = .expired → ∃ s, snapshot w.tables id = some s ∧
        (s.row.status = .expired ∨ (s.row.status.waiting = true ∧
          ∃ d, s.row.expiresAt = some d ∧ d ≤ e.now))) ∧
    ∀ clock es w' id s, w.clock ≤ clock → Run (Step b) {w with clock := clock} es w' →
      (∀ e ∈ es, ¬HandsOut e id) → snapshot w.tables id = some s → LeaseLost clock s →
      ∃ s', snapshot w'.tables id = some s' ∧ s'.row.status ≠ .expired := by
  refine ⟨?_,?_,?_⟩
  · intro now n ts limit leaseDurationS worker uuids leases u _ h
    exact claim_deadline hw h
  · intro e w' id s' h hs' hexp
    exact step_expired hw h hs' hexp
  · intro clock es w' id s _ hrun hnot hs hlost
    have hall : Throughout (fun s => LeaseInvariant s.row s.attempts)
        ({w with clock := clock} : World J) := ⟨(reached_lease hw).1,(reached_lease hw).2⟩
    obtain ⟨s',hs',hp⟩ := run_protected hall hrun hnot hs (.inl hlost)
    exact ⟨s',hs',protected_not_expired hp⟩

end Runs

section Late

/-- Started at 2 under a start-by deadline of 5, by a worker that then went silent. -/
def startedInTime : World (Option ℤ) :=
  after integers (after integers (start 0) 1 (.submit ⟨"default","resize",some 7,none,none,none,
    some 5⟩ ⟨some 7,none,"7"⟩ 1)) 2 (claiming 11 12)

theorem startedInTime_reached : Reached integers startedInTime :=
  ((reached_start 0).after (by decide) _).after (by decide) _

/-- Its lease ran out long past the deadline; a poll hands it out again, and until
some poll does it cannot expire. -/
theorem startedInTime_deadline : ∃ s, snapshot startedInTime.tables 1 = some s ∧
    s.row.expiresAt = some 5 ∧ LeaseLost 60000000 s ∧
    (∃ leases u v s', claim integers "default" ["resize"] 1 30 "other" (fun _ => (21,22)) 60000000
        startedInTime.tables = (.ok leases,u) ∧ leases.map (·.execution.id) = [1] ∧
      (sweeps integers 60000000).run startedInTime.tables = .ok ((),v) ∧
      snapshot v 1 = some s' ∧ (s'.row.expiresAt.all (fun e => (60000000 : ℤ) < e) = true ∨
        (s'.row.status = .retrying ∧ LatestLost s'))) ∧
    ∀ es w', Run (Step integers) {startedInTime with clock := 60000000} es w' →
      (∀ e ∈ es, ¬HandsOut e 1) → ∃ s', snapshot w'.tables 1 = some s' ∧
        s'.row.status ≠ .expired := by
  obtain ⟨hclaim,-,hrun⟩ := start_deadline startedInTime_reached
  have hs : ∃ s, snapshot startedInTime.tables 1 = some s ∧ s.row.expiresAt = some 5 ∧
      s.row.status = .running ∧ s.row.leaseExpiresAt = some 30000002 := by
    have hany : (snapshot startedInTime.tables 1).any (fun s => s.row.expiresAt = some 5 ∧
        s.row.status = .running ∧ s.row.leaseExpiresAt = some 30000002) = true := by
      decide +kernel
    simpa only [Option.any_eq_true,decide_eq_true_eq] using hany
  obtain ⟨s,hsnap,hexp,hstatus,hlease⟩ := hs
  have hlost : LeaseLost 60000000 s := .inl ⟨hstatus,_,hlease,by decide⟩
  refine ⟨s,hsnap,hexp,hlost,?_,fun es w' h hnot =>
    hrun 60000000 es w' 1 s (by decide) h hnot hsnap hlost⟩
  have hpoll : ∃ leases u, claim integers "default" ["resize"] 1 30 "other" (fun _ => (21,22))
      60000000 startedInTime.tables = (.ok leases,u) ∧ leases.map (·.execution.id) = [1] := by
    have hids : (claim integers "default" ["resize"] 1 30 "other" (fun _ => (21,22)) 60000000
        startedInTime.tables).1.toOption.any (fun leases => leases.map (·.execution.id) = [1]) =
        true := by
      decide +kernel
    cases hcall : claim integers "default" ["resize"] 1 30 "other" (fun _ => (21,22)) 60000000
      startedInTime.tables with
    | mk answer u =>
      rw [hcall] at hids
      cases answer with
      | ok leases => exact ⟨leases,u,rfl,of_decide_eq_true hids⟩
      | error e => cases hids
  obtain ⟨leases,u,hcall,hids⟩ := hpoll
  obtain ⟨v,hsweeps,hands⟩ := hclaim _ _ _ _ _ _ _ leases u (by decide) hcall
  obtain ⟨lease,hmem,hid⟩ : ∃ lease ∈ leases, lease.execution.id = 1 := by
    have hone : (1 : UUID) ∈ leases.map (·.execution.id) := by rw [hids]; decide
    obtain ⟨lease,hmem,hid⟩ := List.mem_map.mp hone
    exact ⟨lease,hmem,hid⟩
  obtain ⟨s',hs',hdead⟩ := hands lease hmem
  rw [hid] at hs'
  exact ⟨leases,u,v,s',hcall,hids,hsweeps,hs',hdead⟩

end Late

end OneStep.ExecutionDeadlines
