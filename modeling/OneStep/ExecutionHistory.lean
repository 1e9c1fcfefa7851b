import OneStep.ExecutionInvariant

/-!
# The allowed life cycle of an execution

`Follows` relates an earlier row of an execution to a later one: a terminal row
is final, a requested cancel can only end as a cancel without a result, the
version grows with every change of status and the attempts are never taken
back. Single moves respect it and it composes, so it relates any two moments of
any run.
-/
namespace OneStep.ExecutionHistory
open ExecutionModel ExecutionBackend ExecutionLifecycle ExecutionRefinement ExecutionRuns
open ExecutionInvariant KeyedTable Transaction Transition

variable {V J : Type}

/-- Only a success stores a result. -/
def ResultLaw (b : Backend V J) (s : Snapshot J) : Prop :=
  s.row.status ≠ .succeeded → s.row.result = b.null

structure Follows (b : Backend V J) (row row' : ExecutionRow J) : Prop where
  final : row.status.terminal = true → row'.status = row.status ∧ row'.result = row.result ∧
    row'.error = row.error ∧ row'.finishedAt = row.finishedAt ∧ row'.attempts = row.attempts
  cancelling : row.status = .cancelRequested → row'.status = .cancelRequested ∨
    (row'.status = .cancelled ∧ row'.result = b.null)
  version : row.version ≤ row'.version
  changed : row'.status ≠ row.status → row.version < row'.version
  attempts : row.attempts ≤ row'.attempts

theorem Follows.refl (b : Backend V J) (row : ExecutionRow J) : Follows b row row where
  final := fun _ => ⟨rfl,rfl,rfl,rfl,rfl⟩
  cancelling := .inl
  version := le_rfl
  changed := fun h => absurd rfl h
  attempts := le_rfl

theorem Follows.trans {b : Backend V J} {r₁ r₂ r₃ : ExecutionRow J} (h : Follows b r₁ r₂)
    (k : Follows b r₂ r₃) : Follows b r₁ r₃ where
  final := by
    intro ht
    obtain ⟨hs,hr,he,hf,ha⟩ := h.final ht
    rw [← hs] at ht
    obtain ⟨ks,kr,ke,kf,ka⟩ := k.final ht
    exact ⟨ks.trans hs,kr.trans hr,ke.trans he,kf.trans hf,ka.trans ha⟩
  cancelling := by
    intro hc
    rcases h.cancelling hc with hs | ⟨hs,hr⟩
    · exact k.cancelling hs
    · have ht : r₂.status.terminal = true := by rw [hs]; rfl
      obtain ⟨ks,kr,-⟩ := k.final ht
      exact .inr ⟨ks.trans hs,kr.trans hr⟩
  version := h.version.trans k.version
  changed := by
    intro hne
    by_cases hs : r₂.status = r₁.status
    · have hne' : r₃.status ≠ r₂.status := by rwa [hs]
      exact h.version.trans_lt (k.changed hne')
    · exact (h.changed hs).trans_le k.version
  attempts := h.attempts.trans k.attempts

variable {row row' : ExecutionRow J}

theorem Follows.advance {b : Backend V J} (hs : row.status.terminal = false)
    (hc : row.status ≠ .cancelRequested) (hv : row'.version = row.version+1)
    (ha : row.attempts ≤ row'.attempts) :
    Follows b row row' where
  final := by simp [hs]
  cancelling := fun h => absurd h hc
  version := by omega
  changed := fun _ => by omega
  attempts := ha

theorem Follows.cancel {b : Backend V J} (hs : row.status = .cancelRequested)
    (hs' : row'.status = .cancelled) (hr : row'.result = b.null) (hv : row'.version = row.version+1)
    (ha : row'.attempts = row.attempts) : Follows b row row' where
  final := by simp [hs,ExecutionStatus.terminal]
  cancelling := fun _ => .inr ⟨hs',hr⟩
  version := by omega
  changed := fun _ => by omega
  attempts := ha.ge

theorem waiting_open {s : ExecutionStatus} (h : s.waiting = true) :
    s.terminal = false ∧ s ≠ .cancelRequested ∧ s ≠ .succeeded := by
  cases s <;> simp_all [ExecutionStatus.waiting,ExecutionStatus.terminal]

theorem encodeResult_null {b : Backend V J} {c : ExecutionCompletion V} {result : J}
    (h : encodeResult b c row = .ok result) (he : effectiveStatus c.status row ≠ .succeeded) :
    result = b.null := by
  have hno : ¬(c.status = .succeeded ∧ cancelWon c.status row = false) := by
    rintro ⟨hc,hw⟩
    apply he
    rw [effectiveStatus,hw]
    simpa using hc
  unfold encodeResult at h
  rw [if_neg hno] at h
  exact (Except.ok.inj h).symm

theorem stored_null {b : Backend V J} {result : J} (h : result = b.null) :
    b.stored result = b.null := by rw [h,b.stored_null]

variable {status : CompletionStatus}

theorem effectiveStatus_cancelRequested (hs : row.status = .cancelRequested)
    (hm : row.status ∈ expectedStatuses status) : effectiveStatus status row = .cancelled := by
  rw [hs] at hm
  cases status <;> simp_all [expectedStatuses,effectiveStatus,cancelWon]

theorem completion_status_ne (h : status.status ≠ .succeeded) : status ≠ .succeeded := by
  intro he
  rw [he] at h
  exact h rfl

theorem expected_leased {s : ExecutionStatus} (h : s ∈ expectedStatuses status) :
    s = .running ∨ s = .cancelRequested := by
  cases status <;> simp_all [expectedStatuses]

theorem moves_follows {b : Backend V J} (now : Instant) (s s' : Snapshot J)
    (h : ResultLaw b s) (hm : Moves b now s s') : ResultLaw b s' ∧ Follows b s.row s'.row := by
  cases hm with
  | expire hp =>
    obtain ⟨ht,hc,hs⟩ := waiting_open (waiting_of_pastExpiry hp)
    exact ⟨fun _ => h hs,.advance ht hc rfl le_rfl⟩
  | cancelWaiting reason hw =>
    obtain ⟨ht,hc,hs⟩ := waiting_open hw
    exact ⟨fun _ => h hs,.advance ht hc rfl le_rfl⟩
  | cancelRunning reason hr =>
    have hs : s.row.status ≠ .succeeded := by simp [hr]
    exact ⟨fun _ => h hs,.advance (by rw [hr]; rfl) (by simp [hr]) rfl le_rfl⟩
  | claim n ts expires worker attemptId token hc =>
    obtain ⟨ht,hcr,hs⟩ := waiting_open (waiting_of_claimable hc)
    exact ⟨fun _ => h hs,.advance ht hcr rfl (Nat.le_succ _)⟩
  | cancelExpired hp =>
    have hc := leaseExpired_status hp
    have hnull : s.row.result = b.null := h (by simp [hc])
    exact ⟨fun _ => hnull,.cancel hc rfl hnull rfl rfl⟩
  | reclaim hp =>
    have hr := leaseExpired_status hp
    have hs : s.row.status ≠ .succeeded := by simp [hr]
    exact ⟨fun _ => h hs,.advance (by rw [hr]; rfl) (by simp [hr]) rfl le_rfl⟩
  | heartbeat attemptId token expires hh hc =>
    exact ⟨h,⟨fun _ => ⟨rfl,rfl,rfl,rfl,rfl⟩,.inl,le_rfl,fun hne => absurd rfl hne,le_rfl⟩⟩
  | complete attemptId token c result he hh hc =>
    have hexp := status_of_holds hh
    refine ⟨fun hs => stored_null (encodeResult_null he (completion_status_ne hs)),?_⟩
    rcases expected_leased hexp with hr | hr
    · exact .advance (by rw [hr]; rfl) (by simp [hr]) rfl le_rfl
    · have heff := effectiveStatus_cancelRequested hr hexp
      have hnull : b.stored result = b.null := stored_null (encodeResult_null he (by simp [heff]))
      refine .cancel hr ?_ hnull rfl rfl
      simp [completeRow,heff,CompletionStatus.status]
  | release attemptId token hh hc =>
    have hr : s.row.status = .running := by simpa using status_of_holds hh
    have hs : s.row.status ≠ .succeeded := by simp [hr]
    exact ⟨fun _ => h hs,.advance (by rw [hr]; rfl) (by simp [hr]) rfl le_rfl⟩

variable [DecidableEq J] {b : Backend V J} {w : World J}

theorem reached_resultLaw (hw : Reached b w) : Throughout (ResultLaw b) w :=
  reached_throughout (fun _ _ _ _ _ => rfl) (fun now s s' hs hm => (moves_follows now s s' hs hm).1)
    hw

variable {w' : World J} {e : Event V J}

theorem step_resultLaw (hw : Throughout (ResultLaw b) w) (h : Step b w e w') :
    Throughout (ResultLaw b) w' :=
  step_throughout (fun _ _ _ _ _ => rfl)
    (fun now s s' hs hm => (moves_follows now s s' hs hm).1) w e w' hw h

variable {id : UUID} {s : Snapshot J}

theorem step_follows (hw : Throughout (ResultLaw b) w) (h : Step b w e w')
    (hs : snapshot w.tables id = some s) :
    ∃ s', snapshot w'.tables id = some s' ∧ Follows b s.row s'.row :=
  step_relates (R := fun s s' => Follows b s.row s'.row) (fun s => .refl b s.row)
    (fun _ _ _ h k => h.trans k) moves_follows hw h hs

theorem run_follows {es : List (Event V J)} (hw : Throughout (ResultLaw b) w)
    (h : Run (Step b) w es w') (hs : snapshot w.tables id = some s) :
    ∃ s', snapshot w'.tables id = some s' ∧ Follows b s.row s'.row :=
  run_relates (R := fun s s' => Follows b s.row s'.row) (fun _ _ _ _ _ => rfl)
    (fun s => .refl b s.row) (fun _ _ _ h k => h.trans k) moves_follows hw h hs

/-- The later attempts include this one, under the same number. -/
def Keeps (s s' : Snapshot J) : Prop :=
  ∀ a ∈ s.attempts, ∃ a' ∈ s'.attempts, a'.id = a.id ∧ a'.attemptNo = a.attemptNo

omit [DecidableEq J] in
theorem keeps_update {q : AttemptRow → Bool} {g : AttemptRow → AttemptRow}
    (hid : ∀ a, (g a).id = a.id) (hno : ∀ a, (g a).attemptNo = a.attemptNo) :
    Keeps s ⟨row,update q g s.attempts⟩ := by
  intro a ha
  refine ⟨_,List.mem_map_of_mem ha,?_,?_⟩
  · split_ifs
    · exact hid a
    · rfl
  · split_ifs
    · exact hno a
    · rfl

omit [DecidableEq J] in
variable {now : Instant}

variable {s' : Snapshot J}

omit [DecidableEq J] in
theorem moves_keeps (h : Moves b now s s') : Keeps s s' := by
  cases h with
  | expire hp => exact fun a ha => ⟨a,ha,rfl,rfl⟩
  | cancelWaiting reason hw => exact fun a ha => ⟨a,ha,rfl,rfl⟩
  | cancelRunning reason hr => exact fun a ha => ⟨a,ha,rfl,rfl⟩
  | claim n ts expires worker attemptId token hc =>
    exact fun a ha => ⟨a,List.mem_append_left _ ha,rfl,rfl⟩
  | cancelExpired hp => exact keeps_update (fun _ => rfl) (fun _ => rfl)
  | reclaim hp => exact keeps_update (fun _ => rfl) (fun _ => rfl)
  | heartbeat attemptId token expires hh hc => exact keeps_update (fun _ => rfl) (fun _ => rfl)
  | complete attemptId token c result he hh hc => exact keeps_update (fun _ => rfl) (fun _ => rfl)
  | release attemptId token hh hc => exact keeps_update (fun _ => rfl) (fun _ => rfl)

theorem step_keeps (hw : Throughout (ResultLaw b) w) (h : Step b w e w') {a : AttemptRow}
    (ha : a ∈ w.tables.attempts) :
    ∃ a' ∈ w'.tables.attempts,
      a'.id = a.id ∧ a'.executionId = a.executionId ∧ a'.attemptNo = a.attemptNo := by
  obtain ⟨r,hr,hid⟩ := hw.1.references a ha
  have hs := snapshot_of_mem hw.1 hr
  have htrans : ∀ s t u : Snapshot J, Keeps s t → Keeps t u → Keeps s u := by
    intro s t u hst htu a ha
    obtain ⟨a₁,ha₁,hid₁,hno₁⟩ := hst a ha
    obtain ⟨a₂,ha₂,hid₂,hno₂⟩ := htu a₁ ha₁
    exact ⟨a₂,ha₂,hid₂.trans hid₁,hno₂.trans hno₁⟩
  obtain ⟨s',hs',hkeeps⟩ := step_relates (fun s a ha => ⟨a,ha,rfl,rfl⟩) htrans
    (fun now s s' hlaw hm => ⟨(moves_follows now s s' hlaw hm).1,moves_keeps hm⟩) hw h hs
  obtain ⟨a',ha',haid,hano⟩ := hkeeps a (mem_group.mpr ⟨ha,hid.symm⟩)
  rw [← (snapshot_some.mp hs').2] at ha'
  obtain ⟨hmem,hexec⟩ := mem_group.mp ha'
  exact ⟨a',hmem,haid,hexec.trans hid,hano⟩

omit [DecidableEq J] in
variable {op : Op V J}

omit [DecidableEq J] in
theorem does_failed (h : Does b now op s s') (hfail : s'.row.status = .failed) :
    ∃ attemptId token c, op = .complete s.row.id attemptId token c ∧ c.status = .failed ∧
      s'.row.attempts = s.row.attempts ∧
      holds s.row.id token (expectedStatuses c.status) now s.row = true ∧
      affected (heldBy attemptId s.row.id token) s.attempts = 1 := by
  cases h with
  | heartbeat id attemptId token d hid hh hc =>
    have hs := status_of_holds hh
    rw [hfail] at hs
    cases hs with
    | tail _ hs => cases hs with
      | tail _ hs => cases hs
  | complete id attemptId token c result hid he hh hc =>
    refine ⟨attemptId,token,c,by rw [hid],?_,rfl,hh,hc⟩
    have heff : (effectiveStatus c.status s.row).status = .failed := hfail
    unfold effectiveStatus at heff
    split at heff
    · cases heff
    · cases hs : c.status with
      | failed => rfl
      | succeeded => rw [hs] at heff; cases heff
      | retrying => rw [hs] at heff; cases heff
      | cancelled => rw [hs] at heff; cases heff
  | cancelWaiting n id reason hw => cases hfail
  | cancelRunning n id reason hr => cases hfail
  | expire n ts limit d worker uuids hp => cases hfail
  | cancelExpired n ts limit d worker uuids hp => cases hfail
  | reclaim n ts limit d worker uuids hp => cases hfail
  | claim n ts limit d worker uuids attemptId token hc => cases hfail
  | release id attemptId token hid hh hc => cases hfail

omit [DecidableEq J] in
theorem does_complete_unleased {attemptId token : UUID} {c : ExecutionCompletion V}
    (h : Does b now (.complete id attemptId token c) s s') : s'.row.leaseToken = none := by
  cases h
  rfl

omit [DecidableEq J] in
variable {t : Tables J}

omit [DecidableEq J] in
theorem held_attempt {attemptId token : UUID} {statuses : List ExecutionStatus}
    (hs : snapshot t id = some s) (hinv : LeaseInvariant s.row s.attempts)
    (hh : holds s.row.id token statuses now s.row = true)
    (hc : affected (heldBy attemptId s.row.id token) s.attempts = 1) :
    ∃ a ∈ t.attempts, a.id = attemptId ∧ a.attemptNo = s.row.attempts := by
  have htoken : s.row.leaseToken = some token := by
    simp only [holds,Bool.and_eq_true,decide_eq_true_eq] at hh
    exact hh.1.1.2
  obtain ⟨a,hrun,-,hno⟩ := hinv.held token htoken
  have hheld := heldBy_running hrun hc
  have hmem : a ∈ runningAttempts s.attempts := by rw [hrun]; exact List.mem_singleton_self a
  have hin := (mem_runningAttempts.mp hmem).1
  rw [← (snapshot_some.mp hs).2] at hin
  simp only [heldBy,Bool.and_eq_true,decide_eq_true_eq] at hheld
  exact ⟨a,(mem_group.mp hin).1,hheld.1.1.1,hno⟩

theorem step_failed (hw : Reached b w) (h : Step b w e w') (hr : row' ∈ w'.tables.executions)
    (hfail : row'.status = .failed) :
    (∃ row ∈ w.tables.executions, row.status = .failed ∧ row'.attempts = row.attempts) ∨
      ∃ attemptId token c, e.op = .complete row'.id attemptId token c ∧ c.status = .failed ∧
        ∃ a ∈ w.tables.attempts, a.id = attemptId ∧ a.attemptNo = row'.attempts := by
  have hsound := (reached_resultLaw hw).1
  obtain ⟨hsound',hmakes⟩ := perform_makes hsound h.2.1
  have hs' := snapshot_of_mem hsound' hr
  rcases hmakes row'.id with hrel | ⟨-,request,encoded,-,hnew⟩
  · rw [hs'] at hrel
    cases hs : snapshot w.tables row'.id with
    | none =>
      rw [hs] at hrel
      cases hrel
    | some s =>
      rw [hs] at hrel
      have hl := snapshot_some.mp hs
      have hpath : Relation.ReflTransGen (Does b e.now e.op) s
          ⟨row',group AttemptRow.executionId row'.id w'.tables.attempts⟩ := by
        cases hrel with
        | some hpath => exact hpath
      rcases Relation.ReflTransGen.cases_tail hpath with heq | ⟨m,hbefore,hlast⟩
      · left
        have hrow : row' = s.row := congrArg Snapshot.row heq
        exact ⟨s.row,lookup_mem hl.1,by rw [← hrow]; exact hfail,by rw [← hrow]⟩
      · right
        obtain ⟨attemptId,token,c,hop,hc,hattempts,hh,haff⟩ := does_failed hlast hfail
        rcases Relation.ReflTransGen.cases_tail hbefore with rfl | ⟨x,-,hx⟩
        · obtain ⟨a,ha,haid,hano⟩ := held_attempt hs
            ((reached_lease hw).2 _ _ hs) hh haff
          refine ⟨attemptId,token,c,?_,hc,a,ha,haid,hano.trans hattempts.symm⟩
          rw [hop,snapshot_id hs]
        · rw [hop] at hx
          have hnone := does_complete_unleased hx
          simp [holds,hnone] at hh
  · rw [hs'] at hnew
    have hrow := congrArg Snapshot.row (Option.some.inj hnew)
    dsimp only at hrow
    rw [hrow] at hfail
    cases hfail

omit [DecidableEq J] in
variable {leases : List (ExecutionLease V)}

theorem reply_ne_leases {α : Type} {f : α → Reply V} (hf : ∀ a, f a ≠ .leases leases)
    (r : Except BackendError α) : reply f r ≠ .leases leases := by
  cases r with
  | ok a => exact hf a
  | error e => simp [reply]

theorem claim_of_leases {u : Tables J} (h : perform b now t op = (.leases leases,u)) :
    ∃ n ts limit leaseDurationS worker uuids, op = .claim n ts limit leaseDurationS worker uuids ∧
      claim b n ts limit leaseDurationS worker uuids now t = (.ok leases,u) := by
  obtain ⟨hl,hu⟩ := Prod.mk.inj h
  cases op with
  | claim n ts limit leaseDurationS worker uuids =>
    refine ⟨n,ts,limit,leaseDurationS,worker,uuids,rfl,Prod.ext ?_ hu⟩
    have hreply : reply Reply.leases
        (claim b n ts limit leaseDurationS worker uuids now t).1 = .leases leases := hl
    cases hc : (claim b n ts limit leaseDurationS worker uuids now t).1 with
    | ok ls =>
      rw [hc] at hreply
      cases hreply
      rfl
    | error e =>
      rw [hc] at hreply
      cases hreply
  | submit request encoded id => exact absurd hl (reply_ne_leases (by simp) _)
  | requestCancel n id reason => exact absurd hl (reply_ne_leases (by simp) _)
  | heartbeat id attemptId token leaseDurationS => exact absurd hl (reply_ne_leases (by simp) _)
  | complete id attemptId token c => exact absurd hl (reply_ne_leases (by simp) _)
  | release id attemptId token => exact absurd hl (reply_ne_leases (by simp) _)

/-- A claim hands out only executions that it leaves running, each with an
attempt of its own. -/
theorem perform_leases {u : Tables J} (ht : Sound t) (h : perform b now t op = (.leases leases,u)) :
    ∀ lease ∈ leases, Leases u lease ∧ Granted u lease := by
  obtain ⟨n,ts,limit,leaseDurationS,worker,uuids,-,hclaim⟩ := claim_of_leases h
  unfold claim at hclaim
  split_ifs at hclaim
  · cases hclaim
  · cases hclaim
  · cases hclaim
  · cases hclaim
  · rcases commit_cases (claimTx b n ts limit.toNat leaseDurationS worker uuids now) t with
      ⟨ls,v,hrun,hc⟩ | ⟨x,_,hc⟩
    · rw [hc] at hclaim
      cases hclaim
      exact (claimTx_evolves (R := fun _ _ => True) (fun _ _ => trivial) (fun _ _ => trivial)
        (fun _ _ => trivial) (fun _ _ _ _ => trivial) ht hrun).2.2
    · rw [hc] at hclaim
      cases hclaim

theorem step_leases (hw : Sound w.tables) (h : Step b w e w') (hr : e.reply = .leases leases) :
    ∀ lease ∈ leases, Leases w'.tables lease := by
  have hperf := h.2.1
  rw [hr] at hperf
  exact fun lease hl => (perform_leases hw hperf lease hl).1

/-- No claim of a run returns an execution that was terminal before it. -/
theorem run_never_claimed {es : List (Event V J)} (hw : Throughout (ResultLaw b) w)
    (h : Run (Step b) w es w') (hs : snapshot w.tables id = some s)
    (ht : s.row.status.terminal = true) :
    ∀ e ∈ es, ∀ leases, e.reply = .leases leases → ∀ lease ∈ leases, lease.execution.id ≠ id := by
  induction h generalizing s with
  | nil w => simp
  | cons hstep _ ih =>
    obtain ⟨s₁,hs₁,hf⟩ := step_follows hw hstep hs
    have ht₁ : s₁.row.status.terminal = true := by rw [(hf.final ht).1]; exact ht
    intro e he leases hr lease hl hid
    rcases List.mem_cons.mp he with rfl | he
    · obtain ⟨s₂,hs₂,hrun,-⟩ := step_leases hw.1 hstep hr lease hl
      rw [hid,hs₁] at hs₂
      rw [Option.some.inj hs₂,hrun] at ht₁
      cases ht₁
    · exact ih (step_resultLaw hw hstep) hs₁ ht₁ e he leases hr lease hl hid

/-- Along every later run a row only moves on, and a
terminal one is never claimed. -/
theorem reached_follows {w w' : World J} {es : List (Event V J)} (hw : Reached b w)
    (h : Run (Step b) w es w') {row : ExecutionRow J} (hr : row ∈ w.tables.executions) :
    (∃ row' ∈ w'.tables.executions, row'.id = row.id ∧ Follows b row row') ∧
      (row.status.terminal = true → ∀ e ∈ es, ∀ leases, e.reply = .leases leases →
        ∀ lease ∈ leases, lease.execution.id ≠ row.id) := by
  have hlaw := reached_resultLaw hw
  have hs := snapshot_of_mem hlaw.1 hr
  obtain ⟨s',hs',hf⟩ := run_follows hlaw h hs
  have hl := (snapshot_some.mp hs').1
  exact ⟨⟨s'.row,lookup_mem hl,lookup_key hl,hf⟩,run_never_claimed hlaw h hs⟩

def succeeding (attemptId token : UUID) : Op (Option ℤ) (Option ℤ) :=
  .complete 1 attemptId token ⟨.succeeded,some 5,none,none⟩

def finishedOnce : World (Option ℤ) := after integers claimedOnce 3 (succeeding 11 12)

def claimedLater : World (Option ℤ) := after integers finishedOnce 4 (claiming 21 22)

/-- A finished execution keeps its result and is not claimed again. -/
theorem finishedOnce_follows : ∃ row ∈ finishedOnce.tables.executions,
    row.status = .succeeded ∧ row.result = some 5 ∧
      (∃ row' ∈ claimedLater.tables.executions, row'.id = row.id ∧ Follows integers row row') ∧
      (row.status.terminal = true →
        ∀ e ∈ [called integers finishedOnce 4 (claiming 21 22)], ∀ leases,
          e.reply = .leases leases → ∀ lease ∈ leases, lease.execution.id ≠ row.id) := by
  have hreached : Reached integers finishedOnce := claimedOnce_reached.after (by decide) _
  have hrun : Run (Step integers) finishedOnce [called integers finishedOnce 4 (claiming 21 22)]
      claimedLater := .single (step_after (by decide) _)
  have hrow : ∃ row ∈ finishedOnce.tables.executions,
      row.status = .succeeded ∧ row.result = some 5 := by decide +kernel
  obtain ⟨row,hr,hs,hres⟩ := hrow
  exact ⟨row,hr,hs,hres,reached_follows hreached hrun hr⟩

end OneStep.ExecutionHistory
