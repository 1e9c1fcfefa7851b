import OneStep.ExecutionFencing

/-!
# Replayed completions

A worker that lost the answer to a completion sends it again. A terminal
execution never moves, so the second call meets the row the first one left and
has to recognise itself in it: same status, same result, same error. It does,
unless the first call was a success that a pending cancel turned into a
cancellation: the row then says cancelled where the worker still says succeeded.
Nor does it when JSONB gives back something else than the result that was encoded.
-/
namespace OneStep.ExecutionReplay
open ExecutionModel ExecutionBackend ExecutionLifecycle ExecutionRefinement ExecutionRuns
open ExecutionInvariant ExecutionHistory ExecutionFencing KeyedTable Transaction Transition

variable {V J : Type}

theorem expected_open {status : CompletionStatus} {s : ExecutionStatus}
    (h : s ∈ expectedStatuses status) : s.terminal = false := by
  rcases expected_leased h with hs | hs
  · rw [hs]; rfl
  · rw [hs]; rfl

theorem moves_open {b : Backend V J} {now : Instant} {s s' : Snapshot J}
    (h : Moves b now s s') : s.row.status.terminal = false := by
  cases h with
  | expire hp => exact (waiting_open (waiting_of_pastExpiry hp)).1
  | cancelWaiting reason hw => exact (waiting_open hw).1
  | cancelRunning reason hr => rw [hr]; rfl
  | claim n ts expires worker attemptId token hc =>
    exact (waiting_open (waiting_of_claimable hc)).1
  | cancelExpired hp => rw [leaseExpired_status hp]; rfl
  | reclaim hp => rw [leaseExpired_status hp]; rfl
  | heartbeat attemptId token expires hh hc =>
    have hs : s.row.status ∈ expectedStatuses .succeeded := status_of_holds hh
    exact expected_open hs
  | complete attemptId token c result he hh hc => exact expected_open (status_of_holds hh)
  | release attemptId token hh hc =>
    have hs : s.row.status ∈ expectedStatuses .failed := status_of_holds hh
    exact expected_open hs

section Answers
variable [DecidableEq J] {b : Backend V J} {t u : Tables J} {now : Instant}
  {id attemptId token : UUID} {c : ExecutionCompletion V} {row : ExecutionRow J}

theorem completeTx_stored (h : (completeTx b id attemptId token c now).run t = .ok (row,u)) :
    lookup ExecutionRow.id id u.executions = some row := by
  obtain ⟨current,result,hl,-,⟨-,-,rfl,hrow⟩ | ⟨-,hrow,-,rfl⟩⟩ := completeTx_ok h
  · have hupd := lookup_update ExecutionRow.id id (holds id token (expectedStatuses c.status) now)
      (completeRow (effectiveStatus c.status current) (b.stored result) (completionError c current)
        c.delayS now) (fun _ => rfl) t.executions
    rw [hl,Option.map_some] at hupd
    rw [hrow]
    dsimp only
    rw [hupd,Option.getD_some]
  · exact hrow

omit [DecidableEq J] in
theorem encodeResult_congr {row' : ExecutionRow J} (h : cancelWon c.status row = false)
    (h' : cancelWon c.status row' = false) : encodeResult b c row' = encodeResult b c row := by
  unfold encodeResult
  rw [h,h']

omit [DecidableEq J] in
theorem cancelWon_terminal (h : row.status.terminal = true) (status : CompletionStatus) :
    cancelWon status row = false := by
  have hne : row.status ≠ .cancelRequested := by
    intro he
    rw [he] at h
    cases h
  simp [cancelWon,hne]

omit [DecidableEq J] in
theorem not_holds_terminal (h : row.status.terminal = true) :
    holds id token (expectedStatuses c.status) now row = false := by
  by_contra hh
  have ho := expected_open (status_of_holds (by simpa using hh))
  rw [h] at ho
  cases ho

omit [DecidableEq J] in
theorem affected_terminal (ht : Sound t) (hl : lookup ExecutionRow.id id t.executions = some row)
    (h : row.status.terminal = true) :
    affected (holds id token (expectedStatuses c.status) now) t.executions = 0 := by
  rw [affected_eq ht.executionIds fun _ => holds_id,hl]
  simp [not_holds_terminal h]

theorem completeTx_terminal (ht : Sound t)
    (hl : lookup ExecutionRow.id id t.executions = some row)
    (h : row.status.terminal = true) {result : J} (he : encodeResult b c row = .ok result) :
    (completeTx b id attemptId token c now).run t =
      if replays b c result row then .ok (row,t)
      else .error (.staleExecutionLease "execution lease is no longer valid") := by
  have haff : affected (holds id token (expectedStatuses c.status) now) t.executions = 0 :=
    affected_terminal ht hl h
  have hkeep := (update_cases (f := completeRow (effectiveStatus c.status row) (b.stored result)
    (completionError c row) c.delayS now) ht
    (fun r (hr : holds id token (expectedStatuses c.status) now r = true) => holds_id hr))
  rcases hkeep with ⟨-,hkeep⟩ | ⟨hone,-⟩
  · have hsel : (selectExecution id).run t = .ok (some row,t) := selectExecution_ok.mpr ⟨hl.symm,rfl⟩
    have hupd : (updateExecutions (holds id token (expectedStatuses c.status) now)
        (completeRow (effectiveStatus c.status row) (b.stored result) (completionError c row)
          c.delayS now)).run t = .ok (0,t) := updateExecutions_ok.mpr ⟨haff.symm,by rw [hkeep]⟩
    have hres : (ofExcept (encodeResult b c row)).run t = .ok (result,t) :=
      ofExcept_ok.mpr ⟨he,rfl⟩
    unfold completeTx
    rw [bind_run hsel]
    dsimp only
    rw [bind_run hres,bind_run hupd,if_pos (by decide),bind_run hsel]
    dsimp only
    split_ifs with hr
    · rfl
    · rfl
  · omega

theorem complete_replayed (ht : Sound t) (h : Replayed b t id c row) :
    complete b id attemptId token c now t = (rowToExecution b row,t) := by
  have hl : lookup ExecutionRow.id id t.executions = some row := by
    rw [← h.id]
    exact lookup_of_mem ht.executionIds h.stored
  obtain ⟨expected,hexpected,hequal⟩ := h.result
  have hr : replays b c expected row = true := by
    have hne : c.status ≠ .retrying := by
      intro he
      have hterm := h.terminal
      rw [h.status,he] at hterm
      cases hterm
    simp [replays,h.status,h.error,hne,hequal]
  have hrun : (completeTx b id attemptId token c now).run t = _ :=
    completeTx_terminal ht hl h.terminal hexpected
  rw [if_pos hr] at hrun
  rw [complete,commit_of_ok hrun]

/-- A success that met a pending cancel is not recognised a second time. -/
theorem complete_overridden (ht : Sound t) (hl : lookup ExecutionRow.id id t.executions = some row)
    (hrow : row.status = .cancelled) (hc : c.status = .succeeded) (x : Execution V) :
    (complete b id attemptId token c now t).1 ≠ .ok x := by
  have hterm : row.status.terminal = true := by rw [hrow]; rfl
  unfold complete
  rcases commit_cases (completeTx b id attemptId token c now) t with
    ⟨row',u,hrun,hcommit⟩ | ⟨e,hrun,hcommit⟩
  · rcases completeTx_cases ht hrun with ⟨s,result,hs,-,hh,-⟩ | ⟨-,result,hl',-,hr⟩
    · have he : s.row = row := Option.some.inj ((snapshot_some.mp hs).1.symm.trans hl)
      rw [he,not_holds_terminal hterm] at hh
      cases hh
    · rw [hl] at hl'
      cases hl'
      simp [replays,hrow,hc,CompletionStatus.status] at hr
  · rw [hcommit]
    simp

/-- The result column gives the encoded result back. -/
def ReadsBack (b : Backend V J) (c : ExecutionCompletion V) : Prop :=
  ∀ j, b.encodeValue c.result = .ok j → b.equal (b.stored j) j = true

omit [DecidableEq J] in
theorem stored_equal {result : J} (he : encodeResult b c row = .ok result)
    (hreads : c.status = .succeeded → ReadsBack b c) : b.equal (b.stored result) result = true := by
  unfold encodeResult at he
  split at he
  · next hc =>
      split at he
      · cases he
      · next hj =>
          split at he
          · cases he
          · cases he
            exact hreads hc.1 _ hj
  · cases he
    rw [b.stored_null,b.equal_null]

omit [DecidableEq J] in
theorem encodeResult_value {result j : J} (he : encodeResult b c row = .ok result)
    (hc : c.status = .succeeded) (hwon : cancelWon c.status row = false)
    (hj : b.encodeValue c.result = .ok j) : result = j := by
  rw [encodeResult,if_pos ⟨hc,hwon⟩,hj] at he
  dsimp only at he
  split at he
  · cases he
  · exact (Except.ok.inj he).symm

/-- The row that an accepted completion wrote, when no cancel request won. -/
structure Wrote (b : Backend V J) (u : Tables J) (id : UUID) (c : ExecutionCompletion V)
    (result : J) (row : ExecutionRow J) : Prop where
  stored : lookup ExecutionRow.id id u.executions = some row
  status : row.status = c.status.status
  encoded : encodeResult b c row = .ok result
  result : row.result = b.stored result
  error : row.error = c.error

theorem complete_wrote (ht : Sound t) {x : Execution V}
    (h : complete b id attemptId token c now t = (.ok x,u)) (hterm : x.status.terminal = true)
    (hwon : ∀ r ∈ t.executions, r.id = id → cancelWon c.status r = false) :
    ∃ row, row.status.terminal = true ∧ rowToExecution b row = .ok x ∧
      ((∃ result, Wrote b u id c result row ∧
          ∃ r ∈ t.executions, r.id = id ∧ r.status.terminal = false) ∨
        (Replayed b u id c row ∧ lookup ExecutionRow.id id t.executions = some row)) := by
  unfold complete at h
  rcases commit_cases (completeTx b id attemptId token c now) t with
    ⟨row,u',hrun,hcommit⟩ | ⟨e,-,hcommit⟩
  · rw [hcommit] at h
    obtain ⟨hx,rfl⟩ := Prod.mk.inj h
    have hl := completeTx_stored hrun
    have hrow : row.status.terminal = true := by
      rw [← (rowToExecution_ok hx).2.1]
      exact hterm
    refine ⟨row,hrow,hx,?_⟩
    rcases completeTx_cases ht hrun with ⟨s,result,hs,he,hh,-,rfl⟩ | ⟨rfl,result,hfound,he,hr⟩
    · have hsl := (snapshot_some.mp hs).1
      have hno := hwon s.row (lookup_mem hsl) (lookup_key hsl)
      have heff : effectiveStatus c.status s.row = c.status := by simp [effectiveStatus,hno]
      have herr : completionError c s.row = c.error := by simp [completionError,hno]
      have hleft := lookup_update ExecutionRow.id id
        (holds id token (expectedStatuses c.status) now)
        (completeRow (effectiveStatus c.status s.row) (b.stored result) (completionError c s.row)
          c.delayS now) (fun _ => rfl) t.executions
      rw [snapshot_id hs] at hh
      rw [hl,hsl,Option.map_some,if_pos hh,heff,herr] at hleft
      have hcomp : row = completeRow c.status (b.stored result) c.error c.delayS now s.row :=
        Option.some.inj hleft
      have hwon' := cancelWon_terminal hrow c.status
      refine .inl ⟨result,⟨hl,?_,?_,?_,?_⟩,s.row,lookup_mem hsl,lookup_key hsl,
        expected_open (status_of_holds hh)⟩
      · rw [hcomp]; rfl
      · rw [encodeResult_congr hno hwon']
        exact he
      · rw [hcomp]; rfl
      · rw [hcomp]; rfl
    · exact .inr ⟨replayed_of_replays hl he hr,hfound⟩
  · rw [hcommit] at h
    cases (Prod.mk.inj h).1

omit [DecidableEq J] in
theorem Wrote.replayed {result : J} (h : Wrote b u id c result row)
    (hterm : row.status.terminal = true) (hreads : c.status = .succeeded → ReadsBack b c) :
    Replayed b u id c row where
  stored := lookup_mem h.stored
  id := lookup_key h.stored
  terminal := hterm
  status := h.status
  result := ⟨result,h.encoded,by rw [h.result]; exact stored_equal h.encoded hreads⟩
  error := h.error

/-- A result that is not read back as it was encoded is not recognised. -/
theorem complete_unread (hu : Sound u) {result : J} (h : Wrote b u id c result row)
    (hterm : row.status.terminal = true) (hne : b.equal (b.stored result) result = false)
    (x : Execution V) : (complete b id attemptId token c now u).1 ≠ .ok x := by
  have hr : replays b c result row = false := by simp [replays,h.result,hne]
  have hrun : (completeTx b id attemptId token c now).run u = _ :=
    completeTx_terminal hu h.stored hterm h.encoded
  rw [hr,if_neg (by simp)] at hrun
  rw [complete,commit_of_error hrun]
  simp

theorem complete_leaves (ht : Sound t) {x : Execution V}
    (h : complete b id attemptId token c now t = (.ok x,u)) (hterm : x.status.terminal = true)
    (hno : ∀ r ∈ t.executions, r.id = id → r.status.terminal = false → c.status = .succeeded →
      r.status ≠ .cancelRequested ∧ ReadsBack b c) :
    ∃ row, Replayed b u id c row ∧ rowToExecution b row = .ok x := by
  have hwon : ∀ r ∈ t.executions, r.id = id → cancelWon c.status r = false := by
    intro r hr hid
    cases hopen : r.status.terminal with
    | true => exact cancelWon_terminal hopen c.status
    | false =>
      by_contra hw
      obtain ⟨hc,hcancel⟩ : c.status = .succeeded ∧ r.status = .cancelRequested := by
        simpa [cancelWon] using hw
      exact (hno r hr hid hopen hc).1 hcancel
  obtain ⟨row,hrow,hx,⟨result,hwrote,r,hr,hid,hopen⟩ | ⟨hrep,-⟩⟩ := complete_wrote ht h hterm hwon
  · exact ⟨row,hwrote.replayed hrow fun hc => (hno r hr hid hopen hc).2,hx⟩
  · exact ⟨row,hrep,hx⟩

theorem complete_leaves_cancelled (ht : Sound t) {x : Execution V}
    (h : complete b id attemptId token c now t = (.ok x,u))
    (hwon : ∃ r ∈ t.executions, r.id = id ∧ cancelWon c.status r = true) :
    c.status = .succeeded ∧
      ∃ row, lookup ExecutionRow.id id u.executions = some row ∧ row.status = .cancelled := by
  obtain ⟨r,hr,rfl,hw⟩ := hwon
  have hl := lookup_of_mem ht.executionIds hr
  have hc : c.status = .succeeded ∧ r.status = .cancelRequested := by
    simpa [cancelWon] using hw
  refine ⟨hc.1,?_⟩
  unfold complete at h
  rcases commit_cases (completeTx b r.id attemptId token c now) t with
    ⟨row,u',hrun,hcommit⟩ | ⟨e,-,hcommit⟩
  · rw [hcommit] at h
    obtain ⟨-,rfl⟩ := Prod.mk.inj h
    have hstored := completeTx_stored hrun
    refine ⟨row,hstored,?_⟩
    rcases completeTx_cases ht hrun with ⟨s,result,hs,-,hh,-,rfl⟩ | ⟨-,result,hl',-,hrep⟩
    · have hsl := (snapshot_some.mp hs).1
      have hsr : s.row = r := Option.some.inj (hsl.symm.trans hl)
      rw [hsr] at hh
      have hleft := lookup_update ExecutionRow.id r.id
        (holds r.id token (expectedStatuses c.status) now)
        (completeRow (effectiveStatus c.status s.row) (b.stored result) (completionError c s.row)
          c.delayS now) (fun _ => rfl) t.executions
      rw [hstored,hl,Option.map_some,if_pos hh] at hleft
      rw [Option.some.inj hleft]
      simp [completeRow,effectiveStatus,hsr,hw,CompletionStatus.status]
    · rw [hl] at hl'
      cases hl'
      simp [replays,hc.1,hc.2,CompletionStatus.status] at hrep
  · rw [hcommit] at h
    cases (Prod.mk.inj h).1

end Answers

section Runs
variable [DecidableEq J] {b : Backend V J}

/-- A terminal row never changes. -/
theorem run_terminal {w w' : World J} {es : List (Event V J)} (hw : Reached b w)
    (h : Run (Step b) w es w') {id : UUID} {s : Snapshot J}
    (hs : snapshot w.tables id = some s) (hterm : s.row.status.terminal = true) :
    snapshot w'.tables id = some s := by
  have hstay : ∀ now (s s' : Snapshot J), True → Moves b now s s' →
      True ∧ (s.row.status.terminal = true → s' = s) := by
    intro now s s' _ hm
    refine ⟨trivial,fun ht => ?_⟩
    rw [moves_open hm] at ht
    cases ht
  have hall : Throughout (fun _ => True) w :=
    reached_throughout (b := b) (fun _ _ _ _ => trivial) (fun _ _ _ _ _ => trivial) hw
  have htrans : ∀ s t u : Snapshot J, (s.row.status.terminal = true → t = s) →
      (t.row.status.terminal = true → u = t) → s.row.status.terminal = true → u = s := by
    intro s t u hst htu ht
    have he := hst ht
    subst he
    exact htu ht
  obtain ⟨s',hs',hsame⟩ := run_relates (fun _ _ _ _ => trivial) (fun _ _ => rfl) htrans hstay
    hall h hs
  rw [hs',hsame hterm]

theorem perform_complete {now : Instant} {t u : Tables J} {id attemptId token : UUID}
    {c : ExecutionCompletion V} {x : Execution V} :
    perform b now t (.complete id attemptId token c) = (.execution (some x),u) ↔
      complete b id attemptId token c now t = (.ok x,u) := by
  cases h : complete b id attemptId token c now t with
  | mk r v =>
    cases r with
    | ok e => simp [perform,h,reply]
    | error e => simp [perform,h,reply]

/-- Sent again at any later moment, a completion that left its execution
terminal answers the same and changes nothing, exactly if it was not a success
overridden by a cancel request, nor one whose result the column changes. -/
theorem replayed_iff {w w₁ : World J} {e : Event V J} {id attemptId token : UUID}
    {c : ExecutionCompletion V} {x : Execution V} (hw : Reached b w) (h : Step b w e w₁)
    (hop : e.op = .complete id attemptId token c) (hreply : e.reply = .execution (some x))
    (hterm : x.status.terminal = true) :
    (∀ es w₂, Run (Step b) w₁ es w₂ → ∀ now, w₂.clock ≤ now →
      perform b now w₂.tables (.complete id attemptId token c) =
        (.execution (some x),w₂.tables)) ↔
    ∀ row ∈ w.tables.executions, row.id = id → row.status.terminal = false →
      c.status = .succeeded → row.status ≠ .cancelRequested ∧ ReadsBack b c := by
  have hsound := (reached_resultLaw hw).1
  have hreached : Reached b w₁ := hw.run (.single h)
  have hsound₁ := (reached_resultLaw hreached).1
  have hfirst : complete b id attemptId token c e.now w.tables = (.ok x,w₁.tables) := by
    have hperf := h.2.1
    rw [hop,hreply] at hperf
    exact perform_complete.mp hperf
  constructor
  · intro hreplay row hr hid hopen hc
    have hagain := perform_complete.mp (hreplay [] w₁ (.nil w₁) w₁.clock le_rfl)
    have hcancel : row.status ≠ .cancelRequested := by
      intro hcancel
      obtain ⟨-,row',hl,hcancelled⟩ := complete_leaves_cancelled hsound hfirst
        ⟨row,hr,hid,by simp [cancelWon,hc,hcancel]⟩
      apply complete_overridden hsound₁ hl hcancelled hc x
      rw [hagain]
    refine ⟨hcancel,fun j hj => ?_⟩
    have hone : ∀ r ∈ w.tables.executions, r.id = id → r = row := by
      intro r hr' hid'
      have hl := lookup_of_mem hsound.executionIds hr'
      rw [hid',← hid,lookup_of_mem hsound.executionIds hr] at hl
      exact (Option.some.inj hl).symm
    have hwon : ∀ r ∈ w.tables.executions, r.id = id → cancelWon c.status r = false := by
      intro r hr' hid'
      rw [hone r hr' hid']
      simp [cancelWon,hcancel]
    obtain ⟨row',hrow',-,⟨result,hwrote,-⟩ | ⟨-,hfound⟩⟩ := complete_wrote hsound hfirst hterm hwon
    · by_contra hne
      have hresult : result = j := encodeResult_value hwrote.encoded hc
        (cancelWon_terminal hrow' c.status) hj
      rw [← hresult,Bool.not_eq_true] at hne
      apply complete_unread hsound₁ hwrote hrow' hne x
      rw [hagain]
    · rw [hone row' (lookup_mem hfound) (lookup_key hfound),hopen] at hrow'
      cases hrow'
  · intro hno es w₂ hrun now hnow
    obtain ⟨row,hrep,hx⟩ := complete_leaves hsound hfirst hterm hno
    have hs := snapshot_of_mem hsound₁ hrep.stored
    have hs₂ := run_terminal hreached hrun hs hrep.terminal
    have hsound₂ := (reached_resultLaw (hreached.run hrun)).1
    have hstored : row ∈ w₂.tables.executions := lookup_mem (snapshot_some.mp hs₂).1
    have hrep₂ : Replayed b w₂.tables id c row := {hrep with stored := hstored}
    rw [perform_complete,complete_replayed hsound₂ hrep₂,hx]

/-- A finished execution, completed again after another worker polled. -/
theorem finishedOnce_replayed : ∃ x : Execution (Option ℤ),
    (called integers claimedOnce 3 (succeeding 11 12)).reply = .execution (some x) ∧
      x.status = .succeeded ∧
      ∀ es w₂, Run (Step integers) finishedOnce es w₂ → ∀ now, w₂.clock ≤ now →
        perform integers now w₂.tables (succeeding 11 12) = (.execution (some x),w₂.tables) := by
  have hreply : ∃ x : Execution (Option ℤ), (called integers claimedOnce 3
      (succeeding 11 12)).reply = .execution (some x) ∧ x.status = .succeeded := by
    refine ⟨⟨1,"default","resize",.succeeded,some 7,none,some 5,none,1,1,1,some 2,some 3,none,
      none,2⟩,by decide +kernel,rfl⟩
  obtain ⟨x,hx,hs⟩ := hreply
  refine ⟨x,hx,hs,?_⟩
  have hno : ∀ row ∈ claimedOnce.tables.executions, row.status ≠ .cancelRequested := by
    decide +kernel
  have hterm : x.status.terminal = true := by rw [hs]; rfl
  exact (replayed_iff claimedOnce_reached (step_after (by decide) _) rfl hx hterm).mpr
    fun row hr _ _ _ => ⟨hno row hr,fun j _ => decide_eq_true rfl⟩

def cancelledMeanwhile : World (Option ℤ) :=
  after integers claimedOnce 3 (.requestCancel "default" 1 none)

def overridden : World (Option ℤ) := after integers cancelledMeanwhile 4 (succeeding 11 12)

/-- The cancel wins the first call, which returns the cancelled execution; sent
again the same call is refused as stale. -/
theorem overridden_refused : Reached integers cancelledMeanwhile ∧
    Step integers cancelledMeanwhile (called integers cancelledMeanwhile 4 (succeeding 11 12))
      overridden ∧
    (∃ x : Execution (Option ℤ), (called integers cancelledMeanwhile 4
      (succeeding 11 12)).reply = .execution (some x) ∧ x.status = .cancelled) ∧
    perform integers 5 overridden.tables (succeeding 11 12) =
      (.raised (.staleExecutionLease "execution lease is no longer valid"),overridden.tables) := by
  refine ⟨claimedOnce_reached.after (by decide) _,step_after (by decide) _,?_,by decide +kernel⟩
  exact ⟨⟨1,"default","resize",.cancelled,some 7,none,none,none,1,1,1,some 2,some 4,some 3,none,3⟩,
    by decide +kernel,rfl⟩

end Runs

end OneStep.ExecutionReplay
