import OneStep.ScheduleSource
import OneStep.Transition

/-!
# Overlapping runs

With `skip` or `queue` a run that becomes due is handed out only when none is in
flight. A retried run is handed out without that test, as soon as it is ready,
and with it every other one that is. So at most one run is handed out and not
settled exactly as long as each drain of retried runs finds none in flight and
one run ready.
-/
namespace OneStep.ScheduleOverlap
open ScheduleSource Transition

variable {cfg : Settings} {s s' : State} {op : Op}

def outstanding (s : State) : ℕ := s.handed.countP fun h => !h.settled

def AtMostOne (s : State) : Prop := outstanding s ≤ 1

/-- Retried runs are drained one at a time, while nothing is in flight. -/
def Serial (s : State) : Op → Prop
  | .fetch limit now _ => s.source.ready now (max 1 limit) ≠ [] →
      s.source.inflight+(s.source.ready now (max 1 limit)).length ≤ 1
  | _ => True

section Fetch
variable (source : Source) {payload : ℕ → Bool} {now : ℤ} {limit : ℕ}

theorem makeAll_singleton (payload : ℕ → Bool) (i : ℕ) (t : ℤ) (source : Source) :
    makeAll payload i [t] source =
      if payload i then ((source.make t).1,some [(source.make t).2]) else (source,none) := by
  simp only [makeAll]
  split <;> rfl

/-- A fetch hands out nothing and counts nothing, or one run when none was in flight. -/
def OneRun {α : Type} (source : Source) (r : Source × Option (List α)) : Prop :=
  (r.2.getD [] = [] ∧ r.1.inflight = source.inflight) ∨
    ((r.2.getD []).length = 1 ∧ source.inflight = 0 ∧ r.1.inflight = 1)

variable {source} in
theorem OneRun.map {α β : Type} {r : Source × Option (List α)} (h : OneRun source r) (f : α → β) :
    OneRun source (r.1,r.2.map fun es => es.map f) := by
  rcases h with ⟨hnil,hin⟩ | ⟨hlen,hzero,hin⟩
  · refine .inl ⟨?_,hin⟩
    cases hr : r.2 with
    | none => rfl
    | some es =>
      rw [hr] at hnil
      simpa using hnil
  · refine .inr ⟨?_,hzero,hin⟩
    cases hr : r.2 with
    | none =>
      rw [hr] at hlen
      cases hlen
    | some es =>
      rw [hr] at hlen
      simpa using hlen

theorem oneRun_makeAll (t : ℤ) (h : source.inflight = 0) :
    OneRun source (makeAll payload 0 [t] source) := by
  rw [makeAll_singleton]
  split
  · exact .inr ⟨rfl,h,by simp [Source.make,h]⟩
  · exact .inl ⟨rfl,rfl⟩

theorem oneRun_handleDueRuns (hoverlap : cfg.overlap ≠ .allow) (dueRuns : List ℤ) :
    OneRun source (source.handleDueRuns cfg payload dueRuns limit) := by
  unfold Source.handleDueRuns
  cases hcfg : cfg.overlap with
  | allow => exact absurd hcfg hoverlap
  | skip =>
    cases dueRuns with
    | nil => exact .inl ⟨rfl,rfl⟩
    | cons t ts =>
      dsimp only
      split
      · exact .inl ⟨rfl,rfl⟩
      · exact oneRun_makeAll source _ (by omega)
  | queue =>
    cases dueRuns with
    | nil => exact .inl ⟨rfl,rfl⟩
    | cons t ts =>
      dsimp only
      split
      · exact .inl ⟨rfl,rfl⟩
      · have hzero : source.inflight = 0 := by omega
        rw [makeAll_singleton]
        cases payload 0 with
        | false => exact .inl ⟨rfl,rfl⟩
        | true =>
          refine .inr ⟨rfl,hzero,?_⟩
          by_cases hts : ts = []
          · simp [hts,Source.make,hzero]
          · simp [hts,Source.make,Source.queueRuns,hzero]

theorem oneRun_fetchDue (hoverlap : cfg.overlap ≠ .allow) :
    OneRun source (source.fetchDue cfg payload now limit) := by
  unfold Source.fetchDue
  split
  · next t ts _ hzero _ => exact oneRun_makeAll {source with queuedRuns := ts} t hzero
  · split
    · exact .inl ⟨rfl,rfl⟩
    · split
      · exact .inl ⟨rfl,rfl⟩
      · next next' _ _ dueRuns next'' _ =>
          exact oneRun_handleDueRuns {source with nextFireAt := some next''} hoverlap _

theorem oneRun_fetch (payload : ℕ → Bool) (hoverlap : cfg.overlap ≠ .allow)
    (hready : source.ready now (max 1 limit) = []) :
    OneRun source (source.fetch cfg payload now limit) := by
  unfold Source.fetch
  dsimp only
  rw [if_neg (by rw [hready]; exact fun h => h rfl)]
  split
  · have himmediate : OneRun {source with pendingImmediate := false}
        (Source.handleDueRuns cfg {source with pendingImmediate := false} payload [now]
          (max 1 limit)) := oneRun_handleDueRuns _ hoverlap [now]
    split
    · next hnone =>
        rcases himmediate with ⟨-,hin⟩ | ⟨hlen,-⟩
        · exact .inl ⟨rfl,hin⟩
        · rw [hnone] at hlen
          cases hlen
    · next hnil =>
        rcases himmediate with ⟨-,hin⟩ | ⟨hlen,-⟩
        · have hdue : OneRun (Source.handleDueRuns cfg {source with pendingImmediate := false}
              payload [now] (max 1 limit)).1 (Source.fetchDue cfg (Source.handleDueRuns cfg
                {source with pendingImmediate := false} payload [now] (max 1 limit)).1
                payload now (max 1 limit)) := oneRun_fetchDue _ hoverlap
          have hmarked := hdue.map fun e => (e,false)
          unfold OneRun at hmarked
          rw [hin] at hmarked
          exact hmarked
        · rw [hnil] at hlen
          cases hlen
    · next es hne hsome =>
        rcases himmediate with ⟨hnil,-⟩ | ⟨hlen,hzero,hin⟩
        · rw [hsome] at hnil
          exact absurd hnil hne
        · rw [hsome] at hlen
          exact .inr ⟨by simpa using hlen,hzero,hin⟩
  · exact (oneRun_fetchDue source hoverlap).map fun e => (e,false)

theorem fetch_ready (hready : source.ready now (max 1 limit) ≠ []) :
    source.fetch cfg payload now limit = (source.drainRetry now (max 1 limit),
      some ((source.ready now (max 1 limit)).map fun r => (r.envelope,false))) := if_pos hready

theorem fetch_counts (hoverlap : cfg.overlap ≠ .allow) :
    (source.fetch cfg payload now limit).1.inflight =
      source.inflight+((source.fetch cfg payload now limit).2.getD []).length := by
  by_cases hready : source.ready now (max 1 limit) = []
  · rcases oneRun_fetch source payload hoverlap hready with
      ⟨hnil,hin⟩ | ⟨hlen,hzero,hin⟩
    · rw [hnil,hin]
      rfl
    · rw [hlen,hin,hzero]
  · rw [fetch_ready source hready]
    simp [Source.drainRetry]

end Fetch

section Steps

theorem initializeLocked_handed (s : State) (now : ℤ) : (s.initializeLocked cfg now).handed = s.handed := by
  unfold State.initializeLocked
  split
  · rfl
  · split <;> rfl

theorem initializeLocked_inflight (s : State) (now : ℤ) :
    (s.initializeLocked cfg now).source.inflight = s.source.inflight := by
  unfold State.initializeLocked
  split
  · rfl
  · split <;> rfl

theorem initializeLocked_retryHeap (s : State) (now : ℤ) :
    (s.initializeLocked cfg now).source.retryHeap = s.source.retryHeap := by
  unfold State.initializeLocked
  split
  · rfl
  · split <;> rfl

theorem outstanding_fetch (s : State) (limit : ℕ) (now : ℤ) (payload : ℕ → Bool)
    (h : (s.initializeLocked cfg now).source.initialized = true) :
    outstanding (s.fetch cfg limit now payload) = outstanding s+
      (((s.initializeLocked cfg now).source.fetch cfg payload now limit).2.getD []).length := by
  unfold State.fetch outstanding
  dsimp only
  rw [if_pos h,List.countP_append,initializeLocked_handed,List.countP_map]
  congr 1
  exact List.countP_eq_length.mpr fun _ _ => rfl

/-- What handing out due runs does not touch. -/
structure Undisturbed (source source' : Source) : Prop where
  initialized : source'.initialized = source.initialized
  pendingImmediate : source'.pendingImmediate = source.pendingImmediate
  retryHeap : source'.retryHeap = source.retryHeap

theorem Undisturbed.trans {source source' source'' : Source} (h : Undisturbed source source')
    (h' : Undisturbed source' source'') : Undisturbed source source'' :=
  ⟨h'.initialized.trans h.initialized,h'.pendingImmediate.trans h.pendingImmediate,
    h'.retryHeap.trans h.retryHeap⟩

theorem makeAll_undisturbed (payload : ℕ → Bool) (i : ℕ) (ts : List ℤ) (source : Source) :
    Undisturbed source (makeAll payload i ts source).1 := by
  induction ts generalizing i source with
  | nil => exact ⟨rfl,rfl,rfl⟩
  | cons t ts ih =>
    have hmake : Undisturbed source (source.make t).1 := ⟨rfl,rfl,rfl⟩
    rw [makeAll]
    split
    · exact hmake.trans (ih (i+1) (source.make t).1)
    · exact ⟨rfl,rfl,rfl⟩

theorem handleDueRuns_undisturbed (cfg : Settings) (source : Source) (payload : ℕ → Bool)
    (dueRuns : List ℤ) (limit : ℕ) :
    Undisturbed source (source.handleDueRuns cfg payload dueRuns limit).1 := by
  unfold Source.handleDueRuns
  split
  · exact ⟨rfl,rfl,rfl⟩
  · exact makeAll_undisturbed _ _ _ _
  · split
    · exact ⟨rfl,rfl,rfl⟩
    · exact makeAll_undisturbed _ _ _ _
  · split
    · exact ⟨rfl,rfl,rfl⟩
    · next t ts _ _ =>
        have hmade := makeAll_undisturbed payload 0 [t] source
        dsimp only
        split
        · exact hmade
        · split
          · exact hmade
          · exact hmade.trans ⟨rfl,rfl,rfl⟩

theorem fetchDue_undisturbed (source : Source) (payload : ℕ → Bool) (now : ℤ) (limit : ℕ) :
    Undisturbed source (source.fetchDue cfg payload now limit).1 := by
  unfold Source.fetchDue
  split
  · next t ts _ _ _ =>
      have hpopped : Undisturbed source {source with queuedRuns := ts} := ⟨rfl,rfl,rfl⟩
      exact hpopped.trans (makeAll_undisturbed _ _ _ _)
  · split
    · exact ⟨rfl,rfl,rfl⟩
    · split
      · exact ⟨rfl,rfl,rfl⟩
      · next next' _ _ dueRuns next'' _ =>
          have hmoved : Undisturbed source {source with nextFireAt := some next''} := ⟨rfl,rfl,rfl⟩
          exact hmoved.trans (handleDueRuns_undisturbed _ _ _ _ _)

/-- A fetch that drains no retried run keeps them all, and the immediate run is no
longer pending. -/
theorem fetch_undisturbed (source : Source) (payload : ℕ → Bool) (now : ℤ) (limit : ℕ)
    (hready : source.ready now (max 1 limit) = []) :
    Undisturbed {source with pendingImmediate := false} (source.fetch cfg payload now limit).1 := by
  unfold Source.fetch
  dsimp only
  rw [if_neg (by rw [hready]; exact fun h => h rfl)]
  split
  · have himmediate := handleDueRuns_undisturbed cfg {source with pendingImmediate := false}
      payload [now] (max 1 limit)
    split
    · exact himmediate
    · exact himmediate.trans (fetchDue_undisturbed _ _ _ _)
    · exact himmediate
  · next hnot =>
      have hsame : Undisturbed {source with pendingImmediate := false} source :=
        ⟨rfl,Bool.eq_false_iff.mpr hnot,rfl⟩
      exact hsame.trans (fetchDue_undisturbed _ _ _ _)

theorem fetch_initialized (source : Source) (payload : ℕ → Bool) (now : ℤ) (limit : ℕ) :
    (source.fetch cfg payload now limit).1.initialized = source.initialized := by
  by_cases hready : source.ready now (max 1 limit) = []
  · exact (fetch_undisturbed source payload now limit hready).initialized
  · rw [fetch_ready source hready]
    rfl

/-- Besides the count: a source that is not initialized has handed out nothing. -/
structure Tallied (s : State) : Prop where
  counted : s.source.inflight = outstanding s
  untouched : s.source.initialized = false → s.handed = [] ∧ s.source.retryHeap = []

theorem tallied_constructed (cfg : Settings) : Tallied (constructed cfg) :=
  ⟨rfl,fun _ => ⟨rfl,rfl⟩⟩

theorem outstanding_settle {i : ℕ} {h : Handed} (hh : s.unsettled i = some h) :
    outstanding (s.settle i)+1 = outstanding s := by
  obtain ⟨hi,hsettled⟩ := Option.filter_eq_some_iff.mp hh
  obtain ⟨hlt,rfl⟩ := List.getElem?_eq_some_iff.mp hi
  unfold outstanding State.settle
  have hsplit : s.handed = s.handed.take i++s.handed[i]::s.handed.drop (i+1) := by
    rw [← List.drop_eq_getElem_cons hlt,List.take_append_drop]
  have hmodify : s.handed.modify i (fun h => {h with settled := true}) =
      s.handed.take i++{s.handed[i] with settled := true}::s.handed.drop (i+1) := by
    rw [List.modify_eq_take_cons_drop hlt]
  have hold := congrArg (List.countP fun h : Handed => !h.settled) hsplit
  simp only [hmodify,List.countP_append,List.countP_cons] at hold ⊢
  rw [hold]
  simp [hsettled]
  omega

theorem Tallied.initializeLocked (h : Tallied s) (now : ℤ) : Tallied (s.initializeLocked cfg now) := by
  constructor
  · have hcounted := h.counted
    unfold outstanding at hcounted ⊢
    rw [initializeLocked_inflight,initializeLocked_handed]
    exact hcounted
  · intro hnot
    rw [initializeLocked_handed,initializeLocked_retryHeap]
    refine h.untouched ?_
    unfold State.initializeLocked at hnot
    split at hnot
    · exact hnot
    · next hfresh => exact Bool.eq_false_iff.mpr hfresh

/-- Settling a run: nothing else is counted. -/
theorem Tallied.settle {i : ℕ} {d : Handed} {t : State} (h : Tallied s)
    (hd : s.unsettled i = some d) (hhanded : t.handed = s.handed)
    (hinflight : t.source.inflight = s.source.inflight-1)
    (hinit : t.source.initialized = s.source.initialized) : Tallied (t.settle i) := by
  have hcount := outstanding_settle hd
  have hcounted := h.counted
  have hsame : outstanding (t.settle i) = outstanding (s.settle i) := by
    unfold outstanding State.settle
    rw [hhanded]
  constructor
  · change t.source.inflight = _
    rw [hsame,hinflight]
    omega
  · intro hnot
    change t.source.initialized = false at hnot
    rw [hinit] at hnot
    have hnone := (h.untouched hnot).1
    unfold State.unsettled at hd
    rw [hnone] at hd
    cases hd

theorem Tallied.fetch (hoverlap : cfg.overlap ≠ .allow) (h : Tallied s) (limit : ℕ) (now : ℤ)
    (payload : ℕ → Bool) : Tallied (s.fetch cfg limit now payload) := by
  have hfirst : Tallied (s.initializeLocked cfg now) := h.initializeLocked now
  by_cases hready : (s.initializeLocked cfg now).source.initialized = true
  · have hfetch : s.fetch cfg limit now payload = {s.initializeLocked cfg now with
        source := ((s.initializeLocked cfg now).source.fetch cfg payload now limit).1
        handed := (s.initializeLocked cfg now).handed++
          (((s.initializeLocked cfg now).source.fetch cfg payload now limit).2.getD []).map
            fun d => {envelope := d.1,immediate := d.2}} := if_pos hready
    constructor
    · rw [outstanding_fetch s limit now payload hready,hfetch]
      change ((s.initializeLocked cfg now).source.fetch cfg payload now limit).1.inflight = _
      rw [fetch_counts _ hoverlap,initializeLocked_inflight,h.counted]
    · intro hnot
      rw [hfetch] at hnot
      change ((s.initializeLocked cfg now).source.fetch cfg payload now limit).1.initialized = false at hnot
      rw [fetch_initialized,hready] at hnot
      cases hnot
  · have hfetch : s.fetch cfg limit now payload = s.initializeLocked cfg now := if_neg hready
    rw [hfetch]
    exact hfirst

theorem Tallied.step (hoverlap : cfg.overlap ≠ .allow) (h : Tallied s)
    (hs : perform cfg s op = some s') : Tallied s' := by
  have hclock : ∀ clock, Tallied {s with clock := clock} := fun _ => ⟨h.counted,h.untouched⟩
  cases op with
  | open_ now =>
    cases hs
    exact (hclock _).initializeLocked now
  | fetch limit now payload =>
    cases hs
    exact (hclock (some now)).fetch hoverlap limit now payload
  | ack i =>
    obtain ⟨d,hd,rfl⟩ := Option.map_eq_some_iff.mp hs
    exact (hclock _).settle hd rfl rfl rfl
  | fail i =>
    obtain ⟨d,hd,rfl⟩ := Option.map_eq_some_iff.mp hs
    exact (hclock _).settle hd rfl rfl rfl
  | retry i now delay =>
    obtain ⟨d,hd,rfl⟩ := Option.map_eq_some_iff.mp hs
    exact (hclock _).settle hd rfl rfl rfl
  | releaseUnstarted i =>
    obtain ⟨d,hd,rfl⟩ := Option.map_eq_some_iff.mp hs
    exact hclock _

theorem ready_initializeLocked (s : State) (now : ℤ) (limit : ℕ) :
    (s.initializeLocked cfg now).source.ready now limit = s.source.ready now limit := by
  unfold Source.ready
  rw [initializeLocked_retryHeap]

theorem fetch_serial (hoverlap : cfg.overlap ≠ .allow) (h : Tallied s) (hone : AtMostOne s)
    (limit : ℕ) (now : ℤ) (payload : ℕ → Bool) :
    AtMostOne (s.fetch cfg limit now payload) ↔ Serial s (.fetch limit now payload) := by
  unfold AtMostOne at hone ⊢
  have hcounted := h.counted
  by_cases hinit : (s.initializeLocked cfg now).source.initialized = true
  · rw [outstanding_fetch s limit now payload hinit]
    simp only [Serial]
    by_cases hready : s.source.ready now (max 1 limit) = []
    · refine iff_of_true ?_ fun hne => absurd hready hne
      have hready' : (s.initializeLocked cfg now).source.ready now (max 1 limit) = [] := by
        rw [ready_initializeLocked,hready]
      rcases oneRun_fetch _ payload hoverlap hready' with ⟨hnil,-⟩ | ⟨hlen,hzero,-⟩
      · rw [hnil]
        exact hone
      · rw [initializeLocked_inflight] at hzero
        omega
    · have hready' : (s.initializeLocked cfg now).source.ready now (max 1 limit) ≠ [] := by
        rw [ready_initializeLocked]
        exact hready
      rw [fetch_ready _ hready',ready_initializeLocked]
      simp only [Option.getD_some,List.length_map,hready,ne_eq,not_false_eq_true,forall_const,
        hcounted]
  · have hfetch : s.fetch cfg limit now payload = s.initializeLocked cfg now := if_neg hinit
    have hsame : outstanding (s.initializeLocked cfg now) = outstanding s := by
      unfold outstanding
      rw [initializeLocked_handed]
    have hfresh : s.source.initialized = false := by
      unfold State.initializeLocked at hinit
      split at hinit
      · next hdone => exact absurd hdone hinit
      · next hfresh => exact Bool.eq_false_iff.mpr hfresh
    refine iff_of_true (by rw [hfetch,hsame]; exact hone) fun hne => absurd ?_ hne
    simp [Source.ready,(h.untouched hfresh).2]

/-- Only a serial step keeps at most one run. -/
theorem step_serial (hoverlap : cfg.overlap ≠ .allow) (h : Tallied s) (hone : AtMostOne s)
    (hs : perform cfg s op = some s') : AtMostOne s' ↔ Serial s op := by
  have hfewer : ∀ {t : State} {i : ℕ} {d : Handed}, s.unsettled i = some d → t.handed = s.handed →
      AtMostOne (t.settle i) := by
    intro t i d hd hhanded
    have hsettle := outstanding_settle hd
    have hsame : outstanding (t.settle i) = outstanding (s.settle i) := by
      unfold outstanding State.settle
      rw [hhanded]
    unfold AtMostOne at hone ⊢
    omega
  cases op with
  | open_ now =>
    cases hs
    refine iff_of_true ?_ trivial
    unfold AtMostOne outstanding at hone ⊢
    rw [initializeLocked_handed]
    exact hone
  | fetch limit now payload =>
    cases hs
    have hclock : Tallied {s with clock := some now} := ⟨h.counted,h.untouched⟩
    exact fetch_serial hoverlap hclock hone limit now payload
  | ack i =>
    obtain ⟨d,hd,rfl⟩ := Option.map_eq_some_iff.mp hs
    exact iff_of_true (hfewer hd rfl) trivial
  | fail i =>
    obtain ⟨d,hd,rfl⟩ := Option.map_eq_some_iff.mp hs
    exact iff_of_true (hfewer hd rfl) trivial
  | retry i now delay =>
    obtain ⟨d,hd,rfl⟩ := Option.map_eq_some_iff.mp hs
    exact iff_of_true (hfewer hd rfl) trivial
  | releaseUnstarted i =>
    obtain ⟨d,hd,rfl⟩ := Option.map_eq_some_iff.mp hs
    exact iff_of_true hone trivial

end Steps

section Released

/-- A step that settles the run. -/
def Op.Settles (i : ℕ) : Op → Prop
  | .ack j | .fail j | .retry j _ _ => j = i
  | _ => False

variable {i : ℕ}

theorem unsettled_settle {t : State} {j : ℕ} (hhanded : t.handed = s.handed) (hne : j ≠ i) :
    (t.settle j).unsettled i = s.unsettled i := by
  unfold State.unsettled State.settle
  rw [hhanded,List.getElem?_modify]
  simp [hne]

variable {d : Handed}

theorem unsettled_fetch (h : s.unsettled i = some d) (limit : ℕ) (now : ℤ) (payload : ℕ → Bool) :
    (s.fetch cfg limit now payload).unsettled i = some d := by
  have hgrown : ∃ new, (s.fetch cfg limit now payload).handed = s.handed++new := by
    unfold State.fetch
    dsimp only
    split
    · exact ⟨_,by rw [initializeLocked_handed]⟩
    · exact ⟨[],by rw [initializeLocked_handed,List.append_nil]⟩
  obtain ⟨new,hnew⟩ := hgrown
  unfold State.unsettled at h ⊢
  obtain ⟨hi,hsettled⟩ := Option.filter_eq_some_iff.mp h
  obtain ⟨hlt,-⟩ := List.getElem?_eq_some_iff.mp hi
  rw [hnew,List.getElem?_append_left hlt,hi]
  exact Option.filter_eq_some_iff.mpr ⟨rfl,hsettled⟩

theorem unsettled_step (h : s.unsettled i = some d) (hs : perform cfg s op = some s')
    (hop : ¬Op.Settles i op) : s'.unsettled i = some d := by
  cases op with
  | open_ now =>
    cases hs
    unfold State.unsettled at h ⊢
    rw [initializeLocked_handed]
    exact h
  | fetch limit now payload =>
    cases hs
    exact unsettled_fetch (s := {s with clock := some now}) h limit now payload
  | ack j =>
    obtain ⟨e,-,rfl⟩ := Option.map_eq_some_iff.mp hs
    exact (unsettled_settle rfl hop).trans h
  | fail j =>
    obtain ⟨e,-,rfl⟩ := Option.map_eq_some_iff.mp hs
    exact (unsettled_settle rfl hop).trans h
  | retry j now delay =>
    obtain ⟨e,-,rfl⟩ := Option.map_eq_some_iff.mp hs
    exact (unsettled_settle rfl hop).trans h
  | releaseUnstarted j =>
    obtain ⟨e,-,rfl⟩ := Option.map_eq_some_iff.mp hs
    exact h

/-- No fetch hands out a due run. -/
def Blocked (cfg : Settings) (s : State) : Prop :=
  ∀ limit now payload, s.source.ready now (max 1 limit) = [] →
    (s.fetch cfg limit now payload).handed = s.handed

theorem blocked_of_unsettled (hoverlap : cfg.overlap ≠ .allow) (h : Tallied s)
    (hd : s.unsettled i = some d) : Blocked cfg s := by
  intro limit now payload hready
  have hpos := outstanding_settle hd
  have hcounted := h.counted
  unfold State.fetch
  dsimp only
  split
  · have hready' : (s.initializeLocked cfg now).source.ready now (max 1 limit) = [] := by
      rw [ready_initializeLocked,hready]
    rcases oneRun_fetch _ payload hoverlap hready' with ⟨hnil,-⟩ | ⟨-,hzero,-⟩
    · rw [hnil,List.map_nil,List.append_nil,initializeLocked_handed]
    · rw [initializeLocked_inflight] at hzero
      omega
  · rw [initializeLocked_handed]

/-- A released run stays in flight, and keeps due runs back until it is settled. -/
theorem released_blocks (hoverlap : cfg.overlap ≠ .allow)
    (hreach : Reachable (constructed cfg) (fun s op s' => perform cfg s op = some s') s)
    (hs : perform cfg s (.releaseUnstarted i) = some s') {ops : List Op} {t : State}
    (hr : Run (fun s op s' => perform cfg s op = some s') s' ops t)
    (hops : ∀ op ∈ ops, ¬Op.Settles i op) : Blocked cfg t := by
  have htallied : Tallied s :=
    hreach.invariant (tallied_constructed cfg) fun _ _ _ h hstep => h.step hoverlap hstep
  have htallied' : Tallied s' := htallied.step hoverlap hs
  have hheld : ∃ d, s'.unsettled i = some d := by
    obtain ⟨d,hd,rfl⟩ := Option.map_eq_some_iff.mp hs
    exact ⟨d,hd⟩
  obtain ⟨d,hd⟩ := hheld
  clear hs hreach htallied
  induction hr with
  | nil s => exact blocked_of_unsettled hoverlap htallied' hd
  | cons hstep _ ih =>
    exact ih (fun op hop => hops op (List.mem_cons_of_mem _ hop))
      (htallied'.step hoverlap hstep) (unsettled_step hd hstep (hops _ List.mem_cons_self))

end Released

/-- Runs overlap exactly when retried runs are drained beside another run. -/
theorem atMostOne_iff (cfg : Settings) (hoverlap : cfg.overlap ≠ .allow) (ops : List Op) :
    Throughout (perform cfg) AtMostOne (constructed cfg) ops ↔
      EachStep (perform cfg) Serial (constructed cfg) ops :=
  throughout_iff (J := Tallied) (fun _ _ _ h hs => h.step hoverlap hs)
    (fun _ _ _ h hone hs => step_serial hoverlap h hone hs) (tallied_constructed cfg)
    (Nat.zero_le 1) ops

section Samples

instance (s : State) (op : Op) : Decidable (Serial s op) := by
  unfold Serial
  split <;> infer_instance

/-- Every ten microseconds, and no overlapping runs. -/
def skipping : Settings where
  schedule := interval 10 (by decide)
  overlap := .skip

/-- A run is retried and finished before the next one is due. -/
def retriedSoon : List Op :=
  [.open_ 0,.fetch 2 10 fun _ => true,.retry 0 11 (some 3),.fetch 2 14 fun _ => true,.ack 1,
    .fetch 2 20 fun _ => true]

/-- No two runs of it overlap. -/
theorem retriedSoon_serial : skipping.overlap ≠ .allow ∧
    Throughout (perform skipping) AtMostOne (constructed skipping) retriedSoon := by
  refine ⟨by decide,(atMostOne_iff skipping (by decide) retriedSoon).mpr ?_⟩
  exact eachStep_of_checks (fun _ _ => of_decide_eq_true)
    (show checks (perform skipping) (fun s op => decide (Serial s op)) (constructed skipping)
      retriedSoon = true by decide +kernel)

def retriedLater : List Op :=
  [.open_ 0,.fetch 2 10 fun _ => true,.retry 0 11 (some 20),.fetch 2 20 fun _ => true,
    .fetch 2 31 fun _ => true]

/-- The retried run is handed out beside the next one. -/
theorem retriedLater_overlaps :
    ¬Throughout (perform skipping) AtMostOne (constructed skipping) retriedLater := by
  have hrun : (runs (perform skipping) (fun _ _ => true) (constructed skipping) retriedLater).map
      outstanding = some 2 := by decide +kernel
  obtain ⟨s,hs,htwo⟩ := Option.map_eq_some_iff.mp hrun
  intro h
  have hone := h.last hs
  unfold AtMostOne at hone
  omega

end Samples

end OneStep.ScheduleOverlap
