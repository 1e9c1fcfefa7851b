import OneStep.ServiceOverview

/-!
# Where the service list and the dashboard agree

Both count the same events and windows of a service, but for the tasks that the dashboard does
not show. So they agree exactly when those have no failures and no timeouts, when no task has
timeouts alone, and when the deliveries of those change neither quotient. The totals of the list
are sums over the services that it matches exactly when no other service has tasks and no
matching one has more instances online than take part in its health.
-/
namespace OneStep.OverviewAgreement
open GroupedTotals ServiceOverview

section Summaries
variable {T B : Type} {allowed : Option (List String)}
  {f : B → TaskDashboardSummary T → TaskDashboardSummary T}
  {summaries : List (String × TaskDashboardSummary T)} {rows : List (String × B)}

theorem keys_upsert {row : String × B} {name : String} :
    name ∈ (upsert allowed f summaries row).map Prod.fst ↔ name ∈ summaries.map Prod.fst ∨
      name = row.1 ∧ shouldIncludeTask allowed name = true := by
  unfold upsert
  split
  · next hrow =>
      rw [mem_keys_change]
      constructor
      · rintro (hold | rfl)
        · exact .inl hold
        · exact hrow.imp_right fun hshown => ⟨rfl,hshown⟩
      · exact Or.imp_right And.left
  · next hrow =>
      refine ⟨.inl,fun h => h.elim id ?_⟩
      rintro ⟨rfl,hshown⟩
      exact absurd (.inr hshown) hrow

theorem nodup_upsert (h : (summaries.map Prod.fst).Nodup) (row : String × B) :
    ((upsert allowed f summaries row).map Prod.fst).Nodup := by
  unfold upsert
  split
  · exact nodup_change h _ _
  · exact h

theorem mem_upsert (hnodup : (summaries.map Prod.fst).Nodup) {row : String × B}
    {pair : String × TaskDashboardSummary T} (h : pair ∈ upsert allowed f summaries row) :
    (pair.1 ≠ row.1 ∧ pair ∈ summaries) ∨ (pair.1 = row.1 ∧ ∃ summary,
      pair.2 = f row.2 summary ∧ ((pair.1 ∉ summaries.map Prod.fst ∧
        shouldIncludeTask allowed pair.1 = true ∧ summary = {}) ∨ (pair.1,summary) ∈ summaries)) := by
  obtain ⟨name,s⟩ := pair
  unfold upsert at h
  by_cases hname : name = row.1
  · refine .inr ⟨hname,?_⟩
    subst hname
    split at h
    · next hrow =>
        rcases mem_change_self hnodup h with ⟨hnew,heq⟩ | ⟨old,hold,heq⟩
        · exact ⟨{},heq,.inl ⟨hnew,hrow.resolve_left hnew,rfl⟩⟩
        · exact ⟨old,heq,.inr hold⟩
    · next hrow => exact absurd (.inl (List.mem_map_of_mem h)) hrow
  · refine .inl ⟨hname,?_⟩
    split at h
    · exact (mem_change_of_ne hname).mp h
    · exact h

theorem upsertAll_append_singleton (rows : List (String × B)) (row : String × B) :
    (rows++[row]).foldl (upsert allowed f) summaries =
      upsert allowed f (rows.foldl (upsert allowed f) summaries) row := by
  rw [List.foldl_append]
  rfl

theorem keys_upsertAll {name : String} :
    name ∈ (rows.foldl (upsert allowed f) summaries).map Prod.fst ↔
      name ∈ summaries.map Prod.fst ∨
        name ∈ rows.map Prod.fst ∧ shouldIncludeTask allowed name = true := by
  induction rows using List.reverseRecOn with
  | nil => simp
  | append_singleton rows row ih =>
    rw [upsertAll_append_singleton,keys_upsert,ih,List.map_append,List.mem_append,
      List.map_singleton,List.mem_singleton]
    tauto

theorem nodup_upsertAll (h : (summaries.map Prod.fst).Nodup) :
    ((rows.foldl (upsert allowed f) summaries).map Prod.fst).Nodup := by
  induction rows using List.reverseRecOn with
  | nil => exact h
  | append_singleton rows row ih =>
    rw [upsertAll_append_singleton]
    exact nodup_upsert ih row

variable {P Q : String → TaskDashboardSummary T → Prop}

theorem upsertAll_forall (hnodup : (summaries.map Prod.fst).Nodup)
    (hrows : (rows.map Prod.fst).Nodup) (hP : ∀ pair ∈ summaries, P pair.1 pair.2)
    (hnew : ∀ name ∉ summaries.map Prod.fst, shouldIncludeTask allowed name = true → P name {})
    (hrow : ∀ row ∈ rows, ∀ s, P row.1 s → Q row.1 (f row.2 s)) :
    ∀ pair ∈ rows.foldl (upsert allowed f) summaries,
      (pair.1 ∈ rows.map Prod.fst → Q pair.1 pair.2) ∧
        (pair.1 ∉ rows.map Prod.fst → P pair.1 pair.2) := by
  induction rows using List.reverseRecOn with
  | nil => exact fun pair hpair => ⟨fun h => absurd h List.not_mem_nil,fun _ => hP pair hpair⟩
  | append_singleton rows row ih =>
    rw [List.map_append,List.nodup_append] at hrows
    rw [List.forall_mem_append] at hrow
    have hrest := ih hrows.1 hrow.1
    have hfresh : row.1 ∉ rows.map Prod.fst := fun hmem =>
      hrows.2.2 _ hmem row.1 (List.mem_singleton_self _) rfl
    intro pair hpair
    rw [upsertAll_append_singleton] at hpair
    rw [List.map_append,List.mem_append,List.map_singleton,List.mem_singleton]
    rcases mem_upsert (nodup_upsertAll hnodup) hpair with ⟨hne,hold⟩ | ⟨heq,s,hs,hsource⟩
    · have hpart := hrest pair hold
      exact ⟨fun h => hpart.1 (h.resolve_right hne),fun h => hpart.2 fun hmem => h (.inl hmem)⟩
    · refine ⟨fun _ => ?_,fun h => absurd (.inr heq) h⟩
      rw [heq] at hsource ⊢
      rw [hs]
      refine hrow.2 row (List.mem_singleton_self row) s ?_
      rcases hsource with ⟨habsent,hshown,rfl⟩ | hold
      · exact hnew _ (fun hmem => habsent (keys_upsertAll.mpr (.inl hmem))) hshown
      · exact (hrest _ hold).2 hfresh

theorem upsertAll_keeps (hnodup : (summaries.map Prod.fst).Nodup)
    (hP : ∀ pair ∈ summaries, P pair.1 pair.2)
    (hnew : ∀ name ∉ summaries.map Prod.fst, shouldIncludeTask allowed name = true → P name {})
    (hf : ∀ name b s, P name s → P name (f b s)) :
    ∀ pair ∈ rows.foldl (upsert allowed f) summaries, P pair.1 pair.2 := by
  induction rows using List.reverseRecOn with
  | nil => exact hP
  | append_singleton rows row ih =>
    intro pair hpair
    rw [upsertAll_append_singleton] at hpair
    rcases mem_upsert (nodup_upsertAll hnodup) hpair with ⟨-,hold⟩ | ⟨-,s,hs,hsource⟩
    · exact ih pair hold
    · rw [hs]
      refine hf _ _ _ ?_
      rcases hsource with ⟨habsent,hshown,rfl⟩ | hold
      · exact hnew _ (fun hmem => habsent (keys_upsertAll.mpr (.inl hmem))) hshown
      · exact ih _ hold

end Summaries

section Counted
variable {T : Type} [LinearOrder T]

/-- A summary that counts the windows and the events of its task. -/
structure Counted (windows : List (TaskMetricWindow T)) (events : List (TaskEvent T))
    (name : String) (s : TaskDashboardSummary T) : Prop where
  fetched : s.fetched = total TaskMetricWindow.taskName TaskMetricWindow.fetched windows name
  succeeded : s.succeeded = total TaskMetricWindow.taskName TaskMetricWindow.succeeded windows name
  failed : s.failed = total TaskMetricWindow.taskName TaskMetricWindow.failed windows name
  deadLettered : s.deadLettered =
    total TaskMetricWindow.taskName TaskMetricWindow.deadLettered windows name
  cancelled : s.cancelled = total TaskMetricWindow.taskName TaskMetricWindow.cancelled windows name
  timeouts : s.timeouts = total TaskMetricWindow.taskName TaskMetricWindow.timeouts windows name
  events : ∀ kind, s.eventCounts kind =
    total TaskEvent.taskName (fun row => if row.kind = kind then 1 else 0) events name

variable {windows : List (TaskMetricWindow T)} {events : List (TaskEvent T)} {name : String}
  {s : TaskDashboardSummary T}

omit [LinearOrder T] in
theorem counted_new (name : String) (sourceKind : Option String) :
    Counted ([] : List (TaskMetricWindow T)) [] name {sourceKind := sourceKind} where
  fetched := rfl
  succeeded := rfl
  failed := rfl
  deadLettered := rfl
  cancelled := rfl
  timeouts := rfl
  events := fun _ => rfl

theorem counted_setMetrics (h : Counted [] events name s) {row : MetricRow T}
    (hrow : (name,row) ∈ metricRows windows) : Counted windows events name (setMetrics row s) := by
  obtain ⟨k,-,heq⟩ := List.mem_map.mp hrow
  cases heq
  exact ⟨rfl,rfl,rfl,rfl,rfl,rfl,h.events⟩

omit [LinearOrder T] in
theorem counted_noWindows (h : Counted [] events name s)
    (hname : name ∉ windows.map TaskMetricWindow.taskName) : Counted windows events name s where
  fetched := h.fetched.trans (total_of_notMem hname).symm
  succeeded := h.succeeded.trans (total_of_notMem hname).symm
  failed := h.failed.trans (total_of_notMem hname).symm
  deadLettered := h.deadLettered.trans (total_of_notMem hname).symm
  cancelled := h.cancelled.trans (total_of_notMem hname).symm
  timeouts := h.timeouts.trans (total_of_notMem hname).symm
  events := h.events

theorem counted_setEvents (h : Counted windows [] name s) {row : Option T × (TaskEventKind → ℕ)}
    (hrow : (name,row) ∈ eventRows events) : Counted windows events name (setEvents row s) := by
  obtain ⟨k,-,heq⟩ := List.mem_map.mp hrow
  cases heq
  exact ⟨h.fetched,h.succeeded,h.failed,h.deadLettered,h.cancelled,h.timeouts,fun _ => rfl⟩

omit [LinearOrder T] in
theorem counted_noEvents (h : Counted windows [] name s)
    (hname : name ∉ events.map TaskEvent.taskName) : Counted windows events name s where
  fetched := h.fetched
  succeeded := h.succeeded
  failed := h.failed
  deadLettered := h.deadLettered
  cancelled := h.cancelled
  timeouts := h.timeouts
  events := fun kind => (h.events kind).trans (total_of_notMem hname).symm

theorem keys_metricRows : (metricRows windows).map Prod.fst =
    (windows.map TaskMetricWindow.taskName).dedup := by
  rw [metricRows,List.map_map]
  exact List.map_id _

theorem keys_eventRows : (eventRows events).map Prod.fst =
    (events.map TaskEvent.taskName).dedup := by
  rw [eventRows,List.map_map]
  exact List.map_id _

end Counted

section Collected
variable {T : Type} [LinearOrder T] {t : Tables T} {id : ℕ} {startedAt cutoff : T}
  {commands : List (String × List String)}

/-- The tasks that the dashboard of the service shows. -/
def shown (t : Tables T) (id : ℕ) (cutoff : T) (name : String) : Bool :=
  shouldIncludeTask (allowedTaskNames t id cutoff) name

theorem nodup_startSummaries : ((startSummaries t id cutoff).map Prod.fst).Nodup := by
  unfold startSummaries
  dsimp only
  split
  · exact nodup_collect _
  · rw [List.map_append,List.map_map,List.nodup_append]
    refine ⟨nodup_collect _,?_,?_⟩
    · refine List.Nodup.map (fun _ _ h => h) ?_
      exact (List.perm_insertionSort _ _).nodup_iff.mpr ((List.nodup_dedup _).filter _)
    · intro a ha b hb heq
      obtain ⟨name,hname,rfl⟩ := List.mem_map.mp hb
      rw [List.mem_insertionSort,List.mem_filter] at hname
      rw [show a = name from heq] at ha
      exact of_decide_eq_true hname.2 ha

variable {name : String}

theorem start_shown (h : name ∈ (startSummaries t id cutoff).map Prod.fst) :
    shown t id cutoff name = true := by
  unfold startSummaries at h
  unfold shown allowedTaskNames
  split
  · rfl
  · next hne =>
      simp only at h
      rw [if_neg hne,List.map_append,List.mem_append] at h
      refine decide_eq_true (List.mem_append.mpr (h.imp ?_ ?_))
      · intro hdefined
        have hmem := mem_keys_collect.mp hdefined
        rw [List.map_map] at hmem
        exact hmem
      · intro honline
        rw [List.map_map] at honline
        obtain ⟨name',hname,rfl⟩ := List.mem_map.mp honline
        rw [List.mem_insertionSort] at hname
        exact List.mem_of_mem_filter hname

theorem start_counted : ∀ pair ∈ startSummaries t id cutoff, Counted [] [] pair.1 pair.2 := by
  have hdefined : ∀ pair ∈ collect ((definitionsOf t id).map fun row =>
      (row.taskName,({sourceKind := row.sourceKind} : TaskDashboardSummary T))),
      Counted [] [] pair.1 pair.2 := by
    intro pair hpair
    obtain ⟨row,-,rfl⟩ := List.mem_map.mp (mem_of_collect hpair)
    exact counted_new _ _
  unfold startSummaries
  dsimp only
  split
  · exact hdefined
  · rw [List.forall_mem_append]
    refine ⟨hdefined,fun pair hpair => ?_⟩
    obtain ⟨name,-,rfl⟩ := List.mem_map.mp hpair
    exact counted_new _ _

/-- The summaries that the dashboard collects. -/
structure Collected (t : Tables T) (id : ℕ) (startedAt cutoff : T)
    (summaries : List (String × TaskDashboardSummary T)) : Prop where
  nodup : (summaries.map Prod.fst).Nodup
  shown : ∀ name ∈ summaries.map Prod.fst, shown t id cutoff name = true
  windows : ∀ row ∈ windowsOf t id startedAt, OverviewAgreement.shown t id cutoff row.taskName = true →
    row.taskName ∈ summaries.map Prod.fst
  events : ∀ row ∈ eventsOf t id startedAt, OverviewAgreement.shown t id cutoff row.taskName = true →
    row.taskName ∈ summaries.map Prod.fst
  counted : ∀ pair ∈ summaries,
    Counted (windowsOf t id startedAt) (eventsOf t id startedAt) pair.1 pair.2

/-- The summaries with the windows, and then with the events. -/
def withWindows (t : Tables T) (id : ℕ) (startedAt cutoff : T) :
    List (String × TaskDashboardSummary T) :=
  (metricRows (windowsOf t id startedAt)).foldl
    (upsert (allowedTaskNames t id cutoff) setMetrics) (startSummaries t id cutoff)

def withEvents (t : Tables T) (id : ℕ) (startedAt cutoff : T) :
    List (String × TaskDashboardSummary T) :=
  (eventRows (eventsOf t id startedAt)).foldl
    (upsert (allowedTaskNames t id cutoff) setEvents) (withWindows t id startedAt cutoff)

theorem mem_withWindows : name ∈ (withWindows t id startedAt cutoff).map Prod.fst ↔
    name ∈ (startSummaries t id cutoff).map Prod.fst ∨
      name ∈ (windowsOf t id startedAt).map TaskMetricWindow.taskName ∧
        shown t id cutoff name = true := by
  rw [withWindows,keys_upsertAll,keys_metricRows,List.mem_dedup]
  rfl

theorem mem_withEvents : name ∈ (withEvents t id startedAt cutoff).map Prod.fst ↔
    name ∈ (withWindows t id startedAt cutoff).map Prod.fst ∨
      name ∈ (eventsOf t id startedAt).map TaskEvent.taskName ∧ shown t id cutoff name = true := by
  rw [withEvents,keys_upsertAll,keys_eventRows,List.mem_dedup]
  rfl

theorem nodup_withEvents : ((withEvents t id startedAt cutoff).map Prod.fst).Nodup :=
  nodup_upsertAll (nodup_upsertAll nodup_startSummaries)

theorem counted_withWindows : ∀ pair ∈ withWindows t id startedAt cutoff,
    Counted (windowsOf t id startedAt) [] pair.1 pair.2 := by
  intro pair hpair
  have hkeys : ((metricRows (windowsOf t id startedAt)).map Prod.fst).Nodup := by
    rw [keys_metricRows]
    exact List.nodup_dedup _
  obtain ⟨hin,hout⟩ := upsertAll_forall nodup_startSummaries hkeys
    (Q := Counted (windowsOf t id startedAt) []) start_counted (fun name _ _ => counted_new name none)
    (fun _ hrow _ hs => counted_setMetrics hs hrow) pair hpair
  rw [keys_metricRows,List.mem_dedup] at hin hout
  by_cases hname : pair.1 ∈ (windowsOf t id startedAt).map TaskMetricWindow.taskName
  · exact hin hname
  · exact counted_noWindows (hout hname) hname

theorem counted_withEvents : ∀ pair ∈ withEvents t id startedAt cutoff,
    Counted (windowsOf t id startedAt) (eventsOf t id startedAt) pair.1 pair.2 := by
  intro pair hpair
  have hkeys : ((eventRows (eventsOf t id startedAt)).map Prod.fst).Nodup := by
    rw [keys_eventRows]
    exact List.nodup_dedup _
  have hnew : ∀ name ∉ (withWindows t id startedAt cutoff).map Prod.fst,
      shown t id cutoff name = true → Counted (windowsOf t id startedAt) [] name {} := by
    intro name habsent hshown
    refine counted_noWindows (counted_new name none) fun hmem => ?_
    exact habsent (mem_withWindows.mpr (.inr ⟨hmem,hshown⟩))
  obtain ⟨hin,hout⟩ := upsertAll_forall (nodup_upsertAll nodup_startSummaries) hkeys
    (Q := Counted (windowsOf t id startedAt) (eventsOf t id startedAt)) counted_withWindows hnew
    (fun _ hrow _ hs => counted_setEvents hs hrow) pair hpair
  rw [keys_eventRows,List.mem_dedup] at hin hout
  by_cases hname : pair.1 ∈ (eventsOf t id startedAt).map TaskEvent.taskName
  · exact hin hname
  · exact counted_noEvents (hout hname) hname

variable {summaries : List (String × TaskDashboardSummary T)}

theorem collected_upsertAll {B : Type} {f : B → TaskDashboardSummary T → TaskDashboardSummary T}
    {rows : List (String × B)} (h : Collected t id startedAt cutoff summaries)
    (hf : ∀ name b s, Counted (windowsOf t id startedAt) (eventsOf t id startedAt) name s →
      Counted (windowsOf t id startedAt) (eventsOf t id startedAt) name (f b s)) :
    Collected t id startedAt cutoff
      (rows.foldl (upsert (allowedTaskNames t id cutoff) f) summaries) where
  nodup := nodup_upsertAll h.nodup
  shown := fun name hname => (keys_upsertAll.mp hname).elim (h.shown name) And.right
  windows := fun row hrow hshown => keys_upsertAll.mpr (.inl (h.windows row hrow hshown))
  events := fun row hrow hshown => keys_upsertAll.mpr (.inl (h.events row hrow hshown))
  counted := by
    refine upsertAll_keeps h.nodup h.counted ?_ hf
    intro name habsent hshown
    refine counted_noEvents (counted_noWindows (counted_new name none) ?_) ?_
    · intro hmem
      obtain ⟨row,hrow,rfl⟩ := List.mem_map.mp hmem
      exact habsent (h.windows row hrow hshown)
    · intro hmem
      obtain ⟨row,hrow,rfl⟩ := List.mem_map.mp hmem
      exact habsent (h.events row hrow hshown)

theorem collected_withEvents : Collected t id startedAt cutoff (withEvents t id startedAt cutoff) where
  nodup := nodup_withEvents
  shown := by
    intro name hname
    rcases mem_withEvents.mp hname with hname | ⟨-,hshown⟩
    · exact (mem_withWindows.mp hname).elim start_shown And.right
    · exact hshown
  windows := fun row hrow hshown => mem_withEvents.mpr (.inl (mem_withWindows.mpr
    (.inr ⟨List.mem_map_of_mem hrow,hshown⟩)))
  events := fun row hrow hshown => mem_withEvents.mpr (.inr ⟨List.mem_map_of_mem hrow,hshown⟩)
  counted := counted_withEvents

theorem collected (t : Tables T) (id : ℕ) (startedAt cutoff : T)
    (commands : List (String × List String)) :
    Collected t id startedAt cutoff (collectSummaries t id startedAt cutoff commands) :=
  collected_upsertAll (collected_upsertAll collected_withEvents
    fun _ _ _ h => ⟨h.fetched,h.succeeded,h.failed,h.deadLettered,h.cancelled,h.timeouts,h.events⟩)
    fun _ _ _ h => ⟨h.fetched,h.succeeded,h.failed,h.deadLettered,h.cancelled,h.timeouts,h.events⟩

/-- A count over the summaries is the count over the rows of the tasks that are shown. -/
theorem sum_collected {R : Type} {taskName : R → String} {value : R → ℕ} {rows : List R}
    {g : TaskDashboardSummary T → ℕ} (h : Collected t id startedAt cutoff summaries)
    (hrows : ∀ row ∈ rows, shown t id cutoff (taskName row) = true →
      taskName row ∈ summaries.map Prod.fst)
    (hg : ∀ pair ∈ summaries, g pair.2 = total taskName value rows pair.1) :
    (summaries.map fun pair => g pair.2).sum =
      ((rows.filter fun row => shown t id cutoff (taskName row)).map value).sum := by
  have hkeys : (summaries.map fun pair => g pair.2) =
      (summaries.map Prod.fst).map (total taskName value rows) := by
    rw [List.map_map]
    exact List.map_congr_left hg
  have hfilter : rows.filter (fun row => taskName row ∈ summaries.map Prod.fst) =
      rows.filter fun row => shown t id cutoff (taskName row) := by
    refine List.filter_congr fun row hrow => ?_
    rw [Bool.eq_iff_iff,decide_eq_true_iff]
    exact ⟨h.shown _,hrows row hrow⟩
  rw [hkeys,sum_totals h.nodup,hfilter]

def shownWindows (t : Tables T) (id : ℕ) (startedAt cutoff : T) : List (TaskMetricWindow T) :=
  (windowsOf t id startedAt).filter fun row => shown t id cutoff row.taskName

def hiddenWindows (t : Tables T) (id : ℕ) (startedAt cutoff : T) : List (TaskMetricWindow T) :=
  (windowsOf t id startedAt).filter fun row => !shown t id cutoff row.taskName

def failuresOf (t : Tables T) (id : ℕ) (startedAt : T) : List (TaskEvent T) :=
  (eventsOf t id startedAt).filter fun row => row.kind ∈ taskFailingEventKinds

theorem sum_windows {value : TaskMetricWindow T → ℕ} {g : TaskDashboardSummary T → ℕ}
    (h : Collected t id startedAt cutoff summaries) (hg : ∀ pair ∈ summaries, g pair.2 =
      total TaskMetricWindow.taskName value (windowsOf t id startedAt) pair.1) :
    (summaries.map fun pair => g pair.2).sum =
      ((shownWindows t id startedAt cutoff).map value).sum :=
  sum_collected h h.windows hg

/-- The errors of a task: its failures and its timeouts. -/
theorem errorCount_eq {s : TaskDashboardSummary T}
    (h : Counted (windowsOf t id startedAt) (eventsOf t id startedAt) name s) :
    computeErrorCount (s.eventCounts .failed) (s.eventCounts .deadLettered) s.timeouts =
      total TaskEvent.taskName (fun _ => 1) (failuresOf t id startedAt) name+
        total TaskMetricWindow.taskName TaskMetricWindow.timeouts (windowsOf t id startedAt) name := by
  have hkinds : (fun row : TaskEvent T => (if row.kind = .failed then 1 else 0)+
      if row.kind = .deadLettered then 1 else 0) =
      fun row => if decide (row.kind ∈ taskFailingEventKinds) = true then 1 else 0 := by
    funext row
    cases row.kind <;> rfl
  rw [computeErrorCount,h.events,h.events,h.timeouts,← total_add,hkinds,total_ite]
  rfl

theorem sum_errors (h : Collected t id startedAt cutoff summaries) :
    (summaries.map fun pair => computeErrorCount (pair.2.eventCounts .failed)
      (pair.2.eventCounts .deadLettered) pair.2.timeouts).sum =
      ((failuresOf t id startedAt).filter fun row => shown t id cutoff row.taskName).length+
        ((shownWindows t id startedAt cutoff).map TaskMetricWindow.timeouts).sum := by
  have hsplit : (summaries.map fun pair => computeErrorCount (pair.2.eventCounts .failed)
      (pair.2.eventCounts .deadLettered) pair.2.timeouts) = summaries.map fun pair =>
        (pair.2.eventCounts .failed+pair.2.eventCounts .deadLettered)+pair.2.timeouts := rfl
  have hevents : (summaries.map fun pair =>
      pair.2.eventCounts .failed+pair.2.eventCounts .deadLettered).sum =
      (((failuresOf t id startedAt).filter fun row => shown t id cutoff row.taskName).map
        fun _ => 1).sum := by
    refine sum_collected (g := fun s => s.eventCounts .failed+s.eventCounts .deadLettered) h
      (fun row hrow => h.events row (List.mem_of_mem_filter hrow)) fun pair hpair => ?_
    have herrors := errorCount_eq (h.counted pair hpair)
    rw [computeErrorCount,(h.counted pair hpair).timeouts] at herrors
    exact Nat.add_right_cancel herrors
  rw [hsplit,List.sum_map_add,hevents,sum_windows h fun pair hpair => (h.counted pair hpair).timeouts]
  simp

end Collected

section Items
variable {T : Type} [LinearOrder T] {percent : ℕ → ℕ → ℚ} {t : Tables T} {cutoffs : Cutoffs T}
  {lookback : Lookback T} {cutoff : T} {commands : List (String × List String)} {service : Service}

theorem recentWindows_of (id : ℕ) (startedAt : T) :
    (recentWindows t startedAt).filter (fun row => row.serviceId = id) = windowsOf t id startedAt := by
  rw [recentWindows,windowsOf,List.filter_filter]
  exact List.filter_congr fun row _ => (Bool.decide_and _ _).symm

theorem recentFailures_of (id : ℕ) (startedAt : T) :
    (recentFailures t startedAt).filter (fun row => row.serviceId = id) = failuresOf t id startedAt := by
  rw [recentFailures,failuresOf,eventsOf,List.filter_filter,List.filter_filter]
  refine List.filter_congr fun row _ => ?_
  simp only [Bool.decide_and]
  cases decide (row.serviceId = id) <;> cases decide (row.kind ∈ taskFailingEventKinds) <;> rfl

theorem total_recent (value : TaskMetricWindow T → ℕ) (id : ℕ) (startedAt : T) :
    total TaskMetricWindow.serviceId value (recentWindows t startedAt) id =
      ((windowsOf t id startedAt).map value).sum := by
  rw [total,recentWindows_of]

theorem aggregates_lookup (id : ℕ) (startedAt : T) :
    (buildServiceMetricAggregatesMap t startedAt).lookup id =
      if id ∈ (recentWindows t startedAt).map TaskMetricWindow.serviceId then some {
        fetched := ((windowsOf t id startedAt).map TaskMetricWindow.fetched).sum
        succeeded := ((windowsOf t id startedAt).map TaskMetricWindow.succeeded).sum
        failed := ((windowsOf t id startedAt).map TaskMetricWindow.failed).sum
        deadLettered := ((windowsOf t id startedAt).map TaskMetricWindow.deadLettered).sum
        cancelled := ((windowsOf t id startedAt).map TaskMetricWindow.cancelled).sum
        timeouts := ((windowsOf t id startedAt).map TaskMetricWindow.timeouts).sum} else none := by
  rw [buildServiceMetricAggregatesMap,lookup_map]
  simp only [total_recent,List.mem_dedup]

theorem windowsOf_nil {id : ℕ} {startedAt : T}
    (h : id ∉ (recentWindows t startedAt).map TaskMetricWindow.serviceId) :
    windowsOf t id startedAt = [] := by
  rw [← recentWindows_of,List.filter_eq_nil_iff]
  intro row hrow heq
  exact h (of_decide_eq_true heq ▸ List.mem_map_of_mem hrow)

def rateOf (percent : ℕ → ℕ → ℚ) (windows : List (TaskMetricWindow T)) : ℚ :=
  computeSuccessRate percent (windows.map TaskMetricWindow.succeeded).sum
    (windows.map TaskMetricWindow.failed).sum (windows.map TaskMetricWindow.deadLettered).sum
    (windows.map TaskMetricWindow.cancelled).sum

theorem item_successRate : (serviceItem percent t cutoffs lookback service).successRate =
    rateOf percent (windowsOf t service.id lookback.startedAt) := by
  rw [serviceItem,buildServiceSummary]
  simp only
  rw [aggregates_lookup]
  split
  · next heq =>
      split at heq
      · cases heq
      · next h =>
          rw [windowsOf_nil h]
          rfl
  · next heq =>
      split at heq
      · cases heq
        rfl
      · cases heq

theorem item_throughput : (serviceItem percent t cutoffs lookback service).throughputPerMin =
    computeThroughputPerMin ((windowsOf t service.id lookback.startedAt).map
      TaskMetricWindow.fetched).sum lookback.minutes := by
  rw [serviceItem,buildServiceSummary]
  simp only
  rw [aggregates_lookup]
  split
  · next heq =>
      split at heq
      · cases heq
      · next h =>
          rw [windowsOf_nil h]
          simp [computeThroughputPerMin]
  · next heq =>
      split at heq
      · cases heq
        rfl
      · cases heq

theorem item_errorCount : (serviceItem percent t cutoffs lookback service).errorCount =
    (failuresOf t service.id lookback.startedAt).length+
      ((windowsOf t service.id lookback.startedAt).map TaskMetricWindow.timeouts).sum := by
  have hevents : total TaskEvent.serviceId (fun _ => 1) (recentFailures t lookback.startedAt)
      service.id = (failuresOf t service.id lookback.startedAt).length := by
    rw [total,recentFailures_of]
    simp
  rw [serviceItem,buildServiceSummary]
  simp only
  rw [buildServiceErrorCountsMap,lookup_map]
  simp only [getD_lookup_groupTotals,keys_groupTotals,hevents,total_recent]
  split
  · rfl
  · next h =>
      rw [List.mem_dedup,List.mem_append,not_or,List.mem_dedup,List.mem_dedup] at h
      have hnone : total TaskEvent.serviceId (fun _ => 1) (recentFailures t lookback.startedAt)
          service.id = 0 := total_of_notMem h.1
      rw [hevents] at hnone
      rw [windowsOf_nil h.2,hnone]
      rfl

theorem getD_distinctTasks {R : Type} {serviceId : R → ℕ} {taskName : R → String} {rows : List R}
    {id : ℕ} : ((distinctTasks serviceId taskName rows).lookup id).getD 0 =
      ((rows.filter fun row => serviceId row = id).map taskName).dedup.length := by
  rw [distinctTasks,lookup_map]
  split
  · rfl
  · next h =>
      have hnone : rows.filter (fun row => serviceId row = id) = [] := by
        rw [List.filter_eq_nil_iff]
        intro row hrow heq
        exact h (List.mem_dedup.mpr (of_decide_eq_true heq ▸ List.mem_map_of_mem hrow))
      rw [hnone]
      rfl

theorem item_failing : (serviceItem percent t cutoffs lookback service).failingTaskCount =
    ((failuresOf t service.id lookback.startedAt).map TaskEvent.taskName).dedup.length := by
  rw [serviceItem,buildServiceSummary]
  simp only
  rw [buildServiceFailingTaskCountsMap,getD_distinctTasks,recentFailures_of]

theorem dashboard_successRate :
    (dashboardSummary percent t cutoffs lookback cutoff commands service).successRate =
      rateOf percent (shownWindows t service.id lookback.startedAt cutoff) := by
  have h := collected t service.id lookback.startedAt cutoff commands
  have hsucceeded := sum_windows h fun pair hpair => (h.counted pair hpair).succeeded
  have hfailed := sum_windows h fun pair hpair => (h.counted pair hpair).failed
  have hdead := sum_windows h fun pair hpair => (h.counted pair hpair).deadLettered
  have hcancelled := sum_windows h fun pair hpair => (h.counted pair hpair).cancelled
  rw [rateOf,← hsucceeded,← hfailed,← hdead,← hcancelled]
  rw [dashboardSummary,augmentServiceSummaryFromTasks,buildTaskSummaryMap]
  simp only [List.map_map]
  rfl

theorem dashboard_throughput :
    (dashboardSummary percent t cutoffs lookback cutoff commands service).throughputPerMin =
      computeThroughputPerMin ((shownWindows t service.id lookback.startedAt cutoff).map
        TaskMetricWindow.fetched).sum lookback.minutes := by
  have h := collected t service.id lookback.startedAt cutoff commands
  have hfetched := sum_windows h fun pair hpair => (h.counted pair hpair).fetched
  rw [← hfetched]
  rw [dashboardSummary,augmentServiceSummaryFromTasks,buildTaskSummaryMap]
  simp only [List.map_map]
  rfl

theorem dashboard_errorCount :
    (dashboardSummary percent t cutoffs lookback cutoff commands service).errorCount =
      ((failuresOf t service.id lookback.startedAt).filter fun row =>
        shown t service.id cutoff row.taskName).length+
        ((shownWindows t service.id lookback.startedAt cutoff).map
          TaskMetricWindow.timeouts).sum := by
  rw [← sum_errors (collected t service.id lookback.startedAt cutoff commands)]
  rw [dashboardSummary,augmentServiceSummaryFromTasks,buildTaskSummaryMap]
  simp only [List.map_map]
  rfl

def failingTasks (t : Tables T) (id : ℕ) (startedAt cutoff : T)
    (commands : List (String × List String)) : List String :=
  ((collectSummaries t id startedAt cutoff commands).map Prod.fst).filter fun name =>
    0 < total TaskEvent.taskName (fun _ => 1) (failuresOf t id startedAt) name+
      total TaskMetricWindow.taskName TaskMetricWindow.timeouts (windowsOf t id startedAt) name

theorem dashboard_failing :
    (dashboardSummary percent t cutoffs lookback cutoff commands service).failingTaskCount =
      (failingTasks t service.id lookback.startedAt cutoff commands).length := by
  have h := collected t service.id lookback.startedAt cutoff commands
  rw [dashboardSummary,augmentServiceSummaryFromTasks,buildTaskSummaryMap,failingTasks]
  simp only [List.map_map,List.countP_map]
  rw [← List.countP_eq_length_filter,List.countP_map]
  refine List.countP_congr fun pair hpair => ?_
  have herrors := errorCount_eq (h.counted pair hpair)
  simp only [Function.comp_apply,finalizeTaskSummary,herrors]

end Items

section Agreement
variable {T : Type} [LinearOrder T] {percent : ℕ → ℕ → ℚ} {t : Tables T} {cutoffs : Cutoffs T}
  {lookback : Lookback T} {startedAt cutoff : T} {commands : List (String × List String)}
  {service : Service} {id : ℕ}

theorem sum_split {R : Type} (p : R → Bool) (value : R → ℕ) (rows : List R) :
    (rows.map value).sum =
      ((rows.filter p).map value).sum+((rows.filter fun row => !p row).map value).sum := by
  have hperm := ((List.filter_append_perm p rows).map value).sum_eq
  rw [List.map_append,List.sum_append] at hperm
  exact hperm.symm

theorem errors_iff :
    (failuresOf t id startedAt).length+
      ((windowsOf t id startedAt).map TaskMetricWindow.timeouts).sum =
    ((failuresOf t id startedAt).filter fun row => shown t id cutoff row.taskName).length+
      ((shownWindows t id startedAt cutoff).map TaskMetricWindow.timeouts).sum ↔
    (∀ row ∈ failuresOf t id startedAt, shown t id cutoff row.taskName = true) ∧
      ∀ row ∈ windowsOf t id startedAt, 0 < row.timeouts →
        shown t id cutoff row.taskName = true := by
  have hle := List.length_filter_le (fun row => shown t id cutoff row.taskName)
    (failuresOf t id startedAt)
  have hsplit := sum_split (fun row => shown t id cutoff row.taskName) TaskMetricWindow.timeouts
    (windowsOf t id startedAt)
  have hfailures : ((failuresOf t id startedAt).filter fun row =>
      shown t id cutoff row.taskName).length = (failuresOf t id startedAt).length ↔
      ∀ row ∈ failuresOf t id startedAt, shown t id cutoff row.taskName = true :=
    List.length_filter_eq_length_iff
  have htimeouts : ((hiddenWindows t id startedAt cutoff).map TaskMetricWindow.timeouts).sum = 0 ↔
      ∀ row ∈ windowsOf t id startedAt, 0 < row.timeouts →
        shown t id cutoff row.taskName = true := by
    rw [List.sum_eq_zero_iff]
    constructor
    · intro h row hrow hpos
      by_contra hhidden
      have hmem : row ∈ hiddenWindows t id startedAt cutoff :=
        List.mem_filter.mpr ⟨hrow,by simp [hhidden]⟩
      have hzero := h _ (List.mem_map_of_mem hmem)
      omega
    · intro h v hv
      obtain ⟨row,hrow,rfl⟩ := List.mem_map.mp hv
      obtain ⟨hmem,hhidden⟩ := List.mem_filter.mp hrow
      by_contra hne
      rw [h row hmem (Nat.pos_of_ne_zero hne)] at hhidden
      cases hhidden
  rw [← hfailures,← htimeouts]
  change _ = _ at hsplit
  unfold shownWindows hiddenWindows at *
  omega

/-- A task is failing on the dashboard when it is shown and has failures or timeouts. -/
theorem mem_failingTasks {name : String} :
    name ∈ failingTasks t id startedAt cutoff commands ↔
      shown t id cutoff name = true ∧ (name ∈ (failuresOf t id startedAt).map TaskEvent.taskName ∨
        ∃ row ∈ windowsOf t id startedAt, row.taskName = name ∧ 0 < row.timeouts) := by
  have h := collected t id startedAt cutoff commands
  have hfailures : 0 < total TaskEvent.taskName (fun _ => 1) (failuresOf t id startedAt) name ↔
      name ∈ (failuresOf t id startedAt).map TaskEvent.taskName := by
    constructor
    · intro hpos
      by_contra habsent
      rw [total_of_notMem habsent] at hpos
      omega
    · intro hmem
      obtain ⟨row,hrow,rfl⟩ := List.mem_map.mp hmem
      exact total_pos hrow rfl Nat.one_pos
  have htimeouts : 0 < total TaskMetricWindow.taskName TaskMetricWindow.timeouts
      (windowsOf t id startedAt) name ↔
      ∃ row ∈ windowsOf t id startedAt, row.taskName = name ∧ 0 < row.timeouts := by
    constructor
    · intro hpos
      by_contra hnone
      have hzero : total TaskMetricWindow.taskName TaskMetricWindow.timeouts
          (windowsOf t id startedAt) name = 0 := by
        refine List.sum_eq_zero fun v hv => ?_
        obtain ⟨row,hrow,rfl⟩ := List.mem_map.mp hv
        obtain ⟨hmem,hname⟩ := List.mem_filter.mp hrow
        by_contra hne
        exact hnone ⟨row,hmem,of_decide_eq_true hname,Nat.pos_of_ne_zero hne⟩
      omega
    · intro ⟨row,hrow,hname,hpos⟩
      exact total_pos hrow hname hpos
  rw [failingTasks,List.mem_filter,decide_eq_true_iff,Nat.add_pos_iff_pos_or_pos,hfailures,htimeouts]
  constructor
  · intro ⟨hmem,herrors⟩
    exact ⟨h.shown name hmem,herrors⟩
  · intro ⟨hshown,herrors⟩
    refine ⟨?_,herrors⟩
    rcases herrors with hfailure | ⟨row,hrow,rfl,-⟩
    · obtain ⟨row,hrow,rfl⟩ := List.mem_map.mp hfailure
      exact h.events row (List.mem_of_mem_filter hrow) hshown
    · exact h.windows row hrow hshown

/-- With the failures shown, as many tasks fail in both when none has timeouts alone. -/
theorem failing_iff
    (hfailures : ∀ row ∈ failuresOf t id startedAt, shown t id cutoff row.taskName = true) :
    ((failuresOf t id startedAt).map TaskEvent.taskName).dedup.length =
      (failingTasks t id startedAt cutoff commands).length ↔
    ∀ row ∈ windowsOf t id startedAt, 0 < row.timeouts → shown t id cutoff row.taskName = true →
      row.taskName ∈ (failuresOf t id startedAt).map TaskEvent.taskName := by
  have hnodup : (failingTasks t id startedAt cutoff commands).Nodup :=
    (collected t id startedAt cutoff commands).nodup.filter _
  have hsub : ((failuresOf t id startedAt).map TaskEvent.taskName).dedup ⊆
      failingTasks t id startedAt cutoff commands := by
    intro name hname
    rw [List.mem_dedup] at hname
    obtain ⟨row,hrow,rfl⟩ := List.mem_map.mp hname
    exact mem_failingTasks.mpr ⟨hfailures row hrow,.inl hname⟩
  have hsubperm := List.subperm_of_subset (List.nodup_dedup _) hsub
  constructor
  · intro hlength row hrow hpos hshown
    have hperm := hsubperm.perm_of_length_le hlength.ge
    exact List.mem_dedup.mp (hperm.symm.subset
      (mem_failingTasks.mpr ⟨hshown,.inr ⟨row,hrow,rfl,hpos⟩⟩))
  · intro h
    refine le_antisymm hsubperm.length_le ?_
    refine (List.subperm_of_subset hnodup fun name hname => ?_).length_le
    rw [List.mem_dedup]
    obtain ⟨hshown,hfailed | ⟨row,hrow,rfl,hpos⟩⟩ := mem_failingTasks.mp hname
    · exact hfailed
    · exact h row hrow hpos hshown

theorem ediv_add_iff {a b : ℕ} {m : ℤ} (hm : 0 < m) :
    ((a+b : ℕ) : ℤ)/m = (a : ℤ)/m ↔ (a : ℤ)%m+b < m := by
  have hparts : ((a+b : ℕ) : ℤ) = ((a : ℤ)%m+b)+m*((a : ℤ)/m) := by
    have hdiv := Int.emod_add_mul_ediv (a : ℤ) m
    push_cast
    omega
  have hnonneg : 0 ≤ (a : ℤ)%m+b := by
    have hmod := Int.emod_nonneg (a : ℤ) hm.ne'
    omega
  rw [hparts,Int.add_mul_ediv_left _ _ hm.ne']
  constructor
  · intro h
    by_contra hge
    have hone : 1 ≤ ((a : ℤ)%m+b)/m := Int.le_ediv_of_mul_le hm (by omega)
    omega
  · intro h
    rw [Int.ediv_eq_zero_of_lt hnonneg h,zero_add]

theorem throughput_iff {a b : ℕ} {m : ℤ} :
    computeThroughputPerMin (a+b) m = computeThroughputPerMin a m ↔
      (0 < m → (a : ℤ)%m+b < m) := by
  unfold computeThroughputPerMin
  by_cases hm : m ≤ 0
  · rw [if_pos hm,if_pos hm]
    exact iff_of_true rfl fun hpos => absurd hm (not_le.mpr hpos)
  · rw [if_neg hm,if_neg hm,ediv_add_iff (not_le.mp hm)]
    exact ⟨fun h _ => h,fun h => h (not_le.mp hm)⟩

/-- The tasks that the dashboard leaves out have no failures and no timeouts, no task has timeouts
alone, and the windows of those left out change neither quotient. -/
structure Fits (percent : ℕ → ℕ → ℚ) (t : Tables T) (lookback : Lookback T) (cutoff : T) (id : ℕ) :
    Prop where
  failures : ∀ row ∈ failuresOf t id lookback.startedAt, shown t id cutoff row.taskName = true
  timeouts : ∀ row ∈ windowsOf t id lookback.startedAt, 0 < row.timeouts →
    shown t id cutoff row.taskName = true ∧
      row.taskName ∈ (failuresOf t id lookback.startedAt).map TaskEvent.taskName
  throughput : 0 < lookback.minutes →
    (((shownWindows t id lookback.startedAt cutoff).map TaskMetricWindow.fetched).sum : ℤ)
        %lookback.minutes+
      ((hiddenWindows t id lookback.startedAt cutoff).map TaskMetricWindow.fetched).sum <
        lookback.minutes
  rate : rateOf percent (shownWindows t id lookback.startedAt cutoff++
      hiddenWindows t id lookback.startedAt cutoff) =
    rateOf percent (shownWindows t id lookback.startedAt cutoff)

/-- The list and the dashboard say the same of the service. -/
structure Agrees (percent : ℕ → ℕ → ℚ) (t : Tables T) (cutoffs : Cutoffs T) (lookback : Lookback T)
    (cutoff : T) (commands : List (String × List String)) (service : Service) : Prop where
  errorCount : (serviceItem percent t cutoffs lookback service).errorCount =
    (dashboardSummary percent t cutoffs lookback cutoff commands service).errorCount
  failingTaskCount : (serviceItem percent t cutoffs lookback service).failingTaskCount =
    (dashboardSummary percent t cutoffs lookback cutoff commands service).failingTaskCount
  successRate : (serviceItem percent t cutoffs lookback service).successRate =
    (dashboardSummary percent t cutoffs lookback cutoff commands service).successRate
  throughputPerMin : (serviceItem percent t cutoffs lookback service).throughputPerMin =
    (dashboardSummary percent t cutoffs lookback cutoff commands service).throughputPerMin

omit [LinearOrder T] in
theorem rateOf_perm {rows others : List (TaskMetricWindow T)} (h : rows.Perm others) :
    rateOf percent rows = rateOf percent others := by
  rw [rateOf,rateOf,(h.map _).sum_eq,(h.map TaskMetricWindow.failed).sum_eq,
    (h.map TaskMetricWindow.deadLettered).sum_eq,(h.map TaskMetricWindow.cancelled).sum_eq]

theorem agrees_iff : Agrees percent t cutoffs lookback cutoff commands service ↔
    Fits percent t lookback cutoff service.id := by
  have hrate : rateOf percent (windowsOf t service.id lookback.startedAt) =
      rateOf percent (shownWindows t service.id lookback.startedAt cutoff++
        hiddenWindows t service.id lookback.startedAt cutoff) :=
    rateOf_perm (List.filter_append_perm _ _).symm
  have hfetched : ((windowsOf t service.id lookback.startedAt).map TaskMetricWindow.fetched).sum =
      ((shownWindows t service.id lookback.startedAt cutoff).map TaskMetricWindow.fetched).sum+
        ((hiddenWindows t service.id lookback.startedAt cutoff).map
          TaskMetricWindow.fetched).sum := sum_split _ _ _
  constructor
  · intro h
    obtain ⟨hfailures,htimeouts⟩ := errors_iff.mp
      (item_errorCount.symm.trans (h.errorCount.trans dashboard_errorCount))
    have hfailing := (failing_iff hfailures).mp
      (item_failing.symm.trans (h.failingTaskCount.trans dashboard_failing))
    refine ⟨hfailures,fun row hrow hpos => ?_,?_,?_⟩
    · have hshown := htimeouts row hrow hpos
      exact ⟨hshown,hfailing row hrow hpos hshown⟩
    · have hsame := item_throughput.symm.trans (h.throughputPerMin.trans dashboard_throughput)
      rw [hfetched] at hsame
      exact throughput_iff.mp hsame
    · exact hrate.symm.trans (item_successRate.symm.trans (h.successRate.trans dashboard_successRate))
  · intro h
    constructor
    · rw [item_errorCount,dashboard_errorCount]
      exact errors_iff.mpr ⟨h.failures,fun row hrow hpos => (h.timeouts row hrow hpos).1⟩
    · rw [item_failing,dashboard_failing]
      exact (failing_iff h.failures).mpr fun row hrow hpos _ => (h.timeouts row hrow hpos).2
    · rw [item_successRate,dashboard_successRate,hrate,h.rate]
    · rw [item_throughput,dashboard_throughput,hfetched]
      exact throughput_iff.mpr h.throughput

end Agreement

section Totals
variable {T : Type} [LinearOrder T] {percent : ℕ → ℕ → ℚ} {texts : Texts} {t : Tables T}
  {cutoffs : Cutoffs T} {lookback : Lookback T} {request : ServicesRequest}

theorem countP_iff {R : Type} {p q : R → Bool} {rows : List R}
    (h : ∀ row ∈ rows, p row = true → q row = true) :
    rows.countP p = rows.countP q ↔ ∀ row ∈ rows, q row = true → p row = true := by
  induction rows with
  | nil => simp
  | cons row rows ih =>
    rw [List.forall_mem_cons] at h
    have hle := List.countP_mono_left h.2
    rw [List.forall_mem_cons,← ih h.2]
    cases hp : p row with
    | true => simp [hp,h.1 hp]
    | false =>
      cases hq : q row with
      | true =>
        simp only [List.countP_cons,hp,hq]
        simp
        omega
      | false => simp [hp,hq]

/-- Counts of the keys are all told by some others when none is missing there. -/
theorem sum_covered {ks ids : List ℕ} (hks : ks.Nodup) (hids : ids.Nodup) {count : ℕ → ℕ}
    (hzero : ∀ id ∈ ids, id ∉ ks → count id = 0) (hpos : ∀ k ∈ ks, 0 < count k) :
    (ks.map count).sum = (ids.map count).sum ↔ ∀ k ∈ ks, k ∈ ids := by
  have hboth : (ks.filter fun k => decide (k ∈ ids)).Perm (ids.filter fun id => decide (id ∈ ks)) := by
    refine (List.perm_ext_iff_of_nodup (hks.filter _) (hids.filter _)).mpr fun k => ?_
    simp only [List.mem_filter,decide_eq_true_iff]
    exact and_comm
  have hkeys := sum_split (fun k => decide (k ∈ ids)) count ks
  have hothers := sum_split (fun id => decide (id ∈ ks)) count ids
  have hnone : ((ids.filter fun id => !decide (id ∈ ks)).map count).sum = 0 := by
    refine List.sum_eq_zero fun v hv => ?_
    obtain ⟨id,hid,rfl⟩ := List.mem_map.mp hv
    obtain ⟨hmem,habsent⟩ := List.mem_filter.mp hid
    exact hzero id hmem (by simpa using habsent)
  rw [hkeys,hothers,(hboth.map count).sum_eq,hnone,Nat.add_left_cancel_iff,List.sum_eq_zero_iff]
  constructor
  · intro h k hk
    by_contra habsent
    have hcount := h _ (List.mem_map_of_mem
      (List.mem_filter.mpr ⟨hk,by simpa using habsent⟩))
    have hcounted := hpos k hk
    omega
  · intro h v hv
    obtain ⟨k,hk,rfl⟩ := List.mem_map.mp hv
    obtain ⟨hmem,habsent⟩ := List.mem_filter.mp hk
    exact absurd (h k hmem) (by simpa using habsent)

/-- The distinct tasks of all services are those of some when every row is of one of these. -/
theorem sum_distinctTasks {R : Type} (serviceId : R → ℕ) (taskName : R → String) (rows : List R)
    {ids : List ℕ} (hids : ids.Nodup) : ((distinctTasks serviceId taskName rows).map Prod.snd).sum =
      (ids.map fun id => ((distinctTasks serviceId taskName rows).lookup id).getD 0).sum ↔
      ∀ row ∈ rows, serviceId row ∈ ids := by
  have hmap : (distinctTasks serviceId taskName rows).map Prod.snd =
      (rows.map serviceId).dedup.map fun id =>
        ((rows.filter fun row => serviceId row = id).map taskName).dedup.length := by
    rw [distinctTasks,List.map_map]
    rfl
  simp only [getD_distinctTasks,hmap]
  rw [sum_covered (List.nodup_dedup _) hids]
  · constructor
    · exact fun h row hrow => h _ (List.mem_dedup.mpr (List.mem_map_of_mem hrow))
    · intro h k hk
      obtain ⟨row,hrow,rfl⟩ := List.mem_map.mp (List.mem_dedup.mp hk)
      exact h row hrow
  · intro id _ habsent
    have hnone : rows.filter (fun row => serviceId row = id) = [] := by
      rw [List.filter_eq_nil_iff]
      intro row hrow heq
      exact habsent (List.mem_dedup.mpr (of_decide_eq_true heq ▸ List.mem_map_of_mem hrow))
    rw [hnone]
    rfl
  · intro k hk
    obtain ⟨row,hrow,rfl⟩ := List.mem_map.mp (List.mem_dedup.mp hk)
    have hmem : row ∈ rows.filter fun other => serviceId other = serviceId row :=
      List.mem_filter.mpr ⟨hrow,decide_eq_true rfl⟩
    exact List.length_pos_of_mem (List.mem_dedup.mpr (List.mem_map_of_mem hmem))

/-- The totals of the response are those of all services that match the request. -/
structure TotalsAgree (percent : ℕ → ℕ → ℚ) (texts : Texts) (t : Tables T) (cutoffs : Cutoffs T)
    (lookback : Lookback T) (request : ServicesRequest) : Prop where
  total : (listServices percent texts t cutoffs lookback request).total =
    (matchingServices texts t request).length
  summary : (listServices percent texts t cutoffs lookback request).summary =
    buildServiceListSummary ((matchingServices texts t request).map
      (serviceItem percent t cutoffs lookback))

/-- No matching service has more instances online than take part in its health, and tasks and
failures are of matching services only. -/
structure TotalsFit (texts : Texts) (t : Tables T) (cutoffs : Cutoffs T) (startedAt : T)
    (request : ServicesRequest) : Prop where
  instances : ∀ service ∈ matchingServices texts t request,
    onlineInstanceCount t cutoffs service.id ≤ instanceCount t cutoffs service.id
  definitions : ∀ row ∈ t.definitions, row.serviceId ∈
    (matchingServices texts t request).map Service.id
  failures : ∀ row ∈ recentFailures t startedAt, row.serviceId ∈
    (matchingServices texts t request).map Service.id

variable {instances online : ℕ}

theorem status_online :
    deriveServiceListStatus instances online = .online ↔ 0 < online ∧ instances ≤ online := by
  unfold deriveServiceListStatus
  split
  · next h => simp [h]
  · split
    · next h => simp [Nat.not_le.mpr h]
    · next h h' => simp [Nat.pos_of_ne_zero h,Nat.not_lt.mp h']

theorem status_attention :
    deriveServiceListStatus instances online = .attention ↔ 0 < online ∧ online < instances := by
  unfold deriveServiceListStatus
  split
  · next h => simp [h]
  · split
    · next h h' => simp [Nat.pos_of_ne_zero h,h']
    · next h h' => simp [h']

theorem status_offline : deriveServiceListStatus instances online = .offline ↔ online = 0 := by
  unfold deriveServiceListStatus
  split
  · next h => simp [h]
  · split
    · next h _ => simp [h]
    · next h _ => simp [h]

omit [LinearOrder T] in
theorem nodup_matching (texts : Texts) (t : Tables T) (request : ServicesRequest) :
    ((matchingServices texts t request).map Service.id).Nodup :=
  (List.filter_sublist.map Service.id).nodup t.uniqueIds

theorem summaryOf_iff (percent : ℕ → ℕ → ℚ) : summaryOf t cutoffs lookback (matchingServices texts t request) =
    buildServiceListSummary ((matchingServices texts t request).map
      (serviceItem percent t cutoffs lookback)) ↔
    TotalsFit texts t cutoffs lookback.startedAt request := by
  have hinstances : (matchingServices texts t request).countP (fun service =>
      decide (0 < onlineInstanceCount t cutoffs service.id ∧
        onlineInstanceCount t cutoffs service.id = instanceCount t cutoffs service.id)) =
      (matchingServices texts t request).countP (fun service => decide
        (deriveServiceListStatus (instanceCount t cutoffs service.id)
          (onlineInstanceCount t cutoffs service.id) = .online)) ↔
      ∀ service ∈ matchingServices texts t request,
        onlineInstanceCount t cutoffs service.id ≤ instanceCount t cutoffs service.id := by
    rw [countP_iff]
    · simp only [decide_eq_true_iff,status_online]
      constructor
      · intro h service hservice
        have hone := h service hservice
        omega
      · intro h service hservice honline
        have hle := h service hservice
        omega
    · intro service _ h
      simp only [decide_eq_true_iff,status_online] at h ⊢
      omega
  have htasks := sum_distinctTasks TaskDefinition.serviceId TaskDefinition.taskName t.definitions
    (nodup_matching texts t request)
  have hfailing := sum_distinctTasks TaskEvent.serviceId TaskEvent.taskName
    (recentFailures t lookback.startedAt) (nodup_matching texts t request)
  rw [List.map_map] at htasks hfailing
  rw [summaryOf,buildServiceListSummary,ServiceListSummary.mk.injEq]
  simp only [List.length_map,List.countP_map,List.map_map]
  constructor
  · rintro ⟨-,honline,-,-,-,-,-,htotal,hfailed⟩
    exact ⟨hinstances.mp honline,htasks.mp htotal,hfailing.mp hfailed⟩
  · intro h
    refine ⟨trivial,hinstances.mpr h.instances,?_,?_,hinstances.mpr h.instances,rfl,rfl,
      htasks.mpr h.definitions,hfailing.mpr h.failures⟩
    · refine List.countP_congr fun service _ => ?_
      simp only [Function.comp_apply,decide_eq_true_iff]
      exact status_attention.symm
    · refine List.countP_congr fun service _ => ?_
      simp only [Function.comp_apply,decide_eq_true_iff]
      exact status_offline.symm

omit [LinearOrder T] in
theorem matching_none (h : noneWithKind t request = true) : matchingServices texts t request = [] := by
  rw [matchingServices,List.filter_eq_nil_iff]
  intro service _ hmatches
  cases hkind : request.sourceKind with
  | none => simp [noneWithKind,hkind] at h
  | some kind =>
    have hnone : serviceIdsWithKind t kind = [] := by simpa [noneWithKind,hkind] using h
    simp [matchesRequest,hkind,hnone] at hmatches

theorem totals_iff : TotalsAgree percent texts t cutoffs lookback request ↔
    noneWithKind t request = true ∨ TotalsFit texts t cutoffs lookback.startedAt request := by
  by_cases hnone : noneWithKind t request = true
  · refine iff_of_true ⟨?_,?_⟩ (.inl hnone)
    · rw [listServices,if_pos hnone,matching_none hnone]
      rfl
    · rw [listServices,if_pos hnone,matching_none hnone]
      rfl
  · rw [or_iff_right hnone,← summaryOf_iff percent]
    constructor
    · intro h
      have hsummary := h.summary
      rw [listServices,if_neg hnone] at hsummary
      exact hsummary
    · intro h
      constructor
      · rw [listServices,if_neg hnone]
      · rw [listServices,if_neg hnone]
        exact h

/-- The list agrees with the dashboards and its totals with the matching services, exactly when
what the dashboards leave out and what the request leaves out counts nothing. -/
theorem overview_agrees_iff (percent : ℕ → ℕ → ℚ) (texts : Texts) (t : Tables T)
    (cutoffs : Cutoffs T) (lookback : Lookback T) (cutoff : T)
    (commands : ℕ → List (String × List String)) (request : ServicesRequest) :
    ((∀ service ∈ t.services,
        Agrees percent t cutoffs lookback cutoff (commands service.id) service) ∧
      TotalsAgree percent texts t cutoffs lookback request) ↔
    (∀ service ∈ t.services, Fits percent t lookback cutoff service.id) ∧
      (noneWithKind t request = true ∨
        TotalsFit texts t cutoffs lookback.startedAt request) :=
  and_congr (forall₂_congr fun _ _ => agrees_iff) totals_iff

/-- A service with one task that is defined and a failure of one that is not any more. -/
def removedTask : Tables ℕ where
  services := [⟨1,"orders","prod"⟩]
  definitions := [⟨1,"sync",none⟩]
  events := [⟨1,"export",.failed,5⟩]
  windows := []
  instances := []
  uniqueIds := List.nodup_singleton 1

/-- The list counts the failure of the removed task, the dashboard does not. -/
theorem removed_task_disagrees : ¬∀ (t : Tables ℕ) (lookback : Lookback ℕ) (request : ServicesRequest),
    (∀ service ∈ t.services,
      Agrees (fun s n => 100*s/n) t ⟨4,4⟩ lookback 4 [] service) ∧
    TotalsAgree (fun s n => 100*s/n) ⟨id,fun _ _ => true⟩ t ⟨4,4⟩ lookback request := by
  intro h
  have hservice := (h removedTask ⟨4,1⟩ ⟨none,none,none,50,0⟩).1 ⟨1,"orders","prod"⟩
    (List.mem_singleton_self _)
  have hshown := (agrees_iff.mp hservice).failures ⟨1,"export",.failed,5⟩ (by decide)
  exact absurd hshown (by decide)

end Totals

end OneStep.OverviewAgreement
