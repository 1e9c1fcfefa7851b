import OneStep.ReporterTelemetry

/-!
# The counters of the tasks, end to end

The reporters of any number of instances rotate their windows and send the batches; each
batch that was ever sent may reach the control plane any number of times, in any order. A
row is kept for each instance, task and window id, whatever comes again. So the rows of a
task sum up to what was counted of it in the windows that were delivered, provided each
instance rotates at increasing times. The service of an instance and its custom metrics
are kept elsewhere.
-/
namespace OneStep.MetricWindows
open DateTimeText DigitText ReporterTelemetry TelemetryBuffers Transition
open DeliveryModel (TaskEventKind FailureKind)

variable {F M : Type}

section Buckets

inductive Counter where
  | fetched | started | succeeded | retried | failed | deadLettered | cancelled | timeouts

def Counter.of (c : Counter) (s : TaskMetricsState F) : ℕ :=
  match c with
  | fetched => s.fetched
  | started => s.started
  | succeeded => s.succeeded
  | retried => s.retried
  | failed => s.failed
  | deadLettered => s.deadLettered
  | cancelled => s.cancelled
  | timeouts => s.timeouts

def Counter.counts (c : Counter) (event : TaskEvent F) : Bool :=
  match c with
  | fetched => event.kind = .fetched
  | started => event.kind = .started
  | succeeded => event.kind = .succeeded
  | retried => event.kind = .retried
  | failed => event.kind = .failed
  | deadLettered => event.kind = .deadLettered
  | cancelled => event.kind = .cancelled
  | timeouts => (event.kind = .retried || event.kind = .failed) && event.failure = some .timeout

/-- How many of the events of a task are counted. -/
def counted (c : Counter) (task : String) (events : List (TaskEvent F)) : ℕ :=
  events.countP fun event => event.task = task && c.counts event

theorem of_record (c : Counter) (event : TaskEvent F) (s : TaskMetricsState F) :
    c.of (record event s) = c.of s+if c.counts event then 1 else 0 := by
  obtain ⟨kind,task,durationS,failure⟩ := event
  by_cases htimeout : failure = some .timeout
  · cases kind <;> cases c <;>
      simp [record,recordTimeout,recordDuration,Counter.of,Counter.counts,htimeout]
  · cases kind <;> cases c <;>
      simp [record,recordTimeout,recordDuration,Counter.of,Counter.counts,htimeout]

theorem of_new (c : Counter) : c.of ({} : TaskMetricsState F) = 0 := by
  cases c <;> rfl

theorem of_rotated (c : Counter) (s : TaskMetricsState F) : c.of s.rotated = 0 := by
  cases c <;> rfl

theorem hasActivity_of {c : Counter} {s : TaskMetricsState F} (h : c.of s ≠ 0) :
    s.hasActivity = true := by
  cases c <;> simp [TaskMetricsState.hasActivity] <;> simp [Counter.of] at h <;> tauto

theorem lookup_change (buckets : Buckets F) (task other : String)
    (f : TaskMetricsState F → TaskMetricsState F) :
    (buckets.map fun bucket => if bucket.1 = task then (task,f bucket.2) else bucket).lookup other =
      if other = task then (buckets.lookup task).map f else buckets.lookup other := by
  induction buckets with
  | nil => simp
  | cons bucket buckets ih =>
    obtain ⟨name,s⟩ := bucket
    rw [List.map_cons,List.lookup_cons,List.lookup_cons,List.lookup_cons,ih]
    by_cases hname : name = task
    · subst hname
      by_cases hother : other = name
      · subst hother
        simp
      · simp [beq_false_of_ne hother,hother]
    · by_cases hother : other = task
      · subst hother
        simp [hname,beq_false_of_ne (Ne.symm hname)]
      · simp [hname,hother]

variable {buckets : Buckets F} {task : String}

theorem lookup_new (h : task ∉ buckets.map Prod.fst) : buckets.lookup task = none := by
  rw [List.lookup_eq_none_iff]
  intro bucket hbucket
  rw [bne_iff_ne]
  rintro rfl
  exact h (List.mem_map_of_mem hbucket)

theorem bucketOf_change (buckets : Buckets F) (task other : String)
    (f : TaskMetricsState F → TaskMetricsState F) :
    bucketOf (changeBucket task f buckets) other =
      if other = task then f (bucketOf buckets task) else bucketOf buckets other := by
  unfold changeBucket bucketOf
  by_cases hknown : task ∈ buckets.map Prod.fst
  · rw [if_pos hknown,lookup_change]
    split
    · cases hlookup : buckets.lookup task with
      | none =>
        exfalso
        obtain ⟨bucket,hbucket,rfl⟩ := List.mem_map.mp hknown
        have hall := List.lookup_eq_none_iff.mp hlookup bucket hbucket
        simp at hall
      | some s => rfl
    · rfl
  · rw [if_neg hknown,List.lookup_append]
    split
    · next heq =>
        rw [heq,lookup_new hknown]
        simp
    · next hne => simp [List.lookup_cons,beq_false_of_ne hne]

theorem bucketOf_fold (names : List String) (g : String → TaskMetricsState F → TaskMetricsState F)
    (buckets : Buckets F) (hnodup : names.Nodup) (task : String) :
    bucketOf (names.foldl (fun buckets name => changeBucket name (g name) buckets) buckets) task =
      if task ∈ names then g task (bucketOf buckets task) else bucketOf buckets task := by
  induction names generalizing buckets with
  | nil => rfl
  | cons name names ih =>
    obtain ⟨hname,hrest⟩ := List.nodup_cons.mp hnodup
    rw [List.foldl_cons,ih _ hrest,bucketOf_change]
    by_cases heq : task = name
    · subst heq
      simp [hname]
    · simp [heq]

theorem taskNames_nodup (customMetrics : List (String × List M)) (buckets : Buckets F) :
    (taskNames customMetrics buckets).Nodup :=
  (List.mergeSort_perm _ _).nodup_iff.mpr (List.nodup_dedup _)

theorem mem_taskNames {customMetrics : List (String × List M)} (h : task ∈ buckets.map Prod.fst) :
    task ∈ taskNames customMetrics buckets := by
  rw [taskNames,List.mem_mergeSort,List.mem_dedup]
  exact List.mem_append_left _ h

theorem known_of {c : Counter} (h : c.of (bucketOf buckets task) ≠ 0) :
    task ∈ buckets.map Prod.fst := by
  by_contra hnew
  rw [bucketOf,lookup_new hnew] at h
  exact h (of_new c)

variable {r : Reporter F M} {endedAt : UtcTime} {customMetrics : List (String × List M)}

theorem of_rotatedBuckets (c : Counter) (task : String) :
    c.of (bucketOf (rotatedBuckets endedAt customMetrics r) task) = 0 := by
  unfold rotatedBuckets
  rw [bucketOf_fold _ _ _ (taskNames_nodup _ _)]
  by_cases hzero : c.of (bucketOf r.metricsByTask task) = 0
  · split
    · split
      · exact of_rotated c _
      · exact hzero
    · exact hzero
  · rw [if_pos (mem_taskNames (known_of hzero))]
    have hreported : (reportedTask endedAt customMetrics r task).isSome = true := by
      rw [reportedTask,taskWindow,hasActivity_of hzero]
      rfl
    rw [if_pos hreported]
    exact of_rotated c _

theorem reportedTask_eq {w : TaskWindow F M}
    (h : reportedTask endedAt customMetrics r task = some w) :
    w.taskName = task ∧ w.windowId = windowId task r.windowStartedAt endedAt ∧
      w.snapshot = bucketOf r.metricsByTask task := by
  unfold reportedTask taskWindow at h
  dsimp only at h
  split at h
  · cases h
    exact ⟨rfl,rfl,rfl⟩
  · cases h

end Buckets

section WindowIds

theorem isoformat_utc (t : UtcTime) :
    ∃ front, isoformat t.time = front++ '+'::"00:00".toList ∧ ∀ c ∈ front, c ≠ '+' := by
  obtain ⟨d,hutc,-⟩ := t
  obtain ⟨-,hyear,-,hmonth,-,hday⟩ := d.dated
  obtain ⟨hhour,hminute,hsecond,hus⟩ := d.timed
  have hmax := daysInMonth_le d.year d.month
  have htwo {n : ℕ} (hn : n < 100) {c : Char} (hc : c ∈ two n) : c ≠ '+' :=
    fixed_ne (b := 10) (by decide) (by simpa using hn) hc (by decide)
  refine ⟨fixed 10 4 d.year++ '-'::two d.month++ '-'::two d.day++ 'T'::two d.hour++
    ':'::two d.minute++ ':'::two d.second++fraction d.microsecond,?_,fun c hc => ?_⟩
  · have hoffset : offsetText 0 = '+'::"00:00".toList := by decide
    unfold isoformat
    rw [hutc,Option.elim_some,hoffset]
  · have hclock := clock_unsigned (show d.hour < 100 by omega) (show d.minute < 100 by omega)
      (show d.second < 100 by omega) hus c
    simp only [List.append_assoc,List.cons_append,List.mem_append,List.mem_cons] at hc hclock
    rcases hc with hc | rfl | hc | rfl | hc | rfl | hc
    · exact fixed_ne (b := 10) (by decide) (by omega) hc (by decide)
    · decide
    · exact htwo (by omega) hc
    · decide
    · exact htwo (by omega) hc
    · decide
    · rintro rfl
      exact absurd (hclock hc) (by decide)

theorem utc_ext {s t : UtcTime} (h : isoformat s.time = isoformat t.time) : s = t := by
  obtain ⟨s,hs,hfold⟩ := s
  obtain ⟨t,ht,hfold'⟩ := t
  have hread := congrArg fromisoformat h
  simp only [fromisoformat_isoformat,Option.some.injEq] at hread
  obtain rfl : s = t := by
    obtain ⟨_,_,_,_,_,_,_,_,_,_,_,_⟩ := s
    obtain ⟨_,_,_,_,_,_,_,_,_,_,_,_⟩ := t
    simp only at hfold hfold'
    subst hfold hfold'
    exact hread
  rfl

theorem takeWhile_until {front rest : List Char} (h : ∀ c ∈ front, c ≠ '+') :
    (front++ '+'::rest).takeWhile (· != '+') = front := by
  rw [List.takeWhile_append_of_pos fun c hc => bne_iff_ne.mpr (h c hc)]
  simp

/-- The ends of two windows of a task with one id are the same. -/
theorem windowId_ended {task : String} {startedAt endedAt startedAt' endedAt' : UtcTime}
    (h : windowId task startedAt endedAt = windowId task startedAt' endedAt') :
    endedAt = endedAt' := by
  obtain ⟨front,hfront,hplus⟩ := isoformat_utc startedAt
  obtain ⟨front',hfront',hplus'⟩ := isoformat_utc startedAt'
  unfold windowId at h
  rw [hfront,hfront'] at h
  simp only [List.append_assoc,List.cons_append] at h
  have hcut := (List.cons.inj (List.append_cancel_left h)).2
  have hsame := congrArg (List.takeWhile (· != '+')) hcut
  rw [takeWhile_until hplus,takeWhile_until hplus'] at hsame
  subst hsame
  have hrest := (List.cons.inj (List.append_cancel_left hcut)).2
  apply utc_ext
  have hafter := List.append_cancel_left hrest
  exact (List.cons.inj hafter).2

end WindowIds

section Inserts
variable {α κ : Type} [DecidableEq κ]

/-- Each item whose key is new is added. -/
def addNew (key : α → κ) (items known : List α) : List α :=
  items.foldl (fun known item => if key item ∈ known.map key then known else known++[item]) known

def dedupeByKey (key : α → κ) (items : List α) : List α := addNew key items []

variable {key : α → κ} {items known : List α} {item : α}

theorem addNew_fresh (hnodup : (items.map key).Nodup)
    (hnew : ∀ item ∈ items, key item ∉ known.map key) : addNew key items known = known++items := by
  unfold addNew
  induction items generalizing known with
  | nil => exact (List.append_nil _).symm
  | cons item items ih =>
    rw [List.map_cons,List.nodup_cons] at hnodup
    rw [List.forall_mem_cons] at hnew
    rw [List.foldl_cons,if_neg hnew.1,ih hnodup.2,List.append_assoc]
    · rfl
    · intro other hother hmem
      rw [List.map_append,List.mem_append] at hmem
      rcases hmem with hold | hitem
      · exact hnew.2 other hother hold
      · rw [List.map_singleton,List.mem_singleton] at hitem
        apply hnodup.1
        rw [← hitem]
        exact List.mem_map_of_mem hother

theorem addNew_known (hknown : ∀ item ∈ items, key item ∈ known.map key) :
    addNew key items known = known := by
  unfold addNew
  induction items with
  | nil => rfl
  | cons item items ih =>
    rw [List.forall_mem_cons] at hknown
    rw [List.foldl_cons,if_pos hknown.1]
    exact ih hknown.2

theorem dedupeByKey_nodup (hnodup : (items.map key).Nodup) : dedupeByKey key items = items :=
  (addNew_fresh hnodup fun _ _ => List.not_mem_nil).trans (List.nil_append _)

theorem mem_addNew (h : item ∈ addNew key items known) : item ∈ known ∨ item ∈ items := by
  unfold addNew at h
  induction items generalizing known with
  | nil => exact .inl h
  | cons new items ih =>
    rw [List.foldl_cons] at h
    rcases ih h with hknown | hitems
    · split at hknown
      · exact .inl hknown
      · rcases List.mem_append.mp hknown with hold | hnew
        · exact .inl hold
        · rw [List.mem_singleton.mp hnew]
          exact .inr List.mem_cons_self
    · exact .inr (List.mem_cons_of_mem _ hitems)

theorem subset_addNew (key : α → κ) (items : List α) (h : item ∈ known) :
    item ∈ addNew key items known := by
  unfold addNew
  induction items generalizing known with
  | nil => exact h
  | cons new items ih =>
    rw [List.foldl_cons]
    apply ih
    split
    · exact h
    · exact List.mem_append_left _ h

theorem addNew_extra (key : α → κ) (items known : List α) :
    ∃ extra, addNew key items known = known++extra ∧ ∀ item ∈ extra, item ∈ items := by
  unfold addNew
  induction items generalizing known with
  | nil => exact ⟨[],(List.append_nil _).symm,fun _ h => h⟩
  | cons new items ih =>
    rw [List.foldl_cons]
    split
    · obtain ⟨extra,heq,hmem⟩ := ih known
      exact ⟨extra,heq,fun item h => List.mem_cons_of_mem _ (hmem item h)⟩
    · obtain ⟨extra,heq,hmem⟩ := ih (known++[new])
      refine ⟨new::extra,heq.trans (List.append_cons known new extra).symm,?_⟩
      intro item h
      rcases List.mem_cons.mp h with rfl | h
      · exact List.mem_cons_self
      · exact List.mem_cons_of_mem _ (hmem item h)

theorem nodup_addNew (h : (known.map key).Nodup) : ((addNew key items known).map key).Nodup := by
  unfold addNew
  induction items generalizing known with
  | nil => exact h
  | cons new items ih =>
    rw [List.foldl_cons]
    apply ih
    split
    · exact h
    · next hnew =>
        rw [List.map_append,List.map_singleton,List.nodup_append]
        refine ⟨h,List.nodup_singleton _,fun a ha b hb heq => ?_⟩
        exact hnew (List.mem_singleton.mp hb ▸ heq ▸ ha)

theorem key_addNew (h : item ∈ items) : key item ∈ (addNew key items known).map key := by
  unfold addNew
  induction items generalizing known with
  | nil => cases h
  | cons new items ih =>
    rw [List.foldl_cons]
    rcases List.mem_cons.mp h with rfl | hrest
    · have hknown : key item ∈ (if key item ∈ known.map key then known else known++[item]).map key := by
        split
        · next hmem => exact hmem
        · rw [List.map_append]
          exact List.mem_append_right _ (List.mem_singleton_self _)
      obtain ⟨other,hother,hkey⟩ := List.mem_map.mp hknown
      have hmem := List.mem_map_of_mem (f := key) (subset_addNew key items hother)
      rw [hkey] at hmem
      exact hmem
    · exact ih hrest

theorem filter_addNew {p : α → Bool} (h : ∀ item ∈ items, p item = false) :
    (addNew key items known).filter p = known.filter p := by
  unfold addNew
  induction items generalizing known with
  | nil => rfl
  | cons new items ih =>
    rw [List.forall_mem_cons] at h
    rw [List.foldl_cons,ih h.2]
    split
    · rfl
    · rw [List.filter_append,List.filter_cons_of_neg (by rw [h.1]; nofun),List.filter_nil,
        List.append_nil]

end Inserts

section Plane

structure MetricRow (F : Type) where
  instanceId : ℕ
  taskName : String
  windowId : List Char
  windowStartedAt : UtcTime
  windowEndedAt : UtcTime
  snapshot : TaskMetricsState F
  receivedAt : UtcTime

/-- The columns of the unique constraint. -/
def MetricRow.key (row : MetricRow F) : ℕ × String × List Char :=
  (row.instanceId,row.taskName,row.windowId)

/-- `build_metric_window_payload`. -/
def metricWindowPayload (instanceId : ℕ) (batch : PreparedMetricsBatch F M) (receivedAt : UtcTime)
    (task : TaskWindow F M) : MetricRow F :=
  ⟨instanceId,task.taskName,task.windowId,batch.windowStartedAt,batch.windowEndedAt,task.snapshot,
    receivedAt⟩

def ingestMetricsRequest (instanceId : ℕ) (batch : PreparedMetricsBatch F M) (receivedAt : UtcTime)
    (rows : List (MetricRow F)) : List (MetricRow F) :=
  let tasks := dedupeByKey (fun task => (instanceId,task.taskName,task.windowId)) batch.tasks
  addNew MetricRow.key (tasks.map (metricWindowPayload instanceId batch receivedAt)) rows

/-- The reporters, all batches that were sent, and the table. -/
structure System (F M : Type) where
  reporters : ℕ → Reporter F M
  sent : ℕ → List (PreparedMetricsBatch F M) := fun _ => []
  rows : List (MetricRow F) := []

def startSystem (start : ℕ → UtcTime) : System F M where
  reporters := fun i => {windowStartedAt := start i}

inductive SystemAct (F M : Type) where
  | reporter (instanceId : ℕ) (act : Act F M)
  | ingest (instanceId : ℕ) (endedAt receivedAt : UtcTime)

/-- The batch of which a send begins with this piece. -/
def beginsSending (act : Act F M) (r : Reporter F M) : List (PreparedMetricsBatch F M) :=
  match act with
  | .flush .metrics k => (r.batches.sending k).getD []
  | .returned .metrics k => (r.batches.sending k).getD []
  | _ => []

def performSystem (config : ℕ → Config) (s : System F M) : SystemAct F M → Option (System F M)
  | .reporter i act =>
    (perform (config i) (s.reporters i) act).map fun r => {s with
      reporters := Function.update s.reporters i r
      sent := Function.update s.sent i (s.sent i++beginsSending act r)}
  | .ingest i endedAt receivedAt =>
    ((s.sent i).find? fun batch => batch.windowEndedAt = endedAt).map fun batch =>
      {s with rows := ingestMetricsRequest i batch receivedAt s.rows}

end Plane

section Windows

/-- The events of the windows that were closed, and of the one that is open. -/
structure History (F : Type) where
  closed : List (UtcTime × List (TaskEvent F)) := []
  current : List (TaskEvent F) := []

def History.step (h : History F) : Act F M → History F
  | .handleEvent event => {h with current := h.current++[event]}
  | .rotate endedAt _ => ⟨h.closed++[(endedAt,h.current)],[]⟩
  | _ => h

def History.follow (i : ℕ) (h : History F) : SystemAct F M → History F
  | .reporter j act => if j = i then h.step act else h
  | .ingest _ _ _ => h

def history (i : ℕ) (acts : List (SystemAct F M)) : History F := acts.foldl (History.follow i) {}

/-- The instance rotates at increasing times. -/
def Increasing (i : ℕ) (acts : List (SystemAct F M)) : Prop :=
  ((history i acts).closed.map Prod.fst).Pairwise fun s t => wall s.time < wall t.time

def deliveredEnds (i : ℕ) (acts : List (SystemAct F M)) : List UtcTime :=
  acts.filterMap fun act => match act with
    | .ingest j endedAt _ => if j = i then some endedAt else none
    | .reporter _ _ => none

def deliveredCount (c : Counter) (i : ℕ) (task : String) (acts : List (SystemAct F M)) : ℕ :=
  (((history i acts).closed.filter fun window => window.1 ∈ deliveredEnds i acts).map fun window =>
    counted c task window.2).sum

def rowsOf (i : ℕ) (task : String) (rows : List (MetricRow F)) : List (MetricRow F) :=
  rows.filter fun row => row.instanceId = i && row.taskName = task

def rowSum (c : Counter) (i : ℕ) (task : String) (rows : List (MetricRow F)) : ℕ :=
  ((rowsOf i task rows).map fun row => c.of row.snapshot).sum

/-- The task had so many inflight when the instance rotated at this time. -/
def InflightAt (config : ℕ → Config) (init : System F M) (acts : List (SystemAct F M)) (i : ℕ)
    (endedAt : UtcTime) (task : String) (inflight : ℕ) : Prop :=
  ∃ front customMetrics back p, acts = front++.reporter i (.rotate endedAt customMetrics)::back ∧
    runs (performSystem config) (fun _ _ => true) init front = some p ∧
    inflight = (bucketOf (p.reporters i).metricsByTask task).inflight

theorem history_snoc (i : ℕ) (acts : List (SystemAct F M)) (act : SystemAct F M) :
    history i (acts++[act]) = (history i acts).follow i act := by
  rw [history,List.foldl_append]
  rfl

theorem deliveredEnds_snoc (i : ℕ) (acts : List (SystemAct F M)) (act : SystemAct F M) :
    deliveredEnds i (acts++[act]) = deliveredEnds i acts++deliveredEnds i [act] := by
  rw [deliveredEnds,List.filterMap_append]
  rfl

theorem closed_snoc (i : ℕ) (acts : List (SystemAct F M)) (act : SystemAct F M) :
    (history i acts).closed <+: (history i (acts++[act])).closed := by
  rw [history_snoc]
  cases act with
  | ingest j endedAt receivedAt => exact List.prefix_rfl
  | reporter j act =>
    unfold History.follow
    dsimp only
    split
    · cases act with
      | rotate endedAt customMetrics => exact List.prefix_append _ _
      | handleEvent event => exact List.prefix_rfl
      | flush channel k => exact List.prefix_rfl
      | returned channel k => exact List.prefix_rfl
      | raised channel k => exact List.prefix_rfl
    · exact List.prefix_rfl

theorem Increasing.front {i : ℕ} {acts : List (SystemAct F M)} {act : SystemAct F M}
    (h : Increasing i (acts++[act])) : Increasing i acts :=
  h.sublist ((closed_snoc i acts act).sublist.map _)

theorem Increasing.nodup {i : ℕ} {acts : List (SystemAct F M)} (h : Increasing i acts) :
    ((history i acts).closed.map Prod.fst).Nodup := by
  apply List.Pairwise.imp _ h
  rintro s t hlt rfl
  exact lt_irrefl _ hlt

variable {config : ℕ → Config} {init : System F M} {i : ℕ} {acts : List (SystemAct F M)}

theorem InflightAt.extend {endedAt : UtcTime} {task : String} {n : ℕ}
    (h : InflightAt config init acts i endedAt task n) (act : SystemAct F M) :
    InflightAt config init (acts++[act]) i endedAt task n := by
  obtain ⟨front,customMetrics,back,p,hacts,hfront,hn⟩ := h
  refine ⟨front,customMetrics,back++[act],p,?_,hfront,hn⟩
  rw [hacts,List.append_assoc]
  rfl

/-- One more window that is delivered. -/
theorem sum_delivered {closed : List (UtcTime × List (TaskEvent F))} {ends : List UtcTime}
    {t : UtcTime} {events : List (TaskEvent F)} (f : UtcTime × List (TaskEvent F) → ℕ)
    (hnodup : (closed.map Prod.fst).Nodup) (hmem : (t,events) ∈ closed) (hnew : t ∉ ends) :
    ((closed.filter fun window => window.1 ∈ ends++[t]).map f).sum =
      ((closed.filter fun window => window.1 ∈ ends).map f).sum+f (t,events) := by
  have hmiss (rest : List (UtcTime × List (TaskEvent F))) (h : t ∉ rest.map Prod.fst) :
      (rest.filter fun window => window.1 ∈ ends++[t]) = rest.filter fun window => window.1 ∈ ends := by
    apply List.filter_congr
    intro window hwindow
    have hne : window.1 ≠ t := by
      rintro rfl
      exact h (List.mem_map_of_mem hwindow)
    simp [hne]
  induction closed with
  | nil => cases hmem
  | cons window closed ih =>
    rw [List.map_cons,List.nodup_cons] at hnodup
    rcases List.mem_cons.mp hmem with rfl | hrest
    · rw [List.filter_cons_of_pos (by simp),List.filter_cons_of_neg (by simpa using hnew),
        hmiss closed hnodup.1,List.map_cons,List.sum_cons,Nat.add_comm]
    · have hne : window.1 ≠ t := by
        intro heq
        apply hnodup.1
        rw [heq]
        exact List.mem_map_of_mem hrest
      by_cases hin : window.1 ∈ ends
      · rw [List.filter_cons_of_pos (by simp [hin]),List.filter_cons_of_pos (by simp [hin]),
          List.map_cons,List.map_cons,List.sum_cons,List.sum_cons,ih hnodup.2 hrest,Nat.add_assoc]
      · rw [List.filter_cons_of_neg (by simp [hin,hne]),List.filter_cons_of_neg (by simp [hin]),
          ih hnodup.2 hrest]

end Windows

section Batches
variable {config : ℕ → Config} {init s : System F M} {i : ℕ} {acts : List (SystemAct F M)}

/-- A batch tells what was counted in its window, and of every task with a count. -/
structure BatchTold (config : ℕ → Config) (init : System F M) (acts : List (SystemAct F M)) (i : ℕ)
    (batch : PreparedMetricsBatch F M) : Prop where
  counts : ∃ events, (batch.windowEndedAt,events) ∈ (history i acts).closed ∧
    (∀ w ∈ batch.tasks, ∀ c : Counter, c.of w.snapshot = counted c w.taskName events) ∧
    ∀ c task, counted c task events ≠ 0 → task ∈ batch.tasks.map TaskWindow.taskName
  names : (batch.tasks.map TaskWindow.taskName).Nodup
  ids : ∀ w ∈ batch.tasks,
    w.windowId = windowId w.taskName batch.windowStartedAt batch.windowEndedAt
  inflight : ∀ w ∈ batch.tasks,
    InflightAt config init acts i batch.windowEndedAt w.taskName w.snapshot.inflight

variable {batch : PreparedMetricsBatch F M} {r : Reporter F M}

theorem BatchTold.extend (h : BatchTold config init acts i batch) (act : SystemAct F M) :
    BatchTold config init (acts++[act]) i batch := by
  obtain ⟨events,hclosed,hcounts,hall⟩ := h.counts
  exact ⟨⟨events,(closed_snoc i acts act).subset hclosed,hcounts,hall⟩,h.names,h.ids,
    fun w hw => (h.inflight w hw).extend act⟩

theorem names_reported {endedAt : UtcTime} {customMetrics : List (String × List M)}
    (names : List String) :
    (names.filterMap (reportedTask endedAt customMetrics r)).map TaskWindow.taskName =
      names.filter fun task => (reportedTask endedAt customMetrics r task).isSome := by
  induction names with
  | nil => rfl
  | cons name names ih =>
    cases hw : reportedTask endedAt customMetrics r name with
    | none => rw [List.filterMap_cons_none hw,List.filter_cons_of_neg (by simp [hw]),ih]
    | some w =>
      rw [List.filterMap_cons_some hw,List.filter_cons_of_pos (by simp [hw]),List.map_cons,ih,
        (reportedTask_eq hw).1]

theorem batchTold_rotate {endedAt : UtcTime} {customMetrics : List (String × List M)} {sequence : ℕ}
    (hrun : runs (performSystem config) (fun _ _ => true) init acts = some s)
    (hbuckets : ∀ (c : Counter) task,
      c.of (bucketOf (s.reporters i).metricsByTask task) = counted c task (history i acts).current) :
    BatchTold config init (acts++[.reporter i (.rotate endedAt customMetrics)]) i
      ⟨sequence,(s.reporters i).windowStartedAt,endedAt,
        (taskNames customMetrics (s.reporters i).metricsByTask).filterMap
          (reportedTask endedAt customMetrics (s.reporters i))⟩ := by
  have hof : ∀ w ∈ (taskNames customMetrics (s.reporters i).metricsByTask).filterMap
      (reportedTask endedAt customMetrics (s.reporters i)),
      w.windowId = windowId w.taskName (s.reporters i).windowStartedAt endedAt ∧
        w.snapshot = bucketOf (s.reporters i).metricsByTask w.taskName := by
    intro w hw
    obtain ⟨task,-,hreported⟩ := List.mem_filterMap.mp hw
    obtain ⟨rfl,hid,hsnapshot⟩ := reportedTask_eq hreported
    exact ⟨hid,hsnapshot⟩
  refine ⟨⟨(history i acts).current,?_,fun w hw c => ?_,fun c task hcount => ?_⟩,?_,
    fun w hw => (hof w hw).1,fun w hw => ?_⟩
  · rw [history_snoc,History.follow,if_pos rfl]
    exact List.mem_append_right _ (List.mem_singleton_self _)
  · rw [(hof w hw).2,hbuckets]
  · rw [← hbuckets] at hcount
    rw [names_reported,List.mem_filter]
    refine ⟨mem_taskNames (known_of hcount),?_⟩
    rw [reportedTask,taskWindow,hasActivity_of hcount]
    rfl
  · rw [names_reported]
    exact (taskNames_nodup _ _).filter _
  · exact ⟨acts,customMetrics,[],s,rfl,hrun,by rw [(hof w hw).2]⟩

def rotatedBatch (endedAt : UtcTime) (customMetrics : List (String × List M)) (r : Reporter F M) :
    PreparedMetricsBatch F M :=
  ⟨r.batchSequence+1,r.windowStartedAt,endedAt,
    (taskNames customMetrics r.metricsByTask).filterMap (reportedTask endedAt customMetrics r)⟩

variable {act : Act F M}

theorem holds_step {cfg : Config} {r' : Reporter F M} (h : perform cfg r act = some r')
    (hholds : r'.batches.Holds batch) : r.batches.Holds batch ∨
      ∃ endedAt customMetrics, act = .rotate endedAt customMetrics ∧
        batch = rotatedBatch endedAt customMetrics r := by
  cases does_of_perform h with
  | handle event =>
    left
    unfold handleEvent at hholds
    by_cases hfetched : event.kind = .fetched
    · simp only [hfetched,if_true] at hholds
      exact hholds
    · simp only [hfetched,if_false] at hholds
      exact hholds
  | rotate endedAt customMetrics =>
    unfold rotateMetricsWindow at hholds
    dsimp only at hholds
    split at hholds
    · exact .inl hholds
    · rcases Buffer.holds_add hholds with hold | rfl
      · exact .inl hold
      · exact .inr ⟨endedAt,customMetrics,rfl,rfl⟩
  | flushMetrics k => exact .inl (Buffer.holds_flush hholds)
  | sentMetrics hbatch => exact .inl (Buffer.holds_finish hholds)
  | failMetrics k => exact .inl (Buffer.holds_fail hholds)
  | flushEvents k | sentEvents hbatch | failEvents k => exact .inl hholds

theorem holds_begins (h : batch ∈ beginsSending act r) : r.batches.Holds batch := by
  have hsending {k : ℕ} (hk : batch ∈ (r.batches.sending k).getD []) : r.batches.Holds batch := by
    cases hlist : r.batches.sending k with
    | none =>
      rw [hlist] at hk
      cases hk
    | some list =>
      rw [hlist] at hk
      exact .inr ⟨k,list,hlist,hk⟩
  cases act with
  | flush channel k =>
    cases channel with
    | metrics => exact hsending h
    | events => cases h
  | returned channel k =>
    cases channel with
    | metrics => exact hsending h
    | events => cases h
  | handleEvent event => cases h
  | rotate endedAt customMetrics => cases h
  | raised channel k => cases h

theorem buckets_step {cfg : Config} {r' : Reporter F M} {h : History F}
    (hstep : perform cfg r act = some r')
    (hbuckets : ∀ (c : Counter) task, c.of (bucketOf r.metricsByTask task) = counted c task h.current)
    (c : Counter) (task : String) :
    c.of (bucketOf r'.metricsByTask task) = counted c task (h.step act).current := by
  cases does_of_perform hstep with
  | handle event =>
    have hmetrics : (handleEvent cfg event r).metricsByTask =
        changeBucket event.task (record event) r.metricsByTask := by
      unfold handleEvent
      dsimp only
      split
      · rfl
      · rfl
    have hone : counted c task [event] = if event.task = task ∧ c.counts event = true then 1 else 0 := by
      simp [counted,List.countP_cons]
    rw [hmetrics,bucketOf_change,History.step]
    rw [show counted c task (h.current++[event]) = counted c task h.current+counted c task [event] from
      List.countP_append,hone]
    by_cases htask : task = event.task
    · subst htask
      rw [if_pos rfl,of_record,hbuckets]
      simp
    · rw [if_neg htask,hbuckets,if_neg (fun hboth => htask hboth.1.symm),Nat.add_zero]
  | rotate endedAt customMetrics => exact of_rotatedBuckets c task
  | _ => exact hbuckets c task

end Batches

section Conservation
variable {config : ℕ → Config} {init s : System F M} {i : ℕ} {acts : List (SystemAct F M)}

/-- The batches of an instance, each of which has its rows once it was delivered. -/
structure BatchesTold (config : ℕ → Config) (init : System F M) (acts : List (SystemAct F M))
    (s : System F M) (i : ℕ) (prepared : List (PreparedMetricsBatch F M)) : Prop where
  apart : (prepared.map PreparedMetricsBatch.windowEndedAt).Nodup
  told : ∀ batch ∈ prepared, BatchTold config init acts i batch
  sent : ∀ batch ∈ s.sent i, batch ∈ prepared
  held : ∀ batch, (s.reporters i).batches.Holds batch → batch ∈ prepared
  kept : ∀ batch ∈ prepared, batch.windowEndedAt ∈ deliveredEnds i acts →
    ∀ w ∈ batch.tasks, (i,w.taskName,w.windowId) ∈ s.rows.map MetricRow.key

/-- A row of a delivered window. -/
structure RowTold (config : ℕ → Config) (init : System F M) (acts : List (SystemAct F M)) (i : ℕ)
    (row : MetricRow F) : Prop where
  delivered : row.windowEndedAt ∈ deliveredEnds i acts
  windowId : ∃ startedAt, row.windowId = windowId row.taskName startedAt row.windowEndedAt
  inflight : InflightAt config init acts i row.windowEndedAt row.taskName row.snapshot.inflight

/-- What holds of an instance after a run. -/
structure Told (config : ℕ → Config) (init : System F M) (acts : List (SystemAct F M))
    (s : System F M) (i : ℕ) : Prop where
  buckets : ∀ (c : Counter) task,
    c.of (bucketOf (s.reporters i).metricsByTask task) = counted c task (history i acts).current
  batches : ∃ prepared, BatchesTold config init acts s i prepared
  rows : ∀ row ∈ s.rows, row.instanceId = i → RowTold config init acts i row
  ends : ∀ t ∈ deliveredEnds i acts, t ∈ (history i acts).closed.map Prod.fst
  sum : ∀ c task, rowSum c i task s.rows = deliveredCount c i task acts

theorem RowTold.extend {row : MetricRow F} (h : RowTold config init acts i row)
    (act : SystemAct F M) : RowTold config init (acts++[act]) i row := by
  refine ⟨?_,h.windowId,h.inflight.extend act⟩
  rw [deliveredEnds_snoc]
  exact List.mem_append_left _ h.delivered

theorem ends_extend (h : ∀ t ∈ deliveredEnds i acts, t ∈ (history i acts).closed.map Prod.fst)
    (act : SystemAct F M) :
    ∀ t ∈ deliveredEnds i acts, t ∈ (history i (acts++[act])).closed.map Prod.fst :=
  fun t ht => ((closed_snoc i acts act).map _).subset (h t ht)

theorem told_init (config : ℕ → Config) (start : ℕ → UtcTime) (i : ℕ) :
    Told config (startSystem start : System F M) [] (startSystem start) i := by
  refine ⟨fun c task => of_new c,⟨[],List.nodup_nil,nofun,nofun,fun batch h => ?_,nofun⟩,nofun,nofun,
    fun c task => rfl⟩
  rcases h with h | ⟨k,list,h,-⟩
  · cases h
  · cases h

/-- What an act of a reporter does to the system. -/
structure Reports (config : ℕ → Config) (s s' : System F M) (i : ℕ) (act : Act F M) : Prop where
  rows : s'.rows = s.rows
  elsewhere : ∀ j, i ≠ j → s'.reporters j = s.reporters j ∧ s'.sent j = s.sent j
  performed : perform (config i) (s.reporters i) act = some (s'.reporters i)
  sent : s'.sent i = s.sent i++beginsSending act (s'.reporters i)

variable {s' : System F M} {act : Act F M}

theorem reports_of (h : performSystem config s (.reporter i act) = some s') :
    Reports config s s' i act := by
  obtain ⟨r,hr,rfl⟩ := Option.map_eq_some_iff.mp h
  refine ⟨rfl,fun j hj => ⟨Function.update_of_ne (Ne.symm hj) _ _,Function.update_of_ne (Ne.symm hj) _ _⟩,
    ?_,?_⟩
  · change _ = some (Function.update s.reporters i r i)
    rw [Function.update_self,hr]
  · change Function.update s.sent i _ i = _++beginsSending act (Function.update s.reporters i r i)
    rw [Function.update_self,Function.update_self]

variable {j : ℕ}

theorem told_elsewhere (hj : j ≠ i) (h : Reports config s s' j act) (ht : Told config init acts s i) :
    Told config init (acts++[.reporter j act]) s' i := by
  have hhistory : history i (acts++[.reporter j act]) = history i acts := by
    rw [history_snoc,History.follow,if_neg hj]
  have hends : deliveredEnds i (acts++[.reporter j act]) = deliveredEnds i acts := by
    rw [deliveredEnds_snoc]
    exact List.append_nil _
  obtain ⟨hreporters,hsends⟩ := h.elsewhere i hj
  obtain ⟨prepared,happart,htold,hsent,hheld,hkept⟩ := ht.batches
  refine ⟨?_,⟨prepared,happart,fun batch hb => (htold batch hb).extend _,?_,?_,?_⟩,?_,?_,?_⟩
  · rw [hhistory,hreporters]
    exact ht.buckets
  · rw [hsends]
    exact hsent
  · rw [hreporters]
    exact hheld
  · rw [hends,h.rows]
    exact hkept
  · rw [h.rows]
    exact fun row hrow hi => (ht.rows row hrow hi).extend _
  · rw [hends,hhistory]
    exact ht.ends
  · intro c task
    rw [deliveredCount,hhistory,hends,h.rows]
    exact ht.sum c task

/-- An act of the reporter that is no rotation. -/
theorem told_quiet (hact : ∀ endedAt customMetrics, act ≠ .rotate endedAt customMetrics)
    (h : Reports config s s' i act) (ht : Told config init acts s i) :
    Told config init (acts++[.reporter i act]) s' i := by
  have hhistory : history i (acts++[.reporter i act]) = (history i acts).step act := by
    rw [history_snoc,History.follow,if_pos rfl]
  have hclosed : ((history i acts).step act).closed = (history i acts).closed := by
    cases act with
    | rotate endedAt customMetrics => exact absurd rfl (hact endedAt customMetrics)
    | handleEvent event => rfl
    | flush channel k => rfl
    | returned channel k => rfl
    | raised channel k => rfl
  have hends : deliveredEnds i (acts++[.reporter i act]) = deliveredEnds i acts := by
    rw [deliveredEnds_snoc]
    exact List.append_nil _
  obtain ⟨prepared,happart,htold,hsent,hheld,hkept⟩ := ht.batches
  have hheld' : ∀ batch, (s'.reporters i).batches.Holds batch → batch ∈ prepared := by
    intro batch hb
    rcases holds_step h.performed hb with hold | ⟨endedAt,customMetrics,hrotate,-⟩
    · exact hheld batch hold
    · exact absurd hrotate (hact endedAt customMetrics)
  refine ⟨?_,⟨prepared,happart,fun batch hb => (htold batch hb).extend _,?_,hheld',?_⟩,?_,?_,?_⟩
  · rw [hhistory]
    exact buckets_step h.performed ht.buckets
  · rw [h.sent]
    intro batch hb
    rcases List.mem_append.mp hb with hold | hbegins
    · exact hsent batch hold
    · exact hheld' batch (holds_begins hbegins)
  · rw [hends,h.rows]
    exact hkept
  · rw [h.rows]
    exact fun row hrow hi => (ht.rows row hrow hi).extend _
  · rw [hends,hhistory,hclosed]
    exact ht.ends
  · intro c task
    rw [deliveredCount,hhistory,hclosed,hends,h.rows]
    exact ht.sum c task

variable {endedAt : UtcTime}

/-- A rotation of the instance: its window is a new one, that was not delivered. -/
theorem told_rotate {customMetrics : List (String × List M)}
    (hrun : runs (performSystem config) (fun _ _ => true) init acts = some s)
    (hincreasing : Increasing i (acts++[.reporter i (.rotate endedAt customMetrics)]))
    (h : Reports config s s' i (.rotate endedAt customMetrics)) (ht : Told config init acts s i) :
    Told config init (acts++[.reporter i (.rotate endedAt customMetrics)]) s' i := by
  have hhistory : history i (acts++[.reporter i (.rotate endedAt customMetrics)]) =
      ⟨(history i acts).closed++[(endedAt,(history i acts).current)],[]⟩ := by
    rw [history_snoc,History.follow,if_pos rfl]
    rfl
  have hends : deliveredEnds i (acts++[.reporter i (.rotate endedAt customMetrics)]) =
      deliveredEnds i acts := by
    rw [deliveredEnds_snoc]
    exact List.append_nil _
  have hnew : endedAt ∉ (history i acts).closed.map Prod.fst := by
    have hnodup := hincreasing.nodup
    rw [hhistory,List.map_append,List.nodup_append] at hnodup
    exact fun hmem => hnodup.2.2 endedAt hmem endedAt (List.mem_singleton_self _) rfl
  obtain ⟨prepared,happart,htold,hsent,hheld,hkept⟩ := ht.batches
  have hbatch : BatchTold config init (acts++[.reporter i (.rotate endedAt customMetrics)]) i
      (rotatedBatch endedAt customMetrics (s.reporters i)) := batchTold_rotate hrun ht.buckets
  have hheld' : ∀ batch, (s'.reporters i).batches.Holds batch →
      batch ∈ prepared++[rotatedBatch endedAt customMetrics (s.reporters i)] := by
    intro batch hb
    rcases holds_step h.performed hb with hold | ⟨endedAt',customMetrics',hrotate,rfl⟩
    · exact List.mem_append_left _ (hheld batch hold)
    · cases hrotate
      exact List.mem_append_right _ (List.mem_singleton_self _)
  refine ⟨?_,⟨prepared++[rotatedBatch endedAt customMetrics (s.reporters i)],?_,?_,?_,hheld',?_⟩,
    ?_,?_,?_⟩
  · rw [history_snoc,History.follow,if_pos rfl]
    exact buckets_step h.performed ht.buckets
  · rw [List.map_append,List.nodup_append]
    refine ⟨happart,List.nodup_singleton _,?_⟩
    rintro t hmem t' hmem' rfl
    obtain ⟨batch,hb,rfl⟩ := List.mem_map.mp hmem
    obtain ⟨events,hclosed,-⟩ := (htold batch hb).counts
    apply hnew
    rw [List.map_singleton,List.mem_singleton] at hmem'
    rw [show endedAt = batch.windowEndedAt from hmem'.symm]
    exact List.mem_map_of_mem hclosed
  · intro batch hb
    rcases List.mem_append.mp hb with hold | hnewest
    · exact (htold batch hold).extend _
    · rw [List.mem_singleton.mp hnewest]
      exact hbatch
  · rw [h.sent]
    intro batch hb
    rcases List.mem_append.mp hb with hold | hbegins
    · exact List.mem_append_left _ (hsent batch hold)
    · exact hheld' batch (holds_begins hbegins)
  · rw [hends,h.rows]
    intro batch hb hdelivered
    rcases List.mem_append.mp hb with hold | hnewest
    · exact hkept batch hold hdelivered
    · rw [List.mem_singleton.mp hnewest] at hdelivered
      exact absurd (ht.ends endedAt hdelivered) hnew
  · rw [h.rows]
    exact fun row hrow hi => (ht.rows row hrow hi).extend _
  · rw [hends]
    exact ends_extend ht.ends _
  · intro c task
    rw [deliveredCount,hhistory,hends,h.rows,List.filter_append,
      List.filter_cons_of_neg (by simpa using fun hmem => hnew (ht.ends endedAt hmem)),List.filter_nil,
      List.append_nil]
    exact ht.sum c task

theorem filter_unique {tasks : List (TaskWindow F M)} {w : TaskWindow F M}
    (hnodup : (tasks.map TaskWindow.taskName).Nodup) (hw : w ∈ tasks) :
    (tasks.filter fun other => other.taskName = w.taskName) = [w] := by
  induction tasks with
  | nil => cases hw
  | cons other tasks ih =>
    rw [List.map_cons,List.nodup_cons] at hnodup
    rcases List.mem_cons.mp hw with rfl | hrest
    · rw [List.filter_cons_of_pos (by simp),List.filter_eq_nil_iff.mpr]
      intro later hlater heq
      apply hnodup.1
      rw [← of_decide_eq_true heq]
      exact List.mem_map_of_mem hlater
    · have hne : other.taskName ≠ w.taskName := by
        intro heq
        apply hnodup.1
        rw [heq]
        exact List.mem_map_of_mem hrest
      rw [List.filter_cons_of_neg (by simpa using hne),ih hnodup.2 hrest]

variable {receivedAt : UtcTime}

theorem rowSum_batch {batch : PreparedMetricsBatch F M} {events : List (TaskEvent F)}
    (hnames : (batch.tasks.map TaskWindow.taskName).Nodup)
    (hcounts : ∀ w ∈ batch.tasks, ∀ c : Counter, c.of w.snapshot = counted c w.taskName events)
    (hall : ∀ c task, counted c task events ≠ 0 → task ∈ batch.tasks.map TaskWindow.taskName)
    (c : Counter) (task : String) :
    rowSum c i task (batch.tasks.map (metricWindowPayload i batch receivedAt)) =
      counted c task events := by
  have hfilter : rowsOf i task (batch.tasks.map (metricWindowPayload i batch receivedAt)) =
      (batch.tasks.filter fun w => w.taskName = task).map (metricWindowPayload i batch receivedAt) := by
    rw [rowsOf,List.filter_map]
    congr 1
    apply List.filter_congr
    intro w hw
    rw [Bool.eq_iff_iff]
    simp [metricWindowPayload]
    exact decide_eq_true_iff
  rw [rowSum,hfilter,List.map_map]
  by_cases htask : task ∈ batch.tasks.map TaskWindow.taskName
  · obtain ⟨w,hw,rfl⟩ := List.mem_map.mp htask
    rw [filter_unique hnames hw,List.map_singleton,List.sum_singleton]
    exact hcounts w hw c
  · have hempty : (batch.tasks.filter fun w => w.taskName = task) = [] := by
      rw [List.filter_eq_nil_iff]
      intro w hw heq
      apply htask
      rw [← of_decide_eq_true heq]
      exact List.mem_map_of_mem hw
    have hzero : counted c task events = 0 := by
      by_contra hcount
      exact htask (hall c task hcount)
    rw [hempty,hzero]
    rfl

theorem rowSum_append (c : Counter) (i : ℕ) (task : String) (rows new : List (MetricRow F)) :
    rowSum c i task (rows++new) = rowSum c i task rows+rowSum c i task new := by
  rw [rowSum,rowsOf,List.filter_append,List.map_append,List.sum_append]
  rfl

theorem ingests_of (h : performSystem config s (.ingest j endedAt receivedAt) = some s') :
    ∃ batch ∈ s.sent j, batch.windowEndedAt = endedAt ∧
      s' = {s with rows := ingestMetricsRequest j batch receivedAt s.rows} := by
  obtain ⟨batch,hbatch,rfl⟩ := Option.map_eq_some_iff.mp h
  have hended := List.find?_some hbatch
  exact ⟨batch,List.mem_of_find?_eq_some hbatch,of_decide_eq_true hended,rfl⟩

theorem payload_instance {batch : PreparedMetricsBatch F M} {tasks : List (TaskWindow F M)}
    {row : MetricRow F} (h : row ∈ tasks.map (metricWindowPayload j batch receivedAt)) :
    row.instanceId = j := by
  obtain ⟨w,-,rfl⟩ := List.mem_map.mp h
  rfl

theorem told_ingest_elsewhere (hj : j ≠ i)
    (h : performSystem config s (.ingest j endedAt receivedAt) = some s')
    (ht : Told config init acts s i) :
    Told config init (acts++[.ingest j endedAt receivedAt]) s' i := by
  have hhistory : history i (acts++[.ingest j endedAt receivedAt]) = history i acts := by
    rw [history_snoc,History.follow]
  have hends : deliveredEnds i (acts++[.ingest j endedAt receivedAt]) = deliveredEnds i acts := by
    have hnone : deliveredEnds i [SystemAct.ingest (F := F) (M := M) j endedAt receivedAt] = [] := by
      simp [deliveredEnds,hj]
    rw [deliveredEnds_snoc,hnone,List.append_nil]
  obtain ⟨batch,-,-,rfl⟩ := ingests_of h
  obtain ⟨prepared,happart,htold,hsent,hheld,hkept⟩ := ht.batches
  refine ⟨?_,⟨prepared,happart,fun b hb => (htold b hb).extend _,hsent,hheld,?_⟩,?_,?_,?_⟩
  · rw [hhistory]
    exact ht.buckets
  · rw [hends]
    intro b hb hdelivered w hw
    obtain ⟨row,hrow,hkey⟩ := List.mem_map.mp (hkept b hb hdelivered w hw)
    exact List.mem_map.mpr ⟨row,subset_addNew _ _ hrow,hkey⟩
  · intro row hrow hi
    rcases mem_addNew hrow with hold | hnew
    · exact (ht.rows row hold hi).extend _
    · exact absurd ((payload_instance hnew).symm.trans hi) hj
  · rw [hends,hhistory]
    exact ht.ends
  · intro c task
    rw [deliveredCount,hhistory,hends]
    have hrows : rowsOf i task (ingestMetricsRequest j batch receivedAt s.rows) = rowsOf i task s.rows := by
      apply filter_addNew
      intro row hrow
      rw [payload_instance hrow]
      simp [hj]
    rw [rowSum,hrows]
    exact ht.sum c task

/-- An ingestion for the instance: of a window that was delivered before nothing is new, and
of another one all is. -/
theorem told_ingest (hincreasing : Increasing i acts)
    (h : performSystem config s (.ingest i endedAt receivedAt) = some s')
    (ht : Told config init acts s i) :
    Told config init (acts++[.ingest i endedAt receivedAt]) s' i := by
  have hhistory : history i (acts++[.ingest i endedAt receivedAt]) = history i acts := by
    rw [history_snoc,History.follow]
  have hends : deliveredEnds i (acts++[.ingest i endedAt receivedAt]) =
      deliveredEnds i acts++[endedAt] := by
    have hone : deliveredEnds i [SystemAct.ingest (F := F) (M := M) i endedAt receivedAt] = [endedAt] := by
      simp [deliveredEnds]
    rw [deliveredEnds_snoc,hone]
  obtain ⟨batch,hmem,rfl,rfl⟩ := ingests_of h
  obtain ⟨prepared,happart,htold,hsent,hheld,hkept⟩ := ht.batches
  have hprepared := hsent batch hmem
  have hbatch := htold batch hprepared
  obtain ⟨events,hclosed,hcounts,hall⟩ := hbatch.counts
  have hkeys : (batch.tasks.map fun task => (i,task.taskName,task.windowId)).Nodup := by
    apply List.Nodup.of_map fun key : ℕ × String × List Char => key.2.1
    rw [List.map_map]
    exact hbatch.names
  have hrows : ingestMetricsRequest i batch receivedAt s.rows =
      addNew MetricRow.key (batch.tasks.map (metricWindowPayload i batch receivedAt)) s.rows := by
    rw [ingestMetricsRequest,dedupeByKey_nodup hkeys]
  refine ⟨?_,⟨prepared,happart,fun b hb => (htold b hb).extend _,hsent,hheld,?_⟩,?_,?_,?_⟩
  · rw [hhistory]
    exact ht.buckets
  · rw [hends]
    intro b hb hdelivered w hw
    dsimp only
    rw [hrows]
    rcases List.mem_append.mp hdelivered with hold | hnow
    · obtain ⟨row,hrow,hkey⟩ := List.mem_map.mp (hkept b hb hold w hw)
      exact List.mem_map.mpr ⟨row,subset_addNew _ _ hrow,hkey⟩
    · obtain rfl : b = batch :=
        List.inj_on_of_nodup_map happart hb hprepared (List.mem_singleton.mp hnow)
      exact key_addNew (List.mem_map_of_mem (f := metricWindowPayload i b receivedAt) hw)
  · intro row hrow hi
    dsimp only at hrow
    rw [hrows] at hrow
    rcases mem_addNew hrow with hold | hnew
    · exact (ht.rows row hold hi).extend _
    · obtain ⟨w,hw,rfl⟩ := List.mem_map.mp hnew
      refine ⟨?_,⟨batch.windowStartedAt,hbatch.ids w hw⟩,(hbatch.inflight w hw).extend _⟩
      rw [hends]
      exact List.mem_append_right _ (List.mem_singleton_self _)
  · rw [hends,hhistory]
    intro t hdelivered
    rcases List.mem_append.mp hdelivered with hold | hnow
    · exact ht.ends t hold
    · rw [List.mem_singleton.mp hnow]
      exact List.mem_map_of_mem hclosed
  · intro c task
    dsimp only
    rw [deliveredCount,hhistory,hends,hrows]
    by_cases hknown : batch.windowEndedAt ∈ deliveredEnds i acts
    · have hsame : addNew MetricRow.key (batch.tasks.map (metricWindowPayload i batch receivedAt)) s.rows =
          s.rows := by
        apply addNew_known
        intro row hrow
        obtain ⟨w,hw,rfl⟩ := List.mem_map.mp hrow
        exact hkept batch hprepared hknown w hw
      have hwindows : ((history i acts).closed.filter fun window =>
          window.1 ∈ deliveredEnds i acts++[batch.windowEndedAt]) =
            (history i acts).closed.filter fun window => window.1 ∈ deliveredEnds i acts := by
        apply List.filter_congr
        intro window _
        rw [decide_eq_decide,List.mem_append,List.mem_singleton]
        refine ⟨fun hin => ?_,.inl⟩
        rcases hin with hin | heq
        · exact hin
        · rw [heq]
          exact hknown
      rw [hsame,hwindows]
      exact ht.sum c task
    · have hfresh : addNew MetricRow.key (batch.tasks.map (metricWindowPayload i batch receivedAt)) s.rows =
          s.rows++batch.tasks.map (metricWindowPayload i batch receivedAt) := by
        apply addNew_fresh
        · rw [List.map_map]
          exact hkeys
        · intro row hrow hmem'
          obtain ⟨w,hw,rfl⟩ := List.mem_map.mp hrow
          obtain ⟨old,hold,hkey⟩ := List.mem_map.mp hmem'
          obtain ⟨hinstance,hname,hid⟩ : old.instanceId = i ∧ old.taskName = w.taskName ∧
              old.windowId = w.windowId := by
            simpa [MetricRow.key,metricWindowPayload] using hkey
          obtain ⟨hdelivered,⟨startedAt,hwindow⟩,-⟩ := ht.rows old hold hinstance
          rw [hname,hid,hbatch.ids w hw] at hwindow
          rw [← windowId_ended hwindow] at hdelivered
          exact hknown hdelivered
      rw [hfresh,rowSum_append,rowSum_batch hbatch.names hcounts hall,
        sum_delivered (fun window => counted c task window.2) hincreasing.nodup hclosed hknown,ht.sum]
      rfl

/-- A step keeps what a reporter was told. -/
theorem told_step {act : SystemAct F M}
    (hrun : runs (performSystem config) (fun _ _ => true) init acts = some s)
    (hincreasing : Increasing i (acts++[act])) (h : performSystem config s act = some s')
    (ht : Told config init acts s i) : Told config init (acts++[act]) s' i := by
  cases act with
  | ingest j endedAt receivedAt =>
    by_cases hj : j = i
    · subst hj
      exact told_ingest hincreasing.front h ht
    · exact told_ingest_elsewhere hj h ht
  | reporter j act =>
    by_cases hj : j = i
    · subst hj
      cases act with
      | rotate endedAt customMetrics => exact told_rotate hrun hincreasing (reports_of h) ht
      | handleEvent event => exact told_quiet (fun _ _ hact => by cases hact) (reports_of h) ht
      | flush channel k => exact told_quiet (fun _ _ hact => by cases hact) (reports_of h) ht
      | returned channel k => exact told_quiet (fun _ _ hact => by cases hact) (reports_of h) ht
      | raised channel k => exact told_quiet (fun _ _ hact => by cases hact) (reports_of h) ht
    · exact told_elsewhere hj (reports_of h) ht

/-- The rows of an instance and a task sum up to what was counted in the delivered windows,
and each row, the latest one as well, holds what was inflight at its rotation. -/
theorem counters_conserved (config : ℕ → Config) (start : ℕ → UtcTime)
    {acts : List (SystemAct F M)} {s : System F M} (hincreasing : ∀ i, Increasing i acts)
    (h : runs (performSystem config) (fun _ _ => true) (startSystem start) acts = some s) (i : ℕ)
    (task : String) :
    (∀ c, rowSum c i task s.rows = deliveredCount c i task acts) ∧
    ∀ row ∈ rowsOf i task s.rows,
      InflightAt config (startSystem start) acts i row.windowEndedAt task row.snapshot.inflight := by
  have htold : Increasing i acts → Told config (startSystem start) acts s i := by
    apply runs_history (I := fun acts s => Increasing i acts → Told config (startSystem start) acts s i)
      _ _ h
    · exact fun _ => told_init config start i
    · exact fun ls l t u hrun ht hstep hinc => told_step hrun hinc hstep (ht hinc.front)
  refine ⟨fun c => (htold (hincreasing i)).sum c task,fun row hrow => ?_⟩
  obtain ⟨hmem,hof⟩ := List.mem_filter.mp hrow
  obtain ⟨hi,htask⟩ : row.instanceId = i ∧ row.taskName = task := by simpa using hof
  have hinflight := ((htold (hincreasing i)).rows row hmem hi).inflight
  rw [htask] at hinflight
  exact hinflight

end Conservation

section Example

def noon : UtcTime where
  time := {midnight.time with hour := 12, timed := by decide}
  utc := rfl
  unfolded := rfl

def evening : UtcTime where
  time := {midnight.time with hour := 18, microsecond := 1, timed := by decide}
  utc := rfl
  unfolded := rfl

/-- Two windows of one instance, of which the first is delivered twice, and the last first. -/
def retransmission : List (SystemAct Unit Unit) := [
  .reporter 0 (.handleEvent ⟨.started,"task",none,none⟩),
  .reporter 0 (.rotate noon []),
  .reporter 0 (.flush .metrics 0),
  .reporter 0 (.handleEvent ⟨.failed,"task",none,some .timeout⟩),
  .reporter 0 (.rotate evening []),
  .reporter 0 (.returned .metrics 0),
  .ingest 0 evening evening,
  .ingest 0 noon evening,
  .ingest 0 noon evening]

theorem increasing_retransmission : ∀ i, Increasing i retransmission
  | 0 => by
      unfold Increasing
      decide +kernel
  | _+1 => List.Pairwise.nil

theorem retransmission_runs : ∃ s, runs (performSystem fun _ => smallBatches) (fun _ _ => true)
    (startSystem fun _ => midnight) retransmission = some s := by
  rw [← Option.isSome_iff_exists]
  decide +kernel

/-- Each event is counted once. -/
theorem retransmission_counted : ∃ s, runs (performSystem fun _ => smallBatches) (fun _ _ => true)
    (startSystem fun _ => midnight) retransmission = some s ∧
      rowSum .started 0 "task" s.rows = 1 ∧ rowSum .timeouts 0 "task" s.rows = 1 := by
  obtain ⟨s,hs⟩ := retransmission_runs
  have hcounts := (counters_conserved _ _ increasing_retransmission hs 0 "task").1
  refine ⟨s,hs,(hcounts .started).trans ?_,(hcounts .timeouts).trans ?_⟩
  · decide +kernel
  · decide +kernel

end Example

end OneStep.MetricWindows
