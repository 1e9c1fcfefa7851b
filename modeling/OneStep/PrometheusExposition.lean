import OneStep.GroupedTotals
import OneStep.KeyedTable
import OneStep.LatestSelection
import OneStep.MetricWindows
import OneStep.PrometheusText
import OneStep.ScalarTexts
import Mathlib.Algebra.Order.Ring.Rat

/-!
# The Prometheus exposition over ingestion and retention

Metric windows are stored once each, and a retention run deletes the old ones in batches. The
exposition groups the stored windows into series: the counters are sums of the windows, the
gauges come from the latest one. A database returns rows in any order; one of the two that are
supported compares JSON columns as texts, so that it tells the orders of the same labels apart.
A service has its place in its table as its id.
-/
namespace OneStep.PrometheusExposition
open GroupedTotals JsonText KeyedTable LatestSelection MetricWindows PrometheusText ScalarTexts
  Transition

section Tables

inductive Kind where
  | counter | gauge
  deriving DecidableEq

structure CustomMetricIngest where
  name : String
  kind : Kind
  value : ℚ
  labels : Labels

structure TaskWindowIngest where
  taskName : String
  windowId : String
  succeeded : ℕ
  failed : ℕ
  inflight : ℕ
  avgDurationMs : Option ℚ
  customMetrics : List CustomMetricIngest

structure MetricsIngestRequest (T : Type) where
  serviceName : String
  environment : String
  instanceId : UUID
  endedAt : T
  tasks : List TaskWindowIngest

structure TaskMetricWindow (T : Type) where
  serviceId : ℕ
  instanceId : UUID
  taskName : String
  windowId : String
  endedAt : T
  createdAt : T
  succeeded : ℕ
  failed : ℕ
  inflight : ℕ
  avgDurationMs : Option ℚ

structure TaskCustomMetricWindow (T : Type) where
  serviceId : ℕ
  instanceId : UUID
  taskName : String
  windowId : String
  endedAt : T
  createdAt : T
  metricName : String
  kind : Kind
  value : ℚ
  labelsHash : String
  labels : Labels

structure Plane (T : Type) where
  services : List (String × String) := []
  instances : List (UUID × ℕ) := []
  metricWindows : List (TaskMetricWindow T) := []
  customWindows : List (TaskCustomMetricWindow T) := []

inductive Dialect where
  | sqlite | postgresql
  deriving DecidableEq

/-- The database, which returns rows in an order of its own. -/
structure Database where
  dialect : Dialect
  arrange : {R : Type} → List R → List R
  perm : ∀ {R : Type} (rows : List R), (arrange rows).Perm rows

end Tables

section Ingestion
variable {T : Type}

def reservedLabels : List String := ["service","environment","task","instance_id","metric"]

def stripped (s : String) : String := String.ofList (strip isSpace s.toList)

def isMetricNameStart (c : Char) : Bool := c.isAlpha || c = '_' || c = ':'

/-- `CUSTOM_METRIC_NAME_RE`. -/
def isMetricName : List Char → Bool
  | [] => false
  | c::cs => isMetricNameStart c && cs.all fun d => isMetricNameStart d || d.isDigit

/-- `validate_labels`: none when it raises. -/
def validateLabels : Labels → Labels → Option Labels
  | labels,[] => some labels
  | labels,(rawKey,value)::rest =>
    let key := stripped rawKey
    if isLabelName key.toList = true ∧ key ∉ reservedLabels then
      validateLabels (change key (fun _ => value) labels) rest
    else none

def validateMetric (metric : CustomMetricIngest) : Option CustomMetricIngest :=
  let name := stripped metric.name
  if isMetricName name.toList = true ∧ (metric.kind = .counter → 0 ≤ metric.value) then
    (validateLabels [] metric.labels).map fun labels => {metric with name := name,labels := labels}
  else none

def validateTask (task : TaskWindowIngest) : Option TaskWindowIngest :=
  (task.customMetrics.mapM validateMetric).map fun metrics => {task with customMetrics := metrics}

def TaskMetricWindow.key (row : TaskMetricWindow T) : UUID × String × String :=
  (row.instanceId,row.taskName,row.windowId)

def TaskCustomMetricWindow.key (row : TaskCustomMetricWindow T) :
    UUID × String × String × String × Kind × String :=
  (row.instanceId,row.taskName,row.windowId,row.metricName,row.kind,row.labelsHash)

def buildMetricWindowPayload (id : ℕ) (request : MetricsIngestRequest T) (now : T)
    (task : TaskWindowIngest) : TaskMetricWindow T where
  serviceId := id
  instanceId := request.instanceId
  taskName := task.taskName
  windowId := task.windowId
  endedAt := request.endedAt
  createdAt := now
  succeeded := task.succeeded
  failed := task.failed
  inflight := task.inflight
  avgDurationMs := task.avgDurationMs

def buildCustomMetricWindowPayloads (labelsHash : Labels → String) (id : ℕ)
    (request : MetricsIngestRequest T) (now : T) (task : TaskWindowIngest) :
    List (TaskCustomMetricWindow T) :=
  task.customMetrics.map fun metric => {
    serviceId := id
    instanceId := request.instanceId
    taskName := task.taskName
    windowId := task.windowId
    endedAt := request.endedAt
    createdAt := now
    metricName := metric.name
    kind := metric.kind
    value := metric.value
    labelsHash := labelsHash metric.labels
    labels := metric.labels}

/-- The row of the instance, made if there is none; none when it is bound to another service. -/
def ensureInstance (instances : List (UUID × ℕ)) (instanceId : UUID) (id : ℕ) :
    Option (List (UUID × ℕ)) :=
  match instances.lookup instanceId with
  | none => some (instances++[(instanceId,id)])
  | some bound => if bound = id then some instances else none

def ensureService (services : List (String × String)) (service : String × String) :
    List (String × String) :=
  if service ∈ services then services else services++[service]

/-- The windows of a request that are new to it. -/
def requestTasks (tasks : List TaskWindowIngest) : List TaskWindowIngest :=
  dedupeByKey (fun task => (task.taskName,task.windowId)) tasks

def requestCustomRows (labelsHash : Labels → String) (id : ℕ) (request : MetricsIngestRequest T)
    (now : T) (tasks : List TaskWindowIngest) : List (TaskCustomMetricWindow T) :=
  dedupeByKey TaskCustomMetricWindow.key ((requestTasks tasks).flatMap
    (buildCustomMetricWindowPayloads labelsHash id request now))

/-- None when the request is refused. -/
def ingestMetricsRequest (labelsHash : Labels → String) (w : Plane T)
    (request : MetricsIngestRequest T) (now : T) : Option (Plane T) :=
  (request.tasks.mapM validateTask).bind fun tasks =>
    let service := (request.serviceName,request.environment)
    let id := w.services.idxOf service
    (ensureInstance w.instances request.instanceId id).map fun instances => {
      services := ensureService w.services service
      instances := instances
      metricWindows := addNew TaskMetricWindow.key
        ((requestTasks tasks).map (buildMetricWindowPayload id request now)) w.metricWindows
      customWindows := addNew TaskCustomMetricWindow.key
        (requestCustomRows labelsHash id request now tasks) w.customWindows}

end Ingestion

section Retention
variable {T : Type} [LinearOrder T]

/-- One batch of `_delete_policy_rows` for the metric windows: the oldest of those that ended
before the cutoff. -/
def retentionBatch (db : Database) (w : Plane T) (limit : ℕ) (cutoff : T) :
    List (TaskMetricWindow T) :=
  select (fun row => decide (row.endedAt < cutoff)) (fun a b => a.endedAt ≤ b.endedAt) limit
    (db.arrange w.metricWindows)

def deleteBatch (db : Database) (w : Plane T) (limit : ℕ) (cutoff : T) : Plane T :=
  let ids := (retentionBatch db w limit cutoff).map TaskMetricWindow.key
  {w with metricWindows := w.metricWindows.filter fun row => row.key ∉ ids}

inductive Act (T : Type) where
  | ingest (request : MetricsIngestRequest T) (now : T)
  | deleteBatch (limit : ℕ) (cutoff : T)

def Plane.perform (db : Database) (labelsHash : Labels → String) (w : Plane T) :
    Act T → Option (Plane T)
  | .ingest request now => some ((ingestMetricsRequest labelsHash w request now).getD w)
  | .deleteBatch limit cutoff => some (deleteBatch db w limit cutoff)

end Retention

section Series

structure TaskSeries where
  service : String
  environment : String
  task : String
  instanceId : UUID
  deriving DecidableEq

structure CustomSeries extends TaskSeries where
  metric : String
  kind : Kind
  labels : Labels
  deriving DecidableEq

structure TaskRuntimeAggregate where
  succeeded : ℕ := 0
  failed : ℕ := 0
  latestInflight : ℕ := 0
  latestAvgDurationMs : Option ℚ := none

structure CustomAggregate where
  kind : Kind
  total : ℚ := 0
  latestValue : ℚ := 0

variable {T : Type} [LinearOrder T]

def TaskMetricWindow.series (services : List (String × String)) (row : TaskMetricWindow T) :
    Option TaskSeries :=
  services[row.serviceId]?.map fun service => ⟨service.1,service.2,row.taskName,row.instanceId⟩

/-- How a database groups JSON columns. -/
def Database.jsonKey (db : Database) (labels : Labels) : Labels :=
  match db.dialect with
  | .sqlite => labels
  | .postgresql => sortFields labels

def TaskCustomMetricWindow.group (db : Database) (services : List (String × String))
    (row : TaskCustomMetricWindow T) : Option CustomSeries :=
  services[row.serviceId]?.map fun service =>
    {service := service.1
     environment := service.2
     task := row.taskName
     instanceId := row.instanceId
     metric := row.metricName
     kind := row.kind
     labels := db.jsonKey row.labels}

/-- The series of a group: its labels are sorted. -/
def CustomSeries.sorted (series : CustomSeries) : CustomSeries :=
  {series with labels := sortFields series.labels}

/-- A table joined with the services. -/
def joined {R S : Type} (series : R → Option S) (rows : List R) : List (S × R) :=
  rows.filterMap fun row => (series row).map fun s => (s,row)

/-- Of each partition the row that ended last, and of those the one created last. -/
def latestRows {R K : Type} [DecidableEq K] (db : Database) (partition : R → K)
    (stamp : R → T ×ₗ T) (rows : List R) : List R :=
  (rows.map partition).dedup.filterMap fun k =>
    latest stamp (db.arrange (rows.filter fun row => partition row = k))

/-- The gauges of a series are those of its latest window. -/
def setLatest (row : TaskMetricWindow T) (aggregate : Option TaskRuntimeAggregate) :
    TaskRuntimeAggregate :=
  {aggregate.getD {} with
    latestInflight := row.inflight
    latestAvgDurationMs := row.avgDurationMs}

def collectTaskRuntimeMetrics (db : Database) (w : Plane T) :
    List (TaskSeries × TaskRuntimeAggregate) :=
  let rows := joined (TaskMetricWindow.series w.services) w.metricWindows
  let totals := db.arrange ((rows.map Prod.fst).dedup.map fun s => (s,{
    succeeded := total Prod.fst (fun row => row.2.succeeded) rows s
    failed := total Prod.fst (fun row => row.2.failed) rows s : TaskRuntimeAggregate}))
  let found := latestRows db (fun row => (row.2.serviceId,row.2.taskName,row.2.instanceId))
    (fun row => toLex (row.2.endedAt,row.2.createdAt)) rows
  changeAll setLatest (db.arrange found) (collect totals)

def collectCustomMetrics (db : Database) (w : Plane T) : List (CustomSeries × CustomAggregate) :=
  let rows := joined (TaskCustomMetricWindow.group db w.services) w.customWindows
  let counters := rows.filter fun row => row.2.kind = .counter
  let totals := db.arrange ((groupTotals Prod.fst (fun row => row.2.value) counters).map
    fun pair => (pair.1.sorted,{kind := .counter,total := pair.2 : CustomAggregate}))
  let gauges := rows.filter fun row => row.2.kind = .gauge
  let found := latestRows db (fun row => ((row.2.serviceId,row.2.taskName,row.2.instanceId),
      row.2.metricName,row.2.kind,db.jsonKey row.2.labels))
    (fun row => toLex (row.2.endedAt,row.2.createdAt)) gauges
  collect (totals++(db.arrange found).map fun row =>
    (row.1.sorted,{kind := .gauge,latestValue := row.2.value : CustomAggregate}))

end Series

section Exposition

inductive Family where
  | succeeded | failed | inflight | duration | customCounter | customGauge
  deriving DecidableEq

def Family.all : List Family := [.succeeded,.failed,.inflight,.duration,.customCounter,.customGauge]

def Family.name : Family → String
  | .succeeded => "onestep_task_succeeded_total"
  | .failed => "onestep_task_failed_total"
  | .inflight => "onestep_task_inflight"
  | .duration => "onestep_task_duration_avg_ms"
  | .customCounter => "onestep_task_custom_counter_total"
  | .customGauge => "onestep_task_custom_gauge"

def Family.helpText : Family → String
  | .succeeded => "OneStep task deliveries that completed successfully."
  | .failed => "OneStep task deliveries that failed after retry policy handling."
  | .inflight => "Latest OneStep inflight delivery count reported by a task instance."
  | .duration => "Latest OneStep average task duration in milliseconds."
  | .customCounter => "Custom OneStep counter metrics reported by task handlers."
  | .customGauge => "Latest custom OneStep gauge metrics reported by task handlers."

def Family.metricType : Family → String
  | .succeeded => "counter"
  | .failed => "counter"
  | .inflight => "gauge"
  | .duration => "gauge"
  | .customCounter => "counter"
  | .customGauge => "gauge"

def runtimeLabels (series : TaskSeries) : Labels := [
  ("service",series.service),
  ("environment",series.environment),
  ("task",series.task),
  ("instance_id",String.ofList (uuidText series.instanceId))]

/-- The labels of the user are written over the others. -/
def customLabels (series : CustomSeries) : Labels :=
  series.labels.foldl (fun labels label => change label.1 (fun _ => label.2) labels)
    (runtimeLabels series.toTaskSeries++[("metric",series.metric)])

/-- What a line says: the labels are in the order of their names. -/
structure Sample where
  family : Family
  labels : Labels
  value : ℚ

def Sample.head (sample : Sample) : List Char :=
  sample.family.name.toList++formatLabels sample.labels

def Sample.line (formatNumber : ℚ → List Char) (sample : Sample) : List Char :=
  sample.head++ ' '::formatNumber sample.value

def labelsLe (a b : Labels) : Bool := decide (a.map toLex ≤ b.map toLex)

/-- The samples of `_append_metric_family`, of which those without a value are left out. -/
def sampled (family : Family) (samples : List (Labels × Option ℚ)) : List Sample :=
  (samples.mergeSort fun a b => labelsLe (sortFields a.1) (sortFields b.1)).filterMap fun sample =>
    sample.2.map fun value => ⟨family,sortFields sample.1,value⟩

variable {T : Type} [LinearOrder T]

def samples (db : Database) (w : Plane T) : Family → List Sample
  | .succeeded => sampled .succeeded ((collectTaskRuntimeMetrics db w).map fun pair =>
    (runtimeLabels pair.1,some (pair.2.succeeded : ℚ)))
  | .failed => sampled .failed ((collectTaskRuntimeMetrics db w).map fun pair =>
    (runtimeLabels pair.1,some (pair.2.failed : ℚ)))
  | .inflight => sampled .inflight ((collectTaskRuntimeMetrics db w).map fun pair =>
    (runtimeLabels pair.1,some (pair.2.latestInflight : ℚ)))
  | .duration => sampled .duration (((collectTaskRuntimeMetrics db w).filter fun pair =>
    pair.2.latestAvgDurationMs.isSome).map fun pair =>
    (runtimeLabels pair.1,pair.2.latestAvgDurationMs))
  | .customCounter => sampled .customCounter (((collectCustomMetrics db w).filter fun pair =>
    pair.2.kind = .counter).map fun pair => (customLabels pair.1,some pair.2.total))
  | .customGauge => sampled .customGauge (((collectCustomMetrics db w).filter fun pair =>
    pair.2.kind = .gauge).map fun pair => (customLabels pair.1,some pair.2.latestValue))

def appendMetricFamily (formatNumber : ℚ → List Char) (family : Family) (samples : List Sample) :
    List (List Char) :=
  ("# HELP "++family.name++" "++family.helpText).toList::
    ("# TYPE "++family.name++" "++family.metricType).toList::samples.map (Sample.line formatNumber)

def buildPrometheusMetrics (formatNumber : ℚ → List Char) (db : Database) (w : Plane T) :
    List Char :=
  [Char.ofNat 10].intercalate (Family.all.flatMap fun family =>
    appendMetricFamily formatNumber family (samples db w family))++[Char.ofNat 10]

theorem sample_head (formatNumber : ℚ → List Char) (sample : Sample) :
    (sample.line formatNumber).head? = some 'o' := by
  have hname : sample.family.name.toList.head? = some 'o' := by
    cases sample.family <;> rfl
  rw [Sample.line,Sample.head,List.append_assoc,List.head?_append,hname,Option.some_or]

theorem family_lines (formatNumber : ℚ → List Char) (family : Family) (samples : List Sample) :
    ((appendMetricFamily formatNumber family samples).filter fun line => line.head? ≠ some '#') =
      samples.map (Sample.line formatNumber) := by
  rw [appendMetricFamily,List.filter_cons_of_neg (by simp),
    List.filter_cons_of_neg (by simp),List.filter_eq_self]
  intro line hline
  obtain ⟨sample,-,rfl⟩ := List.mem_map.mp hline
  rw [sample_head]
  decide

/-- The lines of the exposition that are no comments are those of its samples. -/
theorem sample_lines (formatNumber : ℚ → List Char) (db : Database) (w : Plane T) :
    ((Family.all.flatMap fun family => appendMetricFamily formatNumber family
      (samples db w family)).filter fun line => line.head? ≠ some '#') =
        (Family.all.flatMap (samples db w)).map (Sample.line formatNumber) := by
  rw [List.filter_flatMap,List.map_flatMap]
  exact congrArg (List.flatMap · Family.all)
    (funext fun family => family_lines formatNumber family (samples db w family))

end Exposition

section Stored
variable {T : Type} [LinearOrder T]

def taskRows (w : Plane T) : List (TaskSeries × TaskMetricWindow T) :=
  joined (TaskMetricWindow.series w.services) w.metricWindows

/-- The series of a custom window, whatever the order of its labels. -/
def TaskCustomMetricWindow.series (services : List (String × String))
    (row : TaskCustomMetricWindow T) : Option CustomSeries :=
  services[row.serviceId]?.map fun service =>
    {service := service.1
     environment := service.2
     task := row.taskName
     instanceId := row.instanceId
     metric := row.metricName
     kind := row.kind
     labels := sortFields row.labels}

def customRows (w : Plane T) : List (CustomSeries × TaskCustomMetricWindow T) :=
  joined (TaskCustomMetricWindow.series w.services) w.customWindows

def storedTasks (w : Plane T) : List TaskSeries := ((taskRows w).map Prod.fst).dedup

def storedCustom (w : Plane T) (kind : Kind) : List CustomSeries :=
  (((customRows w).filter fun row => row.1.kind = kind).map Prod.fst).dedup

def TaskSeries.labelSet (series : TaskSeries) : Labels := sortFields (runtimeLabels series)

def CustomSeries.labelSet (series : CustomSeries) : Labels :=
  sortFields (runtimeLabels series.toTaskSeries++("metric",series.metric)::series.labels)

def windowSum (count : TaskMetricWindow T → ℕ) (w : Plane T) (series : TaskSeries) : ℕ :=
  total Prod.fst (fun row => count row.2) (taskRows w) series

def customSum (w : Plane T) (series : CustomSeries) : ℚ :=
  total Prod.fst (fun row => row.2.value) (customRows w) series

/-- No window of the series ended or was created later. -/
def IsLatest (w : Plane T) (series : TaskSeries) (row : TaskMetricWindow T) : Prop :=
  Greatest (fun row : TaskSeries × TaskMetricWindow T => toLex (row.2.endedAt,row.2.createdAt))
    ((taskRows w).filter fun row => row.1 = series) (series,row)

/-- Lines do not repeat, each family has one line with the very labels of each of its series and
no other, and the counters are the sums of the windows. -/
structure Faithful (db : Database) (w : Plane T) : Prop where
  unique : ((Family.all.flatMap (samples db w)).map Sample.head).Nodup
  succeeded : (samples db w .succeeded).Perm ((storedTasks w).map fun series =>
    ⟨.succeeded,series.labelSet,(windowSum TaskMetricWindow.succeeded w series : ℚ)⟩)
  failed : (samples db w .failed).Perm ((storedTasks w).map fun series =>
    ⟨.failed,series.labelSet,(windowSum TaskMetricWindow.failed w series : ℚ)⟩)
  inflight : ((samples db w .inflight).map Sample.labels).Perm
    ((storedTasks w).map TaskSeries.labelSet)
  duration : ∀ labels ∈ (samples db w .duration).map Sample.labels, ∃ series ∈ storedTasks w,
    labels = series.labelSet ∧ ∃ row, IsLatest w series row ∧ row.avgDurationMs ≠ none
  durations : ∀ series ∈ storedTasks w, (∀ row, IsLatest w series row → row.avgDurationMs ≠ none) →
    series.labelSet ∈ (samples db w .duration).map Sample.labels
  customCounter : (samples db w .customCounter).Perm ((storedCustom w .counter).map fun series =>
    ⟨.customCounter,series.labelSet,customSum w series⟩)
  customGauge : ((samples db w .customGauge).map Sample.labels).Perm
    ((storedCustom w .gauge).map CustomSeries.labelSet)

/-- A counter exposed at both times is no less at the second. -/
def NeverDecreases (db : Database) (w w' : Plane T) : Prop :=
  ∀ family, family.metricType = "counter" → ∀ sample ∈ samples db w family,
    ∀ sample' ∈ samples db w' family, sample.labels = sample'.labels → sample.value ≤ sample'.value

/-- The counter windows of a series have their labels in orders that the database does not tell
apart. -/
def OneOrder (db : Database) (w : Plane T) : Prop :=
  ∀ row ∈ w.customWindows, ∀ row' ∈ w.customWindows, row.kind = .counter →
    row.series w.services = row'.series w.services → db.jsonKey row.labels = db.jsonKey row'.labels

/-- A batch deletes windows that counted nothing, and a request leaves one order to a series. -/
def Keeps (db : Database) (labelsHash : Labels → String) (w : Plane T) : Act T → Prop
  | .ingest request now =>
    ∀ w', ingestMetricsRequest labelsHash w request now = some w' → OneOrder db w'
  | .deleteBatch limit cutoff =>
    ∀ row ∈ retentionBatch db w limit cutoff, row.succeeded = 0 ∧ row.failed = 0

end Stored

end OneStep.PrometheusExposition
