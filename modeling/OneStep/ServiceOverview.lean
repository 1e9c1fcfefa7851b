import OneStep.GroupedTotals
import OneStep.JsonValues
import Mathlib.Algebra.GroupWithZero.Nat
import Mathlib.Algebra.Order.Ring.Rat
import Mathlib.Data.List.Sort
import Mathlib.Data.Prod.Lex
import Mathlib.Data.String.Basic

/-!
# The service list and the dashboard of a service

The list aggregates events and metric windows by service, the dashboard by task and then over
the tasks that it shows: those that are defined or reported by an online instance, or all of
them when no task is defined. The totals of the list are counted over the services that the
request asks for, but for the tasks, which are counted over all.
-/
namespace OneStep.ServiceOverview
open GroupedTotals JsonValues

section Tables

structure Service where
  id : ℕ
  name : String
  environment : String

structure TaskDefinition where
  serviceId : ℕ
  taskName : String
  sourceKind : Option String

inductive TaskEventKind where
  | started | failed | retried | deadLettered | cancelled | succeeded
  deriving DecidableEq

/-- `TASK_FAILING_EVENT_KINDS`. -/
def taskFailingEventKinds : List TaskEventKind := [.failed,.deadLettered]

structure TaskEvent (T : Type) where
  serviceId : ℕ
  taskName : String
  kind : TaskEventKind
  occurredAt : T
  deriving DecidableEq

structure TaskMetricWindow (T : Type) where
  serviceId : ℕ
  taskName : String
  windowStartedAt : T
  windowEndedAt : T
  fetched : ℕ
  started : ℕ
  succeeded : ℕ
  retried : ℕ
  failed : ℕ
  deadLettered : ℕ
  cancelled : ℕ
  timeouts : ℕ

structure Instance (T : Type) where
  serviceId : ℕ
  lastSeenAt : Option T
  lastSyncAt : Option T
  createdAt : T
  appSnapshotJson : Json

structure Tables (T : Type) where
  services : List Service
  definitions : List TaskDefinition
  events : List (TaskEvent T)
  windows : List (TaskMetricWindow T)
  instances : List (Instance T)
  uniqueIds : (services.map Service.id).Nodup

/-- What a request looks back over: events and windows since a time, as so many minutes. -/
structure Lookback (T : Type) where
  startedAt : T
  minutes : ℤ

structure Cutoffs (T : Type) where
  online : T
  health : T

end Tables

section Derived
variable {T : Type} [LinearOrder T]

/-- `instance_last_activity_expression`. -/
def Instance.lastActivity (row : Instance T) : T :=
  match row.lastSeenAt,row.lastSyncAt with
  | none,none => row.createdAt
  | none,some sync => sync
  | some seen,none => seen
  | some seen,some sync => if sync ≤ seen then seen else sync

def Instance.participatesInHealth (cutoff : T) (row : Instance T) : Bool :=
  cutoff ≤ row.lastActivity

def Instance.isOnline (cutoff : T) (row : Instance T) : Bool :=
  match row.lastSeenAt with
  | none => false
  | some seen => cutoff ≤ seen

def instancesOf (t : Tables T) (serviceId : ℕ) : List (Instance T) :=
  t.instances.filter fun row => row.serviceId = serviceId

def instanceCount (t : Tables T) (cutoffs : Cutoffs T) (serviceId : ℕ) : ℕ :=
  (instancesOf t serviceId).countP (Instance.participatesInHealth cutoffs.health)

def onlineInstanceCount (t : Tables T) (cutoffs : Cutoffs T) (serviceId : ℕ) : ℕ :=
  (instancesOf t serviceId).countP (Instance.isOnline cutoffs.online)

def lastSeenAt (t : Tables T) (serviceId : ℕ) : Option T :=
  ((instancesOf t serviceId).filterMap Instance.lastSeenAt).max?

inductive ServiceListStatus where
  | online | attention | offline
  deriving DecidableEq

def deriveServiceListStatus (instanceCount onlineInstanceCount : ℕ) : ServiceListStatus :=
  if onlineInstanceCount = 0 then .offline
  else if onlineInstanceCount < instanceCount then .attention
  else .online

inductive ServiceViewStatus where
  | running | degraded | stopped
  deriving DecidableEq

def deriveServiceViewStatus (status : ServiceListStatus) (onlineInstanceCount : ℕ) :
    ServiceViewStatus :=
  if onlineInstanceCount = 0 then .stopped
  else
    match status with
    | .online => .running
    | .attention => .degraded
    | .offline => .stopped

/-- `compute_success_rate`, given how a share is rounded as a percentage. -/
def computeSuccessRate (percent : ℕ → ℕ → ℚ) (succeeded failed deadLettered cancelled : ℕ) : ℚ :=
  let total := succeeded+failed+deadLettered+cancelled
  if total = 0 then 100 else percent succeeded total

def computeThroughputPerMin (fetched : ℕ) (lookbackMinutes : ℤ) : ℤ :=
  if lookbackMinutes ≤ 0 then 0 else fetched/lookbackMinutes

def computeErrorCount (failed deadLettered timeouts : ℕ) : ℕ := failed+deadLettered+timeouts

structure ServiceSummary (T : Type) where
  name : String
  environment : String
  serviceStatus : ServiceListStatus
  instanceCount : ℕ
  onlineInstanceCount : ℕ
  lastSeenAt : Option T
  sourceKinds : List String
  taskCount : ℕ
  failingTaskCount : ℕ
  viewStatus : ServiceViewStatus
  successRate : ℚ
  throughputPerMin : ℤ
  errorCount : ℕ
  onlineTaskCount : ℕ
  standbyInstanceCount : ℕ

def buildServiceSummary (service : Service) (instanceCount onlineInstanceCount : ℕ)
    (lastSeenAt : Option T) (sourceKinds : List String) (taskCount failingTaskCount : ℕ)
    (successRate : ℚ) (throughputPerMin : ℤ) (errorCount : ℕ) : ServiceSummary T where
  name := service.name
  environment := service.environment
  serviceStatus := deriveServiceListStatus instanceCount onlineInstanceCount
  instanceCount := instanceCount
  onlineInstanceCount := onlineInstanceCount
  lastSeenAt := lastSeenAt
  sourceKinds := sourceKinds
  taskCount := taskCount
  failingTaskCount := failingTaskCount
  viewStatus := deriveServiceViewStatus
    (deriveServiceListStatus instanceCount onlineInstanceCount) onlineInstanceCount
  successRate := successRate
  throughputPerMin := throughputPerMin
  errorCount := errorCount
  onlineTaskCount := if 0 < onlineInstanceCount then taskCount-failingTaskCount else 0
  standbyInstanceCount := instanceCount-onlineInstanceCount

end Derived

section ServiceMaps
variable {T : Type} [LinearOrder T]

def recentWindows (t : Tables T) (lookbackStartedAt : T) : List (TaskMetricWindow T) :=
  t.windows.filter fun row => lookbackStartedAt ≤ row.windowEndedAt

def recentFailures (t : Tables T) (lookbackStartedAt : T) : List (TaskEvent T) :=
  t.events.filter fun row => row.kind ∈ taskFailingEventKinds ∧ lookbackStartedAt ≤ row.occurredAt

structure ServiceMetricAggregates where
  fetched : ℕ
  succeeded : ℕ
  failed : ℕ
  deadLettered : ℕ
  cancelled : ℕ
  timeouts : ℕ

def buildServiceMetricAggregatesMap (t : Tables T) (lookbackStartedAt : T) :
    List (ℕ × ServiceMetricAggregates) :=
  let rows := recentWindows t lookbackStartedAt
  (rows.map TaskMetricWindow.serviceId).dedup.map fun id => (id,{
    fetched := total TaskMetricWindow.serviceId TaskMetricWindow.fetched rows id
    succeeded := total TaskMetricWindow.serviceId TaskMetricWindow.succeeded rows id
    failed := total TaskMetricWindow.serviceId TaskMetricWindow.failed rows id
    deadLettered := total TaskMetricWindow.serviceId TaskMetricWindow.deadLettered rows id
    cancelled := total TaskMetricWindow.serviceId TaskMetricWindow.cancelled rows id
    timeouts := total TaskMetricWindow.serviceId TaskMetricWindow.timeouts rows id})

/-- `COUNT(DISTINCT task_name)` of the rows of each service. -/
def distinctTasks {R : Type} (serviceId : R → ℕ) (taskName : R → String) (rows : List R) :
    List (ℕ × ℕ) :=
  (rows.map serviceId).dedup.map fun id =>
    (id,((rows.filter fun row => serviceId row = id).map taskName).dedup.length)

def buildServiceFailingTaskCountsMap (t : Tables T) (lookbackStartedAt : T) : List (ℕ × ℕ) :=
  distinctTasks TaskEvent.serviceId TaskEvent.taskName (recentFailures t lookbackStartedAt)

def buildTaskCountsMap (t : Tables T) : List (ℕ × ℕ) :=
  distinctTasks TaskDefinition.serviceId TaskDefinition.taskName t.definitions

def buildServiceErrorCountsMap (t : Tables T) (lookbackStartedAt : T) : List (ℕ × ℕ) :=
  let eventCounts := groupTotals TaskEvent.serviceId (fun _ => 1)
    (recentFailures t lookbackStartedAt)
  let timeoutByService := groupTotals TaskMetricWindow.serviceId TaskMetricWindow.timeouts
    (recentWindows t lookbackStartedAt)
  (eventCounts.map Prod.fst++timeoutByService.map Prod.fst).dedup.map fun id =>
    (id,(eventCounts.lookup id).getD 0+(timeoutByService.lookup id).getD 0)

def sourceKindRows (t : Tables T) : List (ℕ × String) :=
  t.definitions.filterMap fun row => row.sourceKind.map fun kind => (row.serviceId,kind)

def buildSourceKindsMap (t : Tables T) : List (ℕ × List String) :=
  ((sourceKindRows t).map Prod.fst).dedup.map fun id =>
    (id,(((sourceKindRows t).filter fun row => row.1 = id).map Prod.snd).dedup.insertionSort
      fun a b => a ≤ b)

def buildSourceKindCountsMap (t : Tables T) (environment : Option String) : List (String × ℕ) :=
  let rows := (sourceKindRows t).filter fun row => environment.all fun wanted =>
    t.services.any fun service => service.id = row.1 && service.environment = wanted
  (rows.map Prod.snd).dedup.map fun kind =>
    (kind,((rows.filter fun row => row.2 = kind).map Prod.fst).dedup.length)

end ServiceMaps

section ServiceList
variable {T : Type} [LinearOrder T]

/-- `q.strip().lower()`, and how the database finds a text in the lower case of a name. -/
structure Texts where
  normalize : String → String
  contains : String → String → Bool

structure ServicesRequest where
  environment : Option String
  sourceKind : Option String
  q : Option String
  limit : ℕ
  offset : ℕ

def ServicesRequest.normalizedQuery (texts : Texts) (request : ServicesRequest) : String :=
  match request.q with
  | none => ""
  | some q => texts.normalize q

def serviceIdsWithKind (t : Tables T) (kind : String) : List ℕ :=
  ((buildSourceKindsMap t).filter fun pair => kind ∈ pair.2).map Prod.fst

def matchesRequest (texts : Texts) (t : Tables T) (request : ServicesRequest) (service : Service) :
    Bool :=
  (request.environment.all fun environment => service.environment = environment) &&
  (request.normalizedQuery texts = "" ||
    texts.contains service.name (request.normalizedQuery texts)) &&
  request.sourceKind.all fun kind => service.id ∈ serviceIdsWithKind t kind

def matchingServices (texts : Texts) (t : Tables T) (request : ServicesRequest) : List Service :=
  t.services.filter (matchesRequest texts t request)

def serviceItem (percent : ℕ → ℕ → ℚ) (t : Tables T) (cutoffs : Cutoffs T)
    (lookback : Lookback T) (service : Service) : ServiceSummary T :=
  let aggregates := (buildServiceMetricAggregatesMap t lookback.startedAt).lookup service.id
  buildServiceSummary service (instanceCount t cutoffs service.id)
    (onlineInstanceCount t cutoffs service.id) (lastSeenAt t service.id)
    (((buildSourceKindsMap t).lookup service.id).getD [])
    (((buildTaskCountsMap t).lookup service.id).getD 0)
    (((buildServiceFailingTaskCountsMap t lookback.startedAt).lookup service.id).getD 0)
    (match aggregates with
      | none => 100
      | some a => computeSuccessRate percent a.succeeded a.failed a.deadLettered a.cancelled)
    (match aggregates with
      | none => 0
      | some a => computeThroughputPerMin a.fetched lookback.minutes)
    (((buildServiceErrorCountsMap t lookback.startedAt).lookup service.id).getD 0)

structure ServiceListSummary where
  totalServices : ℕ
  onlineServices : ℕ
  attentionServices : ℕ
  offlineServices : ℕ
  readyServices : ℕ
  totalInstances : ℕ
  onlineInstances : ℕ
  totalTasks : ℕ
  failingTasks : ℕ

def buildServiceListSummary (items : List (ServiceSummary T)) : ServiceListSummary where
  totalServices := items.length
  onlineServices := items.countP fun item => item.serviceStatus = .online
  attentionServices := items.countP fun item => item.serviceStatus = .attention
  offlineServices := items.countP fun item => item.serviceStatus = .offline
  readyServices := items.countP fun item => item.serviceStatus = .online
  totalInstances := (items.map ServiceSummary.instanceCount).sum
  onlineInstances := (items.map ServiceSummary.onlineInstanceCount).sum
  totalTasks := (items.map ServiceSummary.taskCount).sum
  failingTasks := (items.map ServiceSummary.failingTaskCount).sum

structure ServiceListResponse (T : Type) where
  items : List (ServiceSummary T)
  total : ℕ
  limit : ℕ
  offset : ℕ
  sourceKindCounts : List (String × ℕ)
  summary : ServiceListSummary

/-- Running services come first. -/
def servicePriority (t : Tables T) (cutoffs : Cutoffs T) (service : Service) : ℕ :=
  let online := onlineInstanceCount t cutoffs service.id
  if 0 < online ∧ online = instanceCount t cutoffs service.id then 0
  else if 0 < online then 1
  else 2

/-- The summary that the database computes over services. -/
def summaryOf (t : Tables T) (cutoffs : Cutoffs T) (lookback : Lookback T)
    (services : List Service) : ServiceListSummary where
  totalServices := services.length
  onlineServices := services.countP fun service =>
    0 < onlineInstanceCount t cutoffs service.id ∧
      onlineInstanceCount t cutoffs service.id = instanceCount t cutoffs service.id
  attentionServices := services.countP fun service =>
    0 < onlineInstanceCount t cutoffs service.id ∧
      onlineInstanceCount t cutoffs service.id < instanceCount t cutoffs service.id
  offlineServices := services.countP fun service => onlineInstanceCount t cutoffs service.id = 0
  readyServices := services.countP fun service =>
    0 < onlineInstanceCount t cutoffs service.id ∧
      onlineInstanceCount t cutoffs service.id = instanceCount t cutoffs service.id
  totalInstances := (services.map fun service => instanceCount t cutoffs service.id).sum
  onlineInstances := (services.map fun service => onlineInstanceCount t cutoffs service.id).sum
  totalTasks := ((buildTaskCountsMap t).map Prod.snd).sum
  failingTasks := ((buildServiceFailingTaskCountsMap t lookback.startedAt).map Prod.snd).sum

/-- No service has the source kind that the request asks for. -/
def noneWithKind (t : Tables T) (request : ServicesRequest) : Bool :=
  request.sourceKind.any fun kind => serviceIdsWithKind t kind = []

def listServices (percent : ℕ → ℕ → ℚ) (texts : Texts) (t : Tables T) (cutoffs : Cutoffs T)
    (lookback : Lookback T) (request : ServicesRequest) : ServiceListResponse T :=
  if noneWithKind t request then {
    items := []
    total := 0
    limit := request.limit
    offset := request.offset
    sourceKindCounts := buildSourceKindCountsMap t request.environment
    summary := buildServiceListSummary ([] : List (ServiceSummary T))}
  else
    let services := matchingServices texts t request
    let ordered := services.insertionSort fun a b =>
      toLex (servicePriority t cutoffs a,toLex (a.environment,a.name)) ≤
        toLex (servicePriority t cutoffs b,toLex (b.environment,b.name))
    {items := ((ordered.drop request.offset).take request.limit).map
        (serviceItem percent t cutoffs lookback)
     total := services.length
     limit := request.limit
     offset := request.offset
     sourceKindCounts := buildSourceKindCountsMap t request.environment
     summary := summaryOf t cutoffs lookback services}

end ServiceList

section TaskSummaries
variable {T : Type} [LinearOrder T]

inductive TaskViewStatus where
  | paused | failed | running | offline | idle
  deriving DecidableEq

def deriveTaskViewStatus (onlineInstanceCount : ℕ) (pauseRequested : Option Bool)
    (errorCount started succeeded : ℕ) : TaskViewStatus :=
  if pauseRequested = some true then .paused
  else if 0 < errorCount then .failed
  else if 0 < started ∨ 0 < succeeded then .running
  else if onlineInstanceCount = 0 then .offline
  else .idle

structure TaskDashboardSummary (T : Type) where
  sourceKind : Option String := none
  metricWindowCount : ℕ := 0
  latestWindowStartedAt : Option T := none
  latestWindowEndedAt : Option T := none
  fetched : ℕ := 0
  started : ℕ := 0
  succeeded : ℕ := 0
  retried : ℕ := 0
  failed : ℕ := 0
  deadLettered : ℕ := 0
  cancelled : ℕ := 0
  timeouts : ℕ := 0
  lastEventAt : Option T := none
  eventCounts : TaskEventKind → ℕ := fun _ => 0
  pauseRequested : Option Bool := none
  supportedCommands : List String := []
  errorCount : ℕ := 0
  successRate : ℚ := 100
  throughputPerMin : ℤ := 0
  viewStatus : TaskViewStatus := .idle

def field (key : String) : Json → Option Json
  | .obj fields => fields.lookup key
  | _ => none

/-- The task control states of a snapshot that are objects with a task name. -/
def taskControlStates (snapshot : Json) : List (String × Json) :=
  match field "task_control_states" snapshot with
  | some (.arr values) => values.filterMap fun value =>
    match field "task_name" value with
    | some (.str name) => some (name,value)
    | _ => none
  | _ => []

def onlineStates (t : Tables T) (serviceId : ℕ) (cutoff : T) : List (String × Json) :=
  ((instancesOf t serviceId).filter (Instance.isOnline cutoff)).flatMap fun row =>
    taskControlStates row.appSnapshotJson

def buildOnlineTaskSnapshotNameSet (t : Tables T) (serviceId : ℕ) (cutoff : T) : List String :=
  ((onlineStates t serviceId cutoff).map Prod.fst).dedup

def coerceBool (value : Json) (key : String) : Option Bool :=
  match field key value with
  | some (.bool b) => some b
  | _ => none

def buildTaskPauseRequestedMap (t : Tables T) (serviceId : ℕ) (cutoff : T) :
    List (String × Bool) :=
  changeAll (fun value known =>
    if coerceBool value "pause_requested" = some true then true else known.getD false)
    (onlineStates t serviceId cutoff) []

def definitionsOf (t : Tables T) (serviceId : ℕ) : List TaskDefinition :=
  (t.definitions.filter fun row => row.serviceId = serviceId).insertionSort fun a b =>
    a.taskName ≤ b.taskName

/-- The tasks that the dashboard shows; none when it shows all. -/
def allowedTaskNames (t : Tables T) (serviceId : ℕ) (cutoff : T) : Option (List String) :=
  if definitionsOf t serviceId = [] then none
  else some ((definitionsOf t serviceId).map TaskDefinition.taskName++
    buildOnlineTaskSnapshotNameSet t serviceId cutoff)

def shouldIncludeTask (allowed : Option (List String)) (taskName : String) : Bool :=
  allowed.all fun names => taskName ∈ names

/-- A row of a task changes its summary, which is made if there is none and the task is shown. -/
def upsert {B : Type} (allowed : Option (List String))
    (f : B → TaskDashboardSummary T → TaskDashboardSummary T)
    (summaries : List (String × TaskDashboardSummary T)) (row : String × B) :
    List (String × TaskDashboardSummary T) :=
  if row.1 ∈ summaries.map Prod.fst ∨ shouldIncludeTask allowed row.1 = true then
    change row.1 (fun summary => f row.2 (summary.getD {})) summaries
  else summaries

structure MetricRow (T : Type) where
  count : ℕ
  latestStartedAt : Option T
  latestEndedAt : Option T
  fetched : ℕ
  started : ℕ
  succeeded : ℕ
  retried : ℕ
  failed : ℕ
  deadLettered : ℕ
  cancelled : ℕ
  timeouts : ℕ

def windowsOf (t : Tables T) (serviceId : ℕ) (lookbackStartedAt : T) : List (TaskMetricWindow T) :=
  t.windows.filter fun row => row.serviceId = serviceId ∧ lookbackStartedAt ≤ row.windowEndedAt

def eventsOf (t : Tables T) (serviceId : ℕ) (lookbackStartedAt : T) : List (TaskEvent T) :=
  t.events.filter fun row => row.serviceId = serviceId ∧ lookbackStartedAt ≤ row.occurredAt

/-- The windows of a service, grouped by task. -/
def metricRows (rows : List (TaskMetricWindow T)) : List (String × MetricRow T) :=
  (rows.map TaskMetricWindow.taskName).dedup.map fun name => (name,{
    count := total TaskMetricWindow.taskName (fun _ => 1) rows name
    latestStartedAt := ((rows.filter fun row => row.taskName = name).map
      TaskMetricWindow.windowStartedAt).max?
    latestEndedAt := ((rows.filter fun row => row.taskName = name).map
      TaskMetricWindow.windowEndedAt).max?
    fetched := total TaskMetricWindow.taskName TaskMetricWindow.fetched rows name
    started := total TaskMetricWindow.taskName TaskMetricWindow.started rows name
    succeeded := total TaskMetricWindow.taskName TaskMetricWindow.succeeded rows name
    retried := total TaskMetricWindow.taskName TaskMetricWindow.retried rows name
    failed := total TaskMetricWindow.taskName TaskMetricWindow.failed rows name
    deadLettered := total TaskMetricWindow.taskName TaskMetricWindow.deadLettered rows name
    cancelled := total TaskMetricWindow.taskName TaskMetricWindow.cancelled rows name
    timeouts := total TaskMetricWindow.taskName TaskMetricWindow.timeouts rows name})

def setMetrics (row : MetricRow T) (summary : TaskDashboardSummary T) : TaskDashboardSummary T :=
  {summary with
    metricWindowCount := row.count
    latestWindowStartedAt := row.latestStartedAt
    latestWindowEndedAt := row.latestEndedAt
    fetched := row.fetched
    started := row.started
    succeeded := row.succeeded
    retried := row.retried
    failed := row.failed
    deadLettered := row.deadLettered
    cancelled := row.cancelled
    timeouts := row.timeouts}

/-- The events of a service, grouped by task. -/
def eventRows (rows : List (TaskEvent T)) : List (String × Option T × (TaskEventKind → ℕ)) :=
  (rows.map TaskEvent.taskName).dedup.map fun name =>
    (name,((rows.filter fun row => row.taskName = name).map TaskEvent.occurredAt).max?,fun kind =>
      total TaskEvent.taskName (fun row => if row.kind = kind then 1 else 0) rows name)

def setEvents (row : Option T × (TaskEventKind → ℕ)) (summary : TaskDashboardSummary T) :
    TaskDashboardSummary T :=
  {summary with
    lastEventAt := row.1
    eventCounts := row.2}

def finalizeTaskSummary (percent : ℕ → ℕ → ℚ) (lookbackMinutes : ℤ) (onlineInstanceCount : ℕ)
    (summary : TaskDashboardSummary T) : TaskDashboardSummary T :=
  let errorCount := computeErrorCount (summary.eventCounts .failed)
    (summary.eventCounts .deadLettered) summary.timeouts
  {summary with
    errorCount := errorCount
    successRate := computeSuccessRate percent summary.succeeded summary.failed
      summary.deadLettered summary.cancelled
    throughputPerMin := computeThroughputPerMin summary.fetched lookbackMinutes
    viewStatus := deriveTaskViewStatus onlineInstanceCount summary.pauseRequested errorCount
      summary.started summary.succeeded}

/-- The summaries of the tasks that are defined or, beside those, reported. -/
def startSummaries (t : Tables T) (serviceId : ℕ) (cutoff : T) :
    List (String × TaskDashboardSummary T) :=
  let definitions := definitionsOf t serviceId
  let summaries := collect (definitions.map fun row =>
    (row.taskName,({sourceKind := row.sourceKind} : TaskDashboardSummary T)))
  if definitions = [] then summaries
  else summaries++(((buildOnlineTaskSnapshotNameSet t serviceId cutoff).filter fun name =>
    name ∉ summaries.map Prod.fst).insertionSort fun a b => a ≤ b).map fun name =>
      (name,({} : TaskDashboardSummary T))

/-- The summaries before the derived fields; the commands that are supported come with the tasks
of the online instances that have an agent session. -/
def collectSummaries (t : Tables T) (serviceId : ℕ) (lookbackStartedAt cutoff : T)
    (supportedCommands : List (String × List String)) : List (String × TaskDashboardSummary T) :=
  let allowed := allowedTaskNames t serviceId cutoff
  let summaries := (metricRows (windowsOf t serviceId lookbackStartedAt)).foldl
    (upsert allowed setMetrics) (startSummaries t serviceId cutoff)
  let summaries := (eventRows (eventsOf t serviceId lookbackStartedAt)).foldl
    (upsert allowed setEvents) summaries
  let summaries := (buildTaskPauseRequestedMap t serviceId cutoff).foldl
    (upsert allowed fun paused summary => {summary with pauseRequested := some paused}) summaries
  supportedCommands.foldl
    (upsert allowed fun commands summary => {summary with supportedCommands := commands}) summaries

def buildTaskSummaryMap (percent : ℕ → ℕ → ℚ) (t : Tables T) (serviceId : ℕ)
    (lookback : Lookback T) (cutoff : T) (supportedCommands : List (String × List String))
    (onlineInstanceCount : ℕ) : List (String × TaskDashboardSummary T) :=
  (collectSummaries t serviceId lookback.startedAt cutoff supportedCommands).map fun pair =>
    (pair.1,finalizeTaskSummary percent lookback.minutes onlineInstanceCount pair.2)

def augmentServiceSummaryFromTasks (percent : ℕ → ℕ → ℚ) (lookbackMinutes : ℤ)
    (tasks : List (TaskDashboardSummary T)) (summary : ServiceSummary T) : ServiceSummary T :=
  let failingTaskCount := tasks.countP fun task => 0 < task.errorCount
  {summary with
    successRate := computeSuccessRate percent (tasks.map TaskDashboardSummary.succeeded).sum
      (tasks.map TaskDashboardSummary.failed).sum
      (tasks.map TaskDashboardSummary.deadLettered).sum
      (tasks.map TaskDashboardSummary.cancelled).sum
    errorCount := (tasks.map TaskDashboardSummary.errorCount).sum
    failingTaskCount := failingTaskCount
    taskCount := tasks.length
    onlineTaskCount := if 0 < summary.onlineInstanceCount then tasks.length-failingTaskCount else 0
    throughputPerMin := computeThroughputPerMin (tasks.map TaskDashboardSummary.fetched).sum
      lookbackMinutes}

def dashboardSummary (percent : ℕ → ℕ → ℚ) (t : Tables T) (cutoffs : Cutoffs T)
    (lookback : Lookback T) (cutoff : T) (supportedCommands : List (String × List String))
    (service : Service) : ServiceSummary T :=
  let summary := buildServiceSummary service (instanceCount t cutoffs service.id)
    (onlineInstanceCount t cutoffs service.id) (lastSeenAt t service.id) [] 0 0 100 0 0
  augmentServiceSummaryFromTasks percent lookback.minutes
    ((buildTaskSummaryMap percent t service.id lookback cutoff supportedCommands
      summary.onlineInstanceCount).map Prod.snd) summary

end TaskSummaries

end OneStep.ServiceOverview
