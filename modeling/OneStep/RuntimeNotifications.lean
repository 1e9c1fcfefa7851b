import OneStep.JsonValues
import OneStep.ScalarTexts
import OneStep.Transition

/-!
# Notifications of task events

A batch of task events is inserted and committed. Then the rows that are new are turned into
notifications: for each channel that concerns an event a delivery and its outbox row. An exception ends that
where it is raised; what was written before it is committed when the socket is closed, unless
the closing raises too. A batch that is sent again finds its rows already there.
-/
namespace OneStep.RuntimeNotifications
open JsonValues ScalarTexts

variable {T P : Type}

section Channels

inductive Environment where
  | dev | staging | prod
  deriving DecidableEq

inductive NotificationEventType where
  | taskStarted | taskSucceeded | taskFailed | taskMissedStart | instanceOnline | instanceOffline
  deriving DecidableEq

def stripped (s : String) : String := String.ofList (strip isSpace s.toList)

/-- `_normalize_required_string` of a text, nothing when it raises. -/
def normalizeRequiredString (s : String) : Option String :=
  if stripped s = "" then none else some (stripped s)

/-- The name of a stored scope is stripped and not empty. -/
structure ServiceScope where
  name : String
  environment : Environment
  normal : normalizeRequiredString name = some name

structure Channel where
  id : UUID
  enabled : Bool
  serviceScopes : List ServiceScope
  eventTypes : List NotificationEventType

/-- The table of channels, whose ids are a primary key. -/
structure Channels where
  rows : List Channel
  nodup : (rows.map Channel.id).Nodup

/-- `is_service_in_scope`, nothing when it raises. -/
def isServiceInScope (name : String) (environment : Environment) (scopes : List ServiceScope) :
    Option Bool :=
  (normalizeRequiredString name).map fun normalized =>
    scopes.any fun scope => scope.name = normalized && scope.environment = environment

def serviceMatchesChannel (channel : Channel) (name : String) (environment : Environment) :
    Option Bool :=
  if channel.serviceScopes.isEmpty then some true
  else isServiceInScope name environment channel.serviceScopes

/-- The comprehension of `_matching_channels_for_service` over the enabled channels. -/
def keepMatching (name : String) (environment : Environment) (eventType : NotificationEventType) :
    List Channel → Option (List Channel)
  | [] => some []
  | channel::channels =>
    if eventType ∈ channel.eventTypes then
      (serviceMatchesChannel channel name environment).bind fun kept =>
        (keepMatching name environment eventType channels).map fun rest =>
          if kept then channel::rest else rest
    else keepMatching name environment eventType channels

def matchingChannelsForService (channels : List Channel) (name : String)
    (environment : Environment) (eventType : NotificationEventType) : Option (List Channel) :=
  keepMatching name environment eventType (channels.filter Channel.enabled)

end Channels

section Events

inductive TaskEventKind where
  | started | failed | retried | deadLettered | cancelled | succeeded
  deriving DecidableEq

structure TaskFailureDescriptor where
  kind : String
  exceptionType : Option String
  message : Option String
  traceback : Option String

structure TaskEventRecord (T : Type) where
  eventId : String
  kind : TaskEventKind
  taskName : String
  occurredAt : T
  attempts : Option ℕ := none
  durationMs : Option ℕ := none
  failure : Option TaskFailureDescriptor := none
  metadata : List (String × Json) := []

structure EventsIngestRequest (T : Type) where
  serviceName : String
  serviceEnvironment : Environment
  instanceId : UUID
  events : List (TaskEventRecord T)

/-- A row of `task_events` with its service. -/
structure TaskEvent (T : Type) where
  eventId : String
  serviceName : String
  serviceEnvironment : Environment
  instanceId : UUID
  taskName : String
  kind : TaskEventKind
  occurredAt : T
  attempts : Option ℕ
  durationMs : Option ℕ
  failureKind : Option String
  exceptionType : Option String
  message : Option String
  traceback : Option String
  metaJson : List (String × Json)

def buildTaskEventPayload (request : EventsIngestRequest T) (event : TaskEventRecord T) :
    TaskEvent T where
  eventId := event.eventId
  serviceName := request.serviceName
  serviceEnvironment := request.serviceEnvironment
  instanceId := request.instanceId
  taskName := event.taskName
  kind := event.kind
  occurredAt := event.occurredAt
  attempts := event.attempts
  durationMs := event.durationMs
  failureKind := event.failure.map TaskFailureDescriptor.kind
  exceptionType := event.failure.bind TaskFailureDescriptor.exceptionType
  message := event.failure.bind TaskFailureDescriptor.message
  traceback := event.failure.bind TaskFailureDescriptor.traceback
  metaJson := event.metadata

/-- `dedupe_by_key` of the event ids: the first event of an id stays. -/
def dedupeByEventId : List (TaskEventRecord T) → List String → List (TaskEventRecord T)
  | [],_ => []
  | event::events,seen =>
    if event.eventId ∈ seen then dedupeByEventId events seen
    else event::dedupeByEventId events (event.eventId::seen)

end Events

section Notifications

structure NotificationFailureInfo where
  kind : Option String
  exceptionType : Option String
  message : Option String

structure NotificationMetricLine where
  label : String
  value : String

structure NotificationEventRecord (T : Type) where
  eventType : NotificationEventType
  serviceName : String
  serviceEnvironment : Environment
  taskName : String
  occurredAt : T
  eventId : String
  scheduledAt : Option T
  durationMs : Option ℕ
  attempts : Option ℕ
  instanceId : List Char
  failure : Option NotificationFailureInfo
  successSummary : Option String
  successMetrics : List NotificationMetricLine
  consoleUrl : Option String

/-- What the notifications are written with. Reading a time, `as_utc_datetime` of
`datetime.fromisoformat`, and building a payload are nothing when they raise. -/
structure Rendering (T P : Type) where
  readTime : List Char → Option T
  str : Json → String
  consoleUrl : String → String → Environment → Option String
  payload : Channel → NotificationEventRecord T → Option P

variable (rendering : Rendering T P)

def parseScheduledAt (raw : String) : Option (Option T) :=
  match strip isSpace raw.toList with
  | [] => some none
  | cs =>
    let cs := if cs.getLast? = some 'Z' then cs.dropLast++ "+00:00".toList else cs
    (rendering.readTime cs).map some

/-- `scheduled_at_from_meta`, nothing when it raises. -/
def scheduledAtFromMeta (metaJson : List (String × Json)) : Option (Option T) :=
  match metaJson.lookup "scheduled_at" with
  | none => some none
  | some .null => some none
  | some (.str raw) => parseScheduledAt rendering raw
  | some _ => none

def normalizeSuccessSummary : Option Json → Option String
  | some (.str raw) => normalizeRequiredString raw
  | _ => none

def normalizeSuccessMetricLine : Json → Option NotificationMetricLine
  | .obj fields =>
    match fields.lookup "label",fields.lookup "value" with
    | some (.str rawLabel),some rawValue =>
      (normalizeRequiredString rawLabel).bind fun label =>
        let value :=
          match rawValue with
          | .null | .obj _ | .arr _ => ""
          | .str raw => stripped raw
          | other => rendering.str other
        if value = "" then none else some ⟨label,value⟩
    | _,_ => none
  | _ => none

def parseSuccessNotificationPayload (metaJson : List (String × Json)) :
    Option String × List NotificationMetricLine :=
  match metaJson.lookup "notification" with
  | some (.obj notification) =>
    let summary := normalizeSuccessSummary (notification.lookup "summary")
    match notification.lookup "metrics" with
    | some (.arr metrics) => (summary,metrics.filterMap (normalizeSuccessMetricLine rendering))
    | _ => (summary,[])
  | _ => (none,[])

def eventTypeMap : TaskEventKind → Option NotificationEventType
  | .started => some .taskStarted
  | .succeeded => some .taskSucceeded
  | .failed => some .taskFailed
  | .retried | .deadLettered | .cancelled => none

/-- `_build_runtime_notification_event` of an event of a notifiable kind, nothing when it
raises. -/
def buildRuntimeNotificationEvent (event : TaskEvent T) (eventType : NotificationEventType) :
    Option (NotificationEventRecord T) :=
  let success :=
    if event.kind = .succeeded then parseSuccessNotificationPayload rendering event.metaJson
    else (none,[])
  (scheduledAtFromMeta rendering event.metaJson).map fun scheduledAt =>
    {eventType := eventType
     serviceName := event.serviceName
     serviceEnvironment := event.serviceEnvironment
     taskName := event.taskName
     occurredAt := event.occurredAt
     eventId := event.eventId
     scheduledAt := scheduledAt
     durationMs := event.durationMs
     attempts := event.attempts
     instanceId := uuidText event.instanceId
     failure :=
       if event.kind = .failed then
         some ⟨event.failureKind,event.exceptionType,event.message⟩
       else none
     successSummary := success.1
     successMetrics := success.2
     consoleUrl :=
       rendering.consoleUrl event.serviceName event.taskName event.serviceEnvironment}

end Notifications

section Tables

structure NotificationDelivery (T P : Type) where
  channelId : UUID
  dedupeKey : List Char
  eventType : NotificationEventType
  serviceName : String
  serviceEnvironment : Environment
  taskName : String
  taskEventId : String
  scheduledAt : Option T
  requestPayload : P

/-- An outbox row, by the unique dedupe key of its delivery. -/
structure NotificationOutbox where
  delivery : List Char

structure Tables (T P : Type) where
  deliveries : List (NotificationDelivery T P) := []
  outbox : List NotificationOutbox := []

def rawTaskEventDedupeKey (channelId : UUID) (eventId : String) : List Char :=
  uuidText channelId++ ':'::eventId.toList

variable (rendering : Rendering T P)

/-- `_persist_pending_delivery`: a delivery whose key is there already is left out. -/
def persistPendingDelivery (tables : Tables T P) (channel : Channel)
    (record : NotificationEventRecord T) : Option (Tables T P) :=
  (rendering.payload channel record).map fun payload =>
    let dedupeKey := rawTaskEventDedupeKey channel.id record.eventId
    if tables.deliveries.any fun delivery => delivery.dedupeKey = dedupeKey then tables
    else
      {deliveries := tables.deliveries++[{
         channelId := channel.id
         dedupeKey := dedupeKey
         eventType := record.eventType
         serviceName := record.serviceName
         serviceEnvironment := record.serviceEnvironment
         taskName := record.taskName
         taskEventId := record.eventId
         scheduledAt := record.scheduledAt
         requestPayload := payload}]
       outbox := tables.outbox++[⟨dedupeKey⟩]}

/-- The channels one after another, with whether nothing raised. -/
def persistAll (record : NotificationEventRecord T) :
    List Channel → Tables T P → Tables T P × Bool
  | [],tables => (tables,true)
  | channel::channels,tables =>
    match persistPendingDelivery rendering tables channel record with
    | none => (tables,false)
    | some tables => persistAll record channels tables

def notifyEvent (channels : Channels) (event : TaskEvent T) (tables : Tables T P) :
    Tables T P × Bool :=
  match eventTypeMap event.kind with
  | none => (tables,true)
  | some eventType =>
    match buildRuntimeNotificationEvent rendering event eventType,
      matchingChannelsForService channels.rows event.serviceName event.serviceEnvironment
        eventType with
    | some record,some matching => persistAll rendering record matching tables
    | _,_ => (tables,false)

/-- `dispatch_runtime_task_event_notifications` up to its commit: what it wrote, and whether
nothing raised. -/
def dispatchRuntimeTaskEventNotifications (channels : Channels) :
    List (TaskEvent T) → Tables T P → Tables T P × Bool
  | [],tables => (tables,true)
  | event::events,tables =>
    match notifyEvent rendering channels event tables with
    | (tables,true) => dispatchRuntimeTaskEventNotifications channels events tables
    | (tables,false) => (tables,false)

end Tables

section Calls

structure Database (T P : Type) where
  taskEvents : List (TaskEvent T) := []
  tables : Tables T P := {}

/-- Where a crash or an exception from outside ends a call. -/
inductive Fault where
  | beforeEvents | beforeNotifications | beforeResponse
  deriving DecidableEq

/-- The rows that were inserted are read in the order of their times, which the database
settles where these are equal. After an exception of its own the session is committed as the
socket is closed, unless that raises. -/
structure Call (T : Type) where
  request : EventsIngestRequest T
  fault : Option Fault := none
  closes : Bool := true
  order : List (TaskEvent T) → List (TaskEvent T) := id
  ordered : ∀ events, (order events).Perm events := by exact fun events => .refl events

/-- The rows that `on_conflict_do_nothing` inserts. -/
def insertedEvents (db : Database T P) (request : EventsIngestRequest T) : List (TaskEvent T) :=
  ((dedupeByEventId request.events []).map (buildTaskEventPayload request)).filter fun event =>
    !db.taskEvents.any fun stored => stored.eventId = event.eventId

/-- `ingest_events_request`, with whether the agent got the response. -/
def ingestEventsRequest (rendering : Rendering T P) (channels : Channels) (db : Database T P)
    (call : Call T) : Database T P × Bool :=
  if call.fault = some .beforeEvents then (db,false)
  else
    let inserted := insertedEvents db call.request
    let db := {db with taskEvents := db.taskEvents++inserted}
    if call.fault = some .beforeNotifications then (db,false)
    else
      let dispatched :=
        dispatchRuntimeTaskEventNotifications rendering channels (call.order inserted) db.tables
      if dispatched.2 then ({db with tables := dispatched.1},call.fault = none)
      else if call.closes then ({db with tables := dispatched.1},false)
      else (db,false)

def run (rendering : Rendering T P) (channels : Channels) (calls : List (Call T)) :
    Database T P :=
  calls.foldl (fun db call => (ingestEventsRequest rendering channels db call).1) {}

/-- The batches whose calls returned without an error. -/
def accepted (rendering : Rendering T P) (channels : Channels) :
    Database T P → List (Call T) → List (EventsIngestRequest T)
  | _,[] => []
  | db,call::calls =>
    let result := ingestEventsRequest rendering channels db call
    if result.2 then call.request::accepted rendering channels result.1 calls
    else accepted rendering channels result.1 calls

end Calls

section Notified

/-- The channel is enabled for events of this kind and of this service. -/
def concerns (channel : Channel) (event : TaskEvent T) : Bool :=
  match eventTypeMap event.kind with
  | none => false
  | some eventType =>
    channel.enabled && decide (eventType ∈ channel.eventTypes) &&
      (channel.serviceScopes.isEmpty || channel.serviceScopes.any fun scope =>
        scope.name = stripped event.serviceName && scope.environment = event.serviceEnvironment)

/-- Each stored event has a delivery with an outbox row for each channel that concerns it, and
none for another. -/
structure Exact (channels : Channels) (db : Database T P) : Prop where
  deliveries : ∀ event ∈ db.taskEvents, ∀ id : UUID,
    db.tables.deliveries.countP (fun delivery =>
      delivery.channelId = id && delivery.taskEventId = event.eventId) =
        if channels.rows.any fun channel => channel.id = id && concerns channel event then 1 else 0
  outbox : ∀ delivery ∈ db.tables.deliveries,
    db.tables.outbox.countP (fun row => row.delivery = delivery.dedupeKey) = 1

/-- Building the notifications of the event raises nowhere: its planned time is a time, its
service has a name when a channel for events of its kind has scopes, and its payload is built
for every channel that concerns it. -/
structure Builds (rendering : Rendering T P) (channels : Channels) (event : TaskEvent T)
    (eventType : NotificationEventType) : Prop where
  record : (buildRuntimeNotificationEvent rendering event eventType).isSome
  named : ∀ channel ∈ channels.rows, channel.enabled = true → eventType ∈ channel.eventTypes →
    channel.serviceScopes ≠ [] → stripped event.serviceName ≠ ""
  payload : ∀ record, buildRuntimeNotificationEvent rendering event eventType = some record →
    ∀ channel ∈ channels.rows, concerns channel event = true →
      (rendering.payload channel record).isSome

variable (rendering : Rendering T P) (channels : Channels)

def Sends (event : TaskEvent T) : Prop :=
  ∀ eventType, eventTypeMap event.kind = some eventType → Builds rendering channels event eventType

/-- No channel concerns the event. -/
def Silent (event : TaskEvent T) : Prop := ∀ channel ∈ channels.rows, concerns channel event = false

/-- An event that raises concerns no channel, and no event after it does. -/
def Unharmed (events : List (TaskEvent T)) : Prop :=
  (∀ event ∈ events, Sends rendering channels event ∨ Silent channels event) ∧
    events.Pairwise fun event later => Sends rendering channels event ∨ Silent channels later

/-- No new event concerns a channel, or the call goes on to its notifications, none of which is
lost by an exception; and if there is one, the session is committed after it. -/
def Kept (db : Database T P) (call : Call T) : Prop :=
  call.fault = some .beforeEvents ∨
    (∀ event ∈ insertedEvents db call.request, Silent channels event) ∨
    call.fault ≠ some .beforeNotifications ∧
      Unharmed rendering channels (call.order (insertedEvents db call.request)) ∧
        (call.closes = true ∨
          ∀ event ∈ insertedEvents db call.request, Sends rendering channels event)

end Notified

section Keys

theorem length_uuidText (u : UUID) : (uuidText u).length = 36 := by
  simp [uuidText,DigitText.length_fixed]

theorem uuidText_inj {u v : UUID} (h : uuidText u = uuidText v) : u = v := by
  have hu := readUuid_uuidText u
  rw [h,readUuid_uuidText] at hu
  exact (Option.some.inj hu).symm

theorem rawTaskEventDedupeKey_inj {u v : UUID} {a b : String}
    (h : rawTaskEventDedupeKey u a = rawTaskEventDedupeKey v b) : (u,a) = (v,b) := by
  obtain ⟨hid,hevent⟩ := List.append_inj h (by rw [length_uuidText,length_uuidText])
  rw [uuidText_inj hid,String.toList_injective (List.cons.inj hevent).2]

end Keys

section Matching

variable {event : TaskEvent T} {eventType : NotificationEventType} {channel : Channel}

def inScope (event : TaskEvent T) (channel : Channel) : Bool :=
  channel.serviceScopes.isEmpty || channel.serviceScopes.any fun scope =>
    scope.name = stripped event.serviceName && scope.environment = event.serviceEnvironment

theorem serviceMatchesChannel_named
    (h : channel.serviceScopes ≠ [] → stripped event.serviceName ≠ "") :
    serviceMatchesChannel channel event.serviceName event.serviceEnvironment =
      some (inScope event channel) := by
  unfold serviceMatchesChannel inScope
  cases hscopes : channel.serviceScopes with
  | nil => rfl
  | cons scope scopes =>
    have hname := h (by rw [hscopes]; exact List.cons_ne_nil _ _)
    rw [isServiceInScope,normalizeRequiredString,if_neg hname]
    rfl

theorem serviceMatchesChannel_blank (hscopes : channel.serviceScopes ≠ [])
    (hname : stripped event.serviceName = "") :
    serviceMatchesChannel channel event.serviceName event.serviceEnvironment = none := by
  unfold serviceMatchesChannel
  rw [if_neg (by simpa using hscopes),isServiceInScope,normalizeRequiredString,if_pos hname]
  rfl

theorem keepMatching_named {channels : List Channel} (h : ∀ channel ∈ channels,
    eventType ∈ channel.eventTypes → channel.serviceScopes ≠ [] →
      stripped event.serviceName ≠ "") :
    keepMatching event.serviceName event.serviceEnvironment eventType channels =
      some (channels.filter fun channel =>
        decide (eventType ∈ channel.eventTypes) && inScope event channel) := by
  induction channels with
  | nil => rfl
  | cons channel channels ih =>
    have hrest := ih fun c hc => h c (List.mem_cons_of_mem _ hc)
    rw [keepMatching,hrest]
    split
    · next htype =>
        rw [serviceMatchesChannel_named (h channel List.mem_cons_self htype),Option.bind_some,
          Option.map_some,List.filter_cons,decide_eq_true htype,Bool.true_and]
    · next htype =>
        rw [List.filter_cons_of_neg (by simp [htype])]

theorem keepMatching_blank {channels : List Channel} (hmem : channel ∈ channels)
    (htype : eventType ∈ channel.eventTypes) (hscopes : channel.serviceScopes ≠ [])
    (hname : stripped event.serviceName = "") :
    keepMatching event.serviceName event.serviceEnvironment eventType channels = none := by
  induction channels with
  | nil => cases hmem
  | cons c channels ih =>
    rw [keepMatching]
    rcases List.mem_cons.mp hmem with rfl | hrest
    · rw [if_pos htype,serviceMatchesChannel_blank hscopes hname]
      rfl
    · rw [ih hrest]
      split
      · cases serviceMatchesChannel c event.serviceName event.serviceEnvironment with
        | none => rfl
        | some kept => rfl
      · rfl

theorem concerns_eq (hkind : eventTypeMap event.kind = some eventType) (channel : Channel) :
    concerns channel event = (decide (eventType ∈ channel.eventTypes) && inScope event channel &&
      channel.enabled) := by
  unfold concerns
  rw [hkind]
  dsimp only
  rw [Bool.and_assoc,Bool.and_comm]
  rfl

end Matching

section Persisting

variable {rendering : Rendering T P} {tables tables' : Tables T P}

def ident (delivery : NotificationDelivery T P) : UUID × String :=
  (delivery.channelId,delivery.taskEventId)

def idents (tables : Tables T P) : List (UUID × String) := tables.deliveries.map ident

/-- Each delivery has its own key, and its outbox row. -/
structure WellFormed (tables : Tables T P) : Prop where
  keyed : ∀ delivery ∈ tables.deliveries,
    delivery.dedupeKey = rawTaskEventDedupeKey delivery.channelId delivery.taskEventId
  nodup : (idents tables).Nodup
  outbox : tables.outbox.map NotificationOutbox.delivery =
    tables.deliveries.map NotificationDelivery.dedupeKey

/-- The tables got the deliveries of these channels and events. -/
structure Adds (tables : Tables T P) (rows : List (UUID × String)) (tables' : Tables T P) :
    Prop where
  wellFormed : WellFormed tables'
  idents : idents tables' = idents tables++rows

variable {record : NotificationEventRecord T}

theorem persistPendingDelivery_fresh {channel : Channel} (h : WellFormed tables)
    (hfresh : (channel.id,record.eventId) ∉ idents tables)
    (hpayload : (rendering.payload channel record).isSome) :
    ∃ tables', persistPendingDelivery rendering tables channel record = some tables' ∧
      Adds tables [(channel.id,record.eventId)] tables' := by
  obtain ⟨payload,hsome⟩ := Option.isSome_iff_exists.mp hpayload
  have habsent : ¬(tables.deliveries.any fun delivery => decide (delivery.dedupeKey =
      rawTaskEventDedupeKey channel.id record.eventId)) = true := by
    intro hany
    obtain ⟨delivery,hmem,hkey⟩ := List.any_eq_true.mp hany
    have hkey := of_decide_eq_true hkey
    rw [h.keyed delivery hmem] at hkey
    apply hfresh
    rw [← rawTaskEventDedupeKey_inj hkey]
    exact List.mem_map_of_mem hmem
  refine ⟨_,by rw [persistPendingDelivery,hsome,Option.map_some,if_neg habsent],⟨?_,?_,?_⟩,?_⟩
  · intro delivery hmem
    rcases List.mem_append.mp hmem with hmem | hmem
    · exact h.keyed delivery hmem
    · rw [List.mem_singleton.mp hmem]
  · unfold idents
    rw [List.map_append]
    refine List.nodup_append.mpr ⟨h.nodup,List.nodup_singleton _,?_⟩
    rintro a ha b hb rfl
    rw [List.mem_singleton.mp hb] at ha
    exact hfresh ha
  · dsimp only
    rw [List.map_append,List.map_append,h.outbox]
    rfl
  · exact List.map_append

theorem Adds.trans {tables'' : Tables T P} {rows rows' : List (UUID × String)}
    (h : Adds tables rows tables') (h' : Adds tables' rows' tables'') :
    Adds tables (rows++rows') tables'' :=
  ⟨h'.wellFormed,by rw [h'.idents,h.idents,List.append_assoc]⟩

theorem Adds.refl (h : WellFormed tables) : Adds tables [] tables :=
  ⟨h,(List.append_nil _).symm⟩

variable (rendering) in
/-- Every channel got its row, or the payload of one raised and those before it did. -/
theorem persistAll_spec {channels : List Channel} (record : NotificationEventRecord T)
    (h : WellFormed tables) (hnodup : (channels.map Channel.id).Nodup)
    (hfresh : ∀ id, (id,record.eventId) ∉ idents tables ∨ id ∉ channels.map Channel.id) :
    ((persistAll rendering record channels tables).2 = true ∧
      (∀ channel ∈ channels, (rendering.payload channel record).isSome) ∧
      Adds tables (channels.map fun channel => (channel.id,record.eventId))
        (persistAll rendering record channels tables).1) ∨
    ((persistAll rendering record channels tables).2 = false ∧
      (∃ channel ∈ channels, rendering.payload channel record = none) ∧
      ∃ rows, rows <+: (channels.map fun channel => (channel.id,record.eventId)) ∧
        rows ≠ (channels.map fun channel => (channel.id,record.eventId)) ∧
          Adds tables rows (persistAll rendering record channels tables).1) := by
  induction channels generalizing tables with
  | nil => exact .inl ⟨rfl,fun _ hmem => absurd hmem List.not_mem_nil,.refl h⟩
  | cons channel channels ih =>
    obtain ⟨hnew,hrest⟩ := List.nodup_cons.mp hnodup
    have hhead : (channel.id,record.eventId) ∉ idents tables :=
      (hfresh channel.id).resolve_right fun hnot => hnot List.mem_cons_self
    cases hpayload : rendering.payload channel record with
    | none =>
      have hraises : persistPendingDelivery rendering tables channel record = none := by
        rw [persistPendingDelivery,hpayload]
        rfl
      rw [persistAll,hraises]
      exact .inr ⟨rfl,⟨channel,List.mem_cons_self,hpayload⟩,[],List.nil_prefix,by simp,.refl h⟩
    | some payload =>
      obtain ⟨mid,hmid,hadds⟩ := persistPendingDelivery_fresh h hhead (by rw [hpayload]; rfl)
      have hfresh' : ∀ id, (id,record.eventId) ∉ idents mid ∨ id ∉ channels.map Channel.id := by
        intro id
        rw [hadds.idents,List.mem_append,List.mem_singleton]
        rcases hfresh id with hid | hid
        · by_cases hsame : id = channel.id
          · subst hsame
            exact .inr hnew
          · refine .inl ?_
            rintro (hold | heq)
            · exact hid hold
            · exact hsame (Prod.mk.inj heq).1
        · exact .inr fun hmem => hid (List.mem_cons_of_mem _ hmem)
      rw [persistAll,hmid]
      rcases ih hadds.wellFormed hrest hfresh' with
        ⟨hok,hall,hadds'⟩ | ⟨hok,⟨c,hc,hnone⟩,rows,hbegins,hne,hadds'⟩
      · exact .inl ⟨hok,List.forall_mem_cons.mpr ⟨by rw [hpayload]; rfl,hall⟩,hadds.trans hadds'⟩
      · refine .inr ⟨hok,⟨c,List.mem_cons_of_mem _ hc,hnone⟩,_,?_,?_,hadds.trans hadds'⟩
        · exact List.cons_prefix_cons.mpr ⟨rfl,hbegins⟩
        · exact fun heq => hne (List.cons.inj heq).2

end Persisting

section Dispatching

variable {rendering : Rendering T P} {channels : Channels} {tables tables' : Tables T P}
  {event : TaskEvent T} {eventType : NotificationEventType}

/-- The deliveries that an event is to have. -/
def expected (channels : Channels) (event : TaskEvent T) : List (UUID × String) :=
  (channels.rows.filter fun channel => concerns channel event).map fun channel =>
    (channel.id,event.eventId)

theorem expected_silent (h : eventTypeMap event.kind = none) : expected channels event = [] := by
  unfold expected
  rw [List.filter_eq_nil_iff.mpr]
  · rfl
  · intro channel _
    unfold concerns
    rw [h]
    exact Bool.false_ne_true

theorem matching_named (hkind : eventTypeMap event.kind = some eventType)
    (h : ∀ channel ∈ channels.rows, channel.enabled = true → eventType ∈ channel.eventTypes →
      channel.serviceScopes ≠ [] → stripped event.serviceName ≠ "") :
    matchingChannelsForService channels.rows event.serviceName event.serviceEnvironment eventType =
      some (channels.rows.filter fun channel => concerns channel event) := by
  rw [matchingChannelsForService,keepMatching_named,List.filter_filter]
  · simp only [concerns_eq hkind]
  · intro channel hmem
    obtain ⟨hrow,henabled⟩ := List.mem_filter.mp hmem
    exact h channel hrow henabled

theorem named_of_matching {matching : List Channel} (h : matchingChannelsForService channels.rows
      event.serviceName event.serviceEnvironment eventType = some matching) :
    ∀ channel ∈ channels.rows, channel.enabled = true → eventType ∈ channel.eventTypes →
      channel.serviceScopes ≠ [] → stripped event.serviceName ≠ "" := by
  intro channel hrow henabled htype hscopes hname
  have hmem := List.mem_filter.mpr ⟨hrow,henabled⟩
  rw [matchingChannelsForService,keepMatching_blank hmem htype hscopes hname] at h
  cases h

theorem record_eventId {record : NotificationEventRecord T}
    (h : buildRuntimeNotificationEvent rendering event eventType = some record) :
    record.eventId = event.eventId := by
  obtain ⟨scheduledAt,-,rfl⟩ := Option.map_eq_some_iff.mp h
  rfl

theorem nodup_matching (channels : Channels) (event : TaskEvent T) :
    ((channels.rows.filter fun channel => concerns channel event).map Channel.id).Nodup :=
  channels.nodup.sublist (List.filter_sublist.map _)

theorem expected_eq_nil : expected channels event = [] ↔ Silent channels event := by
  rw [expected,List.map_eq_nil_iff,List.filter_eq_nil_iff]
  exact forall₂_congr fun channel _ => Bool.not_eq_true _ ▸ Iff.rfl

/-- The event was notified, or it raised, with the first of its rows written. -/
theorem notifyEvent_spec (h : WellFormed tables) (hfresh : ∀ id, (id,event.eventId) ∉ idents tables) :
    ((notifyEvent rendering channels event tables).2 = true ∧ Sends rendering channels event ∧
      Adds tables (expected channels event) (notifyEvent rendering channels event tables).1) ∨
    ((notifyEvent rendering channels event tables).2 = false ∧ ¬Sends rendering channels event ∧
      ∃ rows, rows <+: expected channels event ∧
        (rows = expected channels event → Silent channels event) ∧
          Adds tables rows (notifyEvent rendering channels event tables).1) := by
  unfold notifyEvent
  cases hkind : eventTypeMap event.kind with
  | none =>
    rw [expected_silent hkind]
    refine .inl ⟨rfl,fun eventType htype => ?_,.refl h⟩
    rw [hkind] at htype
    cases htype
  | some eventType =>
    have hnothing : ∃ rows, rows <+: expected channels event ∧
        (rows = expected channels event → Silent channels event) ∧ Adds tables rows tables :=
      ⟨[],List.nil_prefix,fun heq => expected_eq_nil.mp heq.symm,.refl h⟩
    dsimp only
    cases hrecord : buildRuntimeNotificationEvent rendering event eventType with
    | none =>
      refine .inr ⟨rfl,fun hsends => ?_,hnothing⟩
      have hsome := (hsends eventType hkind).record
      rw [hrecord] at hsome
      cases hsome
    | some record =>
      cases hmatching : matchingChannelsForService channels.rows event.serviceName
          event.serviceEnvironment eventType with
      | none =>
        refine .inr ⟨rfl,fun hsends => ?_,hnothing⟩
        rw [matching_named hkind (hsends eventType hkind).named] at hmatching
        cases hmatching
      | some matching =>
        have hnamed := named_of_matching hmatching
        rw [matching_named hkind hnamed] at hmatching
        cases hmatching
        have hid := record_eventId hrecord
        have hspec := persistAll_spec rendering record h
          (nodup_matching channels event) fun id => .inl (by rw [hid]; exact hfresh id)
        rw [hid] at hspec
        rcases hspec with ⟨hok,hall,hadds⟩ | ⟨hok,⟨c,hc,hnone⟩,rows,hbegins,hne,hadds⟩
        · refine .inl ⟨hok,fun eventType' htype => ?_,hadds⟩
          rw [hkind] at htype
          cases htype
          refine ⟨by rw [hrecord]; rfl,hnamed,fun record' hrecord' channel hrow hconcerns => ?_⟩
          rw [hrecord] at hrecord'
          cases hrecord'
          exact hall channel (List.mem_filter.mpr ⟨hrow,hconcerns⟩)
        · refine .inr ⟨hok,fun hsends => ?_,rows,hbegins,fun heq => absurd heq hne,hadds⟩
          obtain ⟨hrow,hconcerns⟩ := List.mem_filter.mp hc
          have hsome := (hsends eventType hkind).payload record hrecord c hrow hconcerns
          rw [hnone] at hsome
          cases hsome

theorem mem_expected {id : UUID} {eventId : String} (h : (id,eventId) ∈ expected channels event) :
    eventId = event.eventId := by
  obtain ⟨channel,-,heq⟩ := List.mem_map.mp h
  exact (Prod.mk.inj heq).2.symm

theorem unharmed_cons {events : List (TaskEvent T)} :
    Unharmed rendering channels (event::events) ↔
      (∀ later ∈ event::events, Sends rendering channels event ∨ Silent channels later) ∧
        Unharmed rendering channels events := by
  unfold Unharmed
  rw [List.forall_mem_cons,List.pairwise_cons,List.forall_mem_cons]
  tauto

theorem unharmed_of_silent {events : List (TaskEvent T)}
    (h : ∀ event ∈ events, Silent channels event) : Unharmed rendering channels events :=
  ⟨fun event hevent => .inr (h event hevent),
    List.pairwise_of_forall_mem_list fun _ _ later hlater => .inr (h later hlater)⟩

theorem unharmed_of_sends {events : List (TaskEvent T)}
    (h : ∀ event ∈ events, Sends rendering channels event) : Unharmed rendering channels events :=
  ⟨fun event hevent => .inl (h event hevent),
    List.pairwise_of_forall_mem_list fun event hevent _ _ => .inl (h event hevent)⟩

variable (rendering channels) in
/-- The first rows of those wanted are written: all of them just when no exception keeps one
from being written. -/
theorem dispatch_spec {events : List (TaskEvent T)} (h : WellFormed tables)
    (hnodup : (events.map TaskEvent.eventId).Nodup)
    (hfresh : ∀ event ∈ events, ∀ id, (id,event.eventId) ∉ idents tables) :
    ∃ rows, rows <+: events.flatMap (expected channels) ∧
      Adds tables rows
        (dispatchRuntimeTaskEventNotifications rendering channels events tables).1 ∧
      ((dispatchRuntimeTaskEventNotifications rendering channels events tables).2 = true ↔
        ∀ event ∈ events, Sends rendering channels event) ∧
      (rows = events.flatMap (expected channels) ↔ Unharmed rendering channels events) := by
  induction events generalizing tables with
  | nil =>
    refine ⟨[],List.nil_prefix,.refl h,?_,?_⟩
    · exact iff_of_true rfl fun _ hmem => absurd hmem List.not_mem_nil
    · exact iff_of_true rfl (unharmed_of_silent fun _ hmem => absurd hmem List.not_mem_nil)
  | cons event events ih =>
    obtain ⟨hnew,hrest⟩ := List.nodup_cons.mp hnodup
    rw [List.flatMap_cons,List.forall_mem_cons,unharmed_cons,dispatchRuntimeTaskEventNotifications]
    rcases notifyEvent_spec h (hfresh event List.mem_cons_self) with
      ⟨hok,hsends,hadds⟩ | ⟨hok,hraises,rows,hbegins,hfull,hadds⟩
    · have hfresh' : ∀ later ∈ events, ∀ id, (id,later.eventId) ∉
          idents (notifyEvent rendering channels event tables).1 := by
        intro later hlater id hmem
        rw [hadds.idents] at hmem
        rcases List.mem_append.mp hmem with hold | hadded
        · exact hfresh later (List.mem_cons_of_mem _ hlater) id hold
        · apply hnew
          rw [← mem_expected hadded]
          exact List.mem_map_of_mem hlater
      obtain ⟨rows,hbegins,hadds',hok',hfull⟩ := ih hadds.wellFormed hrest hfresh'
      generalize notifyEvent rendering channels event tables = notified at hok hadds hadds' hok'
      obtain ⟨mid,ok⟩ := notified
      obtain rfl : ok = true := hok
      refine ⟨expected channels event++rows,List.prefix_append_right_inj _ |>.mpr hbegins,
        hadds.trans hadds',hok'.trans (and_iff_right hsends).symm,?_⟩
      rw [List.append_right_inj,hfull]
      exact (and_iff_right fun _ _ => .inl hsends).symm
    · generalize notifyEvent rendering channels event tables = notified at hok hadds
      obtain ⟨mid,ok⟩ := notified
      obtain rfl : ok = false := hok
      refine ⟨rows,hbegins.trans (List.prefix_append _ _),hadds,?_,?_⟩
      · exact iff_of_false Bool.false_ne_true fun hall => hraises hall.1
      · constructor
        · intro heq
          have hlength := hbegins.length_le
          rw [heq,List.length_append] at hlength
          have hnil : events.flatMap (expected channels) = [] :=
            List.eq_nil_of_length_eq_zero (by omega)
          have hsilent : ∀ later ∈ event::events, Silent channels later := by
            rw [hnil,List.append_nil] at heq
            refine List.forall_mem_cons.mpr ⟨hfull heq,fun later hlater => ?_⟩
            exact expected_eq_nil.mp (List.flatMap_eq_nil_iff.mp hnil later hlater)
          exact ⟨fun later hlater => .inr (hsilent later hlater),
            unharmed_of_silent fun later hlater => hsilent later (List.mem_cons_of_mem _ hlater)⟩
        · rintro ⟨hlater,-⟩
          have hsilent := fun later hmem => (hlater later hmem).resolve_left hraises
          have hnone : expected channels event++events.flatMap (expected channels) = [] := by
            rw [expected_eq_nil.mpr (hsilent event List.mem_cons_self),List.nil_append]
            exact List.flatMap_eq_nil_iff.mpr fun later hmem =>
              expected_eq_nil.mpr (hsilent later (List.mem_cons_of_mem _ hmem))
          rw [hnone]
          exact List.prefix_nil.mp (hnone ▸ hbegins.trans (List.prefix_append _ _))

theorem nodup_expected {events : List (TaskEvent T)} (h : (events.map TaskEvent.eventId).Nodup) :
    (events.flatMap (expected channels)).Nodup := by
  refine List.nodup_flatMap.mpr ⟨fun event _ => ?_,(List.pairwise_map.mp h).imp ?_⟩
  · refine List.Nodup.of_map Prod.fst ?_
    rw [expected,List.map_map]
    exact nodup_matching channels event
  · intro event later hne row hrow hlater
    apply hne
    rw [← mem_expected hrow,← mem_expected hlater]

end Dispatching

section Ingesting

variable {rendering : Rendering T P} {channels : Channels} {db : Database T P} {call : Call T}

/-- A channel of this id concerns the event. -/
def wanted (channels : Channels) (event : TaskEvent T) (id : UUID) : Bool :=
  channels.rows.any fun channel => channel.id = id && concerns channel event

variable {event : TaskEvent T}

theorem mem_expected_iff {id : UUID} :
    (id,event.eventId) ∈ expected channels event ↔ wanted channels event id = true := by
  unfold expected wanted
  rw [List.mem_map,List.any_eq_true]
  constructor
  · rintro ⟨channel,hmem,heq⟩
    obtain ⟨hrow,hconcerns⟩ := List.mem_filter.mp hmem
    exact ⟨channel,hrow,by rw [(Prod.mk.inj heq).1,hconcerns,decide_eq_true rfl]; rfl⟩
  · rintro ⟨channel,hrow,hboth⟩
    obtain ⟨hid,hconcerns⟩ := Bool.and_eq_true_iff.mp hboth
    exact ⟨channel,List.mem_filter.mpr ⟨hrow,hconcerns⟩,by rw [of_decide_eq_true hid]⟩

structure Good (db : Database T P) : Prop where
  tables : WellFormed db.tables
  nodup : (db.taskEvents.map TaskEvent.eventId).Nodup
  stored : ∀ row ∈ idents db.tables, ∃ event ∈ db.taskEvents, event.eventId = row.2

/-- The deliveries of the stored events are those that are wanted. -/
def Complete (channels : Channels) (db : Database T P) (event : TaskEvent T) : Prop :=
  ∀ id, (id,event.eventId) ∈ idents db.tables ↔ wanted channels event id = true

theorem countP_ident (tables : Tables T P) (id : UUID) (eventId : String) :
    tables.deliveries.countP (fun delivery =>
      delivery.channelId = id && delivery.taskEventId = eventId) =
      (idents tables).count (id,eventId) := by
  rw [List.count_eq_countP,idents,List.countP_map]
  apply List.countP_congr
  intro delivery _
  simp [ident]

variable {tables : Tables T P}

theorem nodup_keys (h : WellFormed tables) :
    (tables.deliveries.map NotificationDelivery.dedupeKey).Nodup := by
  have hkeys : tables.deliveries.map NotificationDelivery.dedupeKey =
      (idents tables).map fun row => rawTaskEventDedupeKey row.1 row.2 := by
    rw [idents,List.map_map]
    exact List.map_congr_left h.keyed
  rw [hkeys]
  exact h.nodup.map fun a b hab => rawTaskEventDedupeKey_inj hab

theorem exact_iff (h : Good db) :
    Exact channels db ↔ ∀ event ∈ db.taskEvents, Complete channels db event := by
  constructor
  · intro hexact event hevent id
    have hcount := hexact.deliveries event hevent id
    rw [countP_ident,h.tables.nodup.count] at hcount
    change _ = if wanted channels event id = true then 1 else 0 at hcount
    split at hcount
    · next hmem =>
        refine iff_of_true hmem ?_
        by_contra hnot
        rw [if_neg hnot] at hcount
        cases hcount
    · next hmem =>
        refine iff_of_false hmem fun hwanted => ?_
        rw [if_pos hwanted] at hcount
        cases hcount
  · intro hcomplete
    constructor
    · intro event hevent id
      rw [countP_ident,h.tables.nodup.count]
      exact if_congr (hcomplete event hevent id) rfl rfl
    · intro delivery hmem
      have hcount : (db.tables.outbox.map NotificationOutbox.delivery).count delivery.dedupeKey =
          1 := by
        rw [h.tables.outbox]
        exact List.count_eq_one_of_mem (nodup_keys h.tables) (List.mem_map_of_mem hmem)
      rw [List.count_eq_countP,List.countP_map] at hcount
      rw [← hcount]
      apply List.countP_congr
      intro row _
      simp

theorem mem_dedupe {events : List (TaskEventRecord T)} {seen : List String}
    {event : TaskEventRecord T} (h : event ∈ dedupeByEventId events seen) :
    event.eventId ∉ seen := by
  induction events generalizing seen with
  | nil => cases h
  | cons e events ih =>
    rw [dedupeByEventId] at h
    split at h
    · exact ih h
    · next hnew =>
        rcases List.mem_cons.mp h with rfl | h
        · exact hnew
        · exact fun hmem => ih h (List.mem_cons_of_mem _ hmem)

theorem nodup_dedupe (events : List (TaskEventRecord T)) (seen : List String) :
    ((dedupeByEventId events seen).map TaskEventRecord.eventId).Nodup := by
  induction events generalizing seen with
  | nil => exact .nil
  | cons e events ih =>
    rw [dedupeByEventId]
    split
    · exact ih seen
    · refine List.nodup_cons.mpr ⟨?_,ih _⟩
      intro hmem
      obtain ⟨event,hevent,heq⟩ := List.mem_map.mp hmem
      apply mem_dedupe hevent
      rw [heq]
      exact List.mem_cons_self

theorem nodup_inserted (db : Database T P) (request : EventsIngestRequest T) :
    ((insertedEvents db request).map TaskEvent.eventId).Nodup := by
  have hdedupe := nodup_dedupe request.events []
  unfold insertedEvents
  refine List.Nodup.sublist (List.filter_sublist.map _) ?_
  rw [List.map_map]
  exact hdedupe

variable {request : EventsIngestRequest T}

theorem inserted_fresh {stored : TaskEvent T} (h : event ∈ insertedEvents db request)
    (hstored : stored ∈ db.taskEvents) : stored.eventId ≠ event.eventId := by
  intro heq
  have hnot := (List.mem_filter.mp h).2
  rw [Bool.not_eq_true',List.any_eq_false] at hnot
  exact hnot stored hstored (decide_eq_true heq)

theorem fresh_ident (h : Good db) (hevent : event ∈ insertedEvents db request) (id : UUID) :
    (id,event.eventId) ∉ idents db.tables := by
  intro hmem
  obtain ⟨stored,hstored,heq⟩ := h.stored _ hmem
  exact inserted_fresh hevent hstored heq

theorem nodup_events (h : Good db) (request : EventsIngestRequest T) :
    ((db.taskEvents++insertedEvents db request).map TaskEvent.eventId).Nodup := by
  rw [List.map_append]
  refine List.nodup_append.mpr ⟨h.nodup,nodup_inserted db request,?_⟩
  rintro a ha b hb rfl
  obtain ⟨stored,hstored,rfl⟩ := List.mem_map.mp ha
  obtain ⟨event,hevent,heq⟩ := List.mem_map.mp hb
  exact inserted_fresh hevent hstored heq.symm

theorem mem_flatMap_expected {events : List (TaskEvent T)} {id : UUID}
    (hnodup : (events.map TaskEvent.eventId).Nodup) (hevent : event ∈ events) :
    (id,event.eventId) ∈ events.flatMap (expected channels) ↔ wanted channels event id = true := by
  rw [List.mem_flatMap]
  constructor
  · rintro ⟨other,hother,hmem⟩
    have hsame := List.inj_on_of_nodup_map hnodup hevent hother (mem_expected hmem)
    rw [← hsame] at hmem
    exact mem_expected_iff.mp hmem
  · exact fun hwanted => ⟨event,hevent,mem_expected_iff.mpr hwanted⟩

variable {rows : List (UUID × String)}

/-- The events are stored, with the rows that were written. -/
theorem good_added (h : Good db) (hadds : Adds db.tables rows tables)
    (hrows : ∀ row ∈ rows, row ∈ (insertedEvents db request).flatMap (expected channels)) :
    Good {db with
      taskEvents := db.taskEvents++insertedEvents db request
      tables := tables} where
  tables := hadds.wellFormed
  nodup := nodup_events h request
  stored row hrow := by
    dsimp only at hrow
    rw [hadds.idents] at hrow
    rcases List.mem_append.mp hrow with hrow | hrow
    · obtain ⟨event,hevent,heq⟩ := h.stored row hrow
      exact ⟨event,List.mem_append_left _ hevent,heq⟩
    · obtain ⟨event,hevent,hmem⟩ := List.mem_flatMap.mp (hrows row hrow)
      exact ⟨event,List.mem_append_right _ hevent,(mem_expected hmem).symm⟩

theorem exact_added (h : Good db) (hadds : Adds db.tables rows tables)
    (hrows : ∀ row ∈ rows, row ∈ (insertedEvents db request).flatMap (expected channels)) :
    Exact channels {db with
      taskEvents := db.taskEvents++insertedEvents db request
      tables := tables} ↔ Exact channels db ∧
        ∀ row ∈ (insertedEvents db request).flatMap (expected channels), row ∈ rows := by
  rw [exact_iff (good_added h hadds hrows),exact_iff h]
  have hmem : ∀ row, row ∈ idents tables ↔ row ∈ idents db.tables ∨ row ∈ rows := by
    intro row
    rw [hadds.idents,List.mem_append]
  have hold : ∀ event ∈ db.taskEvents, ∀ id, (id,event.eventId) ∉ rows := by
    intro event hevent id hrow
    obtain ⟨other,hother,hrow⟩ := List.mem_flatMap.mp (hrows _ hrow)
    exact inserted_fresh hother hevent (mem_expected hrow)
  constructor
  · intro hcomplete
    constructor
    · intro event hevent id
      rw [← hcomplete event (List.mem_append_left _ hevent) id,hmem]
      exact (or_iff_left (hold event hevent id)).symm
    · intro row hrow
      obtain ⟨event,hevent,hexpected⟩ := List.mem_flatMap.mp hrow
      obtain ⟨id,eventId⟩ := row
      obtain rfl := mem_expected hexpected
      have hwritten := (hcomplete event (List.mem_append_right _ hevent) id).mpr
        (mem_expected_iff.mp hexpected)
      exact ((hmem _).mp hwritten).resolve_left (fresh_ident h hevent id)
  · rintro ⟨hcomplete,hall⟩ event hevent id
    change (id,event.eventId) ∈ idents tables ↔ _
    rw [hmem]
    rcases List.mem_append.mp hevent with hevent | hevent
    · rw [or_iff_left (hold event hevent id)]
      exact hcomplete event hevent id
    · rw [or_iff_right (fresh_ident h hevent id),
        ← mem_flatMap_expected (nodup_inserted db request) hevent]
      exact ⟨hrows _,hall _⟩

/-- When no row is written, nobody may be concerned. -/
theorem expected_unwritten {events : List (TaskEvent T)} :
    (∀ row ∈ events.flatMap (expected channels), row ∈ ([] : List (UUID × String))) ↔
      ∀ event ∈ events, Silent channels event := by
  rw [← List.eq_nil_iff_forall_not_mem.trans (forall_congr' fun row => imp_congr_right fun _ =>
    (iff_of_false (fun hf => hf) List.not_mem_nil)),List.flatMap_eq_nil_iff]
  exact forall₂_congr fun event _ => expected_eq_nil

/-- The rows wanted, in the order of the call. -/
theorem expected_ordered (call : Call T) (events : List (TaskEvent T))
    (hnodup : (events.map TaskEvent.eventId).Nodup)
    (hbegins : rows <+: (call.order events).flatMap (expected channels)) :
    (∀ row ∈ events.flatMap (expected channels), row ∈ rows) ↔
      rows = (call.order events).flatMap (expected channels) := by
  have hperm : ∀ row, row ∈ events.flatMap (expected channels) ↔
      row ∈ (call.order events).flatMap (expected channels) := by
    intro row
    simp only [List.mem_flatMap,(call.ordered events).mem_iff]
  constructor
  · intro hall
    have hnodup' : ((call.order events).flatMap (expected channels)).Nodup :=
      nodup_expected (((call.ordered events).map _).nodup_iff.mpr hnodup)
    have hsub : (call.order events).flatMap (expected channels) ⊆ rows :=
      fun row hrow => hall row ((hperm row).mpr hrow)
    exact hbegins.eq_of_length_le (hnodup'.subperm hsub).length_le
  · intro heq row hrow
    rw [heq]
    exact (hperm row).mp hrow

end Ingesting

section Exactness

variable {rendering : Rendering T P} {channels : Channels} {db : Database T P}

variable (channels) in
/-- A call whose notifications are lost. -/
theorem exact_lost (h : Good db) (request : EventsIngestRequest T) :
    Good {db with taskEvents := db.taskEvents++insertedEvents db request} ∧
      (Exact channels {db with taskEvents := db.taskEvents++insertedEvents db request} ↔
        Exact channels db ∧ ∀ event ∈ insertedEvents db request, Silent channels event) := by
  have hnothing : Adds db.tables [] db.tables := .refl h.tables
  have hrows : ∀ row ∈ ([] : List (UUID × String)),
      row ∈ (insertedEvents db request).flatMap (expected channels) :=
    fun row hrow => absurd hrow List.not_mem_nil
  refine ⟨good_added h hnothing hrows,(exact_added h hnothing hrows).trans ?_⟩
  exact and_congr_right fun _ => expected_unwritten

/-- What a call does to the notifications of the stored events. -/
theorem exact_step (rendering : Rendering T P) (channels : Channels) (call : Call T)
    (h : Good db) : Good (ingestEventsRequest rendering channels db call).1 ∧
    (Exact channels (ingestEventsRequest rendering channels db call).1 ↔
      Exact channels db ∧ Kept rendering channels db call) := by
  have hinserted := nodup_inserted db call.request
  obtain ⟨hlostGood,hlost⟩ := exact_lost channels h call.request
  obtain ⟨rows,hbegins,hadds,hok,hfull⟩ := dispatch_spec rendering channels
    h.tables
    (((call.ordered (insertedEvents db call.request)).map _).nodup_iff.mpr hinserted)
    fun event hevent id => fresh_ident h ((call.ordered _).mem_iff.mp hevent) id
  have hrows : ∀ row ∈ rows, row ∈ (insertedEvents db call.request).flatMap (expected channels) := by
    intro row hrow
    obtain ⟨event,hevent,hexpected⟩ := List.mem_flatMap.mp (hbegins.subset hrow)
    exact List.mem_flatMap.mpr ⟨event,(call.ordered _).mem_iff.mp hevent,hexpected⟩
  have hgained := (exact_added h hadds hrows).trans (and_congr_right fun _ =>
    (expected_ordered call _ hinserted hbegins).trans hfull)
  have hsends : (∀ event ∈ call.order (insertedEvents db call.request),
      Sends rendering channels event) ↔
        ∀ event ∈ insertedEvents db call.request, Sends rendering channels event :=
    forall_congr' fun event => by rw [(call.ordered _).mem_iff]
  have hsilent : (∀ event ∈ insertedEvents db call.request, Silent channels event) →
      Unharmed rendering channels (call.order (insertedEvents db call.request)) :=
    fun hall => unharmed_of_silent fun event hevent => hall event ((call.ordered _).mem_iff.mp hevent)
  rw [hsends] at hok
  unfold ingestEventsRequest
  split
  · next hbefore => exact ⟨h,(and_iff_left (.inl hbefore)).symm⟩
  · next hevents =>
      dsimp only
      split
      · next hbefore =>
          refine ⟨hlostGood,hlost.trans (and_congr_right fun _ => ⟨fun hall => .inr (.inl hall),?_⟩)⟩
          rintro (hfault | hall | hkept)
          · exact absurd hfault hevents
          · exact hall
          · exact absurd hbefore hkept.1
      · next hgoes =>
          split
          · next hreturned =>
              have hall := hok.mp hreturned
              have hunharmed := unharmed_of_sends (hsends.mpr hall)
              refine ⟨good_added h hadds hrows,hgained.trans (and_congr_right fun _ => ?_)⟩
              exact iff_of_true hunharmed (.inr (.inr ⟨hgoes,hunharmed,.inr hall⟩))
          · next hraised =>
              have hnot := fun hall => hraised (hok.mpr hall)
              split
              · next hcloses =>
                  refine ⟨good_added h hadds hrows,hgained.trans (and_congr_right fun _ =>
                    ⟨fun hunharmed => .inr (.inr ⟨hgoes,hunharmed,.inl hcloses⟩),?_⟩)⟩
                  rintro (hfault | hall | hkept)
                  · exact absurd hfault hevents
                  · exact hsilent hall
                  · exact hkept.2.1
              · next hcloses =>
                  refine ⟨hlostGood,hlost.trans (and_congr_right fun _ =>
                    ⟨fun hall => .inr (.inl hall),?_⟩)⟩
                  rintro (hfault | hall | hkept)
                  · exact absurd hfault hevents
                  · exact hall
                  · exact hkept.2.2.elim (fun h => absurd h hcloses) fun h => absurd h hnot

theorem good_empty : Good ({} : Database T P) :=
  ⟨⟨fun _ hmem => absurd hmem List.not_mem_nil,.nil,rfl⟩,.nil,
    fun _ hmem => absurd hmem List.not_mem_nil⟩

/-- The deliveries stay exact if every call keeps them. -/
theorem exact_run (h : Good db) (calls : List (Call T)) :
    Exact channels (calls.foldl (fun db call =>
        (ingestEventsRequest rendering channels db call).1) db) ↔
      Exact channels db ∧ Transition.EachStep
        (fun db call => some (ingestEventsRequest rendering channels db call).1)
        (Kept rendering channels) db calls := by
  induction calls generalizing db with
  | nil => exact (and_iff_left trivial).symm
  | cons call calls ih =>
    obtain ⟨hgood,hstep⟩ := exact_step rendering channels call h
    rw [List.foldl_cons,ih hgood,hstep,and_assoc]
    refine and_congr_right fun _ => ?_
    constructor
    · rintro ⟨hkept,hrest⟩ db' hdb'
      cases hdb'
      exact ⟨hkept,hrest⟩
    · exact fun h => h _ rfl

/-- The stored events are notified exactly once for every channel that concerns them, just
when no call loses notifications, to a fault or to an exception. -/
theorem notified_iff (rendering : Rendering T P) (channels : Channels) (calls : List (Call T)) :
    Exact channels (run rendering channels calls) ↔ Transition.EachStep
      (fun db call => some (ingestEventsRequest rendering channels db call).1)
      (Kept rendering channels) {} calls := by
  refine (exact_run good_empty calls).trans (and_iff_right ?_)
  exact (exact_iff good_empty).mpr fun event hevent => absurd hevent List.not_mem_nil

end Exactness

section Example

def plain : Rendering ℕ Unit where
  readTime _ := none
  str _ := ""
  consoleUrl _ _ _ := none
  payload _ _ := some ()

def everyStart : Channels where
  rows := [⟨7,true,[],[.taskStarted]⟩]
  nodup := List.nodup_singleton _

def batch : EventsIngestRequest ℕ where
  serviceName := "billing"
  serviceEnvironment := .prod
  instanceId := 1
  events :=
    [{eventId := "a",kind := .started,taskName := "sync",occurredAt := 0},
     {eventId := "b",kind := .started,taskName := "sync",occurredAt := 1
      metadata := [("scheduled_at",.int 5)]}]

/-- A malformed event is never notified, though its batch is accepted when it is sent again. -/
theorem malformed_silent : ¬ ∀ (channels : Channels) (calls : List (Call ℕ)),
    (∀ call ∈ calls, call.request ∈ accepted plain channels {} calls) →
      Exact channels (run plain channels calls) := by
  intro h
  have haccepted : accepted plain everyStart {} [{request := batch},{request := batch}] =
      [batch] := by rfl
  have hexact := h everyStart [{request := batch},{request := batch}] (by
    rw [haccepted]
    intro call hcall
    rcases List.mem_cons.mp hcall with rfl | hcall
    · exact List.mem_singleton_self _
    · rw [List.mem_singleton.mp hcall]
      exact List.mem_singleton_self _)
  have hstored : (run plain everyStart [{request := batch},{request := batch}]).taskEvents =
      batch.events.map (buildTaskEventPayload batch) := by rfl
  have hcount := hexact.deliveries (buildTaskEventPayload batch
    {eventId := "b",kind := .started,taskName := "sync",occurredAt := 1
     metadata := [("scheduled_at",.int 5)]})
    (by rw [hstored]; exact List.mem_cons_of_mem _ (List.mem_singleton_self _)) 7
  exact absurd hcount (by decide)

end Example

end OneStep.RuntimeNotifications
