import OneStep.LatestSelection

/-!
# Ingesting syncs and heartbeats

The control plane keeps one snapshot of an instance. A sync replaces its topology and keeps
the control states of the tasks that it lists; a heartbeat replaces the control states by its
own of the tasks that are listed. A request that is not newer than the last one applied of its
kind changes nothing. A time is the instant that `as_utc` gives.
-/
namespace OneStep.SnapshotIngestion
open LatestSelection

variable {T W V : Type}

section Requests

inductive HealthStatus where
  | ok | degraded | error | starting | unknown
  deriving DecidableEq

structure TaskControlState (V : Type) where
  taskName : String
  state : V

structure TaskTopology (W : Type) where
  name : String
  description : W

structure AppTopology (W : Type) where
  topologyHash : String
  tasks : List (TaskTopology W)

structure SyncRequest (T W : Type) where
  sequence : ℕ
  sentAt : T
  app : AppTopology W

structure HeartbeatRequest (T V : Type) where
  sequence : ℕ
  sentAt : T
  status : HealthStatus
  taskControls : List (TaskControlState V)

inductive Request (T W V : Type) where
  | sync (s : SyncRequest T W)
  | heartbeat (h : HeartbeatRequest T V)

end Requests

section Contents

def SyncRequest.stamp (s : SyncRequest T W) : ℕ ×ₗ T := toLex (s.sequence,s.sentAt)

def HeartbeatRequest.stamp (h : HeartbeatRequest T V) : ℕ ×ₗ T := toLex (h.sequence,h.sentAt)

def Request.sync? : Request T W V → Option (SyncRequest T W)
  | .sync s => some s
  | .heartbeat _ => none

def Request.heartbeat? : Request T W V → Option (HeartbeatRequest T V)
  | .sync _ => none
  | .heartbeat h => some h

def syncs (l : List (Request T W V)) : List (SyncRequest T W) := l.filterMap Request.sync?

def heartbeats (l : List (Request T W V)) : List (HeartbeatRequest T V) :=
  l.filterMap Request.heartbeat?

/-- No two requests of a kind have the same sequence and time. -/
structure Distinct (l : List (Request T W V)) : Prop where
  syncs : ∀ a ∈ syncs l, ∀ b ∈ syncs l, a.stamp = b.stamp → a = b
  heartbeats : ∀ a ∈ heartbeats l, ∀ b ∈ heartbeats l, a.stamp = b.stamp → a = b

variable {l requests : List (Request T W V)} {h : HeartbeatRequest T V} {s : SyncRequest T W}

theorem syncs_append (l m : List (Request T W V)) : syncs (l++m) = syncs l++syncs m :=
  List.filterMap_append

theorem heartbeats_append (l m : List (Request T W V)) :
    heartbeats (l++m) = heartbeats l++heartbeats m := List.filterMap_append

theorem mem_heartbeats :
    h ∈ heartbeats l ↔ .heartbeat h ∈ l := by
  rw [heartbeats,List.mem_filterMap]
  constructor
  · rintro ⟨r,hr,hh⟩
    cases r with
    | sync s => cases hh
    | heartbeat g =>
      cases hh
      exact hr
  · exact fun hr => ⟨.heartbeat h,hr,rfl⟩

theorem mem_syncs :
    s ∈ syncs l ↔ .sync s ∈ l := by
  rw [syncs,List.mem_filterMap]
  constructor
  · rintro ⟨r,hr,hs⟩
    cases r with
    | heartbeat h => cases hs
    | sync g =>
      cases hs
      exact hr
  · exact fun hr => ⟨.sync s,hr,rfl⟩

variable {r : Request T W V}

theorem mem_heartbeats_left {g : HeartbeatRequest T V} (hg : g ∈ heartbeats l) :
    g ∈ heartbeats (l++[r]) :=
  mem_heartbeats.mpr (List.mem_append_left _ (mem_heartbeats.mp hg))

theorem mem_syncs_left {g : SyncRequest T W} (hg : g ∈ syncs l) : g ∈ syncs (l++[r]) :=
  mem_syncs.mpr (List.mem_append_left _ (mem_syncs.mp hg))

theorem mem_first (before after : List (Request T W V)) (h : HeartbeatRequest T V) :
    h ∈ heartbeats (before++[.heartbeat h]++after) :=
  mem_heartbeats.mpr (List.mem_append_left _ (List.mem_append_right _ (List.mem_singleton_self _)))

theorem mem_syncs_congr (hsame : ∀ r, r ∈ l ↔ r ∈ requests) (s : SyncRequest T W) :
    s ∈ syncs l ↔ s ∈ syncs requests := by
  rw [mem_syncs,mem_syncs,hsame]

theorem mem_heartbeats_congr (hsame : ∀ r, r ∈ l ↔ r ∈ requests) (h : HeartbeatRequest T V) :
    h ∈ heartbeats l ↔ h ∈ heartbeats requests := by
  rw [mem_heartbeats,mem_heartbeats,hsame]

theorem first_delivery (hh : h ∈ heartbeats l) :
    ∃ before after, l = before++.heartbeat h::after ∧ h ∉ heartbeats before := by
  obtain ⟨before,after,rfl,hnew⟩ := List.eq_append_cons_of_mem (mem_heartbeats.mp hh)
  exact ⟨before,after,rfl,fun hmem => hnew (mem_heartbeats.mp hmem)⟩

theorem Distinct.init (hdistinct : Distinct (l++[r])) : Distinct l where
  syncs a ha b hb := hdistinct.syncs a (mem_syncs_left ha) b (mem_syncs_left hb)
  heartbeats a ha b hb :=
    hdistinct.heartbeats a (mem_heartbeats_left ha) b (mem_heartbeats_left hb)

theorem distinct_congr (hsame : ∀ r, r ∈ l ↔ r ∈ requests) (hdistinct : Distinct requests) :
    Distinct l where
  syncs a ha b hb :=
    hdistinct.syncs a ((mem_syncs_congr hsame a).mp ha) b ((mem_syncs_congr hsame b).mp hb)
  heartbeats a ha b hb := hdistinct.heartbeats a ((mem_heartbeats_congr hsame a).mp ha) b
    ((mem_heartbeats_congr hsame b).mp hb)

theorem distinct_prefix {front rest : List (Request T W V)} (hdistinct : Distinct (front++rest)) :
    Distinct front := by
  induction rest using List.reverseRecOn with
  | nil => rwa [List.append_nil] at hdistinct
  | append_singleton rest r ih =>
    rw [← List.append_assoc] at hdistinct
    exact ih hdistinct.init

end Contents

variable [LinearOrder T]

section Ingestion

/-- `app_snapshot_json`, whose topology is absent before the first sync. -/
structure Snapshot (W V : Type) where
  app : Option (AppTopology W)
  taskControlStates : List (TaskControlState V)

structure Instance (T W V : Type) where
  lastSyncSequence : Option ℕ := none
  lastSyncSentAt : Option T := none
  lastTopologyHash : Option String := none
  lastHeartbeatSequence : Option ℕ := none
  lastHeartbeatSentAt : Option T := none
  status : HealthStatus := .unknown
  appSnapshot : Option (Snapshot W V) := none

def isNewerIngestion (lastSequence : Option ℕ) (lastSentAt : Option T) (sentAt : T) (sequence : ℕ) :
    Bool :=
  match lastSequence with
  | none => true
  | some last =>
    if sequence > last then true
    else if sequence < last then false
    else
      match lastSentAt with
      | none => true
      | some lastSentAt => sentAt > lastSentAt

def taskControlStatesFromSnapshot (snapshot : Option (Snapshot W V)) : List (TaskControlState V) :=
  match snapshot with
  | none => []
  | some snapshot => snapshot.taskControlStates

def taskNamesFromSnapshotTasks (app : AppTopology W) : List String := app.tasks.map TaskTopology.name

def listed (app : AppTopology W) (state : TaskControlState V) : Bool :=
  state.taskName ∈ taskNamesFromSnapshotTasks app

def mergeTaskControlStates (app : Option (AppTopology W)) (states : List (TaskControlState V)) :
    Snapshot W V where
  app := app
  taskControlStates :=
    match app with
    | none => states
    | some app => states.filter (listed app)

def applySyncSnapshot (request : SyncRequest T W) (i : Instance T W V) : Instance T W V :=
  {i with
    lastTopologyHash := some request.app.topologyHash
    appSnapshot := some (mergeTaskControlStates (some request.app)
      (taskControlStatesFromSnapshot i.appSnapshot))
    lastSyncSentAt := some request.sentAt
    lastSyncSequence := some request.sequence}

def applyHeartbeatSnapshot (request : HeartbeatRequest T V) (i : Instance T W V) : Instance T W V :=
  {i with
    lastHeartbeatSentAt := some request.sentAt
    lastHeartbeatSequence := some request.sequence
    status := request.status
    appSnapshot := some (mergeTaskControlStates (i.appSnapshot.bind Snapshot.app)
      request.taskControls)}

def ingest (i : Instance T W V) : Request T W V → Instance T W V
  | .sync s =>
    if isNewerIngestion i.lastSyncSequence i.lastSyncSentAt s.sentAt s.sequence then
      applySyncSnapshot s i
    else i
  | .heartbeat h =>
    if isNewerIngestion i.lastHeartbeatSequence i.lastHeartbeatSentAt h.sentAt h.sequence then
      applyHeartbeatSnapshot h i
    else i

/-- The requests arrive one after another, from an instance that is not known yet. -/
def deliver (l : List (Request T W V)) : Instance T W V := l.foldl ingest {}

end Ingestion

section Reflected

abbrev GreatestSync (l : List (Request T W V)) : SyncRequest T W → Prop :=
  Greatest SyncRequest.stamp (syncs l)

abbrev GreatestHeartbeat (l : List (Request T W V)) : HeartbeatRequest T V → Prop :=
  Greatest HeartbeatRequest.stamp (heartbeats l)

/-- The instance is as the greatest sync and the greatest heartbeat of the requests say. -/
structure Reflects (requests : List (Request T W V)) (i : Instance T W V) : Prop where
  sync : ∀ s, GreatestSync requests s → i.lastSyncSequence = some s.sequence ∧
    i.lastSyncSentAt = some s.sentAt ∧ i.lastTopologyHash = some s.app.topologyHash ∧
    (i.appSnapshot.bind Snapshot.app).map AppTopology.tasks = some s.app.tasks
  heartbeat : ∀ h, GreatestHeartbeat requests h → i.lastHeartbeatSequence = some h.sequence ∧
    i.lastHeartbeatSentAt = some h.sentAt ∧ i.status = h.status
  states : ∀ h, GreatestHeartbeat requests h → ∀ s, GreatestSync requests s →
    taskControlStatesFromSnapshot i.appSnapshot = h.taskControls.filter (listed s.app)
  unlisted : ∀ h, GreatestHeartbeat requests h → syncs requests = [] →
    taskControlStatesFromSnapshot i.appSnapshot = h.taskControls

/-- A control state of the greatest heartbeat, of a task of the greatest sync, is of a task of
the greatest sync so far from the first delivery of that heartbeat on. -/
def Kept (l : List (Request T W V)) : Prop :=
  ∀ before h after, l = before++.heartbeat h::after → GreatestHeartbeat l h →
    h ∉ heartbeats before → ∀ g, GreatestSync l g → ∀ state ∈ h.taskControls,
      listed g.app state = true → ∀ mid, mid <+: after →
        ∀ s, GreatestSync (before++.heartbeat h::mid) s → listed s.app state = true

end Reflected

section Order

theorem isNewerIngestion_stamp (sequence sequence' : ℕ) (sentAt sentAt' : T) :
    isNewerIngestion (some sequence) (some sentAt) sentAt' sequence' =
      decide (toLex (sequence,sentAt) < toLex (sequence',sentAt')) := by
  rw [Bool.eq_iff_iff,decide_eq_true_iff,Prod.Lex.toLex_lt_toLex]
  unfold isNewerIngestion
  dsimp only
  split
  · next hlater => exact iff_of_true rfl (.inl hlater)
  · next hlater =>
      split
      · next hearlier =>
          refine iff_of_false Bool.false_ne_true ?_
          rintro (hlt | ⟨heq,-⟩)
          · exact hlater hlt
          · exact absurd hearlier (by rw [heq]; exact lt_irrefl _)
      · next hearlier =>
          have heq : sequence = sequence' := le_antisymm (not_lt.mp hearlier) (not_lt.mp hlater)
          rw [decide_eq_true_iff]
          constructor
          · exact fun hlt => .inr ⟨heq,hlt⟩
          · rintro (hlt | ⟨-,hlt⟩)
            · exact absurd hlt hlater
            · exact hlt

/-- The greatest sync so far. -/
def latestSync (l : List (Request T W V)) : Option (SyncRequest T W) :=
  latest SyncRequest.stamp (syncs l)

def latestHeartbeat (l : List (Request T W V)) : Option (HeartbeatRequest T V) :=
  latest HeartbeatRequest.stamp (heartbeats l)

variable (l : List (Request T W V))

theorem latestSync_sync (s : SyncRequest T W) :
    latestSync (l++[.sync s]) = adopt SyncRequest.stamp (latestSync l) s := by
  rw [latestSync,syncs_append]
  exact latest_append_singleton _ s

theorem latestSync_heartbeat (h : HeartbeatRequest T V) :
    latestSync (l++[.heartbeat h]) = latestSync l := by
  rw [latestSync,syncs_append]
  exact congrArg _ (List.append_nil _)

theorem latestHeartbeat_heartbeat (h : HeartbeatRequest T V) :
    latestHeartbeat (l++[.heartbeat h]) = adopt HeartbeatRequest.stamp (latestHeartbeat l) h := by
  rw [latestHeartbeat,heartbeats_append]
  exact latest_append_singleton _ h

theorem latestHeartbeat_sync (s : SyncRequest T W) :
    latestHeartbeat (l++[.sync s]) = latestHeartbeat l := by
  rw [latestHeartbeat,heartbeats_append]
  exact congrArg _ (List.append_nil _)

end Order

section States

/-- A state stays under the topology of a sync, or under none. -/
def listedBy (sync : Option (SyncRequest T W)) (state : TaskControlState V) : Bool :=
  sync.all fun s => listed s.app state

/-- A state is of a task of the greatest sync from the front on, request after request. -/
def lasting (state : TaskControlState V) : List (Request T W V) → List (Request T W V) → Bool
  | front,[] => listedBy (latestSync front) state
  | front,r::after => listedBy (latestSync front) state && lasting state (front++[r]) after

variable {state : TaskControlState V} {front after : List (Request T W V)}

theorem lasting_last (h : lasting state front after = true) :
    listedBy (latestSync (front++after)) state = true := by
  induction after generalizing front with
  | nil =>
    rw [List.append_nil]
    exact h
  | cons r after ih =>
    rw [List.append_cons]
    exact ih (Bool.and_eq_true_iff.mp h).2

theorem lasting_append_singleton (state : TaskControlState V) (front after : List (Request T W V))
    (r : Request T W V) : lasting state front (after++[r]) =
      (lasting state front after && listedBy (latestSync (front++after++[r])) state) := by
  induction after generalizing front with
  | nil =>
    rw [List.nil_append,lasting,lasting,List.append_nil]
    rfl
  | cons q after ih =>
    rw [List.cons_append,lasting,ih,lasting,Bool.and_assoc,← List.append_cons]

theorem lasting_iff : lasting state front after = true ↔
    ∀ mid, mid <+: after → listedBy (latestSync (front++mid)) state = true := by
  induction after generalizing front with
  | nil =>
    rw [lasting]
    constructor
    · intro h mid hmid
      rw [List.prefix_nil.mp hmid,List.append_nil]
      exact h
    · intro h
      have hnil := h [] (List.nil_prefix)
      rwa [List.append_nil] at hnil
  | cons r after ih =>
    rw [lasting,Bool.and_eq_true_iff,ih]
    constructor
    · rintro ⟨hnow,hlater⟩ mid hmid
      cases mid with
      | nil =>
        rw [List.append_nil]
        exact hnow
      | cons q mid =>
        obtain ⟨rfl,hrest⟩ := List.cons_prefix_cons.mp hmid
        rw [List.append_cons]
        exact hlater mid hrest
    · intro h
      constructor
      · have hnil := h [] List.nil_prefix
        rwa [List.append_nil] at hnil
      · intro mid hmid
        rw [← List.append_cons]
        exact h (r::mid) (List.cons_prefix_cons.mpr ⟨rfl,hmid⟩)

theorem lasting_unchanged {r : Request T W V}
    (h : latestSync (front++after++[r]) = latestSync (front++after)) :
    lasting state front (after++[r]) = lasting state front after := by
  rw [lasting_append_singleton,h]
  cases hlast : lasting state front after with
  | false => rfl
  | true => rw [lasting_last hlast,Bool.and_self]

end States

section Ingested

variable {l : List (Request T W V)} {i : Instance T W V}

/-- The instance has applied the latest sync and the latest heartbeat of what arrived. -/
structure Applied (l : List (Request T W V)) (i : Instance T W V) : Prop where
  syncSequence : i.lastSyncSequence = (latestSync l).map SyncRequest.sequence
  syncSentAt : i.lastSyncSentAt = (latestSync l).map SyncRequest.sentAt
  topologyHash : i.lastTopologyHash = (latestSync l).map fun s => s.app.topologyHash
  app : i.appSnapshot.bind Snapshot.app = (latestSync l).map SyncRequest.app
  heartbeatSequence : i.lastHeartbeatSequence = (latestHeartbeat l).map HeartbeatRequest.sequence
  heartbeatSentAt : i.lastHeartbeatSentAt = (latestHeartbeat l).map HeartbeatRequest.sentAt
  status : ∀ h, latestHeartbeat l = some h → i.status = h.status

theorem Applied.newerSync (hi : Applied l i) (s : SyncRequest T W) :
    isNewerIngestion i.lastSyncSequence i.lastSyncSentAt s.sentAt s.sequence =
      adopts SyncRequest.stamp (latestSync l) s := by
  rw [hi.syncSequence,hi.syncSentAt]
  cases latestSync l with
  | none => rfl
  | some f => exact isNewerIngestion_stamp _ _ _ _

theorem Applied.newerHeartbeat (hi : Applied l i) (h : HeartbeatRequest T V) :
    isNewerIngestion i.lastHeartbeatSequence i.lastHeartbeatSentAt h.sentAt h.sequence =
      adopts HeartbeatRequest.stamp (latestHeartbeat l) h := by
  rw [hi.heartbeatSequence,hi.heartbeatSentAt]
  cases latestHeartbeat l with
  | none => rfl
  | some f => exact isNewerIngestion_stamp _ _ _ _

theorem Applied.sync (hi : Applied l i) (s : SyncRequest T W) :
    Applied (l++[.sync s]) (ingest i (.sync s)) := by
  rw [ingest,hi.newerSync]
  have hlatest := latestSync_sync l s
  rw [adopt] at hlatest
  split
  · next hnewer =>
      rw [if_pos hnewer] at hlatest
      constructor
      · rw [hlatest]
        rfl
      · rw [hlatest]
        rfl
      · rw [hlatest]
        rfl
      · rw [hlatest]
        rfl
      · rw [latestHeartbeat_sync]
        exact hi.heartbeatSequence
      · rw [latestHeartbeat_sync]
        exact hi.heartbeatSentAt
      · rw [latestHeartbeat_sync]
        exact hi.status
  · next hstale =>
      rw [if_neg hstale] at hlatest
      constructor
      · rw [hlatest]
        exact hi.syncSequence
      · rw [hlatest]
        exact hi.syncSentAt
      · rw [hlatest]
        exact hi.topologyHash
      · rw [hlatest]
        exact hi.app
      · rw [latestHeartbeat_sync]
        exact hi.heartbeatSequence
      · rw [latestHeartbeat_sync]
        exact hi.heartbeatSentAt
      · rw [latestHeartbeat_sync]
        exact hi.status

theorem Applied.heartbeat (hi : Applied l i) (h : HeartbeatRequest T V) :
    Applied (l++[.heartbeat h]) (ingest i (.heartbeat h)) := by
  rw [ingest,hi.newerHeartbeat]
  have hlatest := latestHeartbeat_heartbeat l h
  rw [adopt] at hlatest
  split
  · next hnewer =>
      rw [if_pos hnewer] at hlatest
      constructor
      · rw [latestSync_heartbeat]
        exact hi.syncSequence
      · rw [latestSync_heartbeat]
        exact hi.syncSentAt
      · rw [latestSync_heartbeat]
        exact hi.topologyHash
      · rw [latestSync_heartbeat]
        exact hi.app
      · rw [hlatest]
        rfl
      · rw [hlatest]
        rfl
      · intro g hg
        rw [hlatest] at hg
        cases hg
        rfl
  · next hstale =>
      rw [if_neg hstale] at hlatest
      constructor
      · rw [latestSync_heartbeat]
        exact hi.syncSequence
      · rw [latestSync_heartbeat]
        exact hi.syncSentAt
      · rw [latestSync_heartbeat]
        exact hi.topologyHash
      · rw [latestSync_heartbeat]
        exact hi.app
      · rw [hlatest]
        exact hi.heartbeatSequence
      · rw [hlatest]
        exact hi.heartbeatSentAt
      · rw [hlatest]
        exact hi.status

theorem deliver_append_singleton (l : List (Request T W V)) (r : Request T W V) :
    deliver (l++[r]) = ingest (deliver l) r := by
  rw [deliver,List.foldl_append]
  rfl

theorem applied_deliver (l : List (Request T W V)) : Applied l (deliver l) := by
  induction l using List.reverseRecOn with
  | nil => exact ⟨rfl,rfl,rfl,rfl,rfl,rfl,fun _ h => by cases h⟩
  | append_singleton l r ih =>
    rw [deliver_append_singleton]
    cases r with
    | sync s => exact ih.sync s
    | heartbeat h => exact ih.heartbeat h

end Ingested

section Controls

variable {l before after : List (Request T W V)} {h : HeartbeatRequest T V}

theorem states_sync (l : List (Request T W V)) (s : SyncRequest T W) :
    taskControlStatesFromSnapshot (deliver (l++[.sync s])).appSnapshot =
      if adopts SyncRequest.stamp (latestSync l) s then
        (taskControlStatesFromSnapshot (deliver l).appSnapshot).filter (listed s.app)
      else taskControlStatesFromSnapshot (deliver l).appSnapshot := by
  rw [deliver_append_singleton,ingest,(applied_deliver l).newerSync]
  split
  · rfl
  · rfl

theorem states_heartbeat (l : List (Request T W V)) (h : HeartbeatRequest T V) :
    taskControlStatesFromSnapshot (deliver (l++[.heartbeat h])).appSnapshot =
      if adopts HeartbeatRequest.stamp (latestHeartbeat l) h then
        h.taskControls.filter (listedBy (latestSync l))
      else taskControlStatesFromSnapshot (deliver l).appSnapshot := by
  rw [deliver_append_singleton,ingest,(applied_deliver l).newerHeartbeat]
  split
  · rw [applyHeartbeatSnapshot,(applied_deliver l).app]
    cases latestSync l with
    | none => exact (List.filter_eq_self.mpr fun _ _ => rfl).symm
    | some s => rfl
  · rfl

/-- A request after the greatest heartbeat leaves what lasts. -/
theorem states_snoc {front : List (Request T W V)} {states : List (TaskControlState V)}
    (r : Request T W V)
    (hr : ∀ g, r = .heartbeat g → adopts HeartbeatRequest.stamp (latestHeartbeat (front++after)) g
      = false)
    (hstates : taskControlStatesFromSnapshot (deliver (front++after)).appSnapshot =
      states.filter fun state => lasting state front after) :
    taskControlStatesFromSnapshot (deliver (front++after++[r])).appSnapshot =
      states.filter fun state => lasting state front (after++[r]) := by
  cases r with
  | heartbeat g =>
    rw [states_heartbeat,hr g rfl,if_neg Bool.false_ne_true,hstates]
    exact List.filter_congr fun state _ => (lasting_unchanged (latestSync_heartbeat _ g)).symm
  | sync s =>
    have hlatest := latestSync_sync (front++after) s
    rw [adopt] at hlatest
    rw [states_sync,hstates]
    split
    · next hnewer =>
        rw [if_pos hnewer] at hlatest
        rw [List.filter_filter]
        apply List.filter_congr
        intro state _
        rw [lasting_append_singleton,hlatest,Bool.and_comm]
        rfl
    · next hstale =>
        rw [if_neg hstale] at hlatest
        exact List.filter_congr fun state _ => (lasting_unchanged hlatest).symm

theorem adopts_first (hdistinct : Distinct (before++[.heartbeat h]++after))
    (hh : GreatestHeartbeat (before++[.heartbeat h]++after) h) (hnew : h ∉ heartbeats before) :
    adopts HeartbeatRequest.stamp (latestHeartbeat before) h = true := by
  cases hf : latestHeartbeat before with
  | none => rfl
  | some f =>
    have hmem : f ∈ heartbeats before := (greatest_latest hf).mem
    have hfl : f ∈ heartbeats (before++[.heartbeat h]++after) :=
      mem_heartbeats.mpr (List.mem_append_left _ (List.mem_append_left _ (mem_heartbeats.mp hmem)))
    have hne : f.stamp ≠ h.stamp := fun heq =>
      hnew (hdistinct.heartbeats f hfl h (mem_first before after h) heq ▸ hmem)
    exact decide_eq_true (lt_of_le_of_ne (hh.top f hfl) hne)

theorem not_adopts_later {g : HeartbeatRequest T V} (hdistinct : Distinct l)
    (hh : GreatestHeartbeat l h) (hg : g.stamp ≤ h.stamp) :
    adopts HeartbeatRequest.stamp (latestHeartbeat l) g = false := by
  rw [latestHeartbeat,latest_eq hdistinct.heartbeats hh]
  exact decide_eq_false (not_lt.mpr hg)

/-- The states are those of the greatest heartbeat that last since its first delivery. -/
theorem states_deliver (hdistinct : Distinct (before++[.heartbeat h]++after))
    (hh : GreatestHeartbeat (before++[.heartbeat h]++after) h) (hnew : h ∉ heartbeats before) :
    taskControlStatesFromSnapshot (deliver (before++[.heartbeat h]++after)).appSnapshot =
      h.taskControls.filter fun state => lasting state (before++[.heartbeat h]) after := by
  induction after using List.reverseRecOn with
  | nil =>
    have hadopts := adopts_first hdistinct hh hnew
    rw [List.append_nil,states_heartbeat,if_pos hadopts]
    apply List.filter_congr
    intro state _
    rw [lasting,latestSync_heartbeat]
  | append_singleton after r ih =>
    rw [← List.append_assoc] at hdistinct hh ⊢
    have hinit : GreatestHeartbeat (before++[.heartbeat h]++after) h :=
      ⟨mem_first before after h,fun g hg => hh.top g (mem_heartbeats_left hg)⟩
    apply states_snoc r
    · rintro g rfl
      apply not_adopts_later hdistinct.init hinit
      exact hh.top g (mem_heartbeats.mpr (List.mem_append_right _ (List.mem_singleton_self _)))
    · exact ih hdistinct.init hinit

end Controls

section Ingested

variable {requests l before after : List (Request T W V)} {h : HeartbeatRequest T V}
  {g : SyncRequest T W} {state : TaskControlState V}

theorem greatestSync_congr (hsame : ∀ r, r ∈ l ↔ r ∈ requests) (s : SyncRequest T W) :
    GreatestSync l s ↔ GreatestSync requests s := by
  constructor
  · exact fun hs => ⟨(mem_syncs_congr hsame s).mp hs.mem,
      fun b hb => hs.top b ((mem_syncs_congr hsame b).mpr hb)⟩
  · exact fun hs => ⟨(mem_syncs_congr hsame s).mpr hs.mem,
      fun b hb => hs.top b ((mem_syncs_congr hsame b).mp hb)⟩

theorem greatestHeartbeat_congr (hsame : ∀ r, r ∈ l ↔ r ∈ requests) (h : HeartbeatRequest T V) :
    GreatestHeartbeat l h ↔ GreatestHeartbeat requests h := by
  constructor
  · exact fun hh => ⟨(mem_heartbeats_congr hsame h).mp hh.mem,
      fun b hb => hh.top b ((mem_heartbeats_congr hsame b).mpr hb)⟩
  · exact fun hh => ⟨(mem_heartbeats_congr hsame h).mpr hh.mem,
      fun b hb => hh.top b ((mem_heartbeats_congr hsame b).mp hb)⟩

theorem latestSync_greatest (hdistinct : Distinct l) (hg : GreatestSync l g) :
    latestSync l = some g := latest_eq hdistinct.syncs hg

theorem lasting_greatest (hdistinct : Distinct (before++[.heartbeat h]++after)) :
    lasting state (before++[.heartbeat h]) after = true ↔ ∀ mid, mid <+: after →
      ∀ s, GreatestSync (before++.heartbeat h::mid) s → listed s.app state = true := by
  rw [lasting_iff]
  apply forall₂_congr
  rintro mid ⟨rest,rfl⟩
  rw [← List.append_cons]
  have hmid : Distinct (before++.heartbeat h::mid) := by
    rw [← List.append_assoc,← List.append_cons] at hdistinct
    exact distinct_prefix hdistinct
  constructor
  · intro hlisted s hs
    rw [latestSync_greatest hmid hs] at hlisted
    exact hlisted
  · intro hlisted
    cases hs : latestSync (before++.heartbeat h::mid) with
    | none => rfl
    | some s => exact hlisted s (greatest_latest hs)

/-- The states of the instance are the listed ones just when all of these last. -/
theorem states_iff (hdistinct : Distinct (before++[.heartbeat h]++after))
    (hh : GreatestHeartbeat (before++[.heartbeat h]++after) h) (hnew : h ∉ heartbeats before)
    (hg : GreatestSync (before++[.heartbeat h]++after) g) :
    taskControlStatesFromSnapshot (deliver (before++[.heartbeat h]++after)).appSnapshot =
        h.taskControls.filter (listed g.app) ↔
      ∀ state ∈ h.taskControls, listed g.app state = true →
        lasting state (before++[.heartbeat h]) after = true := by
  rw [states_deliver hdistinct hh hnew]
  constructor
  · intro heq state hstate hlisted
    have hmem := List.mem_filter.mpr ⟨hstate,hlisted⟩
    rw [← heq] at hmem
    exact (List.mem_filter.mp hmem).2
  · intro hlasting
    apply List.filter_congr
    intro state hstate
    rw [Bool.eq_iff_iff]
    constructor
    · intro hlast
      have hlisted := lasting_last hlast
      rw [latestSync_greatest hdistinct hg] at hlisted
      exact hlisted
    · exact hlasting state hstate

theorem states_unlisted (hdistinct : Distinct (before++[.heartbeat h]++after))
    (hh : GreatestHeartbeat (before++[.heartbeat h]++after) h) (hnew : h ∉ heartbeats before)
    (hnone : syncs (before++[.heartbeat h]++after) = []) :
    taskControlStatesFromSnapshot (deliver (before++[.heartbeat h]++after)).appSnapshot =
      h.taskControls := by
  rw [states_deliver hdistinct hh hnew,List.filter_eq_self]
  intro state _
  rw [lasting_greatest hdistinct]
  rintro mid ⟨rest,rfl⟩ s hs
  rw [← List.append_assoc,← List.append_cons,syncs_append,List.append_eq_nil_iff] at hnone
  have hmem := hs.mem
  rw [hnone.1] at hmem
  exact absurd hmem List.not_mem_nil

end Ingested

section Example

def topology (names : List String) : AppTopology Unit where
  topologyHash := String.join names
  tasks := names.map fun name => ⟨name,()⟩

def narrow : Request ℕ Unit Bool := .sync ⟨1,10,topology ["a"]⟩

def wide : Request ℕ Unit Bool := .sync ⟨2,30,topology ["a","b"]⟩

def beat : HeartbeatRequest ℕ Bool where
  sequence := 1
  sentAt := 20
  status := .ok
  taskControls := [⟨"a",true⟩,⟨"b",true⟩]

theorem example_distinct : Distinct [narrow,.heartbeat beat,wide] where
  syncs a ha b hb h := by
    simp only [syncs,narrow,wide,List.filterMap,Request.sync?,List.mem_cons,List.not_mem_nil,
      or_false] at ha hb
    rcases ha with rfl | rfl
    · rcases hb with rfl | rfl
      · rfl
      · exact absurd h (by decide)
    · rcases hb with rfl | rfl
      · exact absurd h (by decide)
      · rfl
  heartbeats a ha b hb _ := (List.mem_singleton.mp ha).trans (List.mem_singleton.mp hb).symm

theorem example_greatestSync : GreatestSync [narrow,.heartbeat beat,wide]
    ⟨2,30,topology ["a","b"]⟩ where
  mem := mem_syncs.mpr (by simp [wide])
  top b hb := by
    simp only [syncs,narrow,wide,List.filterMap,Request.sync?,List.mem_cons,List.not_mem_nil,
      or_false] at hb
    rcases hb with rfl | rfl
    · decide
    · exact le_rfl

theorem example_greatestHeartbeat : GreatestHeartbeat [narrow,.heartbeat beat,wide] beat where
  mem := List.mem_singleton_self beat
  top b hb := le_of_eq (by rw [List.mem_singleton.mp hb])

theorem last_kept : Kept [narrow,wide,.heartbeat beat] := by
  intro before h after hl _ _ g hg state _ hlisted mid hmid s hs
  have hwhole : before++.heartbeat h::mid = [narrow,wide,.heartbeat beat] := by
    rcases before with _ | ⟨a,_ | ⟨b,_ | ⟨c,before⟩⟩⟩
    · cases hl
    · cases hl
    · cases hl
      rw [List.prefix_nil.mp hmid]
      rfl
    · cases before with
      | nil => cases hl
      | cons d before => cases hl
  rw [hwhole] at hs
  have hdistinct := distinct_congr (l := [narrow,wide,.heartbeat beat])
    (fun r => by simp only [List.mem_cons]; tauto) example_distinct
  have heq := (latestSync_greatest hdistinct hs).symm.trans (latestSync_greatest hdistinct hg)
  cases heq
  exact hlisted

end Example

end OneStep.SnapshotIngestion
