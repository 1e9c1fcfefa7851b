import OneStep.SnapshotIngestion
import Mathlib.Data.List.Pairwise
import Mathlib.Logic.Function.Basic

/-!
# The identity and the sequences of a reporter

A reporter takes its instance id and the sequences of its syncs and heartbeats from a file
store. With an instance id alone configured there is no store, and the sequences are counters
of the reporter that every startup resets. The sender keeps the latest payload of a kind until
the transport took it. A blank replica key or state directory counts as none.
-/
namespace OneStep.ReporterIdentity
open SnapshotIngestion (isNewerIngestion isNewerIngestion_stamp)

variable {U D T : Type}

section Identity

inductive Kind where
  | sync | heartbeat
  deriving DecidableEq

structure Config (U D : Type) where
  instanceId : Option U := none
  replicaKey : Option String := none
  stateDir : Option D := none

/-- `derive_replica_instance_id` and `build_default_state_dir` of the service and environment. -/
structure Naming (U D : Type) where
  derive : String → U
  defaultStateDir : Option String → D

structure IdentityState (U : Type) where
  instanceId : U
  sequence : Kind → ℕ

structure IdentityStore (U D : Type) where
  stateDir : D
  state : IdentityState U

/-- The state files and the lock files of the state directories. -/
structure Disk (U D : Type) where
  files : D → Option (IdentityState U)
  locks : D → Bool

/-- The configuration is given as such or read from the environment. -/
inductive Setup (U D : Type) where
  | direct (config : Config U D)
  | environment (read : Config U D)

def fromEnv (naming : Naming U D) (disk : Disk U D) (fresh : U) (read : Config U D) :
    Config U D :=
  let stateDir := read.stateDir.getD (naming.defaultStateDir read.replicaKey)
  let instanceId :=
    match read.instanceId with
    | some u => u
    | none =>
      match read.replicaKey with
      | some replicaKey => naming.derive replicaKey
      | none => ((disk.files stateDir).map IdentityState.instanceId).getD fresh
  {instanceId := some instanceId,replicaKey := read.replicaKey,stateDir := some stateDir}

def Setup.config (naming : Naming U D) (disk : Disk U D) (fresh : U) : Setup U D → Config U D
  | .direct config => config
  | .environment read => fromEnv naming disk fresh read

def resolveStateDir (naming : Naming U D) (config : Config U D) : Option D :=
  match config.stateDir with
  | some d => some d
  | none =>
    if config.replicaKey.isNone && config.instanceId.isSome then none
    else some (naming.defaultStateDir config.replicaKey)

def preferredInstanceId (naming : Naming U D) (fresh : U) (config : Config U D) : U :=
  match config.instanceId with
  | some u => u
  | none =>
    match config.replicaKey with
    | some replicaKey => naming.derive replicaKey
    | none => fresh

def loadState (file : Option (IdentityState U)) (instanceId : Option U) (fresh : U) :
    IdentityState U :=
  let state := file.getD ⟨fresh,fun _ => 0⟩
  {state with instanceId := instanceId.getD state.instanceId}

variable [DecidableEq D]

/-- `IdentityStore(state_dir, instance_id=...)`, nothing when it raises: over a lock that is not
stale, or when the state cannot be written. -/
def openStore (disk : Disk U D) (d : D) (instanceId : Option U) (fresh : U)
    (stale writes : Bool) : Disk U D × Option (IdentityStore U D) :=
  if disk.locks d && !stale then (disk,none)
  else
    let locked := {disk with locks := Function.update disk.locks d true}
    let state := loadState (disk.files d) instanceId fresh
    if writes then
      ({locked with files := Function.update disk.files d (some state)},some ⟨d,state⟩)
    else (locked,none)

def closeStore (disk : Disk U D) (store : Option (IdentityStore U D)) : Disk U D :=
  match store with
  | none => disk
  | some store => {disk with locks := Function.update disk.locks store.stateDir false}

end Identity

section Reporter

structure Message (U T : Type) where
  instanceId : U
  sequence : ℕ
  sentAt : T
  deriving DecidableEq

structure Reporter (U D T : Type) where
  config : Config U D
  store : Option (IdentityStore U D) := none
  sequence : Kind → ℕ := fun _ => 0
  started : Bool := false
  pending : Kind → Option (Message U T) := fun _ => none
  sending : Option (Kind × Message U T) := none

variable [DecidableEq D]

/-- Whether the identity is ready, or else the exception left the startup. -/
def ensureIdentityReady (naming : Naming U D) (fresh : U) (stale writes : Bool) (disk : Disk U D)
    (r : Reporter U D T) : Disk U D × Reporter U D T × Bool :=
  match r.store with
  | some store =>
    (disk,{r with config := {r.config with instanceId := some store.state.instanceId}},true)
  | none =>
    match resolveStateDir naming r.config with
    | none =>
      let preferred := preferredInstanceId naming fresh r.config
      (disk,{r with config := {r.config with instanceId := some preferred}},true)
    | some d =>
      let preferred :=
        if r.config.replicaKey.isSome then some (preferredInstanceId naming fresh r.config)
        else r.config.instanceId
      let config := {r.config with instanceId := preferred}
      match openStore disk d preferred fresh stale writes with
      | (disk,none) => (disk,{r with config := config},false)
      | (disk,some store) =>
        (disk,{r with
          store := some store
          config := {config with
            stateDir := some d
            instanceId := some store.state.instanceId}},true)

def startup (naming : Naming U D) (fresh : U) (stale writes : Bool) (disk : Disk U D)
    (r : Reporter U D T) : Disk U D × Reporter U D T :=
  let ready := ensureIdentityReady naming fresh stale writes disk {r with sequence := fun _ => 0}
  (ready.1,{ready.2.1 with started := ready.2.2})

/-- `_next_sync_sequence` and `_next_heartbeat_sequence`, nothing when the state cannot be
written. -/
def nextSequence (k : Kind) (writes : Bool) (disk : Disk U D) (r : Reporter U D T) :
    Disk U D × Reporter U D T × Option ℕ :=
  match r.store with
  | none =>
    let n := r.sequence k+1
    (disk,{r with sequence := Function.update r.sequence k n},some n)
  | some store =>
    let n := store.state.sequence k+1
    let state := {store.state with sequence := Function.update store.state.sequence k n}
    let r := {r with store := some {store with state := state}}
    if writes then
      ({disk with files := Function.update disk.files store.stateDir (some state)},r,some n)
    else (disk,r,none)

/-- `_send_sync` and `_send_heartbeat`: the payload replaces the pending one of its kind. -/
def build (k : Kind) (writes : Bool) (now : T) (disk : Disk U D) (r : Reporter U D T) :
    Disk U D × Reporter U D T :=
  match r.config.instanceId with
  | none => (disk,r)
  | some u =>
    match nextSequence k writes disk r with
    | (disk,r,none) => (disk,r)
    | (disk,r,some n) =>
      (disk,{r with pending := Function.update r.pending k (some ⟨u,n,now⟩)})

/-- `_peek_pending_telemetry` of the worker, which has nothing under way. -/
def peek (r : Reporter U D T) : Reporter U D T :=
  match r.sending with
  | some _ => r
  | none =>
    match r.pending .sync with
    | some m => {r with sending := some (.sync,m)}
    | none => {r with sending := (r.pending .heartbeat).map fun m => (.heartbeat,m)}

def shutdown (disk : Disk U D) (r : Reporter U D T) : Disk U D × Reporter U D T :=
  (closeStore disk r.store,{r with
    store := none
    started := false
    pending := fun _ => none
    sending := none})

end Reporter

section Runs

structure World (U D T : Type) where
  disk : Disk U D
  clock : T
  process : Option (Reporter U D T)
  wire : List (Kind × Message U T)

inductive Act (U T : Type) where
  | launch (fresh : U)
  | startup (fresh : U) (stale writes : Bool)
  | build (k : Kind) (writes : Bool)
  | peek
  | send (raised : Bool)
  | shutdown
  | crash
  | advance (now : T)

variable [DecidableEq D] [DecidableEq U] [LinearOrder T]

/-- The transport took the payload under way, and then the worker consumes it or, when the
transport raised, leaves it pending. -/
def World.send (w : World U D T) (raised : Bool) (r : Reporter U D T) : World U D T :=
  match r.sending with
  | none => w
  | some (k,m) =>
    let pending :=
      if !raised && r.pending k = some m then Function.update r.pending k none else r.pending
    {w with
      wire := w.wire++[(k,m)]
      process := some {r with sending := none,pending := pending}}

def World.step (naming : Naming U D) (setup : Setup U D) (w : World U D T) :
    Act U T → World U D T
  | .launch fresh =>
    match w.process with
    | some _ => w
    | none => {w with process := some {config := setup.config naming w.disk fresh}}
  | .startup fresh stale writes =>
    match w.process with
    | none => w
    | some r =>
      if r.started then w
      else
        let started := startup naming fresh stale writes w.disk r
        {w with disk := started.1,process := some started.2}
  | .build k writes =>
    match w.process with
    | none => w
    | some r =>
      if r.started then
        let built := build k writes w.clock w.disk r
        {w with disk := built.1,process := some built.2}
      else w
  | .peek => {w with process := w.process.map peek}
  | .send raised =>
    match w.process with
    | none => w
    | some r => w.send raised r
  | .shutdown =>
    match w.process with
    | none => w
    | some r =>
      let stopped := shutdown w.disk r
      {w with disk := stopped.1,process := some stopped.2}
  | .crash => {w with process := none}
  | .advance now => if w.clock ≤ now then {w with clock := now} else w

/-- The agent starts from state directories without any file. -/
def run (naming : Naming U D) (setup : Setup U D) (t : T) (acts : List (Act U T)) : World U D T :=
  acts.foldl (World.step naming setup) ⟨⟨fun _ => none,fun _ => false⟩,t,none,[]⟩

def ofKind (k : Kind) (sent : Kind × Message U T) : Option (Message U T) :=
  if sent.1 = k then some sent.2 else none

def World.sent (w : World U D T) (k : Kind) : List (Message U T) := w.wire.filterMap (ofKind k)

/-- Of two messages of a kind and an instance the one sent later is newer, unless it is the
same message. -/
def Ordered (w : World U D T) : Prop :=
  ∀ k, (w.sent k).Pairwise fun e l => e.instanceId = l.instanceId → e = l ∨
    isNewerIngestion (some e.sequence) (some e.sentAt) l.sentAt l.sequence = true

/-- The sequences are kept in a state file. -/
def Stored : Setup U D → Prop
  | .environment _ => True
  | .direct config =>
    config.instanceId = none ∨ config.replicaKey ≠ none ∨ config.stateDir ≠ none

end Runs

section Resolution

variable {setup : Setup U D}

theorem resolves_of_stored (naming : Naming U D) (h : Stored setup) :
    ∃ d, ∀ disk fresh, resolveStateDir naming (setup.config naming disk fresh) = some d := by
  cases setup with
  | environment read =>
    exact ⟨read.stateDir.getD (naming.defaultStateDir read.replicaKey),fun _ _ => rfl⟩
  | direct config =>
    obtain ⟨instanceId,replicaKey,stateDir⟩ := config
    cases stateDir with
    | some d => exact ⟨d,fun _ _ => rfl⟩
    | none =>
      refine ⟨naming.defaultStateDir replicaKey,fun _ _ => if_neg ?_⟩
      intro hnone
      obtain ⟨hreplica,hinstance⟩ := Bool.and_eq_true_iff.mp hnone
      rcases h with h | h | h
      · rw [show instanceId = none from h] at hinstance
        cases hinstance
      · exact h (Option.isNone_iff_eq_none.mp hreplica)
      · exact h rfl

end Resolution

section Invariant

variable {naming : Naming U D} {d : D} {disk disk' : Disk U D} {r : Reporter U D T}

/-- A message is sent before another, or it is that one. -/
def Before (e l : Message U T) : Prop := e = l ∨ e.sequence < l.sequence

/-- The file of the directory is there to stay, and its sequences only rise. -/
def Rises (d : D) (disk disk' : Disk U D) : Prop :=
  ∀ f, disk.files d = some f → ∃ f', disk'.files d = some f' ∧ ∀ k, f.sequence k ≤ f'.sequence k

theorem Rises.rfl : Rises d disk disk := fun f hf => ⟨f,hf,fun _ => le_refl _⟩

/-- The store of the reporter is over the directory, and not behind its file. -/
structure Keeps (naming : Naming U D) (d : D) (disk : Disk U D) (r : Reporter U D T) : Prop where
  resolves : resolveStateDir naming r.config = some d
  started : r.started = true → r.store ≠ none
  store : ∀ store, r.store = some store → store.stateDir = d ∧ r.config.stateDir = some d ∧
    ∃ f, disk.files d = some f ∧ ∀ k, f.sequence k ≤ store.state.sequence k

def Reporter.slots (r : Reporter U D T) (k : Kind) : List (Message U T) :=
  (r.sending.bind (ofKind k)).toList++(r.pending k).toList

def slots (process : Option (Reporter U D T)) (k : Kind) : List (Message U T) :=
  process.elim [] fun r => r.slots k

/-- What was sent of a kind, and after it what the sender holds. -/
def World.line (w : World U D T) (k : Kind) : List (Message U T) := w.sent k++slots w.process k

structure Inv (naming : Naming U D) (d : D) (w : World U D T) : Prop where
  ordered : ∀ k, (w.line k).Pairwise Before
  floored : ∀ k, ∀ m ∈ w.line k, ∃ f, w.disk.files d = some f ∧ m.sequence ≤ f.sequence k
  keeps : ∀ r, w.process = some r → Keeps naming d w.disk r

theorem Inv.of_sublist {w w' : World U D T} (h : Inv naming d w)
    (hline : ∀ k, List.Sublist (w'.line k) (w.line k)) (hrises : Rises d w.disk w'.disk)
    (hkeeps : ∀ r, w'.process = some r → Keeps naming d w'.disk r) : Inv naming d w' where
  ordered k := (h.ordered k).sublist (hline k)
  floored k m hm := by
    obtain ⟨f,hf,hle⟩ := h.floored k m ((hline k).subset hm)
    obtain ⟨f',hf',hrise⟩ := hrises f hf
    exact ⟨f',hf',hle.trans (hrise k)⟩
  keeps := hkeeps

theorem resolves_instance {config : Config U D} {instanceId : Option U}
    (h : resolveStateDir naming config = some d)
    (hsame : config.stateDir = none → config.replicaKey = none →
      instanceId = config.instanceId) :
    resolveStateDir naming {config with instanceId := instanceId} = some d := by
  obtain ⟨u,replicaKey,stateDir⟩ := config
  cases stateDir with
  | some e => exact h
  | none =>
    cases replicaKey with
    | some key => exact h
    | none =>
      rw [show instanceId = u from hsame rfl rfl]
      exact h

variable [DecidableEq D]

theorem rises_update {f' : IdentityState U} {locks : D → Bool}
    (h : ∀ f, disk.files d = some f → ∀ k, f.sequence k ≤ f'.sequence k) :
    Rises d disk {files := Function.update disk.files d (some f'),locks := locks} :=
  fun f hf => ⟨f',Function.update_self ..,h f hf⟩

variable {preferred : Option U}

variable {fresh : U} {stale writes : Bool}

theorem openStore_none (h : openStore disk d preferred fresh stale writes = (disk',none)) :
    disk'.files = disk.files := by
  unfold openStore at h
  split at h
  · cases h
    rfl
  · split at h
    · cases h
    · cases h
      rfl

variable {store : IdentityStore U D}

theorem openStore_some (h : openStore disk d preferred fresh stale writes = (disk',some store)) :
    store.stateDir = d ∧ disk'.files d = some store.state ∧
      store.state.sequence = ((disk.files d).getD ⟨fresh,fun _ => 0⟩).sequence := by
  unfold openStore at h
  split at h
  · cases h
  · split at h
    · cases h
      exact ⟨rfl,Function.update_self ..,rfl⟩
    · cases h

theorem rises_openStore (h : openStore disk d preferred fresh stale writes = (disk',some store)) :
    Rises d disk disk' := by
  obtain ⟨-,hfile,hsequence⟩ := openStore_some h
  intro f hf
  rw [hf] at hsequence
  exact ⟨store.state,hfile,fun k => le_of_eq (congrFun hsequence.symm k)⟩

theorem keeps_startup (fresh : U) (stale writes : Bool) (h : Keeps naming d disk r) :
    Keeps naming d (startup naming fresh stale writes disk r).1
        (startup naming fresh stale writes disk r).2 ∧
      Rises d disk (startup naming fresh stale writes disk r).1 ∧
      ∀ k, (startup naming fresh stale writes disk r).2.slots k = r.slots k := by
  unfold startup ensureIdentityReady
  dsimp only
  obtain ⟨config,held,sequence,started,pending,sending⟩ := r
  cases held with
  | some store =>
    obtain ⟨hdir,hconfig,hfile⟩ := h.store store rfl
    refine ⟨⟨resolves_instance h.resolves fun hnone => ?_,fun _ => Option.some_ne_none _,
      h.store⟩,.rfl,fun k => rfl⟩
    dsimp only at hconfig
    rw [hconfig] at hnone
    cases hnone
  | none =>
    rw [h.resolves]
    dsimp only
    split
    · next disk' hopen =>
        have hfiles := openStore_none hopen
        refine ⟨⟨?_,fun hstarted => (by cases hstarted),fun store hsome => (by cases hsome)⟩,?_,
          fun k => rfl⟩
        · apply resolves_instance h.resolves
          intro _ hreplica
          dsimp only at hreplica
          rw [hreplica]
          rfl
        · intro f hf
          exact ⟨f,by rw [hfiles,hf],fun k => le_refl _⟩
    · next disk' store hopen =>
        obtain ⟨hdir,hfile,hsequence⟩ := openStore_some hopen
        refine ⟨⟨rfl,fun _ => Option.some_ne_none _,?_⟩,rises_openStore hopen,fun k => rfl⟩
        rintro opened hopened
        cases hopened
        exact ⟨hdir,rfl,store.state,hfile,fun k => le_refl _⟩

theorem keeps_shutdown (h : Keeps naming d disk r) :
    Keeps naming d (shutdown disk r).1 (shutdown disk r).2 :=
  ⟨h.resolves,fun hstarted => (by cases hstarted),fun store hstore => (by cases hstore)⟩

theorem closeStore_files (disk : Disk U D) (store : Option (IdentityStore U D)) :
    (closeStore disk store).files = disk.files := by
  cases store with
  | none => rfl
  | some store => rfl

/-- A reporter with its store draws above everything in the file. -/
theorem nextSequence_stored (k : Kind) (writes : Bool) (h : Keeps naming d disk r)
    (hstore : r.store = some store) :
    Keeps naming d (nextSequence k writes disk r).1 (nextSequence k writes disk r).2.1 ∧
      Rises d disk (nextSequence k writes disk r).1 ∧
      (nextSequence k writes disk r).2.1.sending = r.sending ∧
      (nextSequence k writes disk r).2.1.pending = r.pending ∧
      ∀ n, (nextSequence k writes disk r).2.2 = some n →
        (∀ f, disk.files d = some f → f.sequence k < n) ∧
        ∃ f, (nextSequence k writes disk r).1.files d = some f ∧ n ≤ f.sequence k := by
  obtain ⟨rfl,hconfig,f,hf,hle⟩ := h.store store hstore
  have habove : ∀ j, f.sequence j ≤
      Function.update store.state.sequence k (store.state.sequence k+1) j := by
    intro j
    by_cases hj : j = k
    · subst hj
      rw [Function.update_self]
      exact (hle j).trans (Nat.le_succ _)
    · rw [Function.update_of_ne hj]
      exact hle j
  unfold nextSequence
  rw [hstore]
  cases writes with
  | false =>
    refine ⟨⟨h.resolves,fun _ => Option.some_ne_none _,?_⟩,.rfl,rfl,rfl,fun n hn => by cases hn⟩
    rintro opened hopened
    cases hopened
    exact ⟨rfl,hconfig,f,hf,habove⟩
  | true =>
    refine ⟨⟨h.resolves,fun _ => Option.some_ne_none _,?_⟩,?_,rfl,rfl,?_⟩
    · rintro opened hopened
      cases hopened
      exact ⟨rfl,hconfig,_,Function.update_self ..,fun j => le_refl _⟩
    · apply rises_update
      intro g hg
      rw [hf] at hg
      cases hg
      exact habove
    · intro n hn
      cases hn
      constructor
      · intro g hg
        rw [hf] at hg
        cases hg
        exact Nat.lt_succ_of_le (hle k)
      · refine ⟨_,Function.update_self ..,?_⟩
        dsimp only
        rw [Function.update_self]

end Invariant

section Steps

variable {naming : Naming U D} {setup : Setup U D} {d : D} {w : World U D T}

theorem before_refl (m : Message U T) : Before m m := .inl rfl

theorem slots_pending (r : Reporter U D T) (k j : Kind) (m : Message U T) :
    {r with pending := Function.update r.pending k (some m)}.slots j =
      if j = k then (r.sending.bind (ofKind j)).toList++[m] else r.slots j := by
  unfold Reporter.slots
  split
  · next heq =>
      subst heq
      dsimp only
      rw [Function.update_self]
      rfl
  · next hne =>
      dsimp only
      rw [Function.update_of_ne hne]

theorem slots_peek (r : Reporter U D T) (k : Kind) : (peek r).slots k = r.slots k ∨
    ∃ m, r.slots k = [m] ∧ (peek r).slots k = [m,m] := by
  obtain ⟨config,store,sequence,started,pending,sending⟩ := r
  cases sending with
  | some under => exact .inl rfl
  | none =>
    unfold Reporter.slots peek
    dsimp only
    cases hsync : pending .sync with
    | some m =>
      cases k with
      | sync => exact .inr ⟨m,by rw [hsync]; rfl,by dsimp only; rw [hsync]; rfl⟩
      | heartbeat => exact .inl rfl
    | none =>
      cases hbeat : pending .heartbeat with
      | none => exact .inl rfl
      | some m =>
        cases k with
        | sync => exact .inl rfl
        | heartbeat => exact .inr ⟨m,by rw [hbeat]; rfl,by dsimp only; rw [hbeat]; rfl⟩

theorem pairwise_again {l : List (Message U T)} {m : Message U T}
    (h : (l++[m]).Pairwise Before) : (l++[m,m]).Pairwise Before := by
  rw [List.append_cons]
  refine List.pairwise_append.mpr ⟨h,List.pairwise_singleton ..,?_⟩
  intro e he b hb
  rw [List.mem_singleton.mp hb]
  rcases List.mem_append.mp he with he | he
  · exact (List.pairwise_append.mp h).2.2 e he m (List.mem_singleton_self m)
  · rw [List.mem_singleton.mp he]
    exact before_refl m

theorem inv_peek (h : Inv naming d w) : Inv naming d {w with process := w.process.map peek} := by
  cases hp : w.process with
  | none => exact h.of_sublist (fun k => by rw [World.line,World.line,hp]; rfl) .rfl nofun
  | some r =>
    have hline : ∀ k, w.line k = w.sent k++r.slots k := fun k => by rw [World.line,hp]; rfl
    constructor
    · intro k
      have hk := h.ordered k
      rw [hline] at hk
      change (w.sent k++(peek r).slots k).Pairwise Before
      rcases slots_peek r k with heq | ⟨m,hone,htwo⟩
      · rw [heq]
        exact hk
      · rw [hone] at hk
        rw [htwo]
        exact pairwise_again hk
    · intro k m hm
      apply h.floored k m
      rw [hline]
      replace hm : m ∈ w.sent k++(peek r).slots k := hm
      rcases slots_peek r k with heq | ⟨n,hone,htwo⟩
      · rwa [heq] at hm
      · rw [hone]
        rw [htwo,List.append_cons] at hm
        rcases List.mem_append.mp hm with hm | hm
        · exact hm
        · exact List.mem_append_right _ hm
    · rintro r' hr'
      cases hr'
      have hkeeps := h.keeps r hp
      obtain ⟨config,store,sequence,started,pending,sending⟩ := r
      unfold peek
      dsimp only
      split
      · exact hkeeps
      · split
        · exact ⟨hkeeps.resolves,hkeeps.started,hkeeps.store⟩
        · exact ⟨hkeeps.resolves,hkeeps.started,hkeeps.store⟩

theorem sent_append (w : World U D T) (process : Option (Reporter U D T)) (k : Kind)
    (under : Kind × Message U T) :
    {w with wire := w.wire++[under],process := process}.sent k =
      w.sent k++(ofKind k under).toList := by
  unfold World.sent
  rw [List.filterMap_append]
  congr 1

variable [DecidableEq D] {r : Reporter U D T}

theorem inv_build {k : Kind} {writes : Bool} (h : Inv naming d w) (hr : w.process = some r)
    (hstarted : r.started = true) :
    Inv naming d {w with
      disk := (build k writes w.clock w.disk r).1
      process := some (build k writes w.clock w.disk r).2} := by
  have hkeeps := h.keeps r hr
  obtain ⟨store,hstore⟩ := Option.ne_none_iff_exists'.mp (hkeeps.started hstarted)
  have hline : ∀ j, w.line j = w.sent j++r.slots j := fun j => by rw [World.line,hr]; rfl
  unfold build
  cases hu : r.config.instanceId with
  | none =>
    refine h.of_sublist (fun j => ?_) .rfl fun r' hr' => ?_
    · rw [hline]
      exact List.Sublist.refl _
    · cases hr'
      exact hkeeps
  | some u =>
    obtain ⟨hnext,hrises,hsending,hpending,hdrawn⟩ :=
      nextSequence_stored k writes hkeeps hstore
    have hslots : ∀ j, (nextSequence k writes w.disk r).2.1.slots j = r.slots j := by
      intro j
      rw [Reporter.slots,hsending,hpending]
      rfl
    dsimp only
    split
    · next disk' r' heq =>
        rw [heq] at hnext hrises hslots
        refine h.of_sublist (fun j => ?_) hrises fun r'' hr'' => ?_
        · rw [hline,← hslots]
          exact List.Sublist.refl _
        · cases hr''
          exact hnext
    · next disk' r' n heq =>
        rw [heq] at hnext hrises hslots hsending hdrawn
        obtain ⟨habove,f',hf',hn⟩ := hdrawn n rfl
        have hfront : List.Sublist (w.sent k++(r'.sending.bind (ofKind k)).toList) (w.line k) := by
          rw [hline,← hslots]
          exact (List.sublist_append_left ..).append_left _
        constructor
        · intro j
          rw [World.line,slots,Option.elim_some,slots_pending]
          split
          · next hj =>
              subst hj
              rw [← List.append_assoc]
              refine List.pairwise_append.mpr
                ⟨(h.ordered j).sublist hfront,List.pairwise_singleton ..,?_⟩
              intro e he l hl
              rw [List.mem_singleton.mp hl]
              obtain ⟨f,hf,hle⟩ := h.floored j e (hfront.subset he)
              exact .inr (lt_of_le_of_lt hle (habove f hf))
          · rw [hslots]
            have hj := h.ordered j
            rwa [hline] at hj
        · intro j m hm
          rw [World.line,slots,Option.elim_some,slots_pending] at hm
          have hold : m ∈ w.line j → ∃ f, disk'.files d = some f ∧ m.sequence ≤ f.sequence j := by
            intro hmem
            obtain ⟨f,hf,hle⟩ := h.floored j m hmem
            obtain ⟨g,hg,hrise⟩ := hrises f hf
            exact ⟨g,hg,hle.trans (hrise j)⟩
          split at hm
          · next hj =>
              subst hj
              rw [← List.append_assoc] at hm
              rcases List.mem_append.mp hm with hm | hm
              · exact hold (hfront.subset hm)
              · rw [List.mem_singleton.mp hm]
                exact ⟨f',hf',hn⟩
          · rw [hslots] at hm
            exact hold (by rw [hline]; exact hm)
        · rintro r'' hr''
          cases hr''
          exact ⟨hnext.resolves,hnext.started,hnext.store⟩

theorem inv_startup {fresh : U} {stale writes : Bool} (h : Inv naming d w)
    (hr : w.process = some r) :
    Inv naming d {w with
      disk := (startup naming fresh stale writes w.disk r).1
      process := some (startup naming fresh stale writes w.disk r).2} := by
  obtain ⟨hkeeps,hrises,hslots⟩ :=
    keeps_startup fresh stale writes (h.keeps r hr)
  refine h.of_sublist (fun k => ?_) hrises fun r' hr' => ?_
  · rw [World.line,World.line,hr,slots,Option.elim_some,hslots]
    exact List.Sublist.refl _
  · cases hr'
    exact hkeeps

theorem inv_shutdown (h : Inv naming d w) (hr : w.process = some r) :
    Inv naming d {w with
      disk := (shutdown w.disk r).1
      process := some (shutdown w.disk r).2} := by
  refine h.of_sublist (fun k => ?_) (fun f hf => ⟨f,?_,fun _ => le_refl _⟩) fun r' hr' => ?_
  · exact (List.nil_sublist _).append_left _
  · rw [shutdown,closeStore_files]
    exact hf
  · cases hr'
    exact keeps_shutdown (h.keeps r hr)

variable [DecidableEq U] [LinearOrder T]

omit [DecidableEq D] in
theorem inv_send (raised : Bool) (h : Inv naming d w) (hr : w.process = some r) :
    Inv naming d (w.send raised r) := by
  unfold World.send
  cases hunder : r.sending with
  | none => exact h
  | some under =>
    obtain ⟨j,m⟩ := under
    dsimp only
    refine h.of_sublist (fun k => ?_) .rfl ?_
    · unfold World.line
      rw [sent_append,hr]
      unfold slots Reporter.slots
      dsimp only [Option.elim_some]
      rw [hunder,List.append_assoc]
      apply List.Sublist.append_left
      apply List.Sublist.append_left
      rw [Option.bind_none,Option.toList_none,List.nil_append]
      split
      · by_cases hk : k = j
        · subst hk
          rw [Function.update_self]
          exact List.nil_sublist _
        · rw [Function.update_of_ne hk]
      · exact List.Sublist.refl _
    · rintro r' hr'
      cases hr'
      have hkeeps := h.keeps r hr
      exact ⟨hkeeps.resolves,hkeeps.started,hkeeps.store⟩

theorem inv_step (hsetup : ∀ disk fresh, resolveStateDir naming (setup.config naming disk fresh) =
    some d) (h : Inv naming d w) (a : Act U T) : Inv naming d (w.step naming setup a) := by
  unfold World.step
  cases a with
  | launch fresh =>
    dsimp only
    split
    · exact h
    · next hp =>
        refine h.of_sublist (fun k => ?_) .rfl fun r hr => ?_
        · rw [World.line,World.line,hp]
          exact List.Sublist.refl _
        · cases hr
          exact ⟨hsetup _ _,fun hstarted => (by cases hstarted),fun _ hstore => (by cases hstore)⟩
  | startup fresh stale writes =>
    dsimp only
    split
    · exact h
    · next r hr =>
        split
        · exact h
        · exact inv_startup h hr
  | build k writes =>
    dsimp only
    split
    · exact h
    · next r hr =>
        split
        · next hstarted => exact inv_build h hr hstarted
        · exact h
  | peek => exact inv_peek h
  | send raised =>
    dsimp only
    split
    · exact h
    · next r hr => exact inv_send raised h hr
  | shutdown =>
    dsimp only
    split
    · exact h
    · next r hr => exact inv_shutdown h hr
  | crash =>
    exact h.of_sublist (fun k => (List.nil_sublist _).append_left _) .rfl nofun
  | advance now =>
    dsimp only
    split
    · exact h.of_sublist (fun k => List.Sublist.refl _) .rfl h.keeps
    · exact h

end Steps

section Ordered

variable [DecidableEq D] [DecidableEq U] [LinearOrder T] {naming : Naming U D}

theorem inv_run {setup : Setup U D} {d : D} (hsetup : ∀ disk fresh,
    resolveStateDir naming (setup.config naming disk fresh) = some d) (t : T)
    (acts : List (Act U T)) : Inv naming d (run naming setup t acts) := by
  induction acts using List.reverseRecOn with
  | nil => exact ⟨fun k => .nil,fun k m hm => absurd hm List.not_mem_nil,nofun⟩
  | append_singleton acts a ih =>
    rw [run,List.foldl_append]
    exact inv_step hsetup ih a

omit [DecidableEq D] [DecidableEq U] in
theorem Before.newer {e l : Message U T} (h : Before e l) : e = l ∨
    isNewerIngestion (some e.sequence) (some e.sentAt) l.sentAt l.sequence = true := by
  refine h.imp_right fun hlt => ?_
  rw [isNewerIngestion_stamp,decide_eq_true_iff,Prod.Lex.toLex_lt_toLex]
  exact .inl hlt

theorem ordered_of_stored {setup : Setup U D} (h : Stored setup) (t : T)
    (acts : List (Act U T)) : Ordered (run naming setup t acts) := by
  obtain ⟨d,hsetup⟩ := resolves_of_stored naming h
  intro k
  have hline := (inv_run hsetup t acts).ordered k
  exact (hline.sublist (List.sublist_append_left ..)).imp fun hbefore _ => hbefore.newer

/-- A reporter with an instance id alone sends two heartbeats, crashes and starts again. -/
def restarted (u : U) : List (Act U T) :=
  [.launch u,.startup u false true,.build .heartbeat true,.peek,.send false,
    .build .heartbeat true,.peek,.send false,.crash,.launch u,.startup u false true,
    .build .heartbeat true,.peek,.send false]

theorem restarted_sent (u : U) (t : T) :
    (run naming (.direct {instanceId := some u}) t (restarted u)).sent .heartbeat =
      [⟨u,1,t⟩,⟨u,2,t⟩,⟨u,1,t⟩] := by
  simp [run,restarted,World.step,Setup.config,startup,ensureIdentityReady,resolveStateDir,
    preferredInstanceId,build,nextSequence,peek,World.send,World.sent,ofKind]

/-- Every run of a setup is ordered just when its sequences are kept in a file. -/
theorem ordered_iff (naming : Naming U D) (setup : Setup U D) (t : T) :
    (∀ acts, Ordered (run naming setup t acts)) ↔ Stored setup := by
  constructor
  · intro hordered
    by_contra hstored
    cases setup with
    | environment read => exact hstored trivial
    | direct config =>
      obtain ⟨instanceId,replicaKey,stateDir⟩ := config
      obtain ⟨hinstance,hreplica,hdir⟩ : instanceId ≠ none ∧ replicaKey = none ∧
          stateDir = none := by
        simpa [Stored] using hstored
      obtain ⟨u,rfl⟩ := Option.ne_none_iff_exists'.mp hinstance
      subst hreplica
      subst hdir
      have hsent := hordered (restarted u) .heartbeat
      rw [restarted_sent] at hsent
      obtain ⟨-,hlater⟩ := List.pairwise_cons.mp hsent
      rcases (List.pairwise_cons.mp hlater).1 ⟨u,1,t⟩ (List.mem_singleton_self _) rfl with
        heq | hnewer
      · cases heq
      · cases hnewer
  · exact fun h => ordered_of_stored h t

/-- With an instance id alone a restarted agent is behind itself. -/
theorem restart_behind : ¬ ∀ (naming : Naming ℕ ℕ) (setup : Setup ℕ ℕ) (t : ℕ)
    (acts : List (Act ℕ ℕ)), Ordered (run naming setup t acts) := by
  intro h
  have hsent := h ⟨fun _ => 0,fun _ => 0⟩ (.direct {instanceId := some 7}) 0 (restarted 7) .heartbeat
  rw [restarted_sent] at hsent
  obtain ⟨-,hlater⟩ := List.pairwise_cons.mp hsent
  exact absurd ((List.pairwise_cons.mp hlater).1 ⟨7,1,0⟩ (List.mem_singleton_self _) rfl)
    (by decide)

end Ordered

end OneStep.ReporterIdentity
