import OneStep.ExecutionRefinement

/-!
# Runs of the execution backend

Any number of clients and workers call the backend in any order, with any
arguments; each transaction is one atomic step at a database time that never
goes back. UUIDs are arguments too: nothing below needs them to be fresh, since
a clash is refused by the keys of the tables.

Two rules carry results from single moves to whole runs: an invariant of
snapshots, and a preorder on the snapshots of one execution.
-/
namespace OneStep.ExecutionRuns
open ExecutionModel ExecutionBackend ExecutionLifecycle ExecutionRefinement KeyedTable
open Transaction Transition

variable {V J : Type} [DecidableEq J] {now : Instant}

inductive Op (V J : Type) where
  | submit (request : ExecutionRequest V) (encoded : EncodedSubmission J) (id : UUID)
  | requestCancel (namespaceName : String) (id : UUID) (reason : Option String)
  | claim (namespaceName : String) (taskNames : List String) (limit : ℤ)
      (leaseDurationS : ℚ) (worker : String) (uuids : ℕ → UUID × UUID)
  | heartbeat (id attemptId token : UUID) (leaseDurationS : ℚ)
  | complete (id attemptId token : UUID) (completion : ExecutionCompletion V)
  | release (id attemptId token : UUID)

inductive Reply (V : Type) where
  | execution (e : Option (Execution V))
  | leases (ls : List (ExecutionLease V))
  | heartbeat (r : HeartbeatResult)
  | raised (e : BackendError)
  deriving DecidableEq

def reply {α : Type} (f : α → Reply V) : Except BackendError α → Reply V
  | .ok a => f a
  | .error e => .raised e

/-- One backend call: what the caller sees, and the tables it leaves. -/
def perform (b : Backend V J) (now : Instant) (t : Tables J) : Op V J → Reply V × Tables J
  | .submit request encoded id =>
    let r := submit b request encoded id now t
    (reply .execution r.1,r.2)
  | .requestCancel n id reason =>
    let r := requestCancel b n id reason now t
    (reply .execution r.1,r.2)
  | .claim n ts limit leaseDurationS worker uuids =>
    let r := claim b n ts limit leaseDurationS worker uuids now t
    (reply .leases r.1,r.2)
  | .heartbeat id attemptId token leaseDurationS =>
    let r := heartbeat id attemptId token leaseDurationS now t
    (reply .heartbeat r.1,r.2)
  | .complete id attemptId token c =>
    let r := complete b id attemptId token c now t
    (reply (fun e => .execution (some e)) r.1,r.2)
  | .release id attemptId token =>
    let r := release b id attemptId token now t
    (reply (fun e => .execution (some e)) r.1,r.2)

structure World (J : Type) where
  clock : Instant
  tables : Tables J

structure Event (V J : Type) where
  now : Instant
  op : Op V J
  reply : Reply V

def Step (b : Backend V J) (w : World J) (e : Event V J) (w' : World J) : Prop :=
  w.clock ≤ e.now ∧ perform b e.now w.tables e.op = (e.reply,w'.tables) ∧ w'.clock = e.now

def start (clock : Instant) : World J := ⟨clock,[],[]⟩

/-- Reached from empty tables by any calls of any clients. -/
def Reached (b : Backend V J) (w : World J) : Prop :=
  ∃ clock, Reachable (start clock) (Step b) w

/-- The moves one call is made of. -/
inductive Does (b : Backend V J) (now : Instant) : Op V J → Snapshot J → Snapshot J → Prop
  | cancelWaiting {s : Snapshot J} (n : String) (id : UUID) (reason : Option String) :
      s.row.status.waiting = true →
      Does b now (.requestCancel n id reason) s ⟨cancelWaiting reason now s.row,s.attempts⟩
  | cancelRunning {s : Snapshot J} (n : String) (id : UUID) (reason : Option String) :
      s.row.status = .running →
      Does b now (.requestCancel n id reason) s ⟨cancelRunning reason now s.row,s.attempts⟩
  | expire {s : Snapshot J} (n : String) (ts : List String) (limit : ℤ) (leaseDurationS : ℚ)
      (worker : String) (uuids : ℕ → UUID × UUID) :
      pastExpiry now s.attempts s.row = true →
      Does b now (.claim n ts limit leaseDurationS worker uuids) s ⟨expireRow now s.row,s.attempts⟩
  | cancelExpired {s : Snapshot J} (n : String) (ts : List String) (limit : ℤ)
      (leaseDurationS : ℚ) (worker : String) (uuids : ℕ → UUID × UUID) :
      leaseExpired .cancelRequested now s.row = true →
      Does b now (.claim n ts limit leaseDurationS worker uuids) s ⟨cancelExpired now s.row,
        update (heldAttempt s.row.id s.row.leaseToken) (closeAttempt .cancelled now) s.attempts⟩
  | reclaim {s : Snapshot J} (n : String) (ts : List String) (limit : ℤ) (leaseDurationS : ℚ)
      (worker : String) (uuids : ℕ → UUID × UUID) : leaseExpired .running now s.row = true →
      Does b now (.claim n ts limit leaseDurationS worker uuids) s ⟨reclaimRow now s.row,
        update (heldAttempt s.row.id s.row.leaseToken) (closeAttempt .leaseLost now) s.attempts⟩
  | claim {s : Snapshot J} (n : String) (ts : List String) (limit : ℤ) (leaseDurationS : ℚ)
      (worker : String) (uuids : ℕ → UUID × UUID) (attemptId token : UUID) :
      claimable n ts now s.attempts s.row = true →
      Does b now (.claim n ts limit leaseDurationS worker uuids) s
        ⟨claimRow now (now+timedelta leaseDurationS) worker token s.row s.row,
          s.attempts++[claimedAttempt now worker attemptId token s.row]⟩
  | heartbeat {s : Snapshot J} (id attemptId token : UUID) (leaseDurationS : ℚ) :
      s.row.id = id → holds s.row.id token [.running,.cancelRequested] now s.row = true →
      affected (heldBy attemptId s.row.id token) s.attempts = 1 →
      Does b now (.heartbeat id attemptId token leaseDurationS) s
        ⟨{s.row with leaseExpiresAt := some (now+timedelta leaseDurationS), updatedAt := now},
          update (heldBy attemptId s.row.id token) (fun a => {a with heartbeatAt := now})
            s.attempts⟩
  | complete {s : Snapshot J} (id attemptId token : UUID) (c : ExecutionCompletion V)
      (result : J) : s.row.id = id → encodeResult b c s.row = .ok result →
      holds s.row.id token (expectedStatuses c.status) now s.row = true →
      affected (heldBy attemptId s.row.id token) s.attempts = 1 →
      Does b now (.complete id attemptId token c) s
        ⟨completeRow (effectiveStatus c.status s.row) (b.stored result) (completionError c s.row) c.delayS
            now s.row,
          update (heldBy attemptId s.row.id token)
            (completeAttempt (attemptStatus (effectiveStatus c.status s.row))
              (completionError c s.row) now) s.attempts⟩
  | release {s : Snapshot J} (id attemptId token : UUID) : s.row.id = id →
      holds s.row.id token [.running] now s.row = true →
      affected (heldBy attemptId s.row.id token) s.attempts = 1 →
      Does b now (.release id attemptId token) s ⟨releaseRow now s.row,
        update (heldBy attemptId s.row.id token) (closeAttempt .leaseLost now) s.attempts⟩

omit [DecidableEq J] in
theorem Does.moves {b : Backend V J} {op : Op V J} {s s' : Snapshot J} (h : Does b now op s s') :
    Moves b now s s' := by
  cases h with
  | cancelWaiting n id reason hw => exact .cancelWaiting reason hw
  | cancelRunning n id reason hr => exact .cancelRunning reason hr
  | expire n ts limit d worker uuids hp => exact .expire hp
  | cancelExpired n ts limit d worker uuids hp => exact .cancelExpired hp
  | reclaim n ts limit d worker uuids hp => exact .reclaim hp
  | claim n ts limit d worker uuids attemptId token hc =>
    exact .claim n ts _ worker attemptId token hc
  | heartbeat id attemptId token d hid hh hc => exact .heartbeat attemptId token _ hh hc
  | complete id attemptId token c result hid he hh hc =>
    exact .complete attemptId token c result he hh hc
  | release id attemptId token hid hh hc => exact .release attemptId token hh hc

/-- What one call does to the execution `id`. -/
def Effect (b : Backend V J) (now : Instant) (t u : Tables J) : Prop :=
  ∀ id, Option.Rel (Relation.ReflTransGen (Moves b now)) (snapshot t id) (snapshot u id) ∨
    (snapshot t id = none ∧ ∃ request encoded,
      snapshot u id = some ⟨submittedRow b request encoded id now,[]⟩)

/-- Every execution makes moves of this call, or it is the one submitted. -/
def Makes (b : Backend V J) (now : Instant) (op : Op V J) (t u : Tables J) : Prop :=
  ∀ id, Option.Rel (Relation.ReflTransGen (Does b now op)) (snapshot t id) (snapshot u id) ∨
    (snapshot t id = none ∧ ∃ request encoded, op = .submit request encoded id ∧
      snapshot u id = some ⟨submittedRow b request encoded id now,[]⟩)

omit [DecidableEq J] in
theorem Makes.of_evolves {b : Backend V J} {op : Op V J} {t u : Tables J}
    (h : EvolvesBy (Does b now op) t u) : Makes b now op t u := fun id => .inl (h id)

omit [DecidableEq J] in
theorem insertExecution_makes {b : Backend V J} {t u : Tables J} {request : ExecutionRequest V}
    {encoded : EncodedSubmission J} {id : UUID} (ht : Sound t)
    (h : (insertExecution (submittedRow b request encoded id now)).run t = .ok ((),u)) :
    Sound u ∧ Makes b now (.submit request encoded id) t u := by
  obtain ⟨hclash,rfl⟩ := insertExecution_ok h
  have hne : ∀ r ∈ t.executions, r.id ≠ id := by
    intro r hr he
    have hc := hclash r hr
    simp only [clashesExecution,Bool.or_eq_false_iff,decide_eq_false_iff_not] at hc
    exact hc.1 he
  have hnone : lookup ExecutionRow.id id t.executions = none := lookup_eq_none.mpr hne
  refine ⟨⟨unique_append_singleton ht.executionIds hne,ht.attemptIds,?_⟩,?_⟩
  · intro a ha
    obtain ⟨r,hr,he⟩ := ht.references a ha
    exact ⟨r,List.mem_append_left _ hr,he⟩
  · intro id'
    by_cases hid : id' = id
    · subst hid
      right
      refine ⟨by rw [snapshot,hnone]; rfl,request,encoded,rfl,?_⟩
      apply snapshot_some.mpr
      constructor
      · rw [lookup_append_singleton,hnone]
        simp [submittedRow]
      · apply List.filter_eq_nil_iff.mpr
        intro a ha
        obtain ⟨r,hr,he⟩ := ht.references a ha
        simpa using fun hx => hne r hr (he.trans hx)
    · left
      have hs : snapshot (⟨t.executions++[submittedRow b request encoded id now],
          t.attempts⟩ : Tables J) id' = snapshot t id' := by
        unfold snapshot
        rw [lookup_append_singleton,if_neg (fun he => hid he.symm),Option.or_none]
      rw [hs]
      exact EvolvesBy.refl _ t id'

/-- The refinement theorem for one call, whatever it returns or raises. -/
theorem perform_makes {b : Backend V J} {t u : Tables J} {op : Op V J} {r : Reply V} (ht : Sound t)
    (h : perform b now t op = (r,u)) : Sound u ∧ Makes b now op t u := by
  have keep : Sound t ∧ Makes b now op t t := ⟨ht,.of_evolves (EvolvesBy.refl _ t)⟩
  have lift : Sound u ∧ EvolvesBy (Does b now op) t u → Sound u ∧ Makes b now op t u :=
    fun hh => ⟨hh.1,.of_evolves hh.2⟩
  cases op with
  | submit request encoded id =>
    obtain ⟨-,rfl⟩ := Prod.mk.inj h
    unfold submit
    rcases commit_cases (submitTx b (submittedRow b request encoded id now)) t with
      ⟨a,u,hrun,hc⟩ | ⟨e,_,hc⟩
    · rw [hc]
      exact insertExecution_makes ht (submitTx_ok hrun)
    · rw [hc]
      cases e <;> exact keep
  | requestCancel n id reason =>
    obtain ⟨-,rfl⟩ := Prod.mk.inj h
    unfold requestCancel at lift ⊢
    rcases commit_cases (requestCancelTx (J := J) n id reason now) t with
      ⟨a,u,hrun,hc⟩ | ⟨e,_,hc⟩
    · have hh : Sound u ∧ EvolvesBy (Does b now (.requestCancel n id reason)) t u :=
        requestCancelTx_evolves (fun s => .cancelWaiting n id reason)
          (fun s => .cancelRunning n id reason) ht hrun
      rw [hc] at lift ⊢
      cases a <;> exact lift hh
    · rw [hc]
      exact keep
  | claim n ts limit leaseDurationS worker uuids =>
    obtain ⟨-,rfl⟩ := Prod.mk.inj h
    unfold claim at lift ⊢
    split_ifs at lift ⊢
    · exact keep
    · exact keep
    · exact keep
    · exact keep
    · rcases commit_cases (claimTx b n ts limit.toNat leaseDurationS worker uuids now) t with
        ⟨a,u,hrun,hc⟩ | ⟨e,_,hc⟩
      · rw [hc] at lift ⊢
        have hh := claimTx_evolves
          (R := Does b now (.claim n ts limit leaseDurationS worker uuids))
          (fun s => .expire n ts limit leaseDurationS worker uuids)
          (fun s => .cancelExpired n ts limit leaseDurationS worker uuids)
          (fun s => .reclaim n ts limit leaseDurationS worker uuids)
          (fun s => .claim n ts limit leaseDurationS worker uuids) ht hrun
        exact lift ⟨hh.1,hh.2.1⟩
      · rw [hc]
        exact keep
  | heartbeat id attemptId token leaseDurationS =>
    obtain ⟨-,rfl⟩ := Prod.mk.inj h
    unfold heartbeat at lift ⊢
    split_ifs at lift ⊢
    · exact keep
    · rcases commit_cases (heartbeatTx (J := J) id attemptId token
        (now+timedelta leaseDurationS) now) t with ⟨a,u,hrun,hc⟩ | ⟨e,_,hc⟩
      · rw [hc] at lift ⊢
        exact lift (heartbeatTx_evolves
          (fun s => .heartbeat id attemptId token leaseDurationS) ht hrun)
      · rw [hc]
        exact keep
  | complete id attemptId token c =>
    obtain ⟨-,rfl⟩ := Prod.mk.inj h
    unfold complete at lift ⊢
    rcases commit_cases (completeTx b id attemptId token c now) t with
      ⟨a,u,hrun,hc⟩ | ⟨e,_,hc⟩
    · rw [hc] at lift ⊢
      exact lift (completeTx_evolves (fun s => .complete id attemptId token c) ht hrun)
    · rw [hc]
      exact keep
  | release id attemptId token =>
    obtain ⟨-,rfl⟩ := Prod.mk.inj h
    unfold release at lift ⊢
    rcases commit_cases (releaseTx (J := J) id attemptId token now) t with
      ⟨a,u,hrun,hc⟩ | ⟨e,_,hc⟩
    · rw [hc] at lift ⊢
      exact lift (releaseTx_evolves (fun s => .release id attemptId token) ht hrun)
    · rw [hc]
      exact keep

theorem perform_effect {b : Backend V J} {t u : Tables J} {op : Op V J} {r : Reply V} (ht : Sound t)
    (h : perform b now t op = (r,u)) : Sound u ∧ Effect b now t u := by
  obtain ⟨hu,hmakes⟩ := perform_makes ht h
  refine ⟨hu,fun id => ?_⟩
  rcases hmakes id with hrel | ⟨hnone,request,encoded,-,hnew⟩
  · left
    revert hrel
    cases snapshot t id <;> cases snapshot u id <;> intro hrel
    · exact .none
    · cases hrel
    · cases hrel
    · cases hrel with
      | some hrel => exact .some (Relation.ReflTransGen.mono (fun _ _ h => h.moves) _ _ hrel)
  · exact .inr ⟨hnone,request,encoded,hnew⟩

/-- Tables with sound keys in which every execution satisfies `I`. -/
def Throughout (I : Snapshot J → Prop) (w : World J) : Prop :=
  Sound w.tables ∧ ∀ id s, snapshot w.tables id = some s → I s

section Rules
variable {b : Backend V J} {I : Snapshot J → Prop} {s : Snapshot J}

omit [DecidableEq J] in
private theorem rel_some {r : Snapshot J → Snapshot J → Prop} {x y : Option (Snapshot J)}
    (h : Option.Rel r x y) (hx : x = some s) : ∃ s', y = some s' ∧ r s s' := by
  cases h with
  | none => cases hx
  | some hr =>
    cases hx
    exact ⟨_,rfl,hr⟩

omit [DecidableEq J] in
theorem moves_invariant (hmove : ∀ now s s', I s → Moves b now s s' → I s') {now : Instant}
    {s' : Snapshot J} (h : Relation.ReflTransGen (Moves b now) s s') (hs : I s) : I s' := by
  induction h with
  | refl => exact hs
  | tail _ hm ih => exact hmove _ _ _ ih hm

theorem step_throughout
    (hnew : ∀ request encoded id now, I ⟨submittedRow b request encoded id now,[]⟩)
    (hmove : ∀ now s s', I s → Moves b now s s' → I s') (w : World J) (e : Event V J)
    (w' : World J) (hw : Throughout I w) (h : Step b w e w') : Throughout I w' := by
  obtain ⟨_,hperf,_⟩ := h
  obtain ⟨hsound,heff⟩ := perform_effect hw.1 hperf
  refine ⟨hsound,?_⟩
  intro id s' hs'
  rcases heff id with hrel | ⟨_,request,encoded,hnew'⟩
  · cases hs : snapshot w.tables id with
    | none =>
      rw [hs,hs'] at hrel
      cases hrel
    | some s =>
      obtain ⟨s'',he,hm⟩ := rel_some hrel hs
      rw [hs'] at he
      cases he
      exact moves_invariant hmove hm (hw.2 id s hs)
  · rw [hs'] at hnew'
    cases hnew'
    exact hnew request encoded id e.now

/-- Invariants of a submitted row that every move preserves hold always. -/
theorem reached_throughout
    (hnew : ∀ request encoded id now, I ⟨submittedRow b request encoded id now,[]⟩)
    (hmove : ∀ now s s', I s → Moves b now s s' → I s') {w : World J} (hw : Reached b w) :
    Throughout I w := by
  obtain ⟨clock,hr⟩ := hw
  refine hr.invariant ?_ (step_throughout hnew hmove)
  refine ⟨⟨by simp [UniqueKey,start],by simp [UniqueKey,start],by simp [start]⟩,?_⟩
  intro id s hs
  simp [snapshot,start,lookup] at hs

theorem step_relates {R : Snapshot J → Snapshot J → Prop} (hrefl : ∀ s, R s s)
    (htrans : ∀ s t u, R s t → R t u → R s u)
    (hmove : ∀ now s s', I s → Moves b now s s' → I s' ∧ R s s') {w w' : World J} {e : Event V J}
    (hw : Throughout I w) (h : Step b w e w') {id : UUID} (hs : snapshot w.tables id = some s) :
    ∃ s', snapshot w'.tables id = some s' ∧ R s s' := by
  obtain ⟨_,hperf,_⟩ := h
  rcases (perform_effect hw.1 hperf).2 id with hrel | ⟨hnone,_⟩
  · obtain ⟨s',hs',hm⟩ := rel_some hrel hs
    refine ⟨s',hs',?_⟩
    have key : I s' ∧ R s s' := by
      clear hs' hrel
      induction hm with
      | refl => exact ⟨hw.2 id s hs,hrefl s⟩
      | tail _ hstep ih =>
        obtain ⟨hI,hR⟩ := hmove _ _ _ ih.1 hstep
        exact ⟨hI,htrans _ _ _ ih.2 hR⟩
    exact key.2
  · rw [hs] at hnone
    cases hnone

theorem run_relates {R : Snapshot J → Snapshot J → Prop}
    (hnew : ∀ request encoded id now, I ⟨submittedRow b request encoded id now,[]⟩)
    (hrefl : ∀ s, R s s) (htrans : ∀ s t u, R s t → R t u → R s u)
    (hmove : ∀ now s s', I s → Moves b now s s' → I s' ∧ R s s') {w w' : World J}
    {es : List (Event V J)} (hw : Throughout I w) (h : Run (Step b) w es w') {id : UUID}
    (hs : snapshot w.tables id = some s) : ∃ s', snapshot w'.tables id = some s' ∧ R s s' := by
  induction h generalizing s with
  | nil w => exact ⟨s,hs,hrefl s⟩
  | cons hstep _ ih =>
    obtain ⟨s₁,hs₁,hR₁⟩ := step_relates hrefl htrans hmove hw hstep hs
    obtain ⟨s',hs',hR'⟩ :=
      ih (step_throughout hnew (fun n a c ha hm => (hmove n a c ha hm).1) _ _ _ hw hstep) hs₁
    exact ⟨s',hs',htrans _ _ _ hR₁ hR'⟩

end Rules

section Replay
variable {b : Backend V J}

/-- The world after one more call, made at `now`. -/
def after (b : Backend V J) (w : World J) (now : Instant) (op : Op V J) : World J :=
  ⟨now,(perform b now w.tables op).2⟩

def called (b : Backend V J) (w : World J) (now : Instant) (op : Op V J) : Event V J :=
  ⟨now,op,(perform b now w.tables op).1⟩

theorem step_after {w : World J} {now : Instant} (h : w.clock ≤ now) (op : Op V J) :
    Step b w (called b w now op) (after b w now op) := ⟨h,rfl,rfl⟩

theorem Reached.run {w w' : World J} {es : List (Event V J)} (hw : Reached b w)
    (h : Run (Step b) w es w') : Reached b w' := by
  obtain ⟨clock,hr⟩ := hw
  exact ⟨clock,hr.run h⟩

theorem reached_start (clock : Instant) : Reached b (start clock) := ⟨clock,[],.nil _⟩

theorem Reached.after {w : World J} (hw : Reached b w) {now : Instant} (h : w.clock ≤ now)
    (op : Op V J) : Reached b (after b w now op) := hw.run (.single (step_after h op))

/-- Integers and None over JSON numbers and null, with the sizes of their texts. -/
def integers : Backend (Option ℤ) (Option ℤ) where
  pyNone := none
  null := none
  encodeValue := .ok
  decodeValue := .ok
  encodedSize j := (j.elim "null" toString).utf8ByteSize
  maxResultBytes := 64
  reclaimBatchSize := 100
  equal i j := decide (i = j)
  stored j := j
  accepts _ := true
  equal_null := rfl
  stored_null := rfl

def submission (id : UUID) : Op (Option ℤ) (Option ℤ) :=
  .submit {namespaceName := "default", taskName := "resize", payload := some 7, metadata := none}
    ⟨some 7,none,"7"⟩ id

def claiming (attemptId token : UUID) : Op (Option ℤ) (Option ℤ) :=
  .claim "default" ["resize"] 1 30 "worker" fun _ => (attemptId,token)

end Replay

end OneStep.ExecutionRuns
