import OneStep.ExecutionBackend
import OneStep.Transition
import Mathlib.Data.Option.Basic
import Mathlib.Logic.Relation

/-!
# The life of one execution

One execution is its row together with its attempts. `Moves` lists everything
a transaction can do to it, with the full guard of each statement; it is the
abstract machine behind the two tables. The refinement theorem says that every
transaction moves each execution by finitely many of these moves and touches
no other, except that a submission adds a row without attempts. Invariants of
executions are then proved of single moves only.
-/
namespace OneStep.ExecutionLifecycle
open ExecutionModel ExecutionBackend KeyedTable Transaction

variable {V J : Type}

structure Snapshot (J : Type) where
  row : ExecutionRow J
  attempts : List AttemptRow

def snapshot (t : Tables J) (id : UUID) : Option (Snapshot J) :=
  (lookup ExecutionRow.id id t.executions).map fun row =>
    ⟨row,group AttemptRow.executionId id t.attempts⟩

/-- One statement group of a transaction at time `now`, seen from one execution. -/
inductive Moves (b : Backend V J) (now : Instant) : Snapshot J → Snapshot J → Prop
  | expire {s : Snapshot J} : pastExpiry now s.attempts s.row = true →
      Moves b now s ⟨expireRow now s.row,s.attempts⟩
  | cancelWaiting {s : Snapshot J} (reason : Option String) : s.row.status.waiting = true →
      Moves b now s ⟨cancelWaiting reason now s.row,s.attempts⟩
  | cancelRunning {s : Snapshot J} (reason : Option String) : s.row.status = .running →
      Moves b now s ⟨cancelRunning reason now s.row,s.attempts⟩
  | claim {s : Snapshot J} (namespaceName : String) (taskNames : List String)
      (expires : Instant) (worker : String) (attemptId token : UUID) :
      claimable namespaceName taskNames now s.attempts s.row = true →
      Moves b now s ⟨claimRow now expires worker token s.row s.row,
        s.attempts++[claimedAttempt now worker attemptId token s.row]⟩
  | cancelExpired {s : Snapshot J} : leaseExpired .cancelRequested now s.row = true →
      Moves b now s ⟨cancelExpired now s.row,
        update (heldAttempt s.row.id s.row.leaseToken) (closeAttempt .cancelled now) s.attempts⟩
  | reclaim {s : Snapshot J} : leaseExpired .running now s.row = true →
      Moves b now s ⟨reclaimRow now s.row,
        update (heldAttempt s.row.id s.row.leaseToken) (closeAttempt .leaseLost now) s.attempts⟩
  | heartbeat {s : Snapshot J} (attemptId token : UUID) (expires : Instant) :
      holds s.row.id token [.running,.cancelRequested] now s.row = true →
      affected (heldBy attemptId s.row.id token) s.attempts = 1 →
      Moves b now s ⟨{s.row with leaseExpiresAt := some expires, updatedAt := now},
        update (heldBy attemptId s.row.id token) (fun a => {a with heartbeatAt := now}) s.attempts⟩
  | complete {s : Snapshot J} (attemptId token : UUID) (c : ExecutionCompletion V)
      (result : J) : encodeResult b c s.row = .ok result →
      holds s.row.id token (expectedStatuses c.status) now s.row = true →
      affected (heldBy attemptId s.row.id token) s.attempts = 1 →
      Moves b now s ⟨completeRow (effectiveStatus c.status s.row) (b.stored result)
          (completionError c s.row) c.delayS now s.row,
        update (heldBy attemptId s.row.id token)
          (completeAttempt (attemptStatus (effectiveStatus c.status s.row))
            (completionError c s.row) now) s.attempts⟩
  | release {s : Snapshot J} (attemptId token : UUID) :
      holds s.row.id token [.running] now s.row = true →
      affected (heldBy attemptId s.row.id token) s.attempts = 1 →
      Moves b now s ⟨releaseRow now s.row,
        update (heldBy attemptId s.row.id token) (closeAttempt .leaseLost now) s.attempts⟩

/-- Keys are unique and every attempt belongs to a stored execution. -/
structure Sound (t : Tables J) : Prop where
  executionIds : UniqueKey ExecutionRow.id t.executions
  attemptIds : UniqueKey AttemptRow.id t.attempts
  references : ∀ a ∈ t.attempts, ∃ r ∈ t.executions, r.id = a.executionId

/-- Every execution moves along `R`, and none appears or goes. -/
def EvolvesBy (R : Snapshot J → Snapshot J → Prop) (t u : Tables J) : Prop :=
  ∀ id, Option.Rel (Relation.ReflTransGen R) (snapshot t id) (snapshot u id)

section Relations
variable {R : Snapshot J → Snapshot J → Prop} {t u v : Tables J}

theorem EvolvesBy.refl (R : Snapshot J → Snapshot J → Prop) (t : Tables J) : EvolvesBy R t t := by
  intro id
  cases snapshot t id with
  | none => exact .none
  | some s => exact .some .refl

theorem EvolvesBy.trans (h : EvolvesBy R t u) (k : EvolvesBy R u v) : EvolvesBy R t v := by
  intro id
  have hh := h id
  have hk := k id
  revert hh hk
  cases snapshot t id <;> cases snapshot u id <;> cases snapshot v id <;> intro hh hk
  · exact .none
  · cases hk
  · cases hh
  · cases hh
  · cases hh
  · cases hh
  · cases hk
  · cases hh with
    | some hh => cases hk with | some hk => exact .some (hh.trans hk)

end Relations

variable {s : Snapshot J}

variable {t : Tables J} {id : UUID}

theorem snapshot_some :
    snapshot t id = some s ↔ lookup ExecutionRow.id id t.executions = some s.row ∧
      group AttemptRow.executionId id t.attempts = s.attempts := by
  simp only [snapshot,Option.map_eq_some_iff]
  constructor
  · rintro ⟨row,hr,rfl⟩
    exact ⟨hr,rfl⟩
  · rintro ⟨hr,ha⟩
    exact ⟨s.row,hr,by rw [ha]⟩

theorem snapshot_id (h : snapshot t id = some s) :
    s.row.id = id := lookup_key (snapshot_some.mp h).1

theorem snapshot_of_mem (ht : Sound t) {r : ExecutionRow J} (hr : r ∈ t.executions) :
    snapshot t r.id = some ⟨r,group AttemptRow.executionId r.id t.attempts⟩ :=
  snapshot_some.mpr ⟨lookup_of_mem ht.executionIds hr,rfl⟩

theorem leaseLostRetry_group (attempts : List AttemptRow) (row : ExecutionRow J) :
    leaseLostRetry (group AttemptRow.executionId row.id attempts) row =
      leaseLostRetry attempts row := by
  unfold leaseLostRetry group
  congr 1
  rw [List.any_filter]
  congr 1
  funext a
  by_cases h : a.executionId = row.id <;> simp [h]

theorem pastExpiry_snapshot {now : Instant} (h : snapshot t id = some s) :
    pastExpiry now s.attempts s.row = pastExpiry now t.attempts s.row := by
  have ha := (snapshot_some.mp h).2
  have hi := snapshot_id h
  subst hi
  unfold pastExpiry
  rw [← ha,leaseLostRetry_group]

theorem claimable_snapshot {now : Instant} {n : String} {ts : List String}
    (h : snapshot t id = some s) :
    claimable n ts now s.attempts s.row = claimable n ts now t.attempts s.row := by
  have ha := (snapshot_some.mp h).2
  have hi := snapshot_id h
  subst hi
  unfold claimable
  rw [← ha,leaseLostRetry_group]

variable {p : ExecutionRow J → Bool} {f : ExecutionRow J → ExecutionRow J} {q : AttemptRow → Bool}
  {g : AttemptRow → AttemptRow}

variable {x : UUID}

/-- A guarded pair of updates aimed at execution `x` rewrites its snapshot and
leaves every other one as it was. -/
theorem snapshot_update (hf : ∀ r, (f r).id = r.id) (hg : ∀ a, (g a).executionId = a.executionId)
    (hp : ∀ r, p r = true → r.id = x) (hq : ∀ a, q a = true → a.executionId = x) (t : Tables J)
    (id : UUID) :
    snapshot ⟨update p f t.executions,update q g t.attempts⟩ id =
      if id = x then (snapshot t id).map fun s =>
        ⟨if p s.row then f s.row else s.row,update q g s.attempts⟩
      else snapshot t id := by
  unfold snapshot
  split_ifs with h
  · simp only [lookup_update ExecutionRow.id id p f hf,
      group_update AttemptRow.executionId id q g hg,Option.map_map]
    rfl
  · simp only [lookup_update_of_ne ExecutionRow.id hf hp h,
      group_update_of_ne AttemptRow.executionId hg hq h]

theorem evolves_update {R : Snapshot J → Snapshot J → Prop} (hf : ∀ r, (f r).id = r.id)
    (hg : ∀ a, (g a).executionId = a.executionId) (hp : ∀ r, p r = true → r.id = x)
    (hq : ∀ a, q a = true → a.executionId = x) (hs : snapshot t x = some s) (hps : p s.row = true)
    (hm : R s ⟨f s.row,update q g s.attempts⟩) :
    EvolvesBy R t ⟨update p f t.executions,update q g t.attempts⟩ := by
  intro id
  rw [snapshot_update hf hg hp hq]
  by_cases h : id = x
  · subst h
    rw [if_pos rfl,hs]
    simp only [Option.map_some,hps,if_true]
    exact .some (.single hm)
  · rw [if_neg h]
    exact EvolvesBy.refl R t id

theorem Sound.updated (ht : Sound t) (hf : ∀ r, (f r).id = r.id) (hg : ∀ a, (g a).id = a.id)
    (hg' : ∀ a, (g a).executionId = a.executionId) :
    Sound (⟨update p f t.executions,update q g t.attempts⟩ : Tables J) where
  executionIds := unique_update hf ht.executionIds
  attemptIds := unique_update hg ht.attemptIds
  references := by
    intro a ha
    obtain ⟨a₀,ha₀,rfl⟩ := List.mem_map.mp ha
    obtain ⟨r,hr,he⟩ := ht.references a₀ ha₀
    refine ⟨if p r then f r else r,List.mem_map_of_mem hr,?_⟩
    have h₁ : (if p r then f r else r).id = r.id := by
      split_ifs
      · exact hf r
      · rfl
    have h₂ : (if q a₀ then g a₀ else a₀).executionId = a₀.executionId := by
      split_ifs
      · exact hg' a₀
      · rfl
    rw [h₁,h₂,he]

theorem exists_of_affected (ht : Sound t) (hp : ∀ r, p r = true → r.id = x)
    (h : affected p t.executions = 1) : ∃ s, snapshot t x = some s ∧ p s.row = true := by
  rw [affected_eq ht.executionIds hp] at h
  cases hl : lookup ExecutionRow.id x t.executions with
  | none => simp [hl] at h
  | some row =>
    refine ⟨⟨row,group AttemptRow.executionId x t.attempts⟩,snapshot_some.mpr ⟨hl,rfl⟩,?_⟩
    by_contra hc
    simp [hl,hc] at h

theorem affected_snapshot (hs : snapshot t x = some s) (hq : ∀ a, q a = true → a.executionId = x) :
    affected q t.attempts = affected q s.attempts := by
  rw [← (snapshot_some.mp hs).2]
  unfold affected group
  rw [List.countP_filter]
  apply List.countP_congr
  intro a _
  simp only [Bool.and_eq_true,decide_eq_true_eq]
  exact ⟨fun h => ⟨h,hq a h⟩,And.left⟩

end OneStep.ExecutionLifecycle
