import OneStep.WorkItems

/-!
# The memory queue

A `MemoryQueue` hands out envelopes in the order in which they were put. A retry
puts a copy of the envelope with one more attempt at the end; `ack`, `fail` and
the inherited `release_unstarted` do nothing. The queue belongs to one event loop.
The entries a fetch takes after its first one may come from a later moment, as if
another fetch had taken them.

An item is given its number when it is sent, so that the model can tell equal
envelopes apart.
-/
namespace OneStep.MemoryQueue
open Transition WorkItems

structure Settings where
  maxsize : ℤ := 0
  batchSize : ℤ := 100

structure Envelope (β μ : Type) where
  body : β
  metadata : μ
  attempts : ℤ := 0
  deriving DecidableEq, Repr

structure Entry (β μ : Type) where
  item : ℕ
  envelope : Envelope β μ
  deriving DecidableEq, Repr

/-- A delivery, and whether it was settled or released. -/
structure Delivery (β μ : Type) where
  entry : Entry β μ
  settled : Bool := false
  deriving DecidableEq, Repr

structure Memory (β μ : Type) where
  queue : List (Entry β μ) := []
  sent : ℕ := 0
  deliveries : List (Delivery β μ) := []
  deriving DecidableEq, Repr

/-- A retry is the moment its put goes through, after the delay. -/
inductive Op (β μ : Type) where
  | send (envelope : Envelope β μ)
  | fetch (limit : ℤ)
  | ack (i : ℕ)
  | fail (i : ℕ)
  | retry (i : ℕ)
  | releaseUnstarted (i : ℕ)

section Steps
variable {β μ : Type} (cfg : Settings) (m : Memory β μ)

/-- `Queue.full`: a size that is not positive is no bound. -/
def Memory.full : Bool := decide (0 < cfg.maxsize ∧ cfg.maxsize ≤ m.queue.length)

def Memory.send (envelope : Envelope β μ) : Memory β μ :=
  {m with queue := m.queue++[⟨m.sent,envelope⟩],sent := m.sent+1}

def fetchLimit (limit : ℤ) : ℕ := (max 1 (min limit cfg.batchSize)).toNat

def Memory.fetch (limit : ℤ) : Memory β μ :=
  {m with
    queue := m.queue.drop (fetchLimit cfg limit)
    deliveries := m.deliveries++(m.queue.take (fetchLimit cfg limit)).map fun e => {entry := e}}

def Memory.settle (i : ℕ) : Memory β μ :=
  {m with deliveries := m.deliveries.modify i fun d => {d with settled := true}}

/-- `MemoryDelivery.retry`, when its put goes through. -/
def Memory.retry (i : ℕ) (e : Entry β μ) : Memory β μ :=
  Memory.settle {m with
    queue := m.queue++[⟨e.item,{e.envelope with attempts := e.envelope.attempts+1}⟩]} i

/-- A delivery that was neither settled nor released. -/
def Memory.unsettled (i : ℕ) : Option (Delivery β μ) := m.deliveries[i]?.filter fun d => !d.settled

/-- A put waits while the queue is full. Nothing is called on a delivery after it
was released. -/
def perform (m : Memory β μ) : Op β μ → Option (Memory β μ)
  | .send envelope => if m.full cfg then none else some (m.send envelope)
  | .fetch limit => some (m.fetch cfg limit)
  | .ack i => (m.unsettled i).map fun _ => m.settle i
  | .fail i => (m.unsettled i).map fun _ => m.settle i
  | .retry i => if m.full cfg then none else (m.unsettled i).map fun d => m.retry i d.entry
  | .releaseUnstarted i => (m.unsettled i).map fun _ => m.settle i

def Step (m : Memory β μ) (op : Op β μ) (m' : Memory β μ) : Prop := perform cfg m op = some m'

end Steps

section Places
variable {β μ : Type} {cfg : Settings} {m m' : Memory β μ} {op : Op β μ} {k : ℕ} {d : Delivery β μ}

/-- The items handed out, in order. -/
def Memory.handed (m : Memory β μ) : List ℕ := m.deliveries.map fun d => d.entry.item

/-- How often an item is in the queue or in a delivery that is not settled. -/
def Memory.places (m : Memory β μ) (k : ℕ) : ℕ :=
  (m.queue.countP fun e => e.item == k)+
    m.deliveries.countP fun d => !d.settled && d.entry.item == k

theorem unsettled_spec {i : ℕ} (h : m.unsettled i = some d) :
    m.deliveries[i]? = some d ∧ d.settled = false := by
  obtain ⟨hd,hsettled⟩ := Option.filter_eq_some_iff.mp h
  exact ⟨hd,by simpa using hsettled⟩

theorem handed_settle (i : ℕ) : (m.settle i).handed = m.handed :=
  map_modify (f := fun d : Delivery β μ => {d with settled := true}) (fun _ => rfl) m.deliveries i

theorem places_settle {i : ℕ} (h : m.unsettled i = some d) :
    (m.settle i).places k+(if d.entry.item = k then 1 else 0) = m.places k := by
  obtain ⟨hd,hopen⟩ := unsettled_spec h
  have hcount := countP_modify (p := fun d : Delivery β μ => !d.settled && d.entry.item == k)
    (f := fun d => {d with settled := true}) hd
  unfold Memory.places Memory.settle
  simp only [hopen,Bool.not_false,Bool.true_and,beq_iff_eq,Bool.not_true,Bool.false_and] at hcount
  dsimp only
  simp only [Bool.false_eq_true,if_false] at hcount
  omega

/-- Steps move items between the queue and the deliveries; only a send adds one. -/
theorem places_step (hs : perform cfg m op = some m') :
    m.sent ≤ m'.sent ∧ m'.places k ≤ m.places k+(if m.sent ≤ k ∧ k < m'.sent then 1 else 0) := by
  have hsettle : ∀ i d, m.unsettled i = some d → m.sent ≤ (m.settle i).sent ∧
      (m.settle i).places k ≤ m.places k+(if m.sent ≤ k ∧ k < (m.settle i).sent then 1 else 0) := by
    intro i d hd
    have hplaces := places_settle (k := k) hd
    exact ⟨le_rfl,by omega⟩
  cases op with
  | send envelope =>
    simp only [perform] at hs
    split at hs
    · cases hs
    · cases hs
      refine ⟨Nat.le_succ _,?_⟩
      unfold Memory.places Memory.send
      simp only [List.countP_append,List.countP_singleton,beq_iff_eq]
      split
      · rw [if_pos (by omega)]
        omega
      · omega
  | fetch limit =>
    cases hs
    refine ⟨le_rfl,?_⟩
    have hsplit := congrArg (List.countP fun e : Entry β μ => e.item == k)
      (List.take_append_drop (fetchLimit cfg limit) m.queue)
    rw [List.countP_append] at hsplit
    unfold Memory.places Memory.fetch
    simp only [List.countP_append,List.countP_map]
    have hnew : List.countP ((fun d : Delivery β μ => !d.settled && d.entry.item == k) ∘
        fun e => {entry := e}) (m.queue.take (fetchLimit cfg limit)) =
          (m.queue.take (fetchLimit cfg limit)).countP fun e => e.item == k :=
      List.countP_congr fun e _ => by simp
    omega
  | ack i =>
    obtain ⟨d,hd,rfl⟩ := Option.map_eq_some_iff.mp hs
    exact hsettle i d hd
  | fail i =>
    obtain ⟨d,hd,rfl⟩ := Option.map_eq_some_iff.mp hs
    exact hsettle i d hd
  | retry i =>
    simp only [perform] at hs
    split at hs
    · cases hs
    · obtain ⟨d,hd,rfl⟩ := Option.map_eq_some_iff.mp hs
      have hplaces := places_settle (k := k) hd
      refine ⟨le_rfl,?_⟩
      unfold Memory.places Memory.retry Memory.settle at *
      simp only [List.countP_append,List.countP_singleton,beq_iff_eq] at *
      omega
  | releaseUnstarted i =>
    obtain ⟨d,hd,rfl⟩ := Option.map_eq_some_iff.mp hs
    exact hsettle i d hd

theorem handed_step (hs : perform cfg m op = some m') :
    ∃ new, m'.handed = m.handed++new ∧ ∀ k ∈ new, m.places k ≠ 0 := by
  have hnone : ∀ i, ∃ new, (m.settle i).handed = m.handed++new ∧ ∀ k ∈ new, m.places k ≠ 0 := by
    intro i
    exact ⟨[],by rw [handed_settle,List.append_nil],by simp⟩
  cases op with
  | send envelope =>
    simp only [perform] at hs
    split at hs
    · cases hs
    · cases hs
      exact ⟨[],(List.append_nil _).symm,by simp⟩
  | fetch limit =>
    cases hs
    refine ⟨(m.queue.take (fetchLimit cfg limit)).map Entry.item,?_,fun k hk => ?_⟩
    · unfold Memory.handed Memory.fetch
      rw [List.map_append,List.map_map]
      rfl
    · obtain ⟨e,he,rfl⟩ := List.mem_map.mp hk
      have hpos : 0 < m.queue.countP fun e' => e'.item == e.item :=
        List.countP_pos_iff.mpr ⟨e,(List.take_sublist _ _).subset he,by simp⟩
      unfold Memory.places
      omega
  | ack i =>
    obtain ⟨d,-,rfl⟩ := Option.map_eq_some_iff.mp hs
    exact hnone i
  | fail i =>
    obtain ⟨d,-,rfl⟩ := Option.map_eq_some_iff.mp hs
    exact hnone i
  | retry i =>
    simp only [perform] at hs
    split at hs
    · cases hs
    · obtain ⟨d,-,rfl⟩ := Option.map_eq_some_iff.mp hs
      exact hnone i
  | releaseUnstarted i =>
    obtain ⟨d,-,rfl⟩ := Option.map_eq_some_iff.mp hs
    exact hnone i

/-- Every item is in one place at most, and nowhere before it is sent. -/
structure Single (m : Memory β μ) : Prop where
  once : ∀ k, m.places k ≤ 1
  unsent : ∀ k, m.sent ≤ k → m.places k = 0

theorem Single.step (h : Single m) (hs : perform cfg m op = some m') : Single m' := by
  constructor
  · intro k
    have honce := h.once k
    have hunsent := h.unsent k
    have hstep := (places_step (k := k) hs).2
    split at hstep
    · next hnew =>
        have hzero := hunsent hnew.1
        omega
    · omega
  · intro k hk
    obtain ⟨hsent,hstep⟩ := places_step (k := k) hs
    have hunsent := h.unsent k (hsent.trans hk)
    rw [if_neg (by omega)] at hstep
    omega

/-- A released item is in no place, and never handed out again. -/
theorem released_gone (hreach : Reachable {} (Step cfg) m) {i : ℕ} (hd : m.unsettled i = some d)
    (hs : perform cfg m (.releaseUnstarted i) = some m') :
    ¬ComesBack (Step cfg) Memory.handed m' d.entry.item := by
  have hsingle : Single m := hreach.invariant ⟨by simp [Memory.places],by simp [Memory.places]⟩
    fun _ _ _ h hstep => h.step hstep
  rw [perform,hd,Option.map_some] at hs
  cases hs
  have hplaces := places_settle (k := d.entry.item) hd
  rw [if_pos rfl] at hplaces
  have honce := hsingle.once d.entry.item
  have hsent : d.entry.item < m.sent := by
    by_contra hnot
    have hzero := hsingle.unsent d.entry.item (by omega)
    omega
  refine not_comesBack (I := fun m => m.places d.entry.item = 0 ∧ d.entry.item < m.sent) ?_
    ⟨by omega,hsent⟩
  rintro m op m' ⟨hzero,hlt⟩ hstep
  obtain ⟨hle,hplaces⟩ := places_step (k := d.entry.item) hstep
  rw [if_neg (by omega)] at hplaces
  obtain ⟨new,hnew,hin⟩ := handed_step hstep
  exact ⟨⟨by omega,by omega⟩,new,hnew,fun hmem => hin _ hmem hzero⟩

end Places

end OneStep.MemoryQueue
