import OneStep.MemoryQueue

/-!
# Retries into a bounded queue

A task runner of any concurrency over one queue with a bound. Producers put at any time:
the put of a `MemoryQueue` waits while the queue is full, a `WebhookSource` refuses the
request. A delivery occupies its slot from the fetch to the end of its task, also while
its retry sleeps and while the retry puts. The app is neither stopped nor paused.
-/
namespace OneStep.BlockedRetries
open MemoryQueue Transition

section Model

structure Runner where
  concurrency : ℕ
  source : MemoryQueue.Settings
  /-- A producer waits for a place in the queue, and is not refused. -/
  producersWait : Bool
  positive : 0 < concurrency
  bounded : 0 < source.maxsize

inductive Phase where
  | handling | delaying | putting | ending
  deriving DecidableEq, Repr

def Phase.inRetry : Phase → Bool
  | delaying | putting => true
  | handling | ending => false

structure Slot (β μ : Type) where
  envelope : Envelope β μ
  phase : Phase

/-- Where the loop of the runner is: with no fetch under way, waiting for a first envelope,
about to take the others, or about to start the tasks. -/
inductive Fetching (β μ : Type) where
  | idle
  | waiting (limit : ℕ)
  | taking (limit : ℕ) (first : Envelope β μ)
  | fetched (envelopes : List (Envelope β μ))

structure System (β μ : Type) where
  queue : List (Envelope β μ) := []
  /-- The producers that wait in `queue.put`. -/
  senders : List (Envelope β μ) := []
  slots : List (Slot β μ) := []
  fetching : Fetching β μ := .idle

variable {β μ : Type} (r : Runner)

def System.full (s : System β μ) : Prop := r.source.maxsize ≤ s.queue.length

instance (s : System β μ) : Decidable (s.full r) := inferInstanceAs (Decidable (_ ≤ _))

inductive Op (β μ : Type) where
  | arrive (envelope : Envelope β μ)
  | send (i : ℕ)
  | fetch
  | get
  | fetchTimeout
  | take
  | start
  | settle (i : ℕ)
  | raise (i : ℕ) (delayed : Bool)
  | wake (i : ℕ)
  | put (i : ℕ)
  | finish (i : ℕ)

/-- The steps other than a new arrival and the end of a wait for nothing. -/
def Op.moves : Op β μ → Bool
  | arrive _ | fetchTimeout => false
  | _ => true

def System.setPhase (s : System β μ) (i : ℕ) (phase : Phase) : System β μ :=
  {s with slots := s.slots.modify i fun slot => {slot with phase := phase}}

/-- The slot goes on to another phase, if it is in the given one. -/
def System.advance (s : System β μ) (i : ℕ) (old new : Phase) : Option (System β μ) :=
  (s.slots[i]?.filter fun slot => slot.phase = old).map fun _ => s.setPhase i new

def retried (envelope : Envelope β μ) : Envelope β μ :=
  {envelope with attempts := envelope.attempts+1}

def perform (s : System β μ) : Op β μ → Option (System β μ)
  | .arrive envelope =>
    if s.full r then some (if r.producersWait then {s with senders := s.senders++[envelope]} else s)
    else some {s with queue := s.queue++[envelope]}
  | .send i =>
    if s.full r then none
    else s.senders[i]?.map fun envelope =>
      {s with queue := s.queue++[envelope],senders := s.senders.eraseIdx i}
  | .fetch =>
    match s.fetching with
    | .idle =>
      if r.concurrency ≤ s.slots.length then none
      else some {s with
        fetching := .waiting (fetchLimit r.source (r.concurrency-s.slots.length : ℕ))}
    | _ => none
  | .get =>
    match s.fetching,s.queue with
    | .waiting limit,first::queue => some {s with queue := queue,fetching := .taking limit first}
    | _,_ => none
  | .fetchTimeout =>
    match s.fetching with
    | .waiting _ => some {s with fetching := .idle}
    | _ => none
  | .take =>
    match s.fetching with
    | .taking limit first => some {s with
        queue := s.queue.drop (limit-1)
        fetching := .fetched (first::s.queue.take (limit-1))}
    | _ => none
  | .start =>
    match s.fetching with
    | .fetched envelopes => some {s with
        slots := s.slots++envelopes.map fun envelope => ⟨envelope,.handling⟩
        fetching := .idle}
    | _ => none
  | .settle i => s.advance i .handling .ending
  | .raise i delayed => s.advance i .handling (if delayed then .delaying else .putting)
  | .wake i => s.advance i .delaying .putting
  | .put i =>
    if s.full r then none
    else (s.slots[i]?.filter fun slot => slot.phase = .putting).map fun slot =>
      {s.setPhase i .ending with queue := s.queue++[retried slot.envelope]}
  | .finish i =>
    (s.slots[i]?.filter fun slot => slot.phase = .ending).map fun _ =>
      {s with slots := s.slots.eraseIdx i}

def Step (s : System β μ) (op : Op β μ) (t : System β μ) : Prop := perform r s op = some t

/-- A delivery is being retried and only producers can do something. -/
def Stuck (s : System β μ) : Prop :=
  (∃ slot ∈ s.slots, slot.phase.inRetry = true) ∧ ∀ op, op.moves = true → perform r s op = none

end Model

section Clogging
variable {β μ : Type} {r : Runner} {s t : System β μ} {i : ℕ} {old new : Phase}

/-- The places that a fetch under way may still fill. -/
def Fetching.owed : Fetching β μ → ℕ
  | idle => 0
  | waiting limit => limit
  | taking limit _ => limit
  | fetched envelopes => envelopes.length

/-- A fetch asks for no more than there are free slots, and for something. -/
structure Room (r : Runner) (s : System β μ) : Prop where
  fits : s.slots.length+s.fetching.owed ≤ r.concurrency
  asks : s.fetching = .idle ∨ 0 < s.fetching.owed

theorem Room.idle (h : Room r s) (hall : s.slots.length = r.concurrency) : s.fetching = .idle := by
  rcases h.asks with hidle | howed
  · exact hidle
  · have := h.fits
    omega

theorem fetchLimit_le {n : ℕ} (h : 0 < n) (source : MemoryQueue.Settings) :
    fetchLimit source n ≤ n ∧ 0 < fetchLimit source n := by
  unfold fetchLimit
  omega

theorem advance_some (h : s.advance i old new = some t) :
    (∃ slot, s.slots[i]? = some slot ∧ slot.phase = old) ∧ t = s.setPhase i new := by
  obtain ⟨slot,hslot,ht⟩ := Option.map_eq_some_iff.mp h
  obtain ⟨hget,hphase⟩ := Option.filter_eq_some_iff.mp hslot
  exact ⟨⟨slot,hget,of_decide_eq_true hphase⟩,ht.symm⟩

theorem Room.setPhase (h : Room r s) (i : ℕ) (phase : Phase) : Room r (s.setPhase i phase) :=
  ⟨by rw [System.setPhase,List.length_modify]; exact h.fits,h.asks⟩

variable {op : Op β μ}

/-- Every step keeps a fetch within the free slots. -/
theorem Room.step (h : Room r s) (hs : Step r s op t) : Room r t := by
  cases op with
  | arrive envelope =>
    simp only [Step,perform] at hs
    split at hs
    · cases hs
      split <;> exact ⟨h.fits,h.asks⟩
    · cases hs
      exact ⟨h.fits,h.asks⟩
  | send i =>
    simp only [Step,perform] at hs
    split at hs
    · cases hs
    · obtain ⟨envelope,_,rfl⟩ := Option.map_eq_some_iff.mp hs
      exact ⟨h.fits,h.asks⟩
  | fetch =>
    simp only [Step,perform] at hs
    split at hs
    · split at hs
      · cases hs
      · next hfree =>
          cases hs
          obtain ⟨hle,hpos⟩ := fetchLimit_le (n := r.concurrency-s.slots.length) (by omega) r.source
          refine ⟨?_,.inr hpos⟩
          simp only [Fetching.owed]
          omega
    · cases hs
  | get =>
    simp only [Step,perform] at hs
    split at hs
    · next limit first queue hfetching hqueue =>
        cases hs
        have hfits := h.fits
        have hasks := h.asks
        rw [hfetching] at hfits hasks
        exact ⟨hfits,.inr (hasks.resolve_left nofun)⟩
    · cases hs
  | fetchTimeout =>
    simp only [Step,perform] at hs
    split at hs
    · cases hs
      have := h.fits
      exact ⟨by simp only [Fetching.owed]; omega,.inl rfl⟩
    · cases hs
  | take =>
    simp only [Step,perform] at hs
    split at hs
    · next limit first hfetching =>
        cases hs
        have hfits := h.fits
        have hasks := h.asks
        rw [hfetching] at hfits hasks
        have hpos : 0 < limit := hasks.resolve_left nofun
        simp only [Fetching.owed] at hfits
        refine ⟨?_,.inr (Nat.succ_pos _)⟩
        simp only [Fetching.owed,List.length_cons,List.length_take]
        omega
    · cases hs
  | start =>
    simp only [Step,perform] at hs
    split at hs
    · next envelopes hfetching =>
        cases hs
        have hfits := h.fits
        rw [hfetching] at hfits
        refine ⟨?_,.inl rfl⟩
        simp only [Fetching.owed,List.length_append,List.length_map] at hfits ⊢
        exact hfits
    · cases hs
  | settle i =>
    obtain ⟨_,rfl⟩ := advance_some hs
    exact h.setPhase i .ending
  | raise i delayed =>
    obtain ⟨_,rfl⟩ := advance_some hs
    exact h.setPhase i _
  | wake i =>
    obtain ⟨_,rfl⟩ := advance_some hs
    exact h.setPhase i .putting
  | put i =>
    simp only [Step,perform] at hs
    split at hs
    · cases hs
    · obtain ⟨slot,_,rfl⟩ := Option.map_eq_some_iff.mp hs
      exact ⟨(h.setPhase i .ending).fits,h.asks⟩
  | finish i =>
    obtain ⟨slot,_,rfl⟩ := Option.map_eq_some_iff.mp hs
    have hfits := h.fits
    have hle : (s.slots.eraseIdx i).length ≤ s.slots.length := List.length_eraseIdx_le _ _
    exact ⟨by dsimp only; omega,h.asks⟩

/-- Every slot waits to put into the queue, which is full. -/
structure Clogged (r : Runner) (s : System β μ) : Prop where
  all : s.slots.length = r.concurrency
  putting : ∀ slot ∈ s.slots, slot.phase = .putting
  full : s.full r

theorem advance_none (h : ∀ slot ∈ s.slots, slot.phase ≠ old) : s.advance i old new = none := by
  cases ht : s.advance i old new with
  | none => rfl
  | some t =>
    obtain ⟨⟨slot,hget,hphase⟩,_⟩ := advance_some ht
    exact absurd hphase (h slot (List.mem_of_getElem? hget))

variable {slot : Slot β μ}

theorem advance_of_mem (hget : s.slots[i]? = some slot) (hphase : slot.phase = old) :
    s.advance i old new ≠ none := by
  rw [System.advance,hget,Option.filter_some,decide_eq_true hphase]
  nofun

theorem Clogged.stuck (h : Clogged r s) (hroom : Room r s) : Stuck r s := by
  have hpos := r.positive
  have hother {p : Phase} (hne : p ≠ .putting) : ∀ slot ∈ s.slots, slot.phase ≠ p := by
    intro slot hslot hphase
    exact hne (hphase.symm.trans (h.putting slot hslot))
  refine ⟨?_,fun op hmoves => ?_⟩
  · obtain ⟨slot,hslot⟩ := List.exists_mem_of_length_pos (l := s.slots) (by rw [h.all]; exact hpos)
    exact ⟨slot,hslot,by rw [h.putting slot hslot]; rfl⟩
  · have hidle := hroom.idle h.all
    cases op with
    | arrive envelope => cases hmoves
    | fetchTimeout => cases hmoves
    | send i => exact if_pos h.full
    | fetch =>
      rw [perform,hidle]
      exact if_pos h.all.ge
    | get =>
      rw [perform,hidle]
    | take => rw [perform,hidle]
    | start => rw [perform,hidle]
    | settle i => exact advance_none (hother nofun)
    | raise i delayed => exact advance_none (hother nofun)
    | wake i => exact advance_none (hother nofun)
    | put i => exact if_pos h.full
    | finish i =>
      rw [perform,Option.map_eq_none_iff,Option.filter_eq_none_iff]
      intro slot hget hphase
      have hne := hother (p := .ending) nofun slot (List.mem_of_getElem? hget)
      exact hne (of_decide_eq_true hphase)

theorem Stuck.clogged (h : Stuck r s) (hroom : Room r s) : Clogged r s := by
  obtain ⟨⟨retrying,hretrying,hphase⟩,hnone⟩ := h
  have hputting : ∀ slot ∈ s.slots, slot.phase = .putting := by
    intro slot hslot
    obtain ⟨i,hget⟩ := List.getElem?_of_mem hslot
    cases hs : slot.phase with
    | putting => rfl
    | handling => exact absurd (hnone (.settle i) rfl) (advance_of_mem hget hs)
    | delaying => exact absurd (hnone (.wake i) rfl) (advance_of_mem hget hs)
    | ending =>
      have hfinish := hnone (.finish i) rfl
      rw [perform,hget,Option.filter_some,decide_eq_true hs] at hfinish
      cases hfinish
  have hfull : s.full r := by
    obtain ⟨i,hget⟩ := List.getElem?_of_mem hretrying
    by_contra hroom
    have hput := hnone (.put i) rfl
    rw [perform,if_neg hroom,hget,Option.filter_some,decide_eq_true (hputting retrying hretrying)] at hput
    cases hput
  have hidle : s.fetching = .idle := by
    cases hf : s.fetching with
    | idle => rfl
    | waiting limit =>
      have hget := hnone .get rfl
      cases hq : s.queue with
      | nil =>
        have hbound := r.bounded
        rw [System.full,hq] at hfull
        simp only [List.length_nil,Nat.cast_zero] at hfull
        omega
      | cons first queue =>
        rw [perform,hf,hq] at hget
        cases hget
    | taking limit first =>
      have htake := hnone .take rfl
      rw [perform,hf] at htake
      cases htake
    | fetched envelopes =>
      have hstart := hnone .start rfl
      rw [perform,hf] at hstart
      cases hstart
  refine ⟨le_antisymm (le_trans (Nat.le_add_right _ _) hroom.fits) ?_,hputting,hfull⟩
  have hfetch := hnone .fetch rfl
  rw [perform,hidle] at hfetch
  by_contra hfree
  rw [if_neg hfree] at hfetch
  cases hfetch

theorem stuck_iff (hroom : Room r s) : Stuck r s ↔ Clogged r s :=
  ⟨fun h => h.clogged hroom,fun h => h.stuck hroom⟩

/-- The steps that clog the system: a retry that comes to its put while the queue is full
and every other slot waits to put, and a producer that takes the last place while all do. -/
def Clogs (r : Runner) (s : System β μ) : Op β μ → Prop
  | .raise i delayed => delayed = false ∧ s.slots.length = r.concurrency ∧
      (∀ j slot, j ≠ i → s.slots[j]? = some slot → slot.phase = .putting) ∧ s.full r
  | .wake i => s.slots.length = r.concurrency ∧
      (∀ j slot, j ≠ i → s.slots[j]? = some slot → slot.phase = .putting) ∧ s.full r
  | .arrive _ | .send _ => s.slots.length = r.concurrency ∧
      (∀ slot ∈ s.slots, slot.phase = .putting) ∧ (s.queue.length : ℤ)+1 = r.source.maxsize
  | _ => False

theorem putting_setPhase {phase : Phase} (hget : s.slots[i]? = some slot) :
    (∀ slot ∈ (s.setPhase i phase).slots, slot.phase = .putting) ↔ phase = .putting ∧
      ∀ j slot, j ≠ i → s.slots[j]? = some slot → slot.phase = .putting := by
  constructor
  · intro h
    refine ⟨?_,fun j other hne hother => ?_⟩
    · apply h {slot with phase := phase}
      apply List.mem_of_getElem? (i := i)
      rw [System.setPhase,List.getElem?_modify_eq,hget]
      rfl
    · apply h other
      apply List.mem_of_getElem? (i := j)
      rw [System.setPhase,List.getElem?_modify_ne _ _ hne.symm]
      exact hother
  · rintro ⟨rfl,hothers⟩ other hother
    obtain ⟨j,hj⟩ := List.getElem?_of_mem hother
    rw [System.setPhase] at hj
    by_cases hji : j = i
    · subst hji
      rw [List.getElem?_modify_eq,hget] at hj
      cases hj
      rfl
    · rw [List.getElem?_modify_ne _ _ (Ne.symm hji)] at hj
      exact hothers j other hji hj

theorem clogged_setPhase {phase : Phase} (hget : s.slots[i]? = some slot) :
    Clogged r (s.setPhase i phase) ↔ phase = .putting ∧ s.slots.length = r.concurrency ∧
      (∀ j slot, j ≠ i → s.slots[j]? = some slot → slot.phase = .putting) ∧ s.full r := by
  have hlength : (s.setPhase i phase).slots.length = s.slots.length := List.length_modify _ _ _
  constructor
  · intro h
    obtain ⟨hphase,hothers⟩ := (putting_setPhase hget).mp h.putting
    exact ⟨hphase,hlength.symm.trans h.all,hothers,h.full⟩
  · rintro ⟨hphase,hall,hothers,hfull⟩
    exact ⟨hlength.trans hall,(putting_setPhase hget).mpr ⟨hphase,hothers⟩,hfull⟩

theorem clogged_grow {envelope : Envelope β μ} (hfree : ¬s.full r) (hslots : t.slots = s.slots)
    (hqueue : t.queue = s.queue++[envelope]) :
    Clogged r t ↔ s.slots.length = r.concurrency ∧
      (∀ slot ∈ s.slots, slot.phase = .putting) ∧ (s.queue.length : ℤ)+1 = r.source.maxsize := by
  have hfull : t.full r ↔ (s.queue.length : ℤ)+1 = r.source.maxsize := by
    unfold System.full at hfree ⊢
    rw [hqueue,List.length_append,List.length_singleton]
    omega
  constructor
  · intro h
    exact ⟨hslots ▸ h.all,hslots ▸ h.putting,hfull.mp h.full⟩
  · rintro ⟨hall,hputting,hlast⟩
    exact ⟨hslots ▸ hall,hslots ▸ hputting,hfull.mpr hlast⟩

theorem not_clogged_of_fetching (hroom : Room r t) (h : t.fetching ≠ .idle) : ¬Clogged r t :=
  fun hclogged => h (hroom.idle hclogged.all)

/-- Only a clogging step clogs the queue. -/
theorem clogged_step (hroom : Room r s) (hfree : ¬Clogged r s) (hs : Step r s op t) :
    Clogged r t ↔ Clogs r s op := by
  have hroom' := hroom.step hs
  cases op with
  | arrive envelope =>
    simp only [Step,perform] at hs
    split at hs
    · next hfull =>
        have hsame : t.slots = s.slots ∧ t.queue = s.queue := by
          cases hs
          split <;> exact ⟨rfl,rfl⟩
        refine iff_of_false (fun h => hfree ?_) ?_
        · exact ⟨hsame.1 ▸ h.all,hsame.1 ▸ h.putting,hfull⟩
        · rintro ⟨_,_,hlast⟩
          unfold System.full at hfull
          omega
    · next hfull =>
        cases hs
        exact clogged_grow hfull rfl rfl
  | send i =>
    simp only [Step,perform] at hs
    split at hs
    · cases hs
    · next hfull =>
        obtain ⟨envelope,_,rfl⟩ := Option.map_eq_some_iff.mp hs
        exact clogged_grow hfull rfl rfl
  | fetch =>
    refine iff_of_false (not_clogged_of_fetching hroom' ?_) id
    simp only [Step,perform] at hs
    split at hs
    · split at hs
      · cases hs
      · cases hs
        nofun
    · cases hs
  | get =>
    refine iff_of_false (not_clogged_of_fetching hroom' ?_) id
    simp only [Step,perform] at hs
    split at hs
    · cases hs
      nofun
    · cases hs
  | fetchTimeout =>
    refine iff_of_false (fun h => ?_) id
    simp only [Step,perform] at hs
    split at hs
    · next limit hfetching =>
        cases hs
        rw [hroom.idle h.all] at hfetching
        cases hfetching
    · cases hs
  | take =>
    refine iff_of_false (not_clogged_of_fetching hroom' ?_) id
    simp only [Step,perform] at hs
    split at hs
    · cases hs
      nofun
    · cases hs
  | start =>
    refine iff_of_false (fun h => ?_) id
    simp only [Step,perform] at hs
    split at hs
    · next envelopes hfetching =>
        cases hs
        have hasks := hroom.asks
        rw [hfetching] at hasks
        obtain ⟨envelope,henvelope⟩ := List.exists_mem_of_length_pos (hasks.resolve_left nofun)
        have hnew := h.putting ⟨envelope,.handling⟩
          (List.mem_append_right _ (List.mem_map_of_mem henvelope))
        cases hnew
    · cases hs
  | settle i =>
    obtain ⟨⟨slot,hget,_⟩,rfl⟩ := advance_some hs
    rw [clogged_setPhase hget]
    exact iff_of_false (fun h => nomatch h.1) id
  | raise i delayed =>
    obtain ⟨⟨slot,hget,_⟩,rfl⟩ := advance_some hs
    rw [clogged_setPhase hget]
    apply and_congr_left
    intro _
    cases delayed <;> decide
  | wake i =>
    obtain ⟨⟨slot,hget,_⟩,rfl⟩ := advance_some hs
    rw [clogged_setPhase hget]
    exact and_iff_right rfl
  | put i =>
    simp only [Step,perform] at hs
    split at hs
    · cases hs
    · obtain ⟨slot,hslot,rfl⟩ := Option.map_eq_some_iff.mp hs
      refine iff_of_false (fun h => ?_) id
      have hget := (Option.filter_eq_some_iff.mp hslot).1
      exact nomatch ((putting_setPhase hget).mp h.putting).1
  | finish i =>
    obtain ⟨slot,hslot,rfl⟩ := Option.map_eq_some_iff.mp hs
    refine iff_of_false (fun h => ?_) id
    have hget := (Option.filter_eq_some_iff.mp hslot).1
    obtain ⟨hlt,_⟩ := List.getElem?_eq_some_iff.mp hget
    have hall := h.all
    rw [List.length_eraseIdx_of_lt hlt] at hall
    have := hroom.fits
    omega

theorem Clogged.step (h : Clogged r s) (hroom : Room r s) (hs : Step r s op t) : Clogged r t := by
  by_cases hmoves : op.moves = true
  · rw [Step,(h.stuck hroom).2 op hmoves] at hs
    cases hs
  · cases op with
    | arrive envelope =>
      rw [Step,perform,if_pos h.full] at hs
      cases hs
      split
      · exact ⟨h.all,h.putting,h.full⟩
      · exact h
    | fetchTimeout =>
      rw [Step,perform,hroom.idle h.all] at hs
      cases hs
    | _ => exact absurd rfl hmoves

theorem Clogged.run {ops : List (Op β μ)} (h : Clogged r s) (hroom : Room r s)
    (hrun : Run (Step r) s ops t) : Stuck r t := by
  have hkept := hrun.invariant (I := fun t => Room r t ∧ Clogged r t)
    (fun _ _ _ hI hstep => ⟨hI.1.step hstep,hI.2.step hI.1 hstep⟩) ⟨hroom,h⟩
  exact hkept.2.stuck hkept.1

theorem room_start (r : Runner) : Room r ({} : System β μ) :=
  ⟨Nat.zero_le _,.inl rfl⟩

/-- In a run there is always something to do, other than for a new producer, while a delivery
is being retried, exactly if no step of the run clogs the system. -/
theorem retry_progress (r : Runner) (ops : List (Op β μ)) :
    Throughout (perform r) (fun s => ¬Stuck r s) {} ops ↔
      EachStep (perform r) (fun s op => ¬Clogs r s op) {} ops := by
  refine throughout_iff (J := Room r) (fun s op t h hs => h.step hs) ?_ (room_start r) ?_ ops
  · intro s op t hroom hfree hs
    rw [stuck_iff hroom] at hfree
    rw [stuck_iff (hroom.step hs),clogged_step hroom hfree hs]
  · rw [stuck_iff (room_start r)]
    intro h
    have hall := h.all
    exact absurd hall.symm r.positive.ne'

def twoSlots (producersWait : Bool) : Runner where
  concurrency := 2
  source := {maxsize := 1}
  producersWait := producersWait
  positive := by decide
  bounded := by decide

/-- A run ends where nobody can go on, whatever arrives. -/
def Jams (r : Runner) : Prop :=
  ∃ (ops : List (Op ℕ Unit)) (s : System ℕ Unit), Run (Step r) {} ops s ∧ Stuck r s ∧
    ∀ later t, Run (Step r) s later t → Stuck r t

/-- Two envelopes are fetched and a third one fills the queue; both retries then wait to put,
one of them after its delay, and nobody is left to fetch. -/
theorem jams_refilled (producersWait : Bool) : Jams (twoSlots producersWait) := by
  let retries : List (Op ℕ Unit) := [.arrive ⟨0,(),0⟩,.fetch,.get,.take,.start,.arrive ⟨1,(),0⟩,.fetch,
    .get,.take,.start,.arrive ⟨2,(),0⟩,.raise 0 false,.raise 1 true,.wake 1]
  obtain ⟨ops,s,htrace,hall,hputting,hfull⟩ : ∃ ops s,
      trace (perform (twoSlots producersWait)) (fun _ op _ => op) {} retries = some (ops,s) ∧
      s.slots.length = 2 ∧ s.slots.map Slot.phase = [.putting,.putting] ∧ s.queue.length = 1 :=
    ⟨_,_,rfl,rfl,rfl,rfl⟩
  have hrun : Run (Step (twoSlots producersWait)) {} ops s := run_of_trace (fun _ _ _ h => h) htrace
  have hroom : Room (twoSlots producersWait) s :=
    hrun.invariant (fun _ _ _ h hstep => h.step hstep) (room_start _)
  have hclogged : Clogged (twoSlots producersWait) s := by
    refine ⟨hall,fun slot hslot => ?_,?_⟩
    · have hphase : slot.phase ∈ s.slots.map Slot.phase := List.mem_map_of_mem hslot
      rw [hputting] at hphase
      simpa using hphase
    · rw [System.full,hfull]
      exact le_rfl
  exact ⟨ops,s,hrun,hclogged.stuck hroom,fun later t hlater => hclogged.run hroom hlater⟩

/-- Either kind of queue jams. -/
theorem refilled_queue_stuck : Jams (twoSlots false) ∧ Jams (twoSlots true) :=
  ⟨jams_refilled false,jams_refilled true⟩

end Clogging

end OneStep.BlockedRetries
