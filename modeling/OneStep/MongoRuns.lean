import OneStep.MongoCursors
import OneStep.Transition

/-!
# Runs of the MongoDB sources

Both sources keep their reader ahead of the work that was handed out, step by
step, under the conditions of the module before. A retry that lands while a
fetch is in the driver, and a stream opened again before any token was saved,
show what happens without them.
-/
namespace OneStep.MongoRuns
open GenerationTracker MongoSources MongoTracking MongoCursors Transition

section Core
variable {τ : Type} {c c' : Core τ} {op : Call}

/-- Every delivery of an earlier generation is settled. -/
def Settled (c : Core τ) : Prop :=
  ∀ j g y, c.handed j = some (g,y) → g < c.tracker.generation → (c.deliveries j).phase = .terminal

theorem settled_of_canFetch (h : Sound c) (hfetch : c.tracker.canFetch = true) : Settled c := by
  intro j g y hj hlt
  obtain ⟨t,ht,rfl,-⟩ := handed_iff.mp hj
  exact h.settled_of_canFetch hfetch ht hlt

theorem Settled.steady (hs : Settled c) (h : Steady c c') : Settled c' := by
  intro j g y hj hlt
  rw [h.handed] at hj
  rw [h.generation] at hlt
  have hterm := hs j g y hj hlt
  rw [h.terminal j hterm]
  exact hterm

theorem invalidates_generation (h : Sound c) (hop : op.invalidates = true)
    (hc : op.perform c = some c') :
    c.tracker.generation ≤ c'.tracker.generation ∧
      (Settled c → c'.tracker.generation = c.tracker.generation+1) := by
  cases op with
  | settle i call => cases hop
  | complete i => cases hop
  | saveReturns ok => cases hop
  | invalidate i =>
    simp only [Call.perform,Core.invalidate] at hc
    split at hc
    · next x hx hphase hfree =>
        cases hc
        have hle := h.generation i x hx
        obtain ⟨-,-,-,⟨-,hnext,-⟩ | ⟨hne,hsame⟩⟩ := invalidate_generation c.tracker x.generation
        · change _ ≤ (c.tracker.invalidate x.generation).generation ∧
            (_ → (c.tracker.invalidate x.generation).generation = _)
          exact ⟨by omega,fun _ => hnext⟩
        · refine ⟨?_,fun hs => ?_⟩
          · change _ ≤ (c.tracker.invalidate x.generation).generation
            rw [hsame]
          have hterm := hs i x.generation x.token (handed_iff.mpr ⟨x,hx,rfl,rfl⟩) (by omega)
          rw [hphase] at hterm
          cases hterm
    · cases hc

end Core

section Polling
variable {τ : Type} [LinearOrder τ] {p p' : Polling τ} {op : PollOp τ} {batchSize : ℕ}

structure PollInvariant (p : Polling τ) : Prop where
  sound : Sound p.core
  targets : Targets p.core
  ahead : Ahead p.core (some p.scan)
  began : ∀ r ∈ p.reading, r.generation ≤ p.core.tracker.generation
  reading : ∀ r ∈ p.reading, r.generation = p.core.tracker.generation →
    r.scan = p.scan ∧ Settled p.core

theorem ahead_opened (committed : WithBot τ) {position : Option (WithBot τ)}
    (h : position = none ∨ position = some committed) :
    Ahead ({committed := committed} : Core τ) position := by
  refine ahead_reset ?_ ?_ h
  · intro j g y hj
    simp [Core.handed] at hj
  · intro j g y hj
    simp [Core.handed] at hj

theorem poll_opened (committed : WithBot τ) : PollInvariant (Polling.opened committed) where
  sound := sound_opened committed
  targets := fun s hs => by cases hs
  ahead := ahead_opened committed (.inr rfl)
  began := fun r hr => by cases hr
  reading := fun r hr => by cases hr

/-- Every step of a polling source keeps it. -/
theorem PollInvariant.step (h : PollInvariant p) (hp : p.perform batchSize op = some p')
    (hgenuine : op.Genuine p) (hturn : op.InGeneration p) : PollInvariant p' := by
  cases op with
  | startFetch limit =>
    simp only [Polling.perform] at hp
    split at hp
    · cases hp
    · next hidle =>
        split at hp
        · next hfetch =>
            cases hp
            refine ⟨h.sound,h.targets,h.ahead,?_,?_⟩
            · intro r hr
              cases hr
              exact le_rfl
            · intro r hr _
              cases hr
              exact ⟨rfl,settled_of_canFetch h.sound hfetch⟩
        · cases hp
          exact h
  | fetched documents =>
    simp only [Polling.perform] at hp
    split at hp
    · cases hp
    · next r hr =>
        split at hp
        · cases hp
          refine ⟨h.sound.deliverAll _ _,h.targets.deliverAll h.sound _ _,?_,?_,?_⟩
          · by_cases hnil : documents = []
            · subst hnil
              exact h.ahead
            · have hgen := hturn hnil r hr
              obtain ⟨hscan,hsettled⟩ := h.reading r hr hgen
              have hreads := hgenuine r hr
              rw [hscan] at hreads
              rw [hgen]
              exact h.ahead.deliverAll h.sound hreads hsettled
          · intro r' hr'
            cases hr'
          · intro r' hr'
            cases hr'
        · cases hp
  | fetchRaised =>
    simp only [Polling.perform] at hp
    split at hp
    · cases hp
    · cases hp
      refine ⟨h.sound,h.targets,h.ahead,?_,?_⟩
      · intro r hr
        cases hr
      · intro r hr
        cases hr
  | call op =>
    simp only [Polling.perform] at hp
    obtain ⟨core,hc,rfl⟩ := Option.map_eq_some_iff.mp hp
    have hsound := call_sound h.sound hc
    have htargets := call_targets h.sound h.targets hc
    cases hop : op.invalidates with
    | false =>
      have hsteady := call_steady h.sound hop hc
      refine ⟨hsound,htargets,?_,?_,?_⟩
      · simp only [Bool.false_eq_true,if_false]
        exact h.ahead.call h.sound h.targets hop hc
      · intro r hr
        rw [hsteady.generation]
        exact h.began r hr
      · intro r hr hgen
        rw [hsteady.generation] at hgen
        obtain ⟨hscan,hsettled⟩ := h.reading r hr hgen
        simp only [Bool.false_eq_true,if_false]
        exact ⟨hscan,hsettled.steady hsteady⟩
    | true =>
      obtain ⟨hle,hnext⟩ := invalidates_generation h.sound hop hc
      refine ⟨hsound,htargets,?_,?_,?_⟩
      · simp only [if_true]
        exact h.ahead.invalidate h.sound hop hc (.inr rfl)
      · intro r hr
        exact le_trans (h.began r hr) hle
      · intro r hr hgen
        have hbegan := h.began r hr
        have hsame : r.generation = p.core.tracker.generation := by
          simp only at hgen
          omega
        have hlater := hnext (h.reading r hr hsame).2
        simp only at hgen
        omega

end Polling

section ChangeStream
variable {τ : Type} [LinearOrder τ] {c c' : Core τ} {s s' : ChangeStream τ} {op : StreamOp τ}
  {batchSize : ℕ}

variable {start : WithBot τ} {batch : List τ}

theorem reads_steady (hr : Reads c start batch) (h : Steady c c') : Reads c' start batch := by
  refine ⟨hr.above,hr.ascending,?_⟩
  intro x hx hlt hupto
  obtain ⟨j,g,hj⟩ := mem_tokens.mp ⟨x,hx,rfl⟩
  rw [h.handed] at hj
  obtain ⟨y,hy,he⟩ := mem_tokens.mpr ⟨j,g,hj⟩
  rw [← he] at hlt hupto ⊢
  exact hr.skipsNone y hy hlt hupto

theorem le_endOf (h : batch.Pairwise (· < ·)) :
    ∀ x ∈ batch, (x : WithBot τ) ≤ endOf start batch := by
  induction batch using List.reverseRecOn with
  | nil => simp
  | append_singleton batch y _ =>
    intro x hx
    rw [endOf_snoc,WithBot.coe_le_coe]
    rcases List.mem_append.mp hx with hx | hx
    · exact ((List.pairwise_append.mp h).2.2 x hx y (by simp)).le
    · exact (List.mem_singleton.mp hx).le

theorem start_le_endOf (h : Reads c start batch) : start ≤ endOf start batch := by
  induction batch using List.reverseRecOn with
  | nil => exact le_rfl
  | append_singleton batch x _ =>
    rw [endOf_snoc]
    exact (h.above x (by simp)).le

theorem reads_snoc {x : τ} (h : Reads c start batch) (hx : Reads c (endOf start batch) [x]) :
    Reads c start (batch++[x]) := by
  have hend := hx.above x (by simp)
  constructor
  · intro y hy
    rcases List.mem_append.mp hy with hy | hy
    · exact h.above y hy
    · rw [List.mem_singleton.mp hy]
      exact lt_of_le_of_lt (start_le_endOf h) hend
  · refine List.pairwise_append.mpr ⟨h.ascending,by simp,?_⟩
    intro y hy z hz
    rw [List.mem_singleton.mp hz]
    exact WithBot.coe_lt_coe.mp (lt_of_le_of_lt (le_endOf h.ascending y hy) hend)
  · intro y hy hlt hupto
    by_cases hle : ∃ z ∈ batch, y.token ≤ z
    · exact List.mem_append.mpr (.inl (h.skipsNone y hy hlt hle))
    · refine List.mem_append.mpr (.inr ?_)
      obtain ⟨z,hz,hyz⟩ := hupto
      have hzx : z = x := by
        rcases List.mem_append.mp hz with hz | hz
        · exact absurd ⟨z,hz,hyz⟩ hle
        · exact List.mem_singleton.mp hz
      refine hx.skipsNone y hy ?_ ⟨x,by simp,hzx ▸ hyz⟩
      by_contra hnot
      have hyend := not_lt.mp hnot
      induction batch using List.reverseRecOn with
      | nil => exact absurd hlt (not_lt.mpr hyend)
      | append_singleton batch w _ =>
        rw [endOf_snoc,WithBot.coe_le_coe] at hyend
        exact hle ⟨w,by simp,hyend⟩

/-- A fetch that reads in the current generation. -/
structure Reading (s : ChangeStream τ) (r : StreamRead τ) (start : WithBot τ) : Prop where
  generation : r.generation = s.core.tracker.generation
  stream : s.stream = some r.position
  settled : Settled s.core
  ahead : Ahead s.core (some start)
  reads : Reads s.core start r.events
  position : endOf start r.events = r.position

/-- The stream was dropped after an invalidation. -/
def Dropped (s : ChangeStream τ) : Prop := s.stream = none ∧ Ahead s.core none

def Fetching.Invariant (s : ChangeStream τ) : Fetching τ → Prop
  | .idle => Ahead s.core s.stream
  | .opening resume _ => Dropped s ∧ resume = s.core.committed
  | .reading r => (Dropped s ∧ r.generation < s.core.tracker.generation) ∨ ∃ start, Reading s r start
  | .failing g => Dropped s ∨ (g = s.core.tracker.generation ∧ ∃ start, Ahead s.core (some start))

structure StreamInvariant (s : ChangeStream τ) : Prop where
  sound : Sound s.core
  targets : Targets s.core
  fetching : Fetching.Invariant s s.fetching

theorem stream_opened (committed : WithBot τ) :
    StreamInvariant (ChangeStream.opened committed) where
  sound := sound_opened committed
  targets := fun s hs => by cases hs
  fetching := ahead_opened committed (.inl rfl)

/-- No save is under way without a delivery of the current generation. -/
theorem Dropped.free (h : Dropped s) (ht : Targets s.core) : s.core.save = none := by
  cases hs : s.core.save with
  | none => rfl
  | some save =>
    obtain ⟨-,x,hx⟩ := ht save hs
    exact absurd (h.2.empty rfl _ _ _ hx) (lt_irrefl _)

theorem startReading_invariant {count : ℕ} (hsound : Sound s.core) (htargets : Targets s.core)
    (h : Ahead s.core s.stream) : StreamInvariant (s.startReading count) := by
  unfold ChangeStream.startReading
  split
  · next hnone => exact ⟨hsound,htargets,h⟩
  · next position hsome =>
      split
      · next hguard =>
          refine ⟨hsound,htargets,.inr ⟨position,?_⟩⟩
          exact {
            generation := rfl
            stream := hsome
            settled := settled_of_canFetch hsound hguard.1
            ahead := hsome ▸ h
            reads := ⟨by simp,List.Pairwise.nil,by simp⟩
            position := rfl}
      · exact ⟨hsound,htargets,h⟩

theorem finishFetch_invariant {r : StreamRead τ} (hsound : Sound s.core) (htargets : Targets s.core)
    (h : Reading s r start) : StreamInvariant (s.finishFetch r) := by
  refine ⟨hsound.deliverAll _ _,htargets.deliverAll hsound _ _,?_⟩
  change Ahead (s.core.deliverAll r.generation r.events) s.stream
  rw [h.stream,h.generation,← h.position]
  exact h.ahead.deliverAll hsound h.reads h.settled

/-- An invalidation drops the stream, whatever the fetch was doing. -/
theorem StreamInvariant.invalidate {op : Call} (h : StreamInvariant s)
    (hop : op.invalidates = true) (hc : op.perform s.core = some c') :
    StreamInvariant {s with core := c',stream := none} := by
  have hsound := call_sound h.sound hc
  have htargets := call_targets h.sound h.targets hc
  obtain ⟨hle,hnext⟩ := invalidates_generation h.sound hop hc
  have hdropped : ∀ position, Ahead s.core position → Dropped {s with core := c',stream := none} :=
    fun position ha => ⟨rfl,ha.invalidate h.sound hop hc (.inl rfl)⟩
  refine ⟨hsound,htargets,?_⟩
  have hf := h.fetching
  cases hfetch : s.fetching with
  | idle =>
    rw [hfetch] at hf
    exact (hdropped _ hf).2
  | opening resume limit =>
    rw [hfetch] at hf
    obtain ⟨hd,hresume⟩ := hf
    refine ⟨hdropped _ hd.2,?_⟩
    have hnot : op ≠ .saveReturns true := by
      rintro rfl
      cases hop
    rw [hresume]
    exact (call_committed hnot hc).symm
  | reading r =>
    rw [hfetch] at hf
    rcases hf with ⟨hd,hlt⟩ | ⟨start,hr⟩
    · exact .inl ⟨hdropped _ hd.2,lt_of_lt_of_le hlt hle⟩
    · refine .inl ⟨hdropped _ hr.ahead,?_⟩
      have hlater := hnext hr.settled
      have hgen := hr.generation
      change r.generation < c'.tracker.generation
      omega
  | failing g =>
    rw [hfetch] at hf
    rcases hf with hd | ⟨-,start,ha⟩
    · exact .inl (hdropped _ hd.2)
    · exact .inl (hdropped _ ha)

theorem StreamInvariant.call {op : Call} (h : StreamInvariant s) (hop : op.invalidates = false)
    (hc : op.perform s.core = some c') : StreamInvariant {s with core := c'} := by
  have hsound := call_sound h.sound hc
  have htargets := call_targets h.sound h.targets hc
  have hsteady := call_steady h.sound hop hc
  have hahead : ∀ position, Ahead s.core position → Ahead c' position :=
    fun position ha => ha.call h.sound h.targets hop hc
  refine ⟨hsound,htargets,?_⟩
  have hf := h.fetching
  cases hfetch : s.fetching with
  | idle =>
    rw [hfetch] at hf
    exact hahead _ hf
  | opening resume limit =>
    rw [hfetch] at hf
    obtain ⟨hd,hresume⟩ := hf
    refine ⟨⟨hd.1,hahead _ hd.2⟩,?_⟩
    have hnot : op ≠ .saveReturns true := by
      rintro rfl
      simp only [Call.perform,Core.saveReturns,hd.free h.targets] at hc
      cases hc
    rw [hresume]
    exact (call_committed hnot hc).symm
  | reading r =>
    rw [hfetch] at hf
    rcases hf with ⟨hd,hlt⟩ | ⟨start,hr⟩
    · refine .inl ⟨⟨hd.1,hahead _ hd.2⟩,?_⟩
      change r.generation < c'.tracker.generation
      rw [hsteady.generation]
      exact hlt
    · refine .inr ⟨start,?_⟩
      exact {
        generation := hr.generation.trans hsteady.generation.symm
        stream := hr.stream
        settled := hr.settled.steady hsteady
        ahead := hahead _ hr.ahead
        reads := reads_steady hr.reads hsteady
        position := hr.position}
  | failing g =>
    rw [hfetch] at hf
    rcases hf with hd | ⟨hg,start,ha⟩
    · exact .inl ⟨hd.1,hahead _ hd.2⟩
    · exact .inr ⟨hg.trans hsteady.generation.symm,start,hahead _ ha⟩

/-- A stream opened after the saved token, or when everything is settled. -/
theorem ahead_watched (h : Ahead c none) (hresume : c.committed ≠ ⊥ → start = c.committed)
    (hall : c.committed = ⊥ → ∀ i < c.tracker.tokens.length, c.Acked i) : Ahead c (some start) := by
  have hempty := h.empty rfl
  by_cases hbot : c.committed = ⊥
  · have hno : ∀ j y, ¬c.handed j = some (c.tracker.generation,y) :=
      fun j y hj => lt_irrefl _ (hempty j _ y hj)
    constructor
    · exact h.committed
    · intro p _
      rw [hbot]
      exact bot_le
    · intro hnone
      cases hnone
    · exact fun p _ j y hj => absurd hj (hno j y)
    · intro p _ j g y hj _
      obtain ⟨t,ht,-⟩ := handed_iff.mp hj
      exact .inr (.inl (hall hbot j (List.getElem?_eq_some_iff.mp ht).1))
    · exact fun i j x y hi => absurd hi (hno i x)
    · exact fun i x hi => absurd hi (hno i x)
    · exact fun i x hi => absurd hi (hno i x)
  · rw [hresume hbot]
    exact ahead_reset h.committed hempty (.inr rfl)

/-- Every step of a change stream keeps it. -/
theorem StreamInvariant.step (h : StreamInvariant s) (hs : s.perform batchSize op = some s')
    (hgenuine : op.Genuine s) (hturn : op.InGeneration s) : StreamInvariant s' := by
  have hf := h.fetching
  cases op with
  | startFetch limit =>
    simp only [ChangeStream.perform] at hs
    split at hs
    · next hidle =>
        rw [hidle] at hf
        split at hs
        · next hguard =>
            cases hs
            refine ⟨h.sound,h.targets,⟨hguard.1,?_⟩,rfl⟩
            have ha : Ahead s.core s.stream := hf
            rwa [hguard.1] at ha
        · cases hs
          exact startReading_invariant h.sound h.targets hf
    · cases hs
  | watched start =>
    simp only [ChangeStream.perform] at hs
    split at hs
    · next resume limit hopening =>
        cases hs
        rw [hopening] at hf
        simp only [StreamOp.Genuine,StreamOp.InGeneration,hopening] at hgenuine hturn
        obtain ⟨hd,hresume⟩ := hf
        rw [hresume] at hgenuine hturn
        exact startReading_invariant h.sound h.targets (ahead_watched hd.2 hgenuine hturn)
    · cases hs
  | watchRaised =>
    simp only [ChangeStream.perform] at hs
    split at hs
    · next resume limit hopening =>
        cases hs
        rw [hopening] at hf
        refine ⟨h.sound,h.targets,?_⟩
        change Ahead s.core s.stream
        rw [hf.1.1]
        exact hf.1.2
    · cases hs
  | gotEvent event =>
    simp only [ChangeStream.perform] at hs
    split at hs
    · next r hreading =>
        cases hs
        rw [hreading] at hf
        simp only [StreamOp.Genuine,StreamOp.InGeneration,hreading] at hgenuine hturn
        unfold ChangeStream.nextRead
        rcases hf with ⟨hd,hlt⟩ | ⟨start,hr⟩
        · split
          · next hleft =>
              have hgen := hturn (by
                change r.left-1 = 0 at hleft
                omega)
              omega
          · simp only [hd.1,Option.map_none]
            exact ⟨h.sound,h.targets,.inl ⟨rfl,hd.2⟩⟩
        · have hnext : Reading {s with stream := some (event : WithBot τ)}
              (ChangeStream.StreamRead.next r event) start :=
            { generation := hr.generation
              stream := rfl
              settled := hr.settled
              ahead := hr.ahead
              reads := reads_snoc hr.reads (hr.position ▸ hgenuine)
              position := endOf_snoc start r.events event }
          simp only [hr.stream,Option.map_some]
          split
          · exact finishFetch_invariant h.sound h.targets hnext
          · exact ⟨h.sound,h.targets,.inr ⟨start,{hnext with}⟩⟩
    · cases hs
  | gotNone =>
    simp only [ChangeStream.perform] at hs
    split at hs
    · next r hreading =>
        cases hs
        rw [hreading] at hf
        simp only [StreamOp.InGeneration,hreading] at hturn
        rcases hf with ⟨hd,hlt⟩ | ⟨start,hr⟩
        · have hnil : r.events = [] := by
            by_contra hne
            have hgen := hturn hne
            omega
          refine ⟨?_,?_,?_⟩
          · simp only [ChangeStream.finishFetch,hnil]
            exact h.sound
          · simp only [ChangeStream.finishFetch,hnil]
            exact h.targets
          · simp only [ChangeStream.finishFetch,hnil]
            change Ahead s.core s.stream
            rw [hd.1]
            exact hd.2
        · exact finishFetch_invariant h.sound h.targets hr
    · cases hs
  | readRaised =>
    simp only [ChangeStream.perform] at hs
    split at hs
    · next r hreading =>
        cases hs
        rw [hreading] at hf
        refine ⟨h.sound,h.targets,?_⟩
        rcases hf with ⟨hd,-⟩ | ⟨start,hr⟩
        · exact .inl hd
        · exact .inr ⟨rfl,start,hr.ahead⟩
    · cases hs
  | failed =>
    simp only [ChangeStream.perform] at hs
    split at hs
    · next g hfailing hfree =>
        cases hs
        rw [hfailing] at hf
        refine ⟨h.sound.invalidateTracker hfree g,?_,?_⟩
        · intro save hsave
          change s.core.save = some save at hsave
          rw [hfree] at hsave
          cases hsave
        · rcases hf with hd | ⟨hg,start,ha⟩
          · exact hd.2.invalidateTracker h.sound (.inr (hd.2.empty rfl)) (.inl rfl)
          · exact ha.invalidateTracker h.sound (.inl hg) (.inl rfl)
    · cases hs
  | call op =>
    simp only [ChangeStream.perform] at hs
    obtain ⟨core,hc,rfl⟩ := Option.map_eq_some_iff.mp hs
    cases hop : op.invalidates with
    | false =>
      simp only [Bool.false_eq_true,if_false]
      exact h.call hop hc
    | true =>
      simp only [if_true]
      exact h.invalidate hop hc

end ChangeStream

section SavedPositions
variable {τ : Type} [LinearOrder τ]

/-- A step of the polling source, as the driver allows it. -/
def PollStep (batchSize : ℕ) (allowed : Polling τ → PollOp τ → Prop) (p : Polling τ)
    (op : PollOp τ) (p' : Polling τ) : Prop :=
  p.perform batchSize op = some p' ∧ op.Genuine p ∧ allowed p op

def StreamStep (batchSize : ℕ) (allowed : ChangeStream τ → StreamOp τ → Prop)
    (s : ChangeStream τ) (op : StreamOp τ) (s' : ChangeStream τ) : Prop :=
  s.perform batchSize op = some s' ∧ op.Genuine s ∧ allowed s op

end SavedPositions

section Samples

theorem poll_reachable {allowed : Polling ℕ → PollOp ℕ → Prop}
    [∀ p op, Decidable (allowed p op)] {batchSize : ℕ} {p q : Polling ℕ} {ops : List (PollOp ℕ)}
    (h : runs (Polling.perform batchSize) (fun p op => decide (op.Genuine p ∧ allowed p op)) p ops =
      some q) : Reachable p (PollStep batchSize allowed) q :=
  ⟨ops,run_of_runs (fun _ _ => of_decide_eq_true) h⟩

theorem stream_reachable {allowed : ChangeStream ℕ → StreamOp ℕ → Prop}
    [∀ s op, Decidable (allowed s op)] {batchSize : ℕ} {s t : ChangeStream ℕ}
    {ops : List (StreamOp ℕ)}
    (h : runs (ChangeStream.perform batchSize) (fun s op => decide (op.Genuine s ∧ allowed s op)) s
      ops = some t) : Reachable s (StreamStep batchSize allowed) t :=
  ⟨ops,run_of_runs (fun _ _ => of_decide_eq_true) h⟩

def ackSecond : List Call := [.settle 1 .ack,.complete 1]

def retryFirst : List Call := [.settle 0 .retry,.invalidate 0,.complete 0]

/-- The second document is in the driver when the first is retried. -/
def retriedPoll : List (PollOp ℕ) :=
  [.startFetch 1,.fetched [1],.startFetch 1]++retryFirst.map .call++[.fetched [2]]++
    ackSecond.map .call

/-- The second event is in the driver when the first is retried. -/
def retriedStream : List (StreamOp ℕ) :=
  [.startFetch 1,.watched 0,.gotEvent 1,.startFetch 1]++retryFirst.map .call++[.gotEvent 2]++
    ackSecond.map .call

/-- The first event is retried before a token was saved, and the next stream
starts after it. -/
def reopenedStream : List (StreamOp ℕ) :=
  [.startFetch 1,.watched 0,.gotEvent 1]++retryFirst.map .call++
    [.startFetch 1,.watched 1,.gotEvent 2]++ackSecond.map .call

end Samples

end OneStep.MongoRuns
