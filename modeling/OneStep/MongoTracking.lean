import OneStep.MongoSources

/-!
# The bookkeeping of the tracker

In every run the tracker counts the open deliveries of each generation, keeps an
open delivery in its queue, and lets no token of an invalidated generation
advance the cursor. A fetch is refused until the last delivery of an invalidated
generation is settled.
-/
namespace OneStep.MongoTracking
open GenerationTracker MongoSources

section Bookkeeping
variable {τ : Type} {c : Core τ} {i j : ℕ} {x y : TrackedToken τ} {t : Tracker τ} {c' : Core τ}

/-- The deliveries of a generation whose settlement has not ended. -/
def unsettled (c : Core τ) (g : ℕ) : Finset ℕ :=
  (Finset.range c.tracker.tokens.length).filter fun i =>
    c.tracker.tokens[i]?.map (·.generation) = some g ∧ (c.deliveries i).phase ≠ .terminal

/-- The completion that holds the lock. -/
structure Holding (c : Core τ) (s : Save) : Prop where
  phase : (c.deliveries s.sequence).phase = .saving
  token : c.tracker.tokens[s.sequence]?.map (·.generation) = some s.generation
  uncounted : s.completed = false
  advances : s.advances = true → s.generation = c.tracker.generation
  within : s.taken ≤ c.tracker.pending.length
  taken : ∀ i ∈ c.tracker.pending.take s.taken,
    (c.deliveries i).phase = .terminal ∨ (c.deliveries i).phase = .saving

structure Sound (c : Core τ) : Prop where
  sorted : c.tracker.pending.Pairwise (· < ·)
  bounded : ∀ i ∈ c.tracker.pending, i < c.tracker.tokens.length
  kept : ∀ i < c.tracker.tokens.length, (c.deliveries i).phase ≠ .terminal → i ∈ c.tracker.pending
  completed : ∀ (i : ℕ) (x : TrackedToken τ), c.tracker.tokens[i]? = some x →
    (x.completed = true ↔ (c.deliveries i).phase = .terminal ∨ (c.deliveries i).phase = .saving)
  advances : ∀ (i : ℕ) (x : TrackedToken τ), c.tracker.tokens[i]? = some x →
    i ∈ c.tracker.pending → x.advances = true → x.generation = c.tracker.generation
  generation : ∀ (i : ℕ) (x : TrackedToken τ), c.tracker.tokens[i]? = some x →
    x.generation ≤ c.tracker.generation
  called : ∀ (i : ℕ) (x : TrackedToken τ), c.tracker.tokens[i]? = some x →
    (c.deliveries i).phase = .invalidating ∨ x.generation < c.tracker.generation ∨
      ∀ call ∈ (c.deliveries i).calls, call.advances = true
  counted : ∀ g, (unsettled c g).card ≤ (c.tracker.outstanding g).getD 0
  stale : ∀ (i : ℕ) (x : TrackedToken τ), c.tracker.tokens[i]? = some x →
    x.generation < c.tracker.generation → (c.deliveries i).phase ≠ .terminal →
    x.generation ∈ c.tracker.invalidated
  invalidated : ∀ g ∈ c.tracker.invalidated, g < c.tracker.generation
  held : ∀ i, (c.deliveries i).phase = .saving → ∃ s, c.save = some s ∧ s.sequence = i
  holding : ∀ s, c.save = some s → Holding c s

theorem mem_unsettled {g : ℕ} : i ∈ unsettled c g ↔
    c.tracker.tokens[i]?.map (·.generation) = some g ∧ (c.deliveries i).phase ≠ .terminal := by
  simp only [unsettled,Finset.mem_filter,Finset.mem_range,and_iff_right_iff_imp]
  intro h
  obtain ⟨x,hx,-⟩ := Option.map_eq_some_iff.mp h.1
  exact (List.getElem?_eq_some_iff.mp hx).1

/-- A fetch is refused while a delivery of an invalidated generation is open. -/
theorem Sound.settled_of_canFetch (h : Sound c) (hfetch : c.tracker.canFetch = true)
    (hx : c.tracker.tokens[i]? = some x) (hgen : x.generation < c.tracker.generation) :
    (c.deliveries i).phase = .terminal := by
  by_contra hopen
  have hmem := h.stale i x hx hgen hopen
  have hzero := of_decide_eq_true hfetch x.generation hmem
  have hcard := h.counted x.generation
  rw [hzero] at hcard
  have hin : i ∈ unsettled c x.generation := mem_unsettled.mpr ⟨by rw [hx]; rfl,hopen⟩
  have hpos := Finset.card_pos.mpr ⟨i,hin⟩
  omega

theorem sound_opened (committed : WithBot τ) : Sound ({committed := committed} : Core τ) := by
  constructor <;> simp [unsettled]

theorem Sound.move {d : Delivery} (h : Sound c) (hopen : (c.deliveries i).phase ≠ .terminal)
    (hfree : (c.deliveries i).phase ≠ .saving) (hopen' : d.phase ≠ .terminal)
    (hfree' : d.phase ≠ .saving)
    (hcalled : ∀ x : TrackedToken τ, c.tracker.tokens[i]? = some x → d.phase = .invalidating ∨
      x.generation < c.tracker.generation ∨ ∀ call ∈ d.calls, call.advances = true) :
    Sound {c with deliveries := Function.update c.deliveries i d} := by
  have hterminal : ∀ j, (Function.update c.deliveries i d j).phase = .terminal ↔
      (c.deliveries j).phase = .terminal := by
    intro j
    by_cases hj : j = i
    · subst hj
      simp [hopen,hopen']
    · rw [Function.update_of_ne hj]
  have hsaving : ∀ j, (Function.update c.deliveries i d j).phase = .saving ↔
      (c.deliveries j).phase = .saving := by
    intro j
    by_cases hj : j = i
    · subst hj
      simp [hfree,hfree']
    · rw [Function.update_of_ne hj]
  have hunsettled : ∀ g, unsettled {c with deliveries := Function.update c.deliveries i d} g =
      unsettled c g := by
    intro g
    ext j
    simp only [mem_unsettled,ne_eq,hterminal]
  constructor
  · exact h.sorted
  · exact h.bounded
  · intro j hj hopen
    exact h.kept j hj fun he => hopen ((hterminal j).mpr he)
  · intro j y hy
    simp only [hterminal,hsaving]
    exact h.completed j y hy
  · exact h.advances
  · exact h.generation
  · intro j y hy
    by_cases hj : j = i
    · subst hj
      simp only [Function.update_self]
      exact hcalled y hy
    · simp only [Function.update_of_ne hj]
      exact h.called j y hy
  · intro g
    rw [hunsettled]
    exact h.counted g
  · intro j y hy hgen hopen
    exact h.stale j y hy hgen fun he => hopen ((hterminal j).mpr he)
  · exact h.invalidated
  · intro j hj
    exact h.held j ((hsaving j).mp hj)
  · intro s hs
    have hold := h.holding s hs
    exact {
      phase := (hsaving _).mpr hold.phase
      token := hold.token
      uncounted := hold.uncounted
      advances := hold.advances
      within := hold.within
      taken := fun j hj => by
        simp only [hterminal,hsaving]
        exact hold.taken j hj}

theorem Sound.settle {call : Settlement} (h : Sound c) (hc : c.settle i call = some c') :
    Sound c' := by
  unfold Core.settle at hc
  split at hc
  · next hguard =>
      cases hc
      have hphase := hguard.2
      refine h.move (by simp [hphase]) (by simp [hphase]) ?_ ?_ ?_
      · cases call <;> simp [Delivery.called,Settlement.advances]
      · cases call <;> simp [Delivery.called,Settlement.advances]
      · intro x hx
        have hcalled := h.called i x hx
        rw [hphase] at hcalled
        cases call with
        | retry => exact .inl rfl
        | releaseUnstarted => exact .inl rfl
        | ack => simpa [Delivery.called,Settlement.advances,or_imp,forall_and] using hcalled
        | fail => simpa [Delivery.called,Settlement.advances,or_imp,forall_and] using hcalled
  · cases hc

theorem invalidate_token {g : ℕ} (hx : (t.invalidate g).tokens[i]? = some x) :
    ∃ y, t.tokens[i]? = some y ∧ x.generation = y.generation ∧ x.token = y.token ∧
      x.completed = y.completed ∧ (x.advances = true → y.advances = true ∧
        ¬(g = t.generation ∧ i ∈ t.pending ∧ y.generation = g)) := by
  unfold Tracker.invalidate at hx
  split at hx
  · next hg =>
      rw [List.getElem?_mapIdx] at hx
      obtain ⟨y,hy,rfl⟩ := Option.map_eq_some_iff.mp hx
      refine ⟨y,hy,?_⟩
      split
      · simp
      · next hnot => simp [hnot]
  · next hg => exact ⟨x,hx,rfl,rfl,rfl,fun h => ⟨h,fun he => hg he.1⟩⟩

theorem invalidate_handed (t : Tracker τ) (g i : ℕ) :
    (t.invalidate g).tokens[i]?.map (fun x => (x.generation,x.token)) =
      t.tokens[i]?.map fun x => (x.generation,x.token) := by
  unfold Tracker.invalidate
  split
  · rw [List.getElem?_mapIdx,Option.map_map]
    congr 1
    funext x
    simp only [Function.comp_apply]
    split <;> rfl
  · rfl

theorem invalidate_generation (t : Tracker τ) (g : ℕ) :
    (t.invalidate g).tokens.length = t.tokens.length ∧ (t.invalidate g).pending = t.pending ∧
      (t.invalidate g).outstanding = t.outstanding ∧
      ((g = t.generation ∧ (t.invalidate g).generation = t.generation+1 ∧
          (t.invalidate g).invalidated = insert g t.invalidated) ∨
        (g ≠ t.generation ∧ t.invalidate g = t)) := by
  unfold Tracker.invalidate
  split
  · next hg => simp [hg]
  · next hg => simp [hg]

/-- The tracker's `invalidate` while nothing is being saved. -/
theorem Sound.invalidateTracker (h : Sound c) (hfree : c.save = none) (g : ℕ) :
    Sound {c with tracker := c.tracker.invalidate g} := by
  obtain ⟨hlength,hpending,hcount,⟨hg,hgen,hset⟩ | ⟨-,hsame⟩⟩ :=
    invalidate_generation c.tracker g
  · have hunsettled : ∀ k, unsettled {c with tracker := c.tracker.invalidate g} k =
        unsettled c k := by
      intro k
      ext j
      have hj := congrArg (Option.map Prod.fst) (invalidate_handed c.tracker g j)
      simp only [Option.map_map,Function.comp_def] at hj
      simp only [mem_unsettled,hj]
    constructor
    · simpa only [hpending] using h.sorted
    · simpa only [hpending,hlength] using h.bounded
    · simpa only [hpending,hlength] using h.kept
    · intro j y hy
      obtain ⟨z,hz,-,-,hdone,-⟩ := invalidate_token hy
      rw [hdone]
      exact h.completed j z hz
    · intro j y hy hj hadv
      obtain ⟨z,hz,-,-,-,hback⟩ := invalidate_token hy
      simp only [hpending] at hj
      have hold := hback hadv
      exact absurd ⟨hg,hj,(h.advances j z hz hj hold.1).trans hg.symm⟩ hold.2
    · intro j y hy
      obtain ⟨z,hz,he,-⟩ := invalidate_token hy
      have hle := h.generation j z hz
      simp only [hgen,he]
      omega
    · intro j y hy
      obtain ⟨z,hz,he,-⟩ := invalidate_token hy
      have hle := h.generation j z hz
      simp only [hgen,he]
      omega
    · intro k
      rw [hunsettled]
      simpa only [hcount] using h.counted k
    · intro j y hy _ hopen
      obtain ⟨z,hz,he,-⟩ := invalidate_token hy
      have hle := h.generation j z hz
      simp only [hset,he,Finset.mem_insert]
      by_cases hcur : z.generation = c.tracker.generation
      · exact .inl (hcur.trans hg.symm)
      · exact .inr (h.stale j z hz (by omega) hopen)
    · intro k hk
      simp only [hset,Finset.mem_insert] at hk
      simp only [hgen]
      rcases hk with rfl | hk
      · omega
      · have hlt := h.invalidated k hk
        omega
    · intro j hj
      obtain ⟨s,hs,-⟩ := h.held j hj
      rw [hfree] at hs
      cases hs
    · intro s hs
      rw [hfree] at hs
      cases hs
  · rw [hsame]
    exact h

theorem Sound.invalidate (h : Sound c) (hc : c.invalidate i = some c') : Sound c' := by
  unfold Core.invalidate at hc
  split at hc
  · next x hx hphase hfree =>
      cases hc
      have hsound := h.invalidateTracker hfree x.generation
      refine hsound.move (by simp [hphase]) (by simp [hphase]) (by simp) (by simp) ?_
      intro y hy
      obtain ⟨z,hz,he,-⟩ := invalidate_token hy
      cases hx.symm.trans hz
      have hle := h.generation i x hx
      obtain ⟨-,-,-,⟨-,hgen,-⟩ | ⟨hg,hsame⟩⟩ := invalidate_generation c.tracker x.generation
      · simp only [hgen,he]
        omega
      · simp only [hsame,he]
        omega
  · cases hc

theorem setFlags_token {completed advances : Bool}
    (hx : (t.setFlags j completed advances).tokens[i]? = some x) :
    ∃ y, t.tokens[i]? = some y ∧ x.generation = y.generation ∧ x.token = y.token ∧
      (if j = i then x.completed = completed ∧ x.advances = advances else x = y) := by
  simp only [Tracker.setFlags,List.getElem?_modify] at hx
  obtain ⟨y,hy,rfl⟩ := Option.map_eq_some_iff.mp hx
  refine ⟨y,hy,?_⟩
  by_cases h : j = i <;> simp [h]

theorem setFlags_handed (t : Tracker τ) (completed advances : Bool) (i j : ℕ) :
    (t.setFlags j completed advances).tokens[i]?.map (fun x => (x.generation,x.token)) =
      t.tokens[i]?.map fun x => (x.generation,x.token) := by
  simp only [Tracker.setFlags,List.getElem?_modify,Option.map_eq_map,Option.map_map]
  congr 1
  funext x
  simp only [Function.comp_apply]
  split <;> rfl

theorem setFlags_generation (t : Tracker τ) (completed advances : Bool) (i j : ℕ) :
    (t.setFlags j completed advances).tokens[i]?.map (·.generation) =
      t.tokens[i]?.map (·.generation) := by
  have h := congrArg (Option.map Prod.fst) (setFlags_handed t completed advances i j)
  simpa only [Option.map_map,Function.comp_def] using h

theorem completedPrefix_eq_take (t : Tracker τ) :
    t.completedPrefix = t.pending.take t.completedPrefix.length :=
  List.prefix_iff_eq_take.mp (List.takeWhile_prefix _)

theorem mem_completedPrefix (h : i ∈ t.completedPrefix) :
    i ∈ t.pending ∧ ∃ x, t.tokens[i]? = some x ∧ x.completed = true := by
  have hdone : t.tokens[i]?.any (·.completed) = true :=
    List.mem_takeWhile_imp (p := fun i => t.tokens[i]?.any TrackedToken.completed) h
  exact ⟨(List.takeWhile_prefix _).subset h,(Option.any_eq_true _ _).mp hdone⟩

theorem Sound.begin {advance : Bool} (h : Sound c) (item : ℕ) (hx : c.tracker.tokens[i]? = some x)
    (hphase : (c.deliveries i).phase = .completing advance) (hfree : c.save = none)
    (ht : t = c.tracker.setFlags i true (advance && decide (x.generation ∉ c.tracker.invalidated))) :
    Sound (Core.setPhase {c with
      tracker := t
      save := some ⟨i,x.generation,x.completed,x.advances,t.completedPrefix.length,item⟩} i
      .saving) := by
  have hlt := (List.getElem?_eq_some_iff.mp hx).1
  have hpending : i ∈ c.tracker.pending := h.kept i hlt (by simp [hphase])
  have hundone : x.completed = false := by
    rw [Bool.eq_false_iff]
    intro hdone
    have hdone := (h.completed i x hx).mp hdone
    simp [hphase] at hdone
  have hnone : ∀ j, (c.deliveries j).phase ≠ .saving := by
    intro j hj
    obtain ⟨s,hs,-⟩ := h.held j hj
    rw [hfree] at hs
    cases hs
  have hlength : t.tokens.length = c.tracker.tokens.length := by simp [ht,Tracker.setFlags]
  have hsame : t.generation = c.tracker.generation ∧ t.pending = c.tracker.pending ∧
      t.outstanding = c.tracker.outstanding ∧ t.invalidated = c.tracker.invalidated := by
    simp [ht,Tracker.setFlags]
  obtain ⟨hgen,hpend,hcount,hset⟩ := hsame
  have hback : ∀ j y, t.tokens[j]? = some y → ∃ z, c.tracker.tokens[j]? = some z ∧
      y.generation = z.generation ∧ (j = i → y.completed = true ∧ (y.advances = true →
        x.generation ∉ c.tracker.invalidated)) ∧ (j ≠ i → y = z) := by
    intro j y hy
    rw [ht] at hy
    obtain ⟨z,hz,he,-,hif⟩ := setFlags_token hy
    refine ⟨z,hz,he,fun hj => ?_,fun hj => ?_⟩
    · rw [if_pos hj.symm] at hif
      refine ⟨hif.1,fun hadv => ?_⟩
      rw [hif.2] at hadv
      simpa using (Bool.and_eq_true_iff.mp hadv).2
    · rwa [if_neg (Ne.symm hj)] at hif
  have hunsettled : ∀ g, unsettled (Core.setPhase {c with
      tracker := t
      save := some ⟨i,x.generation,x.completed,x.advances,t.completedPrefix.length,item⟩} i
      .saving) g = unsettled c g := by
    intro g
    ext j
    simp only [mem_unsettled,Core.setPhase]
    rw [ht,setFlags_generation]
    by_cases hj : j = i
    · subst hj
      simp [hphase]
    · rw [Function.update_of_ne hj]
  constructor
  · simpa only [Core.setPhase,hpend] using h.sorted
  · simpa only [Core.setPhase,hpend,hlength] using h.bounded
  · intro j hj hopen
    simp only [Core.setPhase,hpend,hlength] at hj hopen ⊢
    by_cases hji : j = i
    · rwa [hji]
    · rw [Function.update_of_ne hji] at hopen
      exact h.kept j hj hopen
  · intro j y hy
    obtain ⟨z,hz,-,hown,hother⟩ := hback j y hy
    simp only [Core.setPhase]
    by_cases hj : j = i
    · simp [hj,(hown hj).1]
    · rw [hother hj,Function.update_of_ne hj]
      exact h.completed j z hz
  · intro j y hy hj hadv
    obtain ⟨z,hz,he,hown,hother⟩ := hback j y hy
    simp only [Core.setPhase,hgen,hpend] at hj ⊢
    by_cases hji : j = i
    · subst hji
      cases hx.symm.trans hz
      have hle := h.generation j x hx
      have hnot := (hown rfl).2 hadv
      by_contra hne
      exact hnot (h.stale j x hx (by omega) (by simp [hphase]))
    · rw [hother hji] at hadv ⊢
      exact h.advances j z hz hj hadv
  · intro j y hy
    obtain ⟨z,hz,he,-⟩ := hback j y hy
    simp only [Core.setPhase,hgen,he]
    exact h.generation j z hz
  · intro j y hy
    obtain ⟨z,hz,he,-⟩ := hback j y hy
    simp only [Core.setPhase,hgen,he]
    by_cases hji : j = i
    · subst hji
      have hcalled := h.called j z hz
      simpa [hphase] using hcalled
    · rw [Function.update_of_ne hji]
      exact h.called j z hz
  · intro g
    rw [hunsettled]
    simpa only [Core.setPhase,hcount] using h.counted g
  · intro j y hy hlt hopen
    obtain ⟨z,hz,he,-⟩ := hback j y hy
    simp only [Core.setPhase,hgen,he,hset] at hlt hopen ⊢
    refine h.stale j z hz hlt ?_
    by_cases hji : j = i
    · simp [hji,hphase]
    · rwa [Function.update_of_ne hji] at hopen
  · simpa only [Core.setPhase,hset,hgen] using h.invalidated
  · intro j hj
    simp only [Core.setPhase] at hj ⊢
    by_cases hji : j = i
    · exact ⟨_,rfl,hji.symm⟩
    · rw [Function.update_of_ne hji] at hj
      exact absurd hj (hnone j)
  · intro s hs
    cases hs
    constructor
    · simp [Core.setPhase]
    · simp only [Core.setPhase,ht,setFlags_generation,hx,Option.map_some]
    · exact hundone
    · intro hadv
      simp only [Core.setPhase,hgen]
      exact h.advances i x hx hpending hadv
    · exact (List.takeWhile_prefix _).length_le
    · intro j hj
      simp only [Core.setPhase,← completedPrefix_eq_take] at hj ⊢
      obtain ⟨-,y,hy,hdone⟩ := mem_completedPrefix hj
      obtain ⟨z,hz,-,-,hother⟩ := hback j y hy
      by_cases hji : j = i
      · simp [hji]
      · rw [Function.update_of_ne hji]
        rw [hother hji] at hdone
        exact (h.completed j z hz).mp hdone

/-- The open deliveries of a generation are still counted when one is settled. -/
theorem counted_finish {s : Save} (h : Sound c) (hs : c.save = some s) (g : ℕ)
    {rest : Finset ℕ} (hrest : rest = if g = s.generation then (unsettled c g).erase s.sequence
      else unsettled c g) :
    rest.card ≤ (c.tracker.uncount s.generation s.completed g).getD 0 := by
  have hold := h.holding s hs
  have hcount := h.counted g
  rw [Tracker.uncount,hold.uncounted,if_neg (by simp)]
  by_cases hg : g = s.generation
  · subst hg
    have hin : s.sequence ∈ unsettled c s.generation :=
      mem_unsettled.mpr ⟨hold.token,by simp [hold.phase]⟩
    have hpos := Finset.card_pos.mpr ⟨_,hin⟩
    rw [hrest,if_pos rfl,Finset.card_erase_of_mem hin,Function.update_self]
    cases hout : c.tracker.outstanding s.generation with
    | none =>
      rw [hout] at hcount
      simp at hcount
      simp [hcount] at hin
    | some k =>
      rw [hout] at hcount
      simp only [Option.getD_some] at hcount ⊢
      omega
  · rw [hrest,if_neg hg,Function.update_of_ne hg]
    exact hcount

theorem Sound.only {s : Save} {j : ℕ} (h : Sound c) (hs : c.save = some s)
    (hj : (c.deliveries j).phase = .saving) : j = s.sequence := by
  obtain ⟨s',hs',rfl⟩ := h.held j hj
  rw [hs] at hs'
  cases hs'
  rfl

theorem Sound.finish {s : Save} (h : Sound c) (hs : c.save = some s) (committed : WithBot τ) :
    Sound (Core.setPhase {c with
      tracker := c.tracker.finish s.generation s.completed s.taken
      committed := committed
      save := none} s.sequence .terminal) := by
  have hold := h.holding s hs
  set c' := Core.setPhase {c with
      tracker := c.tracker.finish s.generation s.completed s.taken
      committed := committed
      save := none} s.sequence .terminal with hc'
  have hphase : ∀ j, (c'.deliveries j).phase ≠ .terminal →
      j ≠ s.sequence ∧ (c.deliveries j).phase ≠ .terminal ∧ c'.deliveries j = c.deliveries j := by
    intro j hj
    by_cases hji : j = s.sequence
    · simp [hc',Core.setPhase,hji] at hj
    · have he : c'.deliveries j = c.deliveries j := by
        simp only [hc',Core.setPhase,Function.update_of_ne hji]
      exact ⟨hji,he ▸ hj,he⟩
  have hunsettled : ∀ g, unsettled c' g =
      if g = s.generation then (unsettled c g).erase s.sequence else unsettled c g := by
    intro g
    ext j
    by_cases hji : j = s.sequence
    · subst hji
      have hterm : (c'.deliveries s.sequence).phase = .terminal := by simp [hc',Core.setPhase]
      by_cases hg : g = s.generation
      · simp [mem_unsettled,hterm,hg]
      · rw [if_neg hg]
        simp only [mem_unsettled,hterm,hold.token,Option.some.injEq]
        simp [Ne.symm hg]
    · have he : c'.deliveries j = c.deliveries j := by
        simp only [hc',Core.setPhase,Function.update_of_ne hji]
      split <;> simp only [Finset.mem_erase,mem_unsettled,he,ne_eq,hji,not_false_iff,true_and] <;>
        rfl
  have hcounted : ∀ g, (unsettled c' g).card ≤ (c'.tracker.outstanding g).getD 0 := by
    intro g
    have hle := counted_finish h hs g (hunsettled g)
    change _ ≤ (if c.tracker.uncount s.generation s.completed g = some 0 then none
      else c.tracker.uncount s.generation s.completed g).getD 0
    split
    · next hzero =>
        rw [hzero] at hle
        exact hle
    · exact hle
  have hkeep : ∀ j y, c.tracker.tokens[j]? = some y → (c'.deliveries j).phase ≠ .terminal →
      y.generation ∈ c.tracker.invalidated → y.generation ∈ c'.tracker.invalidated := by
    intro j y hy hopen hin
    have hmem : j ∈ unsettled c' y.generation := by
      refine mem_unsettled.mpr ⟨?_,hopen⟩
      change c.tracker.tokens[j]?.map (·.generation) = _
      rw [hy]
      rfl
    have hle := counted_finish h hs y.generation (hunsettled y.generation)
    have hpos := Finset.card_pos.mpr ⟨j,hmem⟩
    refine Finset.mem_filter.mpr ⟨hin,fun hzero => ?_⟩
    change c.tracker.uncount s.generation s.completed y.generation = some 0 at hzero
    rw [hzero] at hle
    simp only [Option.getD_some] at hle
    omega
  constructor
  · exact (h.sorted.sublist (List.drop_sublist _ _))
  · intro j hj
    exact h.bounded j (List.mem_of_mem_drop hj)
  · intro j hj hopen
    obtain ⟨hji,hopen,-⟩ := hphase j hopen
    have hmem := h.kept j hj hopen
    rw [← List.take_append_drop s.taken c.tracker.pending,List.mem_append] at hmem
    rcases hmem with htake | hdrop
    · rcases hold.taken j htake with hterm | hsave
      · exact absurd hterm hopen
      · exact absurd (h.only hs hsave) hji
    · exact hdrop
  · intro j y hy
    by_cases hji : j = s.sequence
    · subst hji
      have hdone := (h.completed s.sequence y hy).mpr (.inr hold.phase)
      simp [hc',Core.setPhase,hdone]
    · have he : c'.deliveries j = c.deliveries j := by
        simp only [hc',Core.setPhase,Function.update_of_ne hji]
      rw [he]
      exact h.completed j y hy
  · intro j y hy hj
    exact h.advances j y hy (List.mem_of_mem_drop hj)
  · exact h.generation
  · intro j y hy
    have hcalled := h.called j y hy
    by_cases hji : j = s.sequence
    · subst hji
      have hcalled := hcalled.resolve_left (by simp [hold.phase])
      refine .inr ?_
      simp only [hc',Core.setPhase,Function.update_self]
      exact hcalled
    · have he : c'.deliveries j = c.deliveries j := by
        simp only [hc',Core.setPhase,Function.update_of_ne hji]
      rw [he]
      exact hcalled
  · exact hcounted
  · intro j y hy hlt hopen
    exact hkeep j y hy hopen (h.stale j y hy hlt (hphase j hopen).2.1)
  · intro g hg
    exact h.invalidated g (Finset.mem_filter.mp hg).1
  · intro j hj
    obtain ⟨hji,-,he⟩ := hphase j (by simp [hj])
    rw [he] at hj
    exact absurd (h.only hs hj) hji
  · intro s' hs'
    cases hs'

/-- The store raises, and the completion is taken back. -/
theorem Sound.restore {s : Save} (h : Sound c) (hs : c.save = some s) :
    Sound (Core.setPhase {c with
      tracker := c.tracker.setFlags s.sequence s.completed s.advances
      save := none} s.sequence .out) := by
  have hold := h.holding s hs
  set c' := Core.setPhase {c with
      tracker := c.tracker.setFlags s.sequence s.completed s.advances
      save := none} s.sequence .out with hc'
  have hown : c'.deliveries s.sequence = {(c.deliveries s.sequence) with phase := .out} := by
    simp [hc',Core.setPhase]
  have hother : ∀ j, j ≠ s.sequence → c'.deliveries j = c.deliveries j := by
    intro j hj
    simp only [hc',Core.setPhase,Function.update_of_ne hj]
  have hterminal : ∀ j, (c'.deliveries j).phase = .terminal ↔
      (c.deliveries j).phase = .terminal := by
    intro j
    by_cases hj : j = s.sequence
    · simp [hj,hown,hold.phase]
    · rw [hother j hj]
  have hlength : c'.tracker.tokens.length = c.tracker.tokens.length := by
    simp [hc',Core.setPhase,Tracker.setFlags]
  have hunsettled : ∀ g, unsettled c' g = unsettled c g := by
    intro g
    ext j
    simp only [mem_unsettled,ne_eq,hterminal]
    rw [show c'.tracker.tokens[j]?.map (·.generation) = c.tracker.tokens[j]?.map (·.generation)
      from setFlags_generation _ _ _ _ _]
  constructor
  · exact h.sorted
  · intro j hj
    rw [hlength]
    exact h.bounded j hj
  · intro j hj hopen
    rw [hlength] at hj
    exact h.kept j hj fun he => hopen ((hterminal j).mpr he)
  · intro j y hy
    obtain ⟨z,hz,-,-,hif⟩ := setFlags_token hy
    by_cases hj : j = s.sequence
    · rw [if_pos hj.symm] at hif
      simp [hif.1,hold.uncounted,hj,hown]
    · rw [if_neg (Ne.symm hj)] at hif
      rw [hother j hj,hif]
      exact h.completed j z hz
  · intro j y hy hj hadv
    obtain ⟨z,hz,he,-,hif⟩ := setFlags_token hy
    by_cases hjs : j = s.sequence
    · rw [if_pos hjs.symm] at hif
      have htoken := hold.token
      rw [← hjs,hz,Option.map_some,Option.some.injEq] at htoken
      rw [he,htoken]
      exact hold.advances (hif.2 ▸ hadv)
    · rw [if_neg (Ne.symm hjs)] at hif
      subst hif
      exact h.advances j y hz hj hadv
  · intro j y hy
    obtain ⟨z,hz,he,-⟩ := setFlags_token hy
    rw [he]
    exact h.generation j z hz
  · intro j y hy
    obtain ⟨z,hz,he,-⟩ := setFlags_token hy
    have hcalled := h.called j z hz
    rw [he]
    by_cases hj : j = s.sequence
    · subst hj
      refine .inr ?_
      rw [hown]
      exact hcalled.resolve_left (by simp [hold.phase])
    · rw [hother j hj]
      exact hcalled
  · intro g
    rw [hunsettled]
    exact h.counted g
  · intro j y hy hlt hopen
    obtain ⟨z,hz,he,-⟩ := setFlags_token hy
    rw [he] at hlt ⊢
    exact h.stale j z hz hlt fun ht => hopen ((hterminal j).mpr ht)
  · exact h.invalidated
  · intro j hj
    by_cases hjs : j = s.sequence
    · simp [hjs,hown] at hj
    · rw [hother j hjs] at hj
      exact absurd (h.only hs hj) hjs
  · intro s' hs'
    cases hs'

theorem Sound.complete (h : Sound c) (hc : c.complete i = some c') : Sound c' := by
  unfold Core.complete at hc
  split at hc
  · next x advance hx hphase hfree =>
      dsimp only at hc
      split at hc
      · cases hc
        have hbegin := h.begin 0 hx hphase hfree rfl
        have hfinish := hbegin.finish rfl c.committed
        simpa [Core.setPhase,hfree] using hfinish
      · cases hc
        exact h.begin _ hx hphase hfree rfl
  · cases hc

theorem Sound.saveReturns {ok : Bool} (h : Sound c) (hc : c.saveReturns ok = some c') :
    Sound c' := by
  unfold Core.saveReturns at hc
  split at hc
  · cases hc
  · next s hs =>
      cases ok with
      | true =>
        cases hc
        exact h.finish hs _
      | false =>
        cases hc
        exact h.restore hs

theorem getElem?_snoc {α : Type} {l : List α} {a b : α} (h : (l++[a])[j]? = some b) :
    l[j]? = some b ∨ (j = l.length ∧ b = a) := by
  rw [List.getElem?_append] at h
  split at h
  · exact .inl h
  · next hlt =>
      refine .inr ?_
      obtain ⟨hj,he⟩ := List.getElem?_eq_some_iff.mp h
      simp only [List.length_cons,List.length_nil] at hj
      refine ⟨by omega,?_⟩
      rw [← he]
      simp

theorem Sound.deliver (h : Sound c) (readGeneration : ℕ) (token : τ) :
    Sound (c.deliver readGeneration token) := by
  set n := c.tracker.tokens.length with hn
  set c' := c.deliver readGeneration token with hc'
  have hlength : c'.tracker.tokens.length = n+1 := by
    simp [hc',Core.deliver,Tracker.add,hn]
  have hnew : c'.deliveries n = {readGeneration := readGeneration} := by
    simp [hc',Core.deliver,hn]
  have hold : ∀ j < n, c'.deliveries j = c.deliveries j := by
    intro j hj
    simp only [hc',Core.deliver]
    rw [Function.update_of_ne (by omega)]
  have hback : ∀ j y, c'.tracker.tokens[j]? = some y →
      (j < n ∧ c.tracker.tokens[j]? = some y ∧ c'.deliveries j = c.deliveries j) ∨
        (j = n ∧ y = ⟨c.tracker.generation,token,false,false⟩) := by
    intro j y hy
    rcases getElem?_snoc hy with hy | hy
    · have hj := (List.getElem?_eq_some_iff.mp hy).1
      exact .inl ⟨hj,hy,hold j hj⟩
    · exact .inr hy
  have hunsettled : ∀ g, unsettled c' g ⊆
      if g = c.tracker.generation then insert n (unsettled c g) else unsettled c g := by
    intro g j hj
    obtain ⟨hgen,hopen⟩ := mem_unsettled.mp hj
    obtain ⟨y,hy,rfl⟩ := Option.map_eq_some_iff.mp hgen
    rcases hback j y hy with ⟨-,hy,he⟩ | ⟨rfl,rfl⟩
    · have hin : j ∈ unsettled c y.generation :=
        mem_unsettled.mpr ⟨by rw [hy]; rfl,he ▸ hopen⟩
      split
      · exact Finset.mem_insert_of_mem hin
      · exact hin
    · simp
  constructor
  · refine List.pairwise_append.mpr ⟨h.sorted,by simp,?_⟩
    intro j hj k hk
    rw [List.mem_singleton.mp hk]
    exact h.bounded j hj
  · intro j hj
    rw [hlength]
    rcases List.mem_append.mp hj with hj | hj
    · have hlt := h.bounded j hj
      omega
    · rw [List.mem_singleton.mp hj]
      omega
  · intro j hj hopen
    rw [hlength] at hj
    by_cases hjn : j = n
    · exact List.mem_append.mpr (.inr (List.mem_singleton.mpr hjn))
    · have hlt : j < n := by omega
      rw [hold j hlt] at hopen
      exact List.mem_append.mpr (.inl (h.kept j hlt hopen))
  · intro j y hy
    rcases hback j y hy with ⟨-,hy,he⟩ | ⟨rfl,rfl⟩
    · rw [he]
      exact h.completed j y hy
    · simp [hnew]
  · intro j y hy hj hadv
    rcases hback j y hy with ⟨hlt,hy,-⟩ | ⟨rfl,rfl⟩
    · rcases List.mem_append.mp hj with hj | hj
      · exact h.advances j y hy hj hadv
      · have he := List.mem_singleton.mp hj
        omega
    · rfl
  · intro j y hy
    rcases hback j y hy with ⟨-,hy,-⟩ | ⟨rfl,rfl⟩
    · exact h.generation j y hy
    · exact le_rfl
  · intro j y hy
    rcases hback j y hy with ⟨-,hy,he⟩ | ⟨rfl,rfl⟩
    · rw [he]
      exact h.called j y hy
    · simp [hnew]
  · intro g
    have hcount := h.counted g
    have hle := Finset.card_le_card (hunsettled g)
    simp only [hc',Core.deliver,Tracker.add]
    by_cases hg : g = c.tracker.generation
    · rw [if_pos hg] at hle
      have hinsert := Finset.card_insert_le n (unsettled c g)
      rw [hg,Function.update_self,Option.getD_some]
      rw [hg] at hle hcount hinsert
      exact le_trans hle (by omega)
    · rw [if_neg hg] at hle
      rw [Function.update_of_ne hg]
      exact le_trans hle hcount
  · intro j y hy hlt hopen
    rcases hback j y hy with ⟨-,hy,he⟩ | ⟨rfl,rfl⟩
    · rw [he] at hopen
      exact h.stale j y hy hlt hopen
    · exact absurd hlt (lt_irrefl _)
  · exact h.invalidated
  · intro j hj
    by_cases hjn : j = n
    · simp [hjn,hnew] at hj
    · refine h.held j ?_
      simp only [hc',Core.deliver] at hj
      rwa [Function.update_of_ne hjn] at hj
  · intro s hs
    have hh := h.holding s hs
    obtain ⟨x,hx,hg⟩ := Option.map_eq_some_iff.mp hh.token
    have hlt := (List.getElem?_eq_some_iff.mp hx).1
    constructor
    · rw [hold _ hlt]
      exact hh.phase
    · simp only [hc',Core.deliver,Tracker.add]
      rw [List.getElem?_append_left hlt]
      exact hh.token
    · exact hh.uncounted
    · exact hh.advances
    · simp only [hc',Core.deliver,Tracker.add,List.length_append]
      have hw := hh.within
      omega
    · intro j hj
      simp only [hc',Core.deliver,Tracker.add] at hj
      rw [List.take_append_of_le_length hh.within] at hj
      rw [hold j (h.bounded j (List.mem_of_mem_take hj))]
      exact hh.taken j hj

end Bookkeeping

section Calls
variable {τ : Type} {c c' : Core τ} {op : Call} {i : ℕ} {x : τ}

theorem handed_iff {g : ℕ} : c.handed i = some (g,x) ↔
    ∃ t, c.tracker.tokens[i]? = some t ∧ t.generation = g ∧ t.token = x := by
  simp [Core.handed]

theorem mem_take_of_le {l : List ℕ} {k a b : ℕ} (h : l.Pairwise (· < ·)) (ha : a ∈ l.take k)
    (hb : b ∈ l) (hle : b ≤ a) : b ∈ l.take k := by
  rw [← List.take_append_drop k l] at h hb
  rcases List.mem_append.mp hb with hb | hb
  · exact hb
  · have hlt := (List.pairwise_append.mp h).2.2 a ha b hb
    omega

/-- The saved token is of the current generation, within the completed prefix. -/
def Targets (c : Core τ) : Prop :=
  ∀ s, c.save = some s → s.item ∈ c.tracker.pending.take s.taken ∧
    ∃ x, c.handed s.item = some (c.tracker.generation,x)

/-- A step that hands out nothing, and changes no settled delivery. -/
structure Steady (c c' : Core τ) : Prop where
  handed : ∀ j, c'.handed j = c.handed j
  generation : c'.tracker.generation = c.tracker.generation
  terminal : ∀ j, (c.deliveries j).phase = .terminal → c'.deliveries j = c.deliveries j
  read : ∀ j, (c'.deliveries j).readGeneration = (c.deliveries j).readGeneration

theorem mem_tokens : (∃ t ∈ c.tracker.tokens, t.token = x) ↔
    ∃ j g, c.handed j = some (g,x) := by
  constructor
  · rintro ⟨t,ht,rfl⟩
    obtain ⟨j,hj⟩ := List.mem_iff_getElem?.mp ht
    exact ⟨j,t.generation,handed_iff.mpr ⟨t,hj,rfl,rfl⟩⟩
  · rintro ⟨j,g,hj⟩
    obtain ⟨t,ht,-,hx⟩ := handed_iff.mp hj
    exact ⟨t,List.mem_of_getElem? ht,hx⟩

theorem isLast_iff : c.IsLast i ↔
    ∀ g x, c.handed i = some (g,x) → ∀ j k, c.handed j = some (k,x) → k ≤ g := by
  constructor
  · intro h g x hi j k hj
    obtain ⟨t,ht,rfl,rfl⟩ := handed_iff.mp hi
    obtain ⟨u,hu,rfl,hux⟩ := handed_iff.mp hj
    exact h t ht u (List.mem_of_getElem? hu) hux
  · intro h t ht u hu hux
    obtain ⟨j,hj⟩ := List.mem_iff_getElem?.mp hu
    exact h t.generation t.token (handed_iff.mpr ⟨t,ht,rfl,rfl⟩) j u.generation
      (handed_iff.mpr ⟨u,hj,rfl,hux⟩)

theorem Steady.isLast (h : Steady c c') : c'.IsLast i ↔ c.IsLast i := by
  simp only [isLast_iff,h.handed]

theorem Steady.acked (h : Steady c c') (ha : c.Acked i) : c'.Acked i := by
  unfold Core.Acked
  rw [h.terminal i ha.1]
  exact ha

theorem Steady.setPhase {phase : Phase} {t : Tracker τ} {committed : WithBot τ}
    {save : Option Save} (hhanded : ∀ j, t.tokens[j]?.map (fun x => (x.generation,x.token)) =
      c.handed j) (hgen : t.generation = c.tracker.generation)
    (hopen : (c.deliveries i).phase ≠ .terminal) :
    Steady c (Core.setPhase {c with tracker := t,committed := committed,save := save} i phase) := by
  constructor
  · exact hhanded
  · exact hgen
  · intro j hj
    have hji : j ≠ i := by
      rintro rfl
      exact hopen hj
    simp only [Core.setPhase,Function.update_of_ne hji]
  · intro j
    by_cases hji : j = i
    · simp [Core.setPhase,hji]
    · simp only [Core.setPhase,Function.update_of_ne hji]

theorem call_sound (h : Sound c) (hc : op.perform c = some c') : Sound c' := by
  cases op with
  | settle i call => exact h.settle hc
  | invalidate i => exact h.invalidate hc
  | complete i => exact h.complete hc
  | saveReturns ok => exact h.saveReturns hc

theorem call_steady (h : Sound c) (hop : op.invalidates = false)
    (hc : op.perform c = some c') : Steady c c' := by
  cases op with
  | settle i call =>
    simp only [Call.perform,Core.settle] at hc
    split at hc
    · next hguard =>
        cases hc
        constructor
        · exact fun _ => rfl
        · rfl
        · intro j hj
          have hji : j ≠ i := by
            rintro rfl
            rw [hguard.2] at hj
            cases hj
          simp only [Function.update_of_ne hji]
        · intro j
          by_cases hji : j = i
          · simp [hji,Delivery.called]
          · simp only [Function.update_of_ne hji]
    · cases hc
  | invalidate i => cases hop
  | complete i =>
    simp only [Call.perform,Core.complete] at hc
    split at hc
    · next x advance hx hphase hfree =>
        split at hc
        · cases hc
          exact Steady.setPhase (fun j => setFlags_handed _ _ _ _ _) rfl (by simp [hphase])
        · cases hc
          exact Steady.setPhase (fun j => setFlags_handed _ _ _ _ _) rfl (by simp [hphase])
    · cases hc
  | saveReturns ok =>
    simp only [Call.perform,Core.saveReturns] at hc
    split at hc
    · cases hc
    · next s hs =>
        have hopen : (c.deliveries s.sequence).phase ≠ .terminal := by
          simp [(h.holding s hs).phase]
        cases ok with
        | true =>
          cases hc
          exact Steady.setPhase (fun j => rfl) rfl hopen
        | false =>
          cases hc
          exact Steady.setPhase (fun j => setFlags_handed _ _ _ _ _) rfl hopen

theorem call_committed (hop : op ≠ .saveReturns true) (hc : op.perform c = some c') :
    c'.committed = c.committed := by
  cases op with
  | settle i call =>
    simp only [Call.perform,Core.settle] at hc
    split at hc <;> cases hc
    rfl
  | invalidate i =>
    simp only [Call.perform,Core.invalidate] at hc
    split at hc <;> cases hc
    rfl
  | complete i =>
    simp only [Call.perform,Core.complete] at hc
    split at hc
    · split at hc <;> cases hc <;> rfl
    · cases hc
  | saveReturns ok =>
    simp only [Call.perform,Core.saveReturns] at hc
    split at hc
    · cases hc
    · cases ok with
      | true => exact absurd rfl hop
      | false =>
        cases hc
        rfl

theorem call_targets (h : Sound c) (ht : Targets c) (hc : op.perform c = some c') :
    Targets c' := by
  cases op with
  | settle i call =>
    simp only [Call.perform,Core.settle] at hc
    split at hc
    · cases hc
      exact ht
    · cases hc
  | invalidate i =>
    simp only [Call.perform,Core.invalidate] at hc
    split at hc
    · next x hx hphase hfree =>
        cases hc
        intro s hs
        change c.save = some s at hs
        rw [hfree] at hs
        cases hs
    · cases hc
  | complete i =>
    have hsound := h.complete hc
    simp only [Call.perform,Core.complete] at hc
    split at hc
    · next x advance hx hphase hfree =>
        split at hc
        · cases hc
          intro s hs
          change c.save = some s at hs
          rw [hfree] at hs
          cases hs
        · next item hitem =>
            cases hc
            intro s hs
            cases hs
            have hmem := List.mem_filter.mp (List.mem_of_getLast? hitem)
            obtain ⟨hpending,-⟩ := mem_completedPrefix hmem.1
            obtain ⟨y,hy,hadv⟩ := (Option.any_eq_true _ _).mp hmem.2
            refine ⟨?_,y.token,handed_iff.mpr ⟨y,hy,?_,rfl⟩⟩
            · simp only [Core.setPhase,← completedPrefix_eq_take]
              exact hmem.1
            · exact hsound.advances item y hy hpending hadv
    · cases hc
  | saveReturns ok =>
    simp only [Call.perform,Core.saveReturns] at hc
    split at hc
    · cases hc
    · cases ok with
      | true =>
        cases hc
        intro s hs
        cases hs
      | false =>
        cases hc
        intro s hs
        cases hs

theorem deliver_handed {readGeneration : ℕ} {token : τ} {g : ℕ} :
    (c.deliver readGeneration token).handed i = some (g,x) ↔
      c.handed i = some (g,x) ∨
        (i = c.tracker.tokens.length ∧ g = c.tracker.generation ∧ x = token) := by
  simp only [handed_iff]
  constructor
  · rintro ⟨t,ht,rfl,rfl⟩
    rcases getElem?_snoc ht with ht | ⟨hi,rfl⟩
    · exact .inl ⟨t,ht,rfl,rfl⟩
    · exact .inr ⟨hi,rfl,rfl⟩
  · rintro (⟨t,ht,rfl,rfl⟩ | ⟨rfl,rfl,rfl⟩)
    · refine ⟨t,?_,rfl,rfl⟩
      simp only [Core.deliver,Tracker.add]
      rw [List.getElem?_append_left (List.getElem?_eq_some_iff.mp ht).1]
      exact ht
    · exact ⟨⟨c.tracker.generation,x,false,false⟩,by simp [Core.deliver,Tracker.add],rfl,rfl⟩

theorem deliver_deliveries {readGeneration : ℕ} {token : τ} {g : ℕ} (h : c.handed i = some (g,x)) :
    (c.deliver readGeneration token).deliveries i = c.deliveries i := by
  obtain ⟨t,ht,-⟩ := handed_iff.mp h
  have hlt := (List.getElem?_eq_some_iff.mp ht).1
  simp only [Core.deliver]
  rw [Function.update_of_ne (by omega)]

theorem Sound.deliverAll (h : Sound c) (readGeneration : ℕ) (batch : List τ) :
    Sound (c.deliverAll readGeneration batch) := by
  induction batch generalizing c with
  | nil => exact h
  | cons x batch ih => exact ih (h.deliver readGeneration x)

theorem Targets.deliver (h : Sound c) (ht : Targets c) (readGeneration : ℕ) (token : τ) :
    Targets (c.deliver readGeneration token) := by
  intro s hs
  obtain ⟨hin,x,hx⟩ := ht s hs
  refine ⟨?_,x,deliver_handed.mpr (.inl hx)⟩
  simp only [Core.deliver,Tracker.add]
  rw [List.take_append_of_le_length (h.holding s hs).within]
  exact hin

theorem Targets.deliverAll (h : Sound c) (ht : Targets c) (readGeneration : ℕ) (batch : List τ) :
    Targets (c.deliverAll readGeneration batch) := by
  induction batch generalizing c with
  | nil => exact ht
  | cons x batch ih => exact ih (h.deliver readGeneration x) (ht.deliver h readGeneration x)

end Calls

end OneStep.MongoTracking
