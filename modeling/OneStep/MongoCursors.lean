import OneStep.MongoTracking

/-!
# Saved cursors and unsettled work

After an invalidation both sources read again from the saved cursor. A save then
passes no unsettled work, as long as no batch is handed out under a later
generation than the one it was read in, and no stream starts where the server
stands while work it will not see again was retried or released.
-/
namespace OneStep.MongoCursors
open GenerationTracker MongoSources MongoTracking

section Replay
variable {τ : Type} [LinearOrder τ] {c c' : Core τ} {position : Option (WithBot τ)} {op : Call}
  {i : ℕ}

/-- A reader that stands at `position`, or has no stream: of the work handed out
before, what it will not read again is acked or failed. -/
structure Ahead (c : Core τ) (position : Option (WithBot τ)) : Prop where
  committed : ∀ j h y, c.handed j = some (h,y) → (y : WithBot τ) ≤ c.committed → c.IsLast j →
    c.Acked j
  reached : ∀ p, position = some p → c.committed ≤ p
  empty : position = none → ∀ j h y, c.handed j = some (h,y) → h < c.tracker.generation
  within : ∀ p, position = some p → ∀ j y, c.handed j = some (c.tracker.generation,y) →
    (y : WithBot τ) ≤ p
  beyond : ∀ p, position = some p → ∀ j h y, c.handed j = some (h,y) → c.IsLast j →
    h = c.tracker.generation ∨ c.Acked j ∨ p < (y : WithBot τ)
  ordered : ∀ i j x y, c.handed i = some (c.tracker.generation,x) →
    c.handed j = some (c.tracker.generation,y) → i < j → x < y
  settled : ∀ i x, c.handed i = some (c.tracker.generation,x) → ∀ j h y,
    c.handed j = some (h,y) → h < c.tracker.generation → (c.deliveries j).phase = .terminal
  read : ∀ i x, c.handed i = some (c.tracker.generation,x) →
    (c.deliveries i).readGeneration = c.tracker.generation

/-- What a save needs follows from the invariants. -/
theorem savesSettled (h : Sound c) (ha : Ahead c position) (ht : Targets c) : SavesSettled c := by
  intro s hs
  obtain ⟨hin,x,hx⟩ := ht s hs
  obtain ⟨u,hu,-,rfl⟩ := handed_iff.mp hx
  refine ⟨u,hu,ha.read _ _ hx,?_⟩
  intro j _ v hv hle hlast
  have hj : c.handed j = some (v.generation,v.token) := handed_iff.mpr ⟨v,hv,rfl,rfl⟩
  obtain ⟨p,rfl⟩ : ∃ p, position = some p := by
    cases hp : position with
    | none => exact absurd (ha.empty hp _ _ _ hx) (lt_irrefl _)
    | some p => exact ⟨p,rfl⟩
  rcases ha.beyond p rfl j _ _ hj hlast with hgen | hacked | hlt
  · have hji : j ≤ s.item := by
      by_contra hnot
      rw [hgen] at hj
      exact absurd (ha.ordered _ _ _ _ hx hj (by omega)) (not_lt.mpr hle)
    have hlt := (List.getElem?_eq_some_iff.mp hv).1
    have hphase : (c.deliveries j).phase = .terminal ∨ (c.deliveries j).phase = .saving := by
      by_cases hterm : (c.deliveries j).phase = .terminal
      · exact .inl hterm
      · have hmem := h.kept j hlt hterm
        exact (h.holding s hs).taken j (mem_take_of_le h.sorted hin hmem hji)
    refine ⟨hphase,?_⟩
    rcases h.called j v hv with hinv | hold | hcalls
    · rcases hphase with hp | hp <;> rw [hp] at hinv <;> cases hinv
    · omega
    · exact hcalls
  · exact ⟨.inl hacked.1,hacked.2⟩
  · have hwithin := ha.within p rfl _ _ hx
    have hyx : (v.token : WithBot τ) ≤ u.token := WithBot.coe_le_coe.mpr hle
    exact absurd (lt_of_lt_of_le hlt (le_trans hyx hwithin)) (lt_irrefl _)

/-- A steady step keeps a reader ahead, whatever it commits. -/
theorem Ahead.steady (ha : Ahead c position) (h : Steady c c')
    (hreached : ∀ p, position = some p → c'.committed ≤ p)
    (hcommitted : ∀ j g y, c.handed j = some (g,y) → (y : WithBot τ) ≤ c'.committed →
      c.IsLast j → c'.Acked j) : Ahead c' position := by
  constructor
  · intro j g y hj hle hlast
    rw [h.handed] at hj
    exact hcommitted j g y hj hle (h.isLast.mp hlast)
  · exact hreached
  · intro hnone j g y hj
    rw [h.handed] at hj
    rw [h.generation]
    exact ha.empty hnone j g y hj
  · intro p hp j y hj
    rw [h.handed,h.generation] at hj
    exact ha.within p hp j y hj
  · intro p hp j g y hj hlast
    rw [h.handed] at hj
    rw [h.generation]
    rcases ha.beyond p hp j g y hj (h.isLast.mp hlast) with hg | hacked | hlt
    · exact .inl hg
    · exact .inr (.inl (h.acked hacked))
    · exact .inr (.inr hlt)
  · intro i j x y hi hj hij
    rw [h.handed,h.generation] at hi hj
    exact ha.ordered i j x y hi hj hij
  · intro i x hi j g y hj hlt
    rw [h.handed,h.generation] at hi
    rw [h.handed] at hj
    rw [h.generation] at hlt
    have hterm := ha.settled i x hi j g y hj hlt
    rw [h.terminal j hterm]
    exact hterm
  · intro i x hi
    rw [h.handed,h.generation] at hi
    rw [h.read,h.generation]
    exact ha.read i x hi

/-- A reader without deliveries of the current generation may stand at the saved
cursor, or have no stream. -/
theorem ahead_reset (hcommitted : ∀ j h y, c.handed j = some (h,y) →
      (y : WithBot τ) ≤ c.committed → c.IsLast j → c.Acked j)
    (hnone : ∀ j h y, c.handed j = some (h,y) → h < c.tracker.generation)
    (hposition : position = none ∨ position = some c.committed) : Ahead c position := by
  have hno : ∀ j y, ¬c.handed j = some (c.tracker.generation,y) :=
    fun j y hj => lt_irrefl _ (hnone j _ y hj)
  constructor
  · exact hcommitted
  · intro p hp
    rcases hposition with rfl | rfl <;> cases hp
    exact le_rfl
  · exact fun _ => hnone
  · exact fun p _ j y hj => absurd hj (hno j y)
  · intro p hp j h y hj hlast
    rcases hposition with rfl | rfl <;> cases hp
    by_cases hle : (y : WithBot τ) ≤ c.committed
    · exact .inr (.inl (hcommitted j h y hj hle hlast))
    · exact .inr (.inr (not_le.mp hle))
  · exact fun i j x y hi => absurd hi (hno i x)
  · exact fun i x hi => absurd hi (hno i x)
  · exact fun i x hi => absurd hi (hno i x)

/-- A call that invalidates nothing keeps a reader ahead. -/
theorem Ahead.call (h : Sound c) (ht : Targets c) (ha : Ahead c position)
    (hop : op.invalidates = false) (hc : op.perform c = some c') : Ahead c' position := by
  have hsteady := call_steady h hop hc
  by_cases hsaved : op = .saveReturns true
  · subst hsaved
    have hsettled := savesSettled h ha ht
    simp only [Call.perform,Core.saveReturns] at hc
    split at hc
    · cases hc
    · next s hs =>
        cases hc
        obtain ⟨t,htoken,-,hall⟩ := hsettled s hs
        obtain ⟨-,x,hx⟩ := ht s hs
        have hxt : t.token = x := by
          obtain ⟨u,hu,-,hux⟩ := handed_iff.mp hx
          cases htoken.symm.trans hu
          exact hux
        have hcommitted : (c.tracker.tokens[s.item]?.map (·.token)).elim c.committed WithBot.some =
            (x : WithBot τ) := by
          rw [Option.mem_def.mp htoken,← hxt]
          rfl
        refine ha.steady hsteady ?_ ?_
        · intro p hp
          change Option.elim _ _ _ ≤ p
          rw [hcommitted]
          exact ha.within p hp s.item x hx
        · intro j k z hz hle hlast
          change _ ≤ Option.elim _ _ _ at hle
          rw [hcommitted] at hle
          obtain ⟨v,hv,-,rfl⟩ := handed_iff.mp hz
          have hacking := hall j (List.getElem?_eq_some_iff.mp hv).1 v hv
            (hxt ▸ WithBot.coe_le_coe.mp hle) hlast
          by_cases hj : j = s.sequence
          · subst hj
            simpa [Core.Acked,Core.setPhase] using hacking.2
          · refine hsteady.acked ⟨hacking.1.resolve_right fun hsaving => ?_,hacking.2⟩
            obtain ⟨s',hs',rfl⟩ := h.held j hsaving
            rw [hs] at hs'
            cases hs'
            exact hj rfl
  · have hcommitted := call_committed hsaved hc
    refine ha.steady hsteady ?_ ?_
    · rw [hcommitted]
      exact ha.reached
    · rw [hcommitted]
      exact fun j g y hj hle hlast => hsteady.acked (ha.committed j g y hj hle hlast)

/-- After the tracker's `invalidate` the reader starts again at the saved cursor,
if there was nothing of the current generation or that generation is over. -/
theorem Ahead.invalidateTracker {g : ℕ} (h : Sound c) (ha : Ahead c position)
    (hg : g = c.tracker.generation ∨ ∀ j k y, c.handed j = some (k,y) → k < c.tracker.generation)
    {position' : Option (WithBot τ)} (hposition : position' = none ∨ position' = some c.committed) :
    Ahead {c with tracker := c.tracker.invalidate g} position' := by
  have hhanded : ∀ j, Core.handed {c with tracker := c.tracker.invalidate g} j = c.handed j :=
    invalidate_handed c.tracker g
  refine ahead_reset ?_ ?_ hposition
  · intro j k y hj hle hlast
    rw [hhanded] at hj
    exact ha.committed j k y hj hle (by simpa only [isLast_iff,hhanded] using hlast)
  · intro j k y hj
    rw [hhanded] at hj
    obtain ⟨-,-,-,⟨hcur,hnext,-⟩ | ⟨hne,hsame⟩⟩ := invalidate_generation c.tracker g
    · obtain ⟨t,htoken,hk,-⟩ := handed_iff.mp hj
      have hle := h.generation j t htoken
      change k < (c.tracker.invalidate g).generation
      omega
    · change k < (c.tracker.invalidate g).generation
      rw [hsame]
      exact hg.resolve_left hne j k y hj

theorem Ahead.invalidate (h : Sound c) (ha : Ahead c position)
    (hop : op.invalidates = true) (hc : op.perform c = some c')
    {position' : Option (WithBot τ)} (hposition : position' = none ∨ position' = some c'.committed) :
    Ahead c' position' := by
  cases op with
  | settle i call => cases hop
  | complete i => cases hop
  | saveReturns ok => cases hop
  | invalidate i =>
    simp only [Call.perform,Core.invalidate] at hc
    split at hc
    · next x hx hphase hfree =>
        cases hc
        have hno : x.generation = c.tracker.generation ∨
            ∀ j k y, c.handed j = some (k,y) → k < c.tracker.generation := by
          by_cases hcur : x.generation = c.tracker.generation
          · exact .inl hcur
          · refine .inr fun j k y hj => ?_
            obtain ⟨t,htoken,hk,hy⟩ := handed_iff.mp hj
            have hle := h.generation j t htoken
            have hxle := h.generation i x hx
            by_contra hnot
            have hjcur : c.handed j = some (c.tracker.generation,y) := by
              rw [hj,show k = c.tracker.generation by omega]
            have hterm := ha.settled j y hjcur i x.generation x.token
              (handed_iff.mpr ⟨x,hx,rfl,rfl⟩) (by omega)
            rw [hphase] at hterm
            cases hterm
        have hreset := ha.invalidateTracker h hno hposition
        have hsteady : Steady {c with tracker := c.tracker.invalidate x.generation}
            (Core.setPhase {c with tracker := c.tracker.invalidate x.generation} i
              (.completing false)) :=
          Steady.setPhase (fun _ => rfl) rfl (by simp [hphase])
        refine hreset.steady hsteady hreset.reached ?_
        exact fun j g y hj hle hlast => hsteady.acked (hreset.committed j g y hj hle hlast)
    · cases hc

variable {batch : List τ}

theorem reads_tail {start : WithBot τ} {x : τ} {readGeneration : ℕ} (h : Reads c start (x::batch)) :
    Reads (c.deliver readGeneration x) x batch := by
  have hsorted := List.pairwise_cons.mp h.ascending
  constructor
  · intro y hy
    exact WithBot.coe_lt_coe.mpr (hsorted.1 y hy)
  · exact hsorted.2
  · intro y hy hlt hupto
    have hxy := WithBot.coe_lt_coe.mp hlt
    rcases List.mem_append.mp hy with hy | hy
    · obtain ⟨z,hz,hle⟩ := hupto
      have hmem := h.skipsNone y hy (lt_trans (h.above x (by simp)) hlt)
        ⟨z,List.mem_cons_of_mem _ hz,hle⟩
      exact (List.mem_cons.mp hmem).resolve_left (ne_of_gt hxy)
    · rw [List.mem_singleton.mp hy] at hxy
      exact absurd hxy (lt_irrefl _)

theorem Ahead.deliver {p : WithBot τ} {x : τ} (h : Sound c) (ha : Ahead c (some p))
    (hreads : Reads c p (x::batch))
    (hsettled : ∀ j g y, c.handed j = some (g,y) → g < c.tracker.generation →
      (c.deliveries j).phase = .terminal) : Ahead (c.deliver c.tracker.generation x) (some x) := by
  have hpx := hreads.above x (by simp)
  have hlast : ∀ j g y, c.handed j = some (g,y) →
      (c.deliver c.tracker.generation x).IsLast j → c.IsLast j := by
    intro j g y _ hlast
    refine isLast_iff.mpr fun k z hk i l hl => ?_
    exact isLast_iff.mp hlast k z (deliver_handed.mpr (.inl hk)) i l (deliver_handed.mpr (.inl hl))
  have hacked : ∀ j g y, c.handed j = some (g,y) → c.Acked j →
      (c.deliver c.tracker.generation x).Acked j := by
    intro j g y hj ha
    unfold Core.Acked
    rw [deliver_deliveries hj]
    exact ha
  constructor
  · intro j g y hj hle hl
    rcases deliver_handed.mp hj with hj | ⟨-,-,rfl⟩
    · exact hacked j g y hj (ha.committed j g y hj hle (hlast j g y hj hl))
    · exact absurd (lt_of_lt_of_le hpx (le_trans hle (ha.reached p rfl))) (lt_irrefl _)
  · intro q hq
    cases hq
    exact le_trans (ha.reached p rfl) hpx.le
  · intro hnone
    cases hnone
  · intro q hq j y hj
    cases hq
    rcases deliver_handed.mp hj with hj | ⟨-,-,rfl⟩
    · exact le_trans (ha.within p rfl j y hj) hpx.le
    · exact le_rfl
  · intro q hq j g y hj hl
    cases hq
    rcases deliver_handed.mp hj with hj' | ⟨-,hg,-⟩
    · rcases ha.beyond p rfl j g y hj' (hlast j g y hj' hl) with hg | hdone | hlt
      · exact .inl hg
      · exact .inr (.inl (hacked j g y hj' hdone))
      · by_cases hle : y ≤ x
        · obtain ⟨v,hv,hvy⟩ := mem_tokens.mpr ⟨j,g,hj'⟩
          have hmem := hreads.skipsNone v hv (hvy ▸ hlt) ⟨x,by simp,hvy ▸ hle⟩
          rw [hvy] at hmem
          have hyx : y = x := by
            rcases List.mem_cons.mp hmem with he | hin
            · exact he
            · have hxy := (List.pairwise_cons.mp hreads.ascending).1 y hin
              exact absurd hxy (not_lt.mpr hle)
          subst hyx
          have hge := isLast_iff.mp hl g y hj c.tracker.tokens.length c.tracker.generation
            (deliver_handed.mpr (.inr ⟨rfl,rfl,rfl⟩))
          obtain ⟨t,htoken,hg,-⟩ := handed_iff.mp hj'
          have hbound := h.generation j t htoken
          exact .inl (show g = c.tracker.generation by omega)
        · exact .inr (.inr (WithBot.coe_lt_coe.mpr (not_le.mp hle)))
    · exact .inl hg
  · intro i j y z hi hj hij
    rcases deliver_handed.mp hi with hi | ⟨hi,-,-⟩
    · rcases deliver_handed.mp hj with hj | ⟨-,-,rfl⟩
      · exact ha.ordered i j y z hi hj hij
      · exact WithBot.coe_lt_coe.mp (lt_of_le_of_lt (ha.within p rfl i y hi) hpx)
    · rcases deliver_handed.mp hj with hj | ⟨hj,-,-⟩
      · obtain ⟨t,htoken,-⟩ := handed_iff.mp hj
        have hlt := (List.getElem?_eq_some_iff.mp htoken).1
        omega
      · omega
  · intro i y hi j g z hj hlt
    rcases deliver_handed.mp hj with hj | ⟨-,hg,-⟩
    · rw [deliver_deliveries hj]
      exact hsettled j g z hj hlt
    · exact absurd hlt (by rw [hg]; exact lt_irrefl _)
  · intro i y hi
    rcases deliver_handed.mp hi with hi | ⟨rfl,-,-⟩
    · rw [deliver_deliveries hi]
      exact ha.read i y hi
    · simp only [Core.deliver,Function.update_self]
      rfl

theorem Ahead.deliverAll {p : WithBot τ} (h : Sound c) (ha : Ahead c (some p))
    (hreads : Reads c p batch)
    (hsettled : ∀ j g y, c.handed j = some (g,y) → g < c.tracker.generation →
      (c.deliveries j).phase = .terminal) :
    Ahead (c.deliverAll c.tracker.generation batch) (some (endOf p batch)) := by
  induction batch generalizing c p with
  | nil => exact ha
  | cons x batch ih =>
    refine ih (h.deliver _ x) (ha.deliver h hreads hsettled) (reads_tail hreads) ?_
    intro j g y hj hlt
    rcases deliver_handed.mp hj with hj | ⟨-,hg,-⟩
    · rw [deliver_deliveries hj]
      exact hsettled j g y hj hlt
    · exact absurd hlt (by rw [hg]; exact lt_irrefl _)

end Replay

end OneStep.MongoCursors
