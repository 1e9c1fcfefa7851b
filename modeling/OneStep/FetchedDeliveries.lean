import OneStep.TaskRunner

/-!
# What becomes of fetched deliveries

Every delivery that a fetch returned should be executed or released. Releases
go through the batch in order and end early only at a cancellation, so a pass
reaches the whole batch when none of its releases but the last is cancelled. The
condition under which nothing is lost follows from that, for one fetch exactly,
and for every run whose fetches all meet it.
-/
namespace OneStep.FetchedDeliveries
open Coroutine DeliveryModel TaskRunner

variable {D : Type} (r : Runner) (n : ℕ) (c : Fetching D)

/-- The delivery that is executed or released. -/
def handled : Act D → Option (ℕ × ℕ × D)
  | .release cycle index d => some (cycle,index,d)
  | .execute cycle index d => some (cycle,index,d)
  | _ => none

def Handled (log : List (Act D)) (cycle : ℕ) (ds : List D) : Prop :=
  ∀ i d, ds[i]? = some d → .execute cycle i d ∈ log ∨ .release cycle i d ∈ log

/-- Whatever a fetch returned was executed or released. -/
def NothingDropped (log : List (Act D)) : Prop :=
  ∀ cycle limit ds, .fetch cycle limit ds ∈ log → Handled log cycle ds

section Passes

def isCancelled : Outcome Exn Unit → Bool
  | .error .cancelled => true
  | _ => false

/-- The deliveries one pass of releases reaches, from position `i` on. -/
def pass (phase : Phase) : ℕ → List D → List (ℕ × ℕ × D)
  | _,[] => []
  | i,d::ds => (n,i,d)::if isCancelled (c.release phase i) then [] else pass phase (i+1) ds

def passOutcome (phase : Phase) : ℕ → List D → Outcome Exn Unit
  | _,[] => .ok ()
  | i,_::ds =>
    if isCancelled (c.release phase i) then .error .cancelled else passOutcome phase (i+1) ds

theorem ends_release (phase : Phase) (i : ℕ) (d : D) :
    Ends handled (suppress (call (.release n i d) (c.release phase i)) : Loop D Unit)
      (if isCancelled (c.release phase i) then .error .cancelled else .ok ()) [(n,i,d)] := by
  have hcall : Ends handled (call (.release n i d) (c.release phase i) : Loop D Unit)
      (c.release phase i) [(n,i,d)] := ends_call_picked rfl
  cases ho : c.release phase i with
  | ok u =>
    rw [ho] at hcall
    exact ends_suppress hcall
  | error j =>
    rw [ho] at hcall
    cases j with
    | raised e => exact ends_suppress_raised hcall
    | cancelled => exact ends_suppress_cancelled hcall

theorem ends_pass (phase : Phase) (i : ℕ) (ds : List D) :
    Ends handled (releaseUnstartedDeliveries n c phase i ds) (passOutcome c phase i ds)
      (pass n c phase i ds) := by
  induction ds generalizing i with
  | nil => exact ends_pure ()
  | cons d ds ih =>
    have hrelease := ends_release n c phase i d
    unfold pass passOutcome
    split
    · rename_i hcancelled
      rw [if_pos hcancelled] at hrelease
      exact ends_bind_error hrelease
    · rename_i hcancelled
      rw [if_neg hcancelled] at hrelease
      exact ends_bind hrelease (ih (i+1))

variable {phase : Phase} {ds : List D}

theorem mem_pass {i j : ℕ} {d : D} :
    (n,j,d) ∈ pass n c phase i ds ↔ i ≤ j ∧ ds[j-i]? = some d ∧
      ∀ k, i ≤ k → k < j → isCancelled (c.release phase k) = false := by
  induction ds generalizing i with
  | nil => simp [pass]
  | cons d' ds ih =>
    rw [pass,List.mem_cons]
    rcases Nat.lt_trichotomy j i with hlt | rfl | hgt
    · have hrest : ¬((n,j,d) ∈ if isCancelled (c.release phase i) then [] else
          pass n c phase (i+1) ds) := by
        split
        · simp
        · rw [ih]
          omega
      refine iff_of_false ?_ (by omega)
      rintro (h | h)
      · have hji : j = i := congrArg (fun t => t.2.1) h
        omega
      · exact hrest h
    · have hrest : ¬((n,j,d) ∈ if isCancelled (c.release phase j) then [] else
          pass n c phase (j+1) ds) := by
        split
        · simp
        · rw [ih]
          omega
      have hnone : ∀ k, j ≤ k → k < j → isCancelled (c.release phase k) = false := by
        intro k h₁ h₂
        omega
      simp only [hrest,or_false,Nat.sub_self,List.getElem?_cons_zero,Option.some.injEq,le_refl,
        true_and,Prod.mk.injEq]
      exact ⟨fun h => ⟨h.symm,hnone⟩,fun h => h.1.symm⟩
    · have hne : ¬((n,j,d) = (n,i,d')) := by
        intro h
        have hji : j = i := congrArg (fun t => t.2.1) h
        omega
      have hindex : (d'::ds)[j-i]? = ds[j-(i+1)]? := by
        rw [show j-i = (j-(i+1))+1 by omega,List.getElem?_cons_succ]
      rw [hindex]
      cases hcancelled : isCancelled (c.release phase i) with
      | true =>
        refine iff_of_false (by simp [hne]) ?_
        rintro ⟨-,-,hall⟩
        have hi := hall i le_rfl hgt
        rw [hcancelled] at hi
        cases hi
      | false =>
        simp only [hne,false_or,Bool.false_eq_true,if_false]
        rw [ih]
        constructor
        · rintro ⟨h₁,h₂,h₃⟩
          refine ⟨by omega,h₂,fun k hk hkj => ?_⟩
          rcases Nat.eq_or_lt_of_le hk with rfl | hk
          · exact hcancelled
          · exact h₃ k hk hkj
        · rintro ⟨h₁,h₂,h₃⟩
          exact ⟨by omega,h₂,fun k hk hkj => h₃ k (by omega) hkj⟩

/-- No release but the last of a batch of this size is cancelled. -/
def AllReleased (phase : Phase) (size : ℕ) : Prop :=
  ∀ i, i+1 < size → isCancelled (c.release phase i) = false

/-- Every delivery of the batch is in the list. -/
def Covered (l : List (ℕ × ℕ × D)) (ds : List D) : Prop :=
  ∀ i d, ds[i]? = some d → (n,i,d) ∈ l

theorem covered_nil : Covered n [] ds ↔ ds = [] := by
  constructor
  · intro h
    cases ds with
    | nil => rfl
    | cons d ds => cases h 0 d rfl
  · rintro rfl i d hd
    simp at hd

theorem covered_pass_of (h : AllReleased c phase ds.length) :
    Covered n (pass n c phase 0 ds) ds := by
  intro i d hd
  have hi : i < ds.length := (List.getElem?_eq_some_iff.mp hd).1
  refine (mem_pass n c).mpr ⟨Nat.zero_le i,by simpa using hd,fun k _ hk => h k (by omega)⟩

/-- The last delivery of the batch decides, for one pass and for two. -/
theorem covered_passes :
    Covered n (pass n c .attempt 0 ds++pass n c .recovery 0 ds) ds ↔
      AllReleased c .attempt ds.length ∨ AllReleased c .recovery ds.length := by
  constructor
  · intro h
    cases hlast : ds[ds.length-1]? with
    | none =>
      have hnil : ds.length = 0 := by
        have hlen := List.getElem?_eq_none_iff.mp hlast
        omega
      refine .inl fun i hi => ?_
      omega
    | some d =>
      have hlen : ds.length-1 < ds.length := (List.getElem?_eq_some_iff.mp hlast).1
      rcases List.mem_append.mp (h (ds.length-1) d hlast) with hmem | hmem
      · have hall := ((mem_pass n c).mp hmem).2.2
        exact .inl fun i hi => hall i (Nat.zero_le i) (by omega)
      · have hall := ((mem_pass n c).mp hmem).2.2
        exact .inr fun i hi => hall i (Nat.zero_le i) (by omega)
  · rintro (h | h) i d hd
    · exact List.mem_append_left _ (covered_pass_of n c h i d hd)
    · exact List.mem_append_right _ (covered_pass_of n c h i d hd)

theorem covered_pass : Covered n (pass n c phase 0 ds) ds ↔ AllReleased c phase ds.length := by
  constructor
  · intro h i hi
    cases hlast : ds[ds.length-1]? with
    | none =>
      have hlen := List.getElem?_eq_none_iff.mp hlast
      omega
    | some d =>
      exact ((mem_pass n c).mp (h (ds.length-1) d hlast)).2.2 i (Nat.zero_le i) (by omega)
  · exact covered_pass_of n c

theorem allReleased_of_ok (h : passOutcome c phase 0 ds = .ok ()) :
    AllReleased c phase ds.length := by
  have hstep : ∀ (ds : List D) i, passOutcome c phase i ds = .ok () →
      ∀ k < ds.length, isCancelled (c.release phase (i+k)) = false := by
    intro ds
    induction ds with
    | nil => exact fun i _ k hk => absurd hk (Nat.not_lt_zero k)
    | cons d ds ih =>
      intro i hi k hk
      rw [passOutcome] at hi
      cases hcancelled : isCancelled (c.release phase i) with
      | true =>
        rw [hcancelled] at hi
        cases hi
      | false =>
        rw [hcancelled] at hi
        cases k with
        | zero => exact hcancelled
        | succ k =>
          have hnext := ih (i+1) hi k (by simpa using hk)
          rw [show i+(k+1) = i+1+k by omega]
          exact hnext
  intro i hi
  have hcall := hstep ds 0 h i (by omega)
  rwa [Nat.zero_add] at hcall

theorem passOutcome_cases (phase : Phase) (i : ℕ) (ds : List D) :
    passOutcome c phase i ds = .ok () ∨ passOutcome c phase i ds = .error .cancelled := by
  induction ds generalizing i with
  | nil => exact .inl rfl
  | cons d ds ih =>
    rw [passOutcome]
    split
    · exact .inr rfl
    · exact ih (i+1)

end Passes

section Fetch
variable {r n c} {ds : List D} (hend : c.fetchEnd = .ok ds) {l : List (ℕ × ℕ × D)} (limit : ℕ)

theorem returned_eq (hend : c.fetchEnd = .ok ds) : c.returned = ds := by
  rw [Fetching.returned,hend]

include hend

theorem ends_resolve (phase : Phase) (done : Bool)
    (h : ¬(done = false ∧ c.interrupted phase = true)) :
    Ends handled (resolveFetchTask r c phase done) (.ok ds) [] := by
  have hawait : Ends handled (awaitFetchTask c phase done) (.ok ds) [] := by
    unfold awaitFetchTask
    rw [if_neg h,hend]
    exact ends_call rfl
  exact ends_handle_ok hawait

omit hend in
theorem ends_resolve_interrupted {phase : Phase} {done : Bool}
    (h : done = false ∧ c.interrupted phase = true) :
    Ends handled (resolveFetchTask r c phase done) (.error .cancelled) [] := by
  have hawait : Ends handled (awaitFetchTask c phase done) (.error .cancelled) [] := by
    unfold awaitFetchTask
    rw [if_pos h]
    exact ends_call rfl
  exact ends_handle_error hawait ends_interrupt

theorem ends_recovery (done : Bool) (hsafe : ¬(done = false ∧ r.source.fetchIsCancelSafe = true))
    (hint : ¬(done = false ∧ c.interrupted .recovery = true)) :
    Ends handled (cancelOrReleaseFetch r n c done) (passOutcome c .recovery 0 ds)
      (pass n c .recovery 0 ds) := by
  unfold cancelOrReleaseFetch
  rw [if_neg hsafe]
  exact ends_bind (ends_resolve hend _ _ hint) (ends_pass n c .recovery 0 ds)

omit hend in
theorem ends_recovery_forgotten (done : Bool) (hdone : done = false)
    (h : r.source.fetchIsCancelSafe = true ∨ c.interrupted .recovery = true) :
    ∃ o, Ends handled (cancelOrReleaseFetch r n c done) o [] := by
  unfold cancelOrReleaseFetch
  by_cases hsafe : r.source.fetchIsCancelSafe = true
  · rw [if_pos ⟨hdone,hsafe⟩]
    exact ⟨_,ends_call rfl⟩
  · rw [if_neg fun h => hsafe h.2]
    have hint : c.interrupted .recovery = true := h.resolve_left hsafe
    exact ⟨_,ends_bind_error (ends_resolve_interrupted ⟨hdone,hint⟩)⟩

omit hend in
theorem ends_cleanup : Ends handled (cleanup c)
    (if c.wait = .both then .ok () else cancelledIf c.cleanupCancelled) [] := by
  unfold cleanup
  split
  · exact ends_bind (ends_assign _) (ends_pure ())
  · exact ends_bind (ends_assign _) (ends_call rfl)

omit hend in
theorem ends_startFetch {o : Outcome Exn (List D)}
    (h : Ends handled (ensure (onCancelled (fetchAttempt r n c)
      (cancelOrReleaseFetch r n c (doneAtRecovery c))) (cleanup c)) o l) :
    Ends handled (startFetch r n c limit) o l :=
  ends_bind (l := []) (a := ()) (ends_assign _) (ends_bind (l := []) (a := ()) (ends_call rfl) h)

omit hend in
theorem ends_cancelled {m : List (ℕ × ℕ × D)} {o : Outcome Exn Unit}
    (hattempt : Ends handled (fetchAttempt r n c) (.error .cancelled) l)
    (hrecovery : Ends handled (cancelOrReleaseFetch r n c (doneAtRecovery c)) o m) :
    ∃ j, Ends handled (startFetch r n c limit) (.error j) (l++m) := by
  obtain ⟨i,hcaught⟩ := ends_onCancelled hattempt hrecovery
  obtain ⟨j,hensured⟩ := ends_ensure_error hcaught (ends_cleanup (c := c))
  rw [List.append_nil] at hensured
  exact ⟨j,ends_startFetch limit hensured⟩

omit hend in
theorem ends_returned {ds' : List D} (hattempt : Ends handled (fetchAttempt r n c) (.ok ds') l)
    (hclean : c.wait = .both ∨ c.cleanupCancelled = false) :
    Ends handled (startFetch r n c limit) (.ok ds') l := by
  have hcleanup : Ends handled (cleanup c) (.ok ()) [] := by
    have hends := ends_cleanup (c := c)
    rcases hclean with hboth | hfalse
    · rwa [if_pos hboth] at hends
    · rw [hfalse] at hends
      simpa [cancelledIf] using hends
  refine ends_startFetch limit ((ends_ensure ?_ hcleanup).congr (List.append_nil l))
  exact ends_handle_ok hattempt

omit hend in
theorem ends_lost {ds' : List D} (hattempt : Ends handled (fetchAttempt r n c) (.ok ds') l)
    (hwait : c.wait ≠ .both) (hclean : c.cleanupCancelled = true) :
    Ends handled (startFetch r n c limit) (.error .cancelled) l := by
  have hcleanup : Ends handled (cleanup c) (.error .cancelled) [] := by
    have hends := ends_cleanup (c := c)
    rw [if_neg hwait,hclean] at hends
    exact hends
  refine ends_startFetch limit ((ends_ensure_interrupted (a := ds') ?_ hcleanup).congr (List.append_nil l))
  exact ends_handle_ok hattempt

end Fetch

section Kept
variable {r n c} {ds : List D} (limit : ℕ)

/-- The fetch hands nothing to the loop, having released what is in the list. -/
def Retained (r : Runner) (n : ℕ) (c : Fetching D) (limit : ℕ) (l : List (ℕ × ℕ × D)) : Prop :=
  ∃ o, Ends handled (startFetch r n c limit) o l ∧ ∀ ds, o = .ok ds → ds = []

theorem retained_of_cancelled {l m : List (ℕ × ℕ × D)} {o : Outcome Exn Unit}
    (hattempt : Ends handled (fetchAttempt r n c) (.error .cancelled) l)
    (hrecovery : Ends handled (cancelOrReleaseFetch r n c (doneAtRecovery c)) o m) :
    Retained r n c limit (l++m) := by
  obtain ⟨j,hends⟩ := ends_cancelled limit hattempt hrecovery
  exact ⟨_,hends,fun _ h => by cases h⟩

theorem retained_of_empty {l : List (ℕ × ℕ × D)}
    (hattempt : Ends handled (fetchAttempt r n c) (.ok []) l) : Retained r n c limit l := by
  by_cases hboth : c.wait = .both
  · exact ⟨_,ends_returned limit hattempt (.inl hboth),fun _ h => (Except.ok.inj h).symm⟩
  · cases hclean : c.cleanupCancelled with
    | false => exact ⟨_,ends_returned limit hattempt (.inr hclean),fun _ h => (Except.ok.inj h).symm⟩
    | true => exact ⟨_,ends_lost limit hattempt hboth hclean,fun _ h => by cases h⟩

theorem retained_recovery (hend : c.fetchEnd = .ok ds) (hdone : doneAtRecovery c = true)
    (hattempt : Ends handled (fetchAttempt r n c) (.error .cancelled) []) :
    ∃ l, Retained r n c limit l ∧ (Covered n l ds ↔ AllReleased c .recovery ds.length) := by
  have hrecovery := ends_recovery (r := r) (n := n) hend (doneAtRecovery c)
    (by simp [hdone]) (by simp [hdone])
  exact ⟨_,retained_of_cancelled limit hattempt hrecovery,covered_pass n c⟩

theorem retained_passes (hend : c.fetchEnd = .ok ds) (hdone : doneAtRecovery c = true)
    (hattempt : ∀ o, passOutcome c .attempt 0 ds = o →
      Ends handled (fetchAttempt r n c) (o.map fun _ => []) (pass n c .attempt 0 ds)) :
    ∃ l, Retained r n c limit l ∧ (Covered n l ds ↔
      AllReleased c .attempt ds.length ∨ AllReleased c .recovery ds.length) := by
  rcases passOutcome_cases c .attempt 0 ds with hok | hcancelled
  · have hall := allReleased_of_ok c hok
    refine ⟨_,retained_of_empty limit (hattempt _ hok),?_⟩
    exact iff_of_true (covered_pass_of n c hall) (.inl hall)
  · have hrecovery := ends_recovery (r := r) (n := n) hend (doneAtRecovery c)
      (by simp [hdone]) (by simp [hdone])
    exact ⟨_,retained_of_cancelled limit (hattempt _ hcancelled) hrecovery,covered_passes n c⟩

/-- The deliveries whose task is started. -/
def started (n : ℕ) (c : Fetching D) : ℕ → List D → List (ℕ × ℕ × D)
  | _,[] => []
  | i,d::ds => (if c.starts i then [(n,i,d)] else [])++started n c (i+1) ds

theorem ends_startDeliveries (i : ℕ) (ds : List D) :
    Ends handled (startDeliveries n c i ds) (.ok ()) (started n c i ds) := by
  induction ds generalizing i with
  | nil => exact ends_pure ()
  | cons d ds ih =>
    have hstart : Ends handled (startDelivery n c i d) (.ok ())
        (if c.starts i then [(n,i,d)] else []) := by
      unfold startDelivery
      split
      · exact ends_bind (l := []) (ends_assign _) (ends_call_picked rfl)
      · exact ends_bind (ends_assign _) (ends_pure ())
    exact ends_bind hstart (ih (i+1))

theorem mem_started {i j : ℕ} {d : D} : (n,j,d) ∈ started n c i ds ↔
    i ≤ j ∧ ds[j-i]? = some d ∧ c.starts j = true := by
  induction ds generalizing i with
  | nil => simp [started]
  | cons d' ds ih =>
    have hhead : (n,j,d) ∈ (if c.starts i then [(n,i,d')] else []) ↔
        j = i ∧ d = d' ∧ c.starts i = true := by
      split <;> simp_all
    rw [started,List.mem_append,hhead,ih]
    rcases Nat.lt_trichotomy j i with hlt | rfl | hgt
    · refine iff_of_false ?_ (by omega)
      rintro (h | h) <;> omega
    · have hrest : ¬j+1 ≤ j := by omega
      simp only [hrest,false_and,or_false,Nat.sub_self,List.getElem?_cons_zero,
        Option.some.injEq,le_refl,true_and]
      constructor
      · rintro ⟨rfl,h⟩
        exact ⟨rfl,h⟩
      · rintro ⟨rfl,h⟩
        exact ⟨rfl,h⟩
    · have hindex : (d'::ds)[j-i]? = ds[j-(i+1)]? := by
        rw [show j-i = (j-(i+1))+1 by omega,List.getElem?_cons_succ]
      have hne : ¬j = i := by omega
      rw [hindex]
      simp only [hne,false_and,false_or]
      constructor
      · rintro ⟨h,h'⟩
        exact ⟨by omega,h'⟩
      · rintro ⟨h,h'⟩
        exact ⟨by omega,h'⟩

theorem covered_started : Covered n (started n c 0 ds) ds ↔ ∀ i < ds.length, c.starts i = true := by
  constructor
  · intro h i hi
    have hget : ds[i]? = some ds[i] := List.getElem?_eq_getElem hi
    exact (mem_started.mp (h i _ hget)).2.2
  · intro h i d hd
    have hi : i < ds.length := (List.getElem?_eq_some_iff.mp hd).1
    exact mem_started.mpr ⟨Nat.zero_le i,by simpa using hd,h i hi⟩

def eventPath (r : Runner) (c : Fetching D) (i : ℕ) : List (Outcome Exn Unit) :=
  raises (c.copyMeta i)::(List.range r.eventHandlers).map fun k => dropped (c.handler i k)

/-- What can interrupt the FETCHED events of a batch of this size. -/
def eventsPath (r : Runner) (c : Fetching D) (size : ℕ) : List (Outcome Exn Unit) :=
  (List.range size).flatMap (eventPath r c)

theorem ends_emitBatchEvent (ds : List D) :
    Ends handled (emitBatchEvent r n c ds) (first (eventsPath r c ds.length)) [] := by
  refine ends_of_yields (only_forEach fun i => ?_) (yields_forEach fun i => ?_)
  · exact only_bind (only_lift _) fun _ => only_forEach fun _ => only_suppress (only_call rfl)
  · exact yields_bind (yields_ofExcept _) fun _ _ =>
      yields_forEach_map fun _ => yields_suppress_call _ _

end Kept

section Condition
variable {r n c} {ds : List D}

/-- A batch that is handed to the loop: nothing interrupts the finally clause or
the FETCHED events, and every task takes its first step. -/
def HandedOver (r : Runner) (c : Fetching D) (size : ℕ) : Prop :=
  c.cleanupCancelled = false ∧ first (eventsPath r c size) = .ok () ∧
    ∀ i < size, c.starts i = true

/-- A batch that the try block releases: one of the two passes goes through. -/
def Released (c : Fetching D) (size : ℕ) : Prop :=
  AllReleased c .attempt size ∨ AllReleased c .recovery size

/-- A batch found together with a stop request. A source that is safe to cancel
loses it, unless a cancellation leads to the except clause. -/
def Abandoned (r : Runner) (c : Fetching D) (size : ℕ) : Prop :=
  if r.source.fetchIsCancelSafe then
    c.gatherCancelled .attempt = true ∧ AllReleased c .recovery size
  else if c.wait.fetchDone = false ∧ c.interrupted .attempt = true then
    AllReleased c .recovery size
  else Released c size

/-- A batch found by the except clause. -/
def Recovered (r : Runner) (c : Fetching D) (fetchDone : Bool) (size : ℕ) : Prop :=
  (fetchDone = true ∨ (r.source.fetchIsCancelSafe = false ∧ c.interrupted .recovery = false)) ∧
    AllReleased c .recovery size

/-- When no delivery of this fetch is lost. -/
def Keeps (r : Runner) (c : Fetching D) : Prop :=
  c.stopped = true ∨ c.returned = [] ∨
    match c.wait with
    | .fetch =>
      if c.stopRequested then Released c c.returned.length
      else HandedOver r c c.returned.length
    | .stop | .both => Abandoned r c c.returned.length
    | .cancelled fetchDone => Recovered r c fetchDone c.returned.length

theorem ends_attempt {o : Outcome Exn (List D)} {l : List (ℕ × ℕ × D)}
    (hwait : ∀ fetchDone, c.wait ≠ .cancelled fetchDone) (h : Ends handled (afterWait r n c) o l) :
    Ends handled (fetchAttempt r n c) o l := by
  have hok : waitOutcome c = .ok () := by
    unfold waitOutcome
    split
    · rename_i fetchDone hcancelled
      exact absurd hcancelled (hwait fetchDone)
    · rfl
  unfold fetchAttempt
  rw [hok]
  exact ends_bind (l := []) (ends_call rfl) h

theorem retained_recovered (limit : ℕ) (hend : c.fetchEnd = .ok ds) {fetchDone : Bool}
    (hwait : c.wait = .cancelled fetchDone) (hne : ds ≠ []) :
    ∃ l, Retained r n c limit l ∧ (Covered n l ds ↔ Recovered r c fetchDone ds.length) := by
  have hdone : doneAtRecovery c = fetchDone := by rw [doneAtRecovery,hwait]
  have hattempt : Ends handled (fetchAttempt r n c) (.error .cancelled) [] := by
    have hwaiting : Ends handled (call (.suspend .wait) (waitOutcome c) : Loop D Unit)
        (.error .cancelled) [] := by
      rw [waitOutcome,hwait]
      exact ends_call rfl
    exact ends_bind_error hwaiting
  unfold Recovered
  by_cases hkept : fetchDone = true ∨
      (r.source.fetchIsCancelSafe = false ∧ c.interrupted .recovery = false)
  · have hrecovery := ends_recovery (r := r) (n := n) hend (doneAtRecovery c)
      (by rw [hdone]; rintro ⟨rfl,h⟩; simp [h] at hkept)
      (by rw [hdone]; rintro ⟨rfl,h⟩; simp [h] at hkept)
    refine ⟨_,retained_of_cancelled limit hattempt hrecovery,?_⟩
    rw [List.nil_append,covered_pass]
    simp [hkept]
  · have hfalse : fetchDone = false := by
      cases fetchDone with
      | false => rfl
      | true => simp at hkept
    have hforgotten : r.source.fetchIsCancelSafe = true ∨ c.interrupted .recovery = true := by
      by_contra hcontra
      simp [hfalse] at hkept
      simp at hcontra
      exact absurd (hkept hcontra.1) (by simp [hcontra.2])
    obtain ⟨o,hrecovery⟩ := ends_recovery_forgotten (r := r) (n := n) (c := c)
      (doneAtRecovery c) (hdone.trans hfalse) hforgotten
    refine ⟨_,retained_of_cancelled limit hattempt hrecovery,?_⟩
    rw [List.nil_append,covered_nil]
    exact iff_of_false hne fun h => hkept h.1

theorem retained_abandoned (limit : ℕ) (hend : c.fetchEnd = .ok ds)
    (hwait : c.wait.stopped = true) (hne : ds ≠ []) :
    ∃ l, Retained r n c limit l ∧ (Covered n l ds ↔ Abandoned r c ds.length) := by
  have hnot : ∀ fetchDone, c.wait ≠ .cancelled fetchDone := by
    rintro fetchDone h
    rw [h] at hwait
    cases hwait
  have hdone : doneAtRecovery c = true := by
    unfold doneAtRecovery
    split
    · rename_i fetchDone hcancelled
      exact absurd hcancelled (hnot fetchDone)
    · rfl
  have hafter : ∀ {o : Outcome Exn Unit} {l}, Ends handled (abandonFetch r n c) o l →
      Ends handled (fetchAttempt r n c) (o.map fun _ => []) l := by
    intro o l h
    refine ends_attempt hnot ?_
    unfold afterWait
    rw [if_pos hwait]
    cases o with
    | ok u =>
      have hreturn : Ends handled (abandonFetch r n c >>= fun _ => (pure [] : Loop D (List D)))
          (.ok []) (l++[]) := ends_bind h (ends_pure [])
      exact hreturn.congr (List.append_nil l)
    | error j => exact ends_bind_error h
  unfold Abandoned
  by_cases hsafe : r.source.fetchIsCancelSafe = true
  · rw [if_pos hsafe]
    have habandon : Ends handled (abandonFetch r n c)
        (cancelledIf (c.gatherCancelled .attempt)) [] := by
      unfold abandonFetch
      rw [if_pos hsafe]
      exact ends_call rfl
    cases hgather : c.gatherCancelled .attempt with
    | true =>
      rw [hgather] at habandon
      obtain ⟨l,hl,hcovered⟩ := retained_recovery limit hend hdone (hafter habandon)
      exact ⟨l,hl,by simpa using hcovered⟩
    | false =>
      rw [hgather] at habandon
      refine ⟨_,retained_of_empty limit (hafter habandon),?_⟩
      rw [covered_nil]
      exact iff_of_false hne fun h => by cases h.1
  · rw [if_neg hsafe]
    by_cases hint : c.wait.fetchDone = false ∧ c.interrupted .attempt = true
    · rw [if_pos hint]
      refine retained_recovery limit hend hdone (hafter (o := .error .cancelled) ?_)
      unfold abandonFetch
      rw [if_neg hsafe]
      exact ends_bind_error (ends_resolve_interrupted hint)
    · rw [if_neg hint]
      refine retained_passes limit hend hdone fun o ho => hafter ?_
      unfold abandonFetch
      rw [if_neg hsafe,← ho]
      exact ends_bind (ends_resolve hend _ _ hint) (ends_pass n c .attempt 0 ds)

theorem retained_released (limit : ℕ) (hend : c.fetchEnd = .ok ds) (hwait : c.wait = .fetch)
    (hstop : c.stopRequested = true) :
    ∃ l, Retained r n c limit l ∧ (Covered n l ds ↔ Released c ds.length) := by
  have hdone : doneAtRecovery c = true := by rw [doneAtRecovery,hwait]
  refine retained_passes limit hend hdone fun o ho => ?_
  refine ends_attempt (by simp [hwait]) ?_
  have hpass := ends_pass n c .attempt 0 ds
  have hunless : Ends handled (unlessStopRequested n c ds) (o.map fun _ => [])
      (pass n c .attempt 0 ds) := by
    unfold unlessStopRequested
    rw [if_pos hstop]
    rw [ho] at hpass
    cases o with
    | ok u =>
      have hreturn : Ends handled (releaseUnstartedDeliveries n c .attempt 0 ds >>=
          fun _ => (pure [] : Loop D (List D))) (.ok []) (pass n c .attempt 0 ds++[]) :=
        ends_bind hpass (ends_pure [])
      exact hreturn.congr (List.append_nil _)
    | error j => exact ends_bind_error hpass
  have hresolve := ends_resolve (r := r) hend .attempt true (by simp)
  unfold afterWait
  rw [hwait]
  exact ends_bind hresolve hunless

theorem ends_takeFetched (hend : c.fetchEnd = .ok ds) (hwait : c.wait = .fetch)
    (hstop : c.stopRequested = false) : Ends handled (fetchAttempt r n c) (.ok ds) [] := by
  refine ends_attempt (by simp [hwait]) ?_
  have hresolve := ends_resolve (r := r) hend .attempt true (by simp)
  have hunless : Ends handled (unlessStopRequested n c ds) (.ok ds) [] := by
    unfold unlessStopRequested
    rw [if_neg (by simp [hstop])]
    exact ends_pure ds
  unfold afterWait
  rw [hwait]
  exact ends_bind hresolve hunless

variable {it : Iteration D} (s : RunnerState)

theorem ends_afterEmpty (it : Iteration D) : ∃ o, Ends handled (afterFetch r n it s []) o [] := by
  simp only [afterFetch]
  split
  · exact ⟨_,ends_pure false⟩
  · have hpause : Ends handled (call (.suspend (if 0 < s.inflight then .inflight else .sleep))
        it.pause : Loop D Unit) it.pause [] := ends_call rfl
    cases ho : it.pause with
    | ok u =>
      rw [ho] at hpause
      exact ⟨_,ends_bind hpause (ends_pure true)⟩
    | error j =>
      rw [ho] at hpause
      exact ⟨_,ends_bind_error hpause⟩

theorem ends_cycle_retained {limit : ℕ} {l : List (ℕ × ℕ × D)}
    (hl : Retained r n it.fetching limit l) :
    ∃ o, Ends handled (startFetch r n it.fetching limit >>= afterFetch r n it s) o l := by
  obtain ⟨o,hends,hempty⟩ := hl
  cases o with
  | error j => exact ⟨_,ends_bind_error hends⟩
  | ok ds =>
    rw [hempty ds rfl] at hends
    obtain ⟨o,hafter⟩ := ends_afterEmpty (r := r) (n := n) s it
    exact ⟨o,(ends_bind hends hafter).congr (List.append_nil l)⟩

theorem ends_cycle_handed (limit : ℕ) (hend : it.fetching.fetchEnd = .ok ds)
    (hwait : it.fetching.wait = .fetch) (hstop : it.fetching.stopRequested = false)
    (hne : ds ≠ []) :
    ∃ o l, Ends handled (startFetch r n it.fetching limit >>= afterFetch r n it s) o l ∧
      (Covered n l ds ↔ HandedOver r it.fetching ds.length) := by
  have hattempt := ends_takeFetched (r := r) (n := n) hend hwait hstop
  unfold HandedOver
  cases hclean : it.fetching.cleanupCancelled with
  | true =>
    have hlost := ends_lost limit hattempt (by simp [hwait]) hclean
    refine ⟨_,_,ends_bind_error hlost,?_⟩
    rw [covered_nil]
    exact iff_of_false hne fun h => by cases h.1
  | false =>
    have hfetched := ends_returned limit hattempt (.inr hclean)
    have hevents := ends_emitBatchEvent (r := r) (n := n) (c := it.fetching) ds
    obtain ⟨d,rest,rfl⟩ := List.exists_cons_of_ne_nil hne
    cases hpath : first (eventsPath r it.fetching (d::rest).length) with
    | error j =>
      rw [hpath] at hevents
      refine ⟨_,_,ends_bind hfetched (ends_bind_error hevents),?_⟩
      rw [List.append_nil,covered_nil]
      exact iff_of_false hne fun h => by cases h.2.1
    | ok u =>
      rw [hpath] at hevents
      have hstart := ends_startDeliveries (n := n) (c := it.fetching) 0 (d::rest)
      refine ⟨_,_,ends_bind hfetched (ends_bind hevents (ends_bind hstart (ends_pure true))),?_⟩
      rw [List.nil_append,List.nil_append,List.append_nil,covered_started]
      simp

/-- One fetch loses nothing exactly under the condition. -/
theorem cycle_covered_iff (it : Iteration D) (hend : it.fetching.fetchEnd = .ok ds) (hne : ds ≠ [])
    (hrun : it.fetching.stopped = false) :
    ∃ o l, Ends handled (fetchCycle r n it s) o l ∧ (Covered n l ds ↔ Keeps r it.fetching) := by
  have hreturned := returned_eq hend
  have hcycle : fetchCycle r n it s =
      startFetch r n it.fetching (r.concurrency-s.inflight) >>= afterFetch r n it s := by
    unfold fetchCycle fetchDeliveries
    simp only [hrun,Bool.false_eq_true,if_false]
  unfold Keeps
  rw [hcycle,hreturned]
  simp only [hrun,hne,Bool.false_eq_true,false_or]
  cases hwait : it.fetching.wait with
  | fetch =>
    by_cases hstop : it.fetching.stopRequested = true
    · obtain ⟨l,hl,hcovered⟩ := retained_released (r := r) (n := n)
        (r.concurrency-s.inflight) hend hwait hstop
      obtain ⟨o,hends⟩ := ends_cycle_retained s hl
      exact ⟨o,l,hends,by simpa [hstop] using hcovered⟩
    · obtain ⟨o,l,hends,hcovered⟩ := ends_cycle_handed (r := r) (n := n) s
        (r.concurrency-s.inflight) hend hwait (by simpa using hstop) hne
      exact ⟨o,l,hends,by simpa [hstop] using hcovered⟩
  | stop =>
    obtain ⟨l,hl,hcovered⟩ := retained_abandoned (r := r) (n := n)
      (r.concurrency-s.inflight) hend (by rw [hwait]; rfl) hne
    obtain ⟨o,hends⟩ := ends_cycle_retained s hl
    exact ⟨o,l,hends,hcovered⟩
  | both =>
    obtain ⟨l,hl,hcovered⟩ := retained_abandoned (r := r) (n := n)
      (r.concurrency-s.inflight) hend (by rw [hwait]; rfl) hne
    obtain ⟨o,hends⟩ := ends_cycle_retained s hl
    exact ⟨o,l,hends,hcovered⟩
  | cancelled fetchDone =>
    obtain ⟨l,hl,hcovered⟩ := retained_recovered (r := r) (n := n)
      (r.concurrency-s.inflight) hend hwait hne
    obtain ⟨o,hends⟩ := ends_cycle_retained s hl
    exact ⟨o,l,hends,hcovered⟩

end Condition

section Runs
variable {α β : Type}

theorem mem_handled {log : List (Act D)} {cycle i : ℕ} {d : D} :
    (cycle,i,d) ∈ log.filterMap handled ↔ .execute cycle i d ∈ log ∨ .release cycle i d ∈ log := by
  rw [List.mem_filterMap]
  constructor
  · rintro ⟨a,ha,hh⟩
    cases a with
    | release cycle' i' d' =>
      cases hh
      exact .inr ha
    | execute cycle' i' d' =>
      cases hh
      exact .inl ha
    | _ => cases hh
  · rintro (h | h)
    · exact ⟨_,h,rfl⟩
    · exact ⟨_,h,rfl⟩

theorem Handled.mono {log log' : List (Act D)} {cycle : ℕ} {ds : List D} (h : Handled log cycle ds)
    (hsub : ∀ a ∈ log, a ∈ log') : Handled log' cycle ds :=
  fun i d hd => (h i d hd).imp (hsub _) (hsub _)

theorem nothingDropped_append {log log' : List (Act D)} (h : NothingDropped log)
    (h' : NothingDropped log') : NothingDropped (log++log') := by
  intro cycle limit ds hin
  rcases List.mem_append.mp hin with hin | hin
  · exact (h cycle limit ds hin).mono fun a ha => List.mem_append_left _ ha
  · exact (h' cycle limit ds hin).mono fun a ha => List.mem_append_right _ ha

/-- From every state, nothing is dropped. -/
def Settles (p : Loop D α) : Prop := ∀ s, NothingDropped (p.run s).calls

def NoFetch (a : Act D) : Prop := ∀ cycle limit ds, a ≠ .fetch cycle limit ds

variable {p : Loop D α}

theorem settles_of_only (h : Only NoFetch p) : Settles p :=
  fun s cycle limit ds hin => absurd rfl (h s _ hin cycle limit ds)

theorem settles_bind {f : α → Loop D β} (hp : Settles p) (hf : ∀ a, Settles (f a)) :
    Settles (p >>= f) := by
  intro s
  cases hr : (p.run s).result with
  | ok a =>
    rw [bind_of_ok hr]
    exact nothingDropped_append (hp s) (hf a _)
  | error i =>
    rw [bind_of_error hr]
    exact hp s

theorem settles_handle {h : Interrupt Exn → Loop D α} (hp : Settles p) (hh : ∀ i, Settles (h i)) :
    Settles (handle p h) := by
  intro s
  cases hr : (p.run s).result with
  | ok a =>
    rw [handle_of_ok hr]
    exact hp s
  | error i =>
    rw [handle_of_error hr]
    exact nothingDropped_append (hp s) (hh i _)

theorem settles_ensure {q : Loop D Unit} (hp : Settles p) (hq : Settles q) : Settles (ensure p q) :=
  settles_bind (settles_handle hp fun _ => settles_bind hq fun _ => settles_of_only (only_lift _))
    fun _ => settles_bind hq fun _ => settles_of_only (only_pure _)

variable {r n c} {it : Iteration D}

theorem only_suspend (point : Point) (o : Outcome Exn α) :
    Only NoFetch (call (.suspend point) o : Loop D α) := only_call fun _ _ _ h => by cases h

theorem only_resolveFetchTask (phase : Phase) (done : Bool) :
    Only NoFetch (resolveFetchTask r c phase done) := by
  refine only_attempt (only_suspend _ _) fun e => ?_
  cases e.connector with
  | none => exact only_lift _
  | some exc =>
    refine only_ite (only_lift _) (only_bind ?_ fun _ => only_pure _)
    refine only_ite (only_pure _) (only_attempt (only_suspend _ _) fun e => ?_)
    exact only_ite (only_pure _) (only_lift _)

theorem only_releaseUnstartedDeliveries (phase : Phase) (i : ℕ) (ds : List D) :
    Only NoFetch (releaseUnstartedDeliveries n c phase i ds) := by
  induction ds generalizing i with
  | nil => exact only_pure ()
  | cons d ds ih =>
    refine only_bind (only_suppress (only_call ?_)) fun _ => ih (i+1)
    exact fun _ _ _ h => by cases h

theorem only_cancelOrReleaseFetch (done : Bool) : Only NoFetch (cancelOrReleaseFetch r n c done) :=
  only_ite (only_suspend _ _) (only_bind (only_resolveFetchTask _ _) fun _ =>
    only_releaseUnstartedDeliveries _ _ _)

theorem only_fetchAttempt : Only NoFetch (fetchAttempt r n c) := by
  refine only_bind (only_suspend _ _) fun _ => only_ite (only_bind ?_ fun _ => only_pure _) ?_
  · exact only_ite (only_suspend _ _) (only_bind (only_resolveFetchTask _ _) fun _ =>
      only_releaseUnstartedDeliveries _ _ _)
  · refine only_bind (only_resolveFetchTask _ _) fun ds => ?_
    exact only_ite (only_bind (only_releaseUnstartedDeliveries _ _ _) fun _ => only_pure _)
      (only_pure _)

theorem only_cleanup : Only NoFetch (cleanup c) :=
  only_bind (only_assign _) fun _ => only_ite (only_pure _) (only_suspend _ _)

theorem only_startDeliveries (i : ℕ) (ds : List D) : Only NoFetch (startDeliveries n c i ds) := by
  induction ds generalizing i with
  | nil => exact only_pure ()
  | cons d ds ih =>
    refine only_bind (only_bind (only_assign _) fun _ => ?_) fun _ => ih (i+1)
    exact only_ite (only_call fun _ _ _ h => by cases h) (only_pure _)

theorem only_afterFetch (s : RunnerState) (ds : List D) : Only NoFetch (afterFetch r n it s ds) := by
  cases ds with
  | nil => exact only_ite (only_pure _) (only_bind (only_suspend _ _) fun _ => only_pure _)
  | cons d ds =>
    refine only_bind (only_forEach fun i => ?_) fun _ =>
      only_bind (only_startDeliveries _ _) fun _ => only_pure _
    exact only_bind (only_lift _) fun _ => only_forEach fun _ =>
      only_suppress (only_call fun _ _ _ h => by cases h)

theorem only_fetchCycle (s : RunnerState) :
    Only (fun a => ∀ cycle limit ds, a = .fetch cycle limit ds →
      cycle = n ∧ ds = it.fetching.returned ∧ it.fetching.stopped = false)
      (fetchCycle r n it s) := by
  have hnone : ∀ {α : Type} {p : Loop D α}, Only NoFetch p →
      Only (fun a => ∀ cycle limit ds, a = .fetch cycle limit ds →
        cycle = n ∧ ds = it.fetching.returned ∧ it.fetching.stopped = false) p :=
    fun h => h.mono fun a ha cycle limit ds he => absurd he (ha cycle limit ds)
  refine only_bind ?_ fun ds => hnone (only_afterFetch s ds)
  unfold fetchDeliveries
  cases hstopped : it.fetching.stopped with
  | true => exact only_pure _
  | false =>
    refine only_bind (only_assign _) fun _ => only_bind (only_call ?_) fun _ => ?_
    · intro cycle limit ds h
      cases h
      exact ⟨rfl,rfl,rfl⟩
    · refine Only.mono (P := NoFetch) (only_ensure (only_onCancelled only_fetchAttempt
        (only_cancelOrReleaseFetch _)) only_cleanup) fun a ha cycle limit ds he => ?_
      exact absurd he (ha cycle limit ds)

/-- A fetch that meets the condition drops nothing. -/
theorem settles_fetchCycle (h : Keeps r it.fetching) (s : RunnerState) :
    Settles (fetchCycle r n it s) := by
  intro t cycle limit ds hin
  obtain ⟨rfl,rfl,hrun⟩ := only_fetchCycle s t _ hin cycle limit ds rfl
  intro i d hd
  cases hend : it.fetching.fetchEnd with
  | error e => simp [Fetching.returned,hend] at hd
  | ok ds =>
    rw [returned_eq hend] at hd
    have hne : ds ≠ [] := by
      rintro rfl
      simp at hd
    obtain ⟨o,l,hends,hcovered⟩ := cycle_covered_iff (r := r) (n := cycle) s it hend hne hrun
    have hmem := hcovered.mpr h i d hd
    rw [← (hends t).2] at hmem
    exact mem_handled.mp hmem

theorem settles_iteration (h : Keeps r it.fetching) : Settles (iteration r n it) := by
  refine settles_bind (settles_of_only (only_assign _)) fun _ => ?_
  refine settles_bind (settles_of_only only_current) fun s => ?_
  split
  · refine settles_of_only (only_ite (only_bind (only_suspend _ _) fun _ => only_pure _) ?_)
    exact only_bind (only_assign _) fun _ => only_bind (only_suspend _ _) fun _ => only_pure _
  · split
    · refine settles_of_only (only_ite (only_bind (only_suspend _ _) fun _ => only_pure _) ?_)
      refine only_bind (only_assign _) fun _ => only_attempt
        (only_bind (only_suspend _ _) fun _ => only_pure _) fun e => ?_
      exact only_ite (only_pure _) (only_lift _)
    · refine settles_bind (settles_of_only (only_assign _)) fun _ => ?_
      refine settles_bind (settles_of_only (only_ite (only_suspend _ _) (only_pure _))) fun _ => ?_
      refine settles_bind (settles_of_only (only_assign _)) fun _ => ?_
      split
      · exact settles_of_only (only_bind (only_suspend _ _) fun _ => only_pure _)
      · exact settles_fetchCycle h s

theorem settles_runLoop {its : List (Iteration D)} (h : ∀ it ∈ its, Keeps r it.fetching) (n : ℕ) :
    Settles (runLoop r n its) := by
  induction its generalizing n with
  | nil => exact settles_of_only (only_pure ())
  | cons it its ih =>
    refine settles_bind (settles_iteration (h it List.mem_cons_self)) fun goOn => ?_
    split
    · exact ih (fun it hit => h it (List.mem_cons_of_mem _ hit)) (n+1)
    · exact settles_of_only (only_pure ())

theorem settles_run {its : List (Iteration D)} (h : ∀ it ∈ its, Keeps r it.fetching)
    (drained : Outcome Exn Unit) : Settles (run r its drained) := by
  refine settles_ensure (settles_runLoop h 0) (settles_of_only ?_)
  exact only_bind (only_assign _) fun _ => only_bind only_current fun s =>
    only_ite (only_pure _) (only_suspend _ _)

/-- In every run whose fetches all meet the condition, every delivery that a
fetch returned is executed or released. -/
theorem run_drops_nothing (r : Runner) (its : List (Iteration D)) (drained : Outcome Exn Unit)
    (h : ∀ it ∈ its, Keeps r it.fetching) (s : RunnerState) :
    NothingDropped ((run r its drained).run s).calls := settles_run h drained s

end Runs

section Samples

/-- Nothing is cancelled, raises or stops, and the fetch returns delivery 7. -/
def undisturbed : Fetching ℕ where
  stopped := false
  fetchEnd := .ok [7]
  wait := .fetch
  interrupted _ := false
  gatherCancelled _ := false
  backoff _ := .ok ()
  isStopping _ := false
  stopRequested := false
  release _ _ := .ok ()
  cleanupCancelled := false
  copyMeta _ := .ok ()
  handler _ _ := .ok ()
  starts _ := true

def cycling (c : Fetching ℕ) : Iteration ℕ where
  finished := 0
  draining := false
  paused := false
  pause := .ok ()
  resume := .ok ()
  fetching := c
  isStopping := false

def single : Runner where
  source := {}
  concurrency := 1
  eventHandlers := 1

end Samples

/-- A stop is requested while the first fetch returns; the wait for the second is cancelled
once its batch is there. -/
def stoppedThenCancelled : List (Iteration ℕ) :=
  [cycling {undisturbed with stopRequested := true},
    cycling {undisturbed with fetchEnd := .ok [8], wait := .cancelled true}]

theorem stoppedThenCancelled_keeps : ∀ it ∈ stoppedThenCancelled, Keeps single it.fetching := by
  intro it hit
  rcases List.mem_cons.mp hit with rfl | hit
  · exact .inr (.inr (.inl fun _ _ => rfl))
  · rw [List.mem_singleton.mp hit]
    exact .inr (.inr ⟨.inl rfl,fun _ _ => rfl⟩)

/-- Both deliveries are released. -/
theorem stoppedThenCancelled_drops_nothing :
    Act.release 0 0 7 ∈ ((run single stoppedThenCancelled (.ok ())).run {}).calls ∧
      Act.release 1 0 8 ∈ ((run single stoppedThenCancelled (.ok ())).run {}).calls ∧
      NothingDropped ((run single stoppedThenCancelled (.ok ())).run {}).calls :=
  ⟨by decide +kernel,by decide +kernel,
    run_drops_nothing single _ _ stoppedThenCancelled_keeps {}⟩

/-- A pause was requested while the fetch returned, and both tasks were done
when the wait was over. -/
def pausedMeanwhile : Fetching ℕ := {undisturbed with wait := .both, stopRequested := true}

/-- The pause drops what was fetched. -/
theorem pausedMeanwhile_drops :
    ¬NothingDropped ((run single [cycling pausedMeanwhile] (.ok ())).run {}).calls := by
  intro h
  have hfetch : Act.fetch 0 1 [7] ∈ ((run single [cycling pausedMeanwhile] (.ok ())).run {}).calls := by
    decide +kernel
  have hnone : ¬(Act.execute 0 0 7 ∈ ((run single [cycling pausedMeanwhile] (.ok ())).run {}).calls ∨
      Act.release 0 0 7 ∈ ((run single [cycling pausedMeanwhile] (.ok ())).run {}).calls) := by
    decide +kernel
  exact hnone (h 0 1 [7] hfetch 0 7 rfl)

end OneStep.FetchedDeliveries
