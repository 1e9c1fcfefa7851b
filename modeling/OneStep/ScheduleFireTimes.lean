import OneStep.ScheduleOverlap

/-!
# Fire times are handed out

A fetch collects every run that became due and moves the next fire time past all
of them, and hands out as many as it was asked for. With `allow` the rest is
gone, and so are the runs collected before a search for the next fire time or a
payload raises. When neither happens, the runs handed out are the fire times of
the schedule, and with `queue` those that are missing were pushed out of a full
queue. The runs are those of a clock that does not go back, as the timezone of the
source shows it: when that is set back, more is handed out than is due.
-/
namespace OneStep.ScheduleFireTimes
open ScheduleSource ScheduleOverlap Transition

variable {cfg : Settings} {s s' : State} {op : Op}

section FireTimes
variable (schedule : Schedule) (now : ℤ)

/-- At most so many fire times up to now, from one of them on. -/
def fires : ℕ → ℤ → List ℤ
  | 0,_ => []
  | n+1,t =>
    if t ≤ now then t::((schedule.nextFireAfter t).elim [] (fires n))
    else []

/-- All fire times up to now, from the first one on: they are a microsecond apart. -/
def fireTimes (first : ℤ) : List ℤ := fires schedule now (now+1-first).toNat first

/-- The fire times from one of them until another. -/
def Passed : ℤ → List ℤ → ℤ → Prop
  | t,[],next => t = next
  | t,u::us,next => t = u ∧ ∃ t', schedule.nextFireAfter t = some t' ∧ Passed t' us next

variable {schedule now} {t : ℤ} {l : List ℤ}

theorem Passed.append {u v : ℤ} {m : List ℤ} (h : Passed schedule t l u)
    (hm : Passed schedule u m v) : Passed schedule t (l++m) v := by
  induction l generalizing t with
  | nil =>
    cases h
    exact hm
  | cons a l ih =>
    obtain ⟨ha,t',ht',hrest⟩ := h
    exact ⟨ha,t',ht',ih hrest⟩

theorem fires_of_lt {n : ℕ} (h : now < t) : fires schedule now n t = [] := by
  cases n with
  | zero => rfl
  | succ n => rw [fires,if_neg (by omega)]

theorem fires_enough {n m : ℕ} (hn : now+1-t ≤ n) (hm : now+1-t ≤ m) :
    fires schedule now n t = fires schedule now m t := by
  induction n generalizing m t with
  | zero =>
    have hlt : now < t := by omega
    rw [fires_of_lt hlt,fires_of_lt hlt]
  | succ n ih =>
    by_cases hle : t ≤ now
    · obtain ⟨m,rfl⟩ : ∃ m', m = m'+1 := ⟨m-1,by omega⟩
      rw [fires,fires,if_pos hle,if_pos hle]
      cases ht : schedule.nextFireAfter t with
      | none => rfl
      | some t' =>
        have hahead := schedule.ahead t t' ht
        simp only [Option.elim_some]
        rw [ih (t := t') (m := m) (by omega) (by omega)]
    · rw [fires_of_lt (by omega),fires_of_lt (by omega)]

variable {next : ℤ}

theorem Passed.fires_eq (h : Passed schedule t l next) (hdue : ∀ u ∈ l, u ≤ now) (k : ℕ) :
    fires schedule now (l.length+k) t = l++fires schedule now k next := by
  induction l generalizing t with
  | nil =>
    cases h
    rw [List.length_nil,Nat.zero_add,List.nil_append]
  | cons a l ih =>
    obtain ⟨rfl,t',ht',hrest⟩ := h
    have hrest' := ih hrest fun u hu => hdue u (List.mem_cons_of_mem _ hu)
    rw [List.length_cons,show l.length+1+k = l.length+k+1 by omega,fires,
      if_pos (hdue t List.mem_cons_self),ht',Option.elim_some,hrest',List.cons_append]

theorem Passed.length_le (h : Passed schedule t l next) : t+l.length ≤ next := by
  induction l generalizing t with
  | nil =>
    cases h
    simp
  | cons a l ih =>
    obtain ⟨-,t',ht',hrest⟩ := h
    have hahead := schedule.ahead t t' ht'
    have hlater := ih hrest
    rw [List.length_cons]
    omega

/-- The fire times so far are those that passed and those that are still due. -/
theorem Passed.fireTimes_eq {first : ℤ} (h : Passed schedule first l next)
    (hdue : ∀ u ∈ l, u ≤ now) : fireTimes schedule now first = l++fireTimes schedule now next := by
  have hlen := h.length_le
  have hroom := h.fires_eq hdue (now+1-first).toNat
  have hfirst : fires schedule now (now+1-first).toNat first =
      fires schedule now (l.length+(now+1-first).toNat) first := fires_enough (by omega) (by omega)
  have hnext : fires schedule now (now+1-first).toNat next =
      fires schedule now (now+1-next).toNat next := fires_enough (by omega) (by omega)
  unfold fireTimes
  rw [hfirst,hroom,hnext]

theorem fireTimes_of_lt (h : now < next) : fireTimes schedule now next = [] :=
  fires_of_lt h

theorem fires_ge {n : ℕ} {u : ℤ} (h : u ∈ fires schedule now n t) : t ≤ u := by
  induction n generalizing t with
  | zero => cases h
  | succ n ih =>
    rw [fires] at h
    split at h
    · rcases List.mem_cons.mp h with rfl | h
      · exact le_rfl
      · cases ht : schedule.nextFireAfter t with
        | none =>
          rw [ht] at h
          cases h
        | some t' =>
          rw [ht] at h
          have hahead := schedule.ahead t t' ht
          have hlater := ih h
          omega
    · cases h

theorem fires_ascending (n : ℕ) (t : ℤ) : (fires schedule now n t).Pairwise (· < ·) := by
  induction n generalizing t with
  | zero => exact .nil
  | succ n ih =>
    rw [fires]
    split
    · cases ht : schedule.nextFireAfter t with
      | none => exact List.pairwise_singleton _ _
      | some t' =>
        have hahead := schedule.ahead t t' ht
        refine .cons (fun u hu => ?_) (ih t')
        have hlater := fires_ge hu
        omega
    · exact .nil

end FireTimes

section Collect
variable {schedule : Schedule} {now : ℤ}

theorem collect_ok {n : ℕ} {t next : ℤ} {due : List ℤ}
    (h : collect schedule now n t = .ok (due,next)) :
    due = fires schedule now n t ∧ Passed schedule t due next ∧ (∀ u ∈ due, u ≤ now) ∧
      (due.length < n → now < next) := by
  induction n generalizing t due with
  | zero =>
    cases h
    exact ⟨rfl,rfl,by simp,by simp⟩
  | succ n ih =>
    rw [collect] at h
    split at h
    · next hle =>
        cases ht : schedule.nextFireAfter t with
        | none =>
          rw [ht] at h
          cases h
        | some t' =>
          rw [ht] at h
          cases hrest : collect schedule now n t' with
          | error e =>
            simp only [hrest] at h
            cases h
          | ok r =>
            simp only [hrest] at h
            cases h
            obtain ⟨hfires,hpassed,hdue,hmore⟩ := ih hrest
            refine ⟨?_,⟨rfl,t',ht,hpassed⟩,?_,?_⟩
            · rw [fires,if_pos hle,ht,Option.elim_some,← hfires]
            · intro u hu
              rcases List.mem_cons.mp hu with rfl | hu
              · exact hle
              · exact hdue u hu
            · intro hlt
              rw [List.length_cons] at hlt
              exact hmore (by omega)
    · next hlt =>
        cases h
        rw [fires,if_neg hlt]
        exact ⟨rfl,rfl,by simp,fun _ => by omega⟩

/-- A search that raises did so at the first run that is due, or at a later one. -/
theorem collect_error {n : ℕ} {t u : ℤ} (h : collect schedule now n t = .error u) :
    schedule.nextFireAfter u = none ∧ u ∈ fires schedule now n t ∧
      (u = t ∨ 2 ≤ (fires schedule now n t).length) := by
  induction n generalizing t with
  | zero => cases h
  | succ n ih =>
    rw [collect] at h
    split at h
    · next hle =>
        rw [fires,if_pos hle]
        cases ht : schedule.nextFireAfter t with
        | none =>
          rw [ht] at h
          cases h
          exact ⟨ht,List.mem_cons_self,.inl rfl⟩
        | some t' =>
          rw [ht] at h
          cases hrest : collect schedule now n t' with
          | error e =>
            simp only [hrest] at h
            cases h
            obtain ⟨hnone,hmem,-⟩ := ih hrest
            refine ⟨hnone,List.mem_cons_of_mem _ hmem,.inr ?_⟩
            have hpos := List.length_pos_of_mem hmem
            rw [List.length_cons,Option.elim_some]
            omega
          | ok r =>
            simp only [hrest] at h
            cases h
    · cases h

end Collect

section Queue
variable {most : ℕ} {fired queued passed : List ℤ} {dropped : List (List ℤ)}

/-- Of the fire times that passed, those handed out come before those queued, and
the others were each the oldest of a queue that was full. -/
structure Kept (most : ℕ) (fired queued passed : List ℤ) (dropped : List (List ℤ)) : Prop where
  ordered : (fired++queued).Sublist passed
  bounded : queued.length ≤ most
  missing : ∀ t ∈ passed, t ∈ fired ∨ t ∈ queued ∨
    ∃ q ∈ dropped, q.head? = some t ∧ most ≤ q.length

theorem Kept.pop {t : ℤ} (h : Kept most fired (t::queued) passed dropped) :
    Kept most (fired++[t]) queued passed dropped := by
  constructor
  · rw [List.append_assoc]
    exact h.ordered
  · have hbounded := h.bounded
    rw [List.length_cons] at hbounded
    omega
  · intro u hu
    rcases h.missing u hu with hfired | hqueued | hdropped
    · exact .inl (List.mem_append_left _ hfired)
    · rcases List.mem_cons.mp hqueued with rfl | hqueued
      · exact .inl (List.mem_append_right _ List.mem_cons_self)
      · exact .inr (.inl hqueued)
    · exact .inr (.inr hdropped)

theorem Kept.due {t : ℤ} (h : Kept most fired [] passed dropped) :
    Kept most (fired++[t]) [] (passed++[t]) dropped := by
  constructor
  · have hordered := h.ordered
    rw [List.append_nil] at hordered ⊢
    exact hordered.append (List.Sublist.refl [t])
  · exact Nat.zero_le most
  · intro u hu
    rcases List.mem_append.mp hu with hu | hu
    · rcases h.missing u hu with hfired | hqueued | hdropped
      · exact .inl (List.mem_append_left _ hfired)
      · cases hqueued
      · exact .inr (.inr hdropped)
    · exact .inl (List.mem_append_right _ hu)

theorem mem_drop_or_head {l : List ℤ} {t : ℤ} (h : t ∈ l) (k : ℕ) :
    t ∈ l.drop k ∨ ∃ i < k, (l.drop i).head? = some t := by
  obtain ⟨i,hi,rfl⟩ := List.mem_iff_getElem.mp h
  by_cases hk : k ≤ i
  · refine .inl (List.mem_iff_getElem.mpr ⟨i-k,?_,?_⟩)
    · rw [List.length_drop]
      omega
    · rw [List.getElem_drop]
      congr 1
      omega
  · refine .inr ⟨i,by omega,?_⟩
    rw [List.head?_drop,List.getElem?_eq_getElem hi]

theorem Kept.queueRuns (h : Kept most fired queued passed dropped) (runs : List ℤ) :
    Kept most fired ((queued++runs).drop ((queued++runs).length-most)) (passed++runs)
      (dropped++(List.range ((queued++runs).length-most)).map fun k => (queued++runs).drop k) := by
  constructor
  · have hall := h.ordered.append (List.Sublist.refl runs)
    rw [List.append_assoc] at hall
    exact ((List.Sublist.refl fired).append (List.drop_sublist _ _)).trans hall
  · rw [List.length_drop]
    omega
  · intro t ht
    have hold : t ∈ fired ∨ t ∈ queued++runs ∨
        ∃ q ∈ dropped, q.head? = some t ∧ most ≤ q.length := by
      rcases List.mem_append.mp ht with ht | ht
      · rcases h.missing t ht with hfired | hqueued | hdropped
        · exact .inl hfired
        · exact .inr (.inl (List.mem_append_left _ hqueued))
        · exact .inr (.inr hdropped)
      · exact .inr (.inl (List.mem_append_right _ ht))
    rcases hold with hfired | hqueued | ⟨q,hq,hhead⟩
    · exact .inl hfired
    · rcases mem_drop_or_head hqueued ((queued++runs).length-most) with hkept | ⟨i,hi,hhead⟩
      · exact .inr (.inl hkept)
      · refine .inr (.inr ⟨(queued++runs).drop i,List.mem_append_right _ ?_,hhead,?_⟩)
        · exact List.mem_map.mpr ⟨i,List.mem_range.mpr hi,rfl⟩
        · rw [List.length_drop]
          omega
    · exact .inr (.inr ⟨q,List.mem_append_left _ hq,hhead⟩)

end Queue

section Fetch
variable {source : Source} {payload : ℕ → Bool} {now first : ℤ} {limit : ℕ} {fired passed : List ℤ}

/-- What the fire times that passed came to. -/
def Accounted (cfg : Settings) (fired : List ℤ) (source : Source) (passed : List ℤ) : Prop :=
  match cfg.overlap with
  | .allow => fired = passed
  | .queue => Kept cfg.maxQueuedRuns fired source.queuedRuns passed source.dropped
  | .skip => True

/-- Every fire time before the next one is accounted for. -/
def OnTime (cfg : Settings) (now first : ℤ) (fired : List ℤ) (source : Source) : Prop :=
  ∃ passed next, source.nextFireAt = some next ∧ Passed cfg.schedule first passed next ∧
    (∀ t ∈ passed, t ≤ now) ∧ Accounted cfg fired source passed

/-- A queued run is handed out. -/
def Pops (cfg : Settings) (source : Source) : Prop :=
  cfg.overlap = .queue ∧ source.inflight = 0 ∧ source.queuedRuns ≠ []

/-- The payloads are built; and where due runs are collected, all of them are asked
for with `allow`, and the search behind two or more of them does not raise. -/
structure Fits (cfg : Settings) (source : Source) (payload : ℕ → Bool) (now : ℤ) (limit : ℕ) :
    Prop where
  built : ∀ i < limit, payload i = true
  asked : cfg.overlap = .allow → ∀ next ∈ source.nextFireAt,
    (fires cfg.schedule now maxDue next).length ≤ limit
  found : ¬Pops cfg source → ∀ next ∈ source.nextFireAt,
    2 ≤ (fires cfg.schedule now maxDue next).length →
      ∀ t ∈ fires cfg.schedule now maxDue next, cfg.schedule.nextFireAfter t ≠ none

theorem makeAll_all (i : ℕ) (ts : List ℤ) (source : Source)
    (hbuilt : ∀ j < i+ts.length, payload j = true) :
    ∃ es, makeAll payload i ts source = ({source with
        sequence := source.sequence+ts.length
        inflight := source.inflight+ts.length},some es) ∧
      es.map Envelope.scheduledAt = ts ∧ ∀ e ∈ es, e.attempts = 0 := by
  induction ts generalizing i source with
  | nil => exact ⟨[],rfl,rfl,by simp⟩
  | cons t ts ih =>
    rw [List.length_cons] at hbuilt
    obtain ⟨es,hes,htimes,hfresh⟩ :=
      ih (i+1) (source.make t).1 fun j hj => hbuilt j (by omega)
    refine ⟨(source.make t).2::es,?_,?_,?_⟩
    · rw [makeAll,if_pos (hbuilt i (by omega)),hes]
      simp only [Source.make,List.length_cons,Option.map_some,Prod.mk.injEq,and_true]
      congr 1
      · omega
      · omega
    · rw [List.map_cons,htimes]
      rfl
    · intro e he
      rcases List.mem_cons.mp he with rfl | he
      · rfl
      · exact hfresh e he

/-- What a fetch returns are first attempts, and they are accounted for. -/
structure Served (cfg : Settings) (fired passed : List ℤ) (source : Source)
    (r : Source × Option (List Envelope)) : Prop where
  accounted : Accounted cfg (fired++(r.2.getD []).map Envelope.scheduledAt) r.1 passed
  next : r.1.nextFireAt = source.nextFireAt
  fresh : ∀ e ∈ r.2.getD [], e.attempts = 0

theorem served_nil (h : Accounted cfg fired source passed) :
    Served cfg fired passed source (source,some []) :=
  ⟨by simpa using h,rfl,by simp⟩

theorem handleDueRuns_served (source : Source) (due : List ℤ) (limit : ℕ)
    (hlimit : 1 ≤ limit) (hbuilt : ∀ i < limit, payload i = true)
    (hasked : cfg.overlap = .allow → due.length ≤ limit) (hpops : ¬Pops cfg source)
    (h : Accounted cfg fired source passed) :
    Served cfg fired (passed++due) source (source.handleDueRuns cfg payload due limit) ∧
      (cfg.overlap = .allow → (source.handleDueRuns cfg payload due limit).2 = some [] →
        due = []) := by
  have hone : ∀ t : ℤ, ∀ j < 0+[t].length, payload j = true := by
    intro t j hj
    refine hbuilt j ?_
    simp only [List.length_singleton] at hj
    omega
  unfold Source.handleDueRuns
  cases hcfg : cfg.overlap with
  | allow =>
    cases due with
    | nil => exact ⟨served_nil (by simpa using h),fun _ _ => rfl⟩
    | cons t ts =>
      have hlen := hasked hcfg
      obtain ⟨es,hes,htimes,hfresh⟩ := makeAll_all 0 (t::ts) source
        fun j hj => hbuilt j (by omega)
      dsimp only
      rw [List.take_of_length_le hlen,hes]
      unfold Accounted at h
      rw [hcfg] at h
      refine ⟨⟨?_,rfl,hfresh⟩,fun _ hnil => ?_⟩
      · unfold Accounted
        rw [hcfg]
        change fired++es.map Envelope.scheduledAt = _
        rw [htimes,h]
      · cases hnil
        cases htimes
  | skip =>
    refine ⟨?_,fun hallow => absurd hallow (by decide)⟩
    have haccounted : ∀ fired source passed, Accounted cfg fired source passed := by
      intro fired source passed
      unfold Accounted
      rw [hcfg]
      trivial
    cases due with
    | nil => exact served_nil (haccounted _ _ _)
    | cons t ts =>
      dsimp only
      split
      · exact served_nil (haccounted _ _ _)
      · obtain ⟨es,hes,htimes,hfresh⟩ :=
          makeAll_all 0 [(t::ts).getLast (List.cons_ne_nil t ts)] source (hone _)
        rw [hes]
        exact ⟨haccounted _ _ _,rfl,hfresh⟩
  | queue =>
    refine ⟨?_,fun hallow => absurd hallow (by decide)⟩
    unfold Accounted at h
    rw [hcfg] at h
    have haccounted : ∀ {fired source passed},
        Kept cfg.maxQueuedRuns fired source.queuedRuns passed source.dropped →
          Accounted cfg fired source passed := by
      intro fired source passed hkept
      unfold Accounted
      rw [hcfg]
      exact hkept
    cases due with
    | nil => exact served_nil (haccounted (by simpa using h))
    | cons t ts =>
      dsimp only
      split
      · refine ⟨haccounted ?_,rfl,by simp⟩
        rw [Option.getD_some,List.map_nil,List.append_nil]
        exact h.queueRuns (t::ts)
      · next hidle =>
          have hempty : source.queuedRuns = [] := by
            by_contra hne
            exact hpops ⟨hcfg,by omega,hne⟩
          rw [hempty] at h
          have hfirst := h.due (t := t)
          obtain ⟨es,hes,htimes,hfresh⟩ := makeAll_all 0 [t] source (hone t)
          rw [hes]
          dsimp only
          by_cases hts : ts = []
          · subst hts
            refine ⟨haccounted ?_,rfl,hfresh⟩
            simp only [if_true,Option.getD_some,htimes,hempty]
            exact hfirst
          · rw [if_neg hts]
            have hrest := hfirst.queueRuns ts
            rw [List.append_assoc,List.singleton_append] at hrest
            refine ⟨haccounted ?_,rfl,hfresh⟩
            simp only [Option.getD_some,htimes,Source.queueRuns,hempty]
            exact hrest

theorem fetchDue_onTime (hlimit : 1 ≤ limit) (hfits : Fits cfg source payload now limit)
    (h : OnTime cfg now first fired source) :
    OnTime cfg now first
        (fired++((source.fetchDue cfg payload now limit).2.getD []).map Envelope.scheduledAt)
        (source.fetchDue cfg payload now limit).1 ∧
      (∀ e ∈ (source.fetchDue cfg payload now limit).2.getD [], e.attempts = 0) ∧
      (cfg.overlap = .allow → (source.fetchDue cfg payload now limit).2 = some [] →
        ∀ next ∈ (source.fetchDue cfg payload now limit).1.nextFireAt, now < next) := by
  obtain ⟨passed,next,hnext,hpassed,hdue,haccounted⟩ := h
  unfold Source.fetchDue
  split
  · next t ts hcfg hidle hqueued =>
      obtain ⟨es,hes,htimes,hfresh⟩ := makeAll_all 0 [t] {source with queuedRuns := ts}
        fun j hj => hfits.built j (by simp only [List.length_singleton] at hj; omega)
      rw [hes]
      refine ⟨⟨passed,next,hnext,hpassed,hdue,?_⟩,hfresh,?_⟩
      · unfold Accounted at haccounted ⊢
        rw [hcfg] at haccounted ⊢
        dsimp only at haccounted ⊢
        rw [hqueued] at haccounted
        rw [Option.getD_some,htimes]
        exact haccounted.pop
      · intro hallow
        rw [hcfg] at hallow
        cases hallow
  · next hpop =>
      have hpops : ¬Pops cfg source := by
        rintro ⟨hqueue,hidle,hne⟩
        obtain ⟨t,ts,hcons⟩ := List.exists_cons_of_ne_nil hne
        exact hpop t ts hqueue hidle hcons
      rw [hnext]
      dsimp only
      cases hcollect : collect cfg.schedule now maxDue next with
      | error t =>
        obtain ⟨hnone,hmem,hlate⟩ := collect_error hcollect
        have hstart : t = next := by
          rcases hlate with hstart | htwo
          · exact hstart
          · exact absurd hnone (hfits.found hpops next hnext htwo t hmem)
        subst hstart
        refine ⟨⟨passed,t,rfl,hpassed,hdue,?_⟩,by simp,fun _ hnil => by cases hnil⟩
        rw [Option.getD_none,List.map_nil,List.append_nil]
        exact haccounted
      | ok r =>
        obtain ⟨due,next'⟩ := r
        obtain ⟨hfires,hmore,hnow,hend⟩ := collect_ok hcollect
        have hserved := handleDueRuns_served {source with nextFireAt := some next'} due limit
          hlimit hfits.built (fun hallow => hfires ▸ hfits.asked hallow next hnext) hpops haccounted
        refine ⟨⟨passed++due,next',hserved.1.next,hpassed.append hmore,?_,hserved.1.accounted⟩,
          hserved.1.fresh,?_⟩
        · intro t ht
          rcases List.mem_append.mp ht with ht | ht
          · exact hdue t ht
          · exact hnow t ht
        · intro hallow hnil u hu
          have hnone := hserved.2 hallow hnil
          have hu' : next' = u := Option.some.inj (hserved.1.next.symm.trans hu)
          rw [← hu']
          refine hend ?_
          rw [hnone]
          decide

/-- The fire times among what is handed out: no immediate run, no retried run. -/
def firedOf (es : List (Envelope × Bool)) : List ℤ :=
  (es.filter fun d => d.1.attempts == 0 && !d.2).map fun d => d.1.scheduledAt

theorem firedOf_fresh {es : List Envelope} (h : ∀ e ∈ es, e.attempts = 0) :
    firedOf (es.map fun e => (e,false)) = es.map Envelope.scheduledAt := by
  induction es with
  | nil => rfl
  | cons e es ih =>
    have hrest := ih fun u hu => h u (List.mem_cons_of_mem _ hu)
    unfold firedOf at hrest ⊢
    rw [List.map_cons,List.filter_cons_of_pos (by simp [h e List.mem_cons_self]),List.map_cons,
      hrest,List.map_cons]

theorem firedOf_eq_nil {es : List (Envelope × Bool)}
    (h : ∀ d ∈ es, d.1.attempts ≠ 0 ∨ d.2 = true) : firedOf es = [] := by
  unfold firedOf
  rw [List.map_eq_nil_iff,List.filter_eq_nil_iff]
  intro d hd
  rcases h d hd with hne | him
  · simp [hne]
  · simp [him]

/-- Without a run in flight one run that is due is handed out under every rule. -/
theorem handleDueRuns_idle (source : Source) (t : ℤ) (hidle : source.inflight = 0)
    (hlimit : 1 ≤ limit) :
    source.handleDueRuns cfg payload [t] limit = makeAll payload 0 [t] source := by
  have hnot : ¬0 < source.inflight := by omega
  unfold Source.handleDueRuns
  cases cfg.overlap with
  | allow =>
    dsimp only
    rw [List.take_of_length_le hlimit]
  | skip =>
    dsimp only
    rw [if_neg hnot,List.getLast_singleton]
  | queue =>
    dsimp only
    rw [if_neg hnot,makeAll_singleton]
    cases payload 0 with
    | false => rfl
    | true => rfl

theorem OnTime.congr {source' : Source} (h : OnTime cfg now first fired source)
    (hnext : source'.nextFireAt = source.nextFireAt)
    (hqueued : source'.queuedRuns = source.queuedRuns) (hdropped : source'.dropped = source.dropped) :
    OnTime cfg now first fired source' := by
  obtain ⟨passed,next,hnext',hpassed,hdue,haccounted⟩ := h
  refine ⟨passed,next,hnext.trans hnext',hpassed,hdue,?_⟩
  unfold Accounted at haccounted ⊢
  rw [hqueued,hdropped]
  exact haccounted

theorem OnTime.append_nil (h : OnTime cfg now first fired source) :
    OnTime cfg now first (fired++[]) source := by
  rw [List.append_nil]
  exact h

/-- A fetch without a retried run that is ready, and without the immediate run. -/
def Quiet (source : Source) (now : ℤ) (limit : ℕ) : Prop :=
  source.ready now limit = [] ∧ source.pendingImmediate = false

theorem fetch_onTime (hretried : ∀ r ∈ source.retryHeap, r.envelope.attempts ≠ 0)
    (hpending : source.pendingImmediate = true → source.retryHeap = [] ∧ source.inflight = 0)
    (hfits : Quiet source now (max 1 limit) → Fits cfg source payload now (max 1 limit))
    (h : OnTime cfg now first fired source) :
    OnTime cfg now first (fired++firedOf ((source.fetch cfg payload now limit).2.getD []))
        (source.fetch cfg payload now limit).1 ∧
      (cfg.overlap = .allow → (source.fetch cfg payload now limit).2 = some [] →
        ∀ next ∈ (source.fetch cfg payload now limit).1.nextFireAt, now < next) := by
  by_cases hready : source.ready now (max 1 limit) = []
  · unfold Source.fetch
    dsimp only
    rw [if_neg (by rw [hready]; exact fun hne => hne rfl)]
    split
    · next him =>
        obtain ⟨-,hidle⟩ := hpending him
        have hfirst : Source.handleDueRuns cfg {source with pendingImmediate := false} payload [now]
            (max 1 limit) = makeAll payload 0 [now] {source with pendingImmediate := false} :=
          handleDueRuns_idle _ now hidle (Nat.le_max_left 1 limit)
        rw [hfirst,makeAll_singleton]
        cases payload 0 with
        | false => exact ⟨(h.congr rfl rfl rfl).append_nil,fun _ hnil => by cases hnil⟩
        | true =>
          refine ⟨?_,fun _ hnil => by cases hnil⟩
          have hnone : firedOf [((Source.make {source with pendingImmediate := false} now).2,true)] = [] :=
            firedOf_eq_nil (by simp)
          simp only [if_true,List.map_cons,List.map_nil,Option.getD_some,hnone]
          exact (h.congr rfl rfl rfl).append_nil
    · next hlater =>
        have hfits' := hfits ⟨hready,Bool.eq_false_iff.mpr hlater⟩
        obtain ⟨honTime,hfresh,hlast⟩ := fetchDue_onTime (Nat.le_max_left 1 limit) hfits' h
        cases hdue : (source.fetchDue cfg payload now (max 1 limit)).2 with
        | none =>
          rw [hdue] at honTime
          exact ⟨honTime,fun _ hnil => by cases hnil⟩
        | some es =>
          rw [hdue] at honTime hfresh
          simp only [Option.map_some,Option.getD_some] at honTime hfresh ⊢
          rw [firedOf_fresh hfresh]
          refine ⟨honTime,fun hallow hnil => hlast hallow ?_⟩
          rw [hdue]
          simpa using hnil
  · rw [fetch_ready source hready]
    have hnone : firedOf ((source.ready now (max 1 limit)).map fun r => (r.envelope,false)) = [] := by
      refine firedOf_eq_nil fun d hd => ?_
      obtain ⟨r,hr,rfl⟩ := List.mem_map.mp hd
      have hheap : r ∈ source.retryHeap :=
        (List.takeWhile_sublist _).subset ((List.take_sublist _ _).subset hr)
      exact .inl (hretried r hheap)
    refine ⟨?_,fun _ hnil => ?_⟩
    · rw [Option.getD_some,hnone,List.append_nil]
      exact h
    · simp only [Option.some.injEq,List.map_eq_nil_iff] at hnil
      exact absurd hnil hready

end Fetch

section Steps

/-- The fire times handed out, in order: the scheduled times of the first attempts,
without the immediate run. -/
def fired (s : State) : List ℤ := firedOf (s.handed.map fun h => (h.envelope,h.immediate))

/-- What a fetch returns; none when it raises. -/
def returned (cfg : Settings) (s : State) (limit : ℕ) (now : ℤ) (payload : ℕ → Bool) :
    Option (List (Envelope × Bool)) :=
  if (s.initializeLocked cfg now).source.initialized then
    ((s.initializeLocked cfg now).source.fetch cfg payload now limit).2
  else none

/-- A fetch that looks for due runs loses none of them. -/
def Keeps (cfg : Settings) (s : State) : Op → Prop
  | .fetch limit now payload =>
    Quiet (s.initializeLocked cfg now).source now (max 1 limit) →
      Fits cfg (s.initializeLocked cfg now).source payload now (max 1 limit)
  | _ => True

/-- The timezone does not set the wall clock back between two readings. -/
def Onward (s : State) (op : Op) : Prop := ∀ t ∈ s.clock, ∀ now ∈ op.now, t ≤ now

def Step (cfg : Settings) (s : State) (op : Op) (s' : State) : Prop :=
  perform cfg s op = some s' ∧ Onward s op ∧ Keeps cfg s op

/-- A step at an instant of the clock. -/
def tick (cfg : Settings) (s : State × Option ℤ) (l : Op × ℤ) : Option (State × Option ℤ) :=
  (perform cfg s.1 l.1).map fun t => (t,some l.2)

/-- The clock does not go back, and a reading is what the timezone of the source makes
of an instant. -/
def Clocked (wall : ℤ → ℤ) (s : State × Option ℤ) (l : Op × ℤ) : Prop :=
  (∀ t ∈ s.2, t ≤ l.2) ∧ ∀ now ∈ l.1.now, now = wall l.2

def TimedStep (cfg : Settings) (wall : ℤ → ℤ) (allowed : State → Op → Prop)
    (s : State × Option ℤ) (l : Op × ℤ) (s' : State × Option ℤ) : Prop :=
  tick cfg s l = some s' ∧ Clocked wall s l ∧ allowed s.1 l.1

/-- A step whose reading is not before the last one, and that loses no due run. -/
def Sound (cfg : Settings) (s : State) (op : Op) : Prop := Onward s op ∧ Keeps cfg s op

theorem step_of_timed {wall : ℤ → ℤ} {s s' : State × Option ℤ} {l : Op × ℤ}
    (h : TimedStep cfg wall (Sound cfg) s l s') : Step cfg s.1 l.1 s'.1 := by
  obtain ⟨htick,-,hkeeps⟩ := h
  obtain ⟨t,ht,rfl⟩ := Option.map_eq_some_iff.mp htick
  exact ⟨ht,hkeeps⟩

theorem run_of_timed {wall : ℤ → ℤ} {s s' : State × Option ℤ} {ops : List (Op × ℤ)}
    (h : Run (TimedStep cfg wall (Sound cfg)) s ops s') :
    Run (Step cfg) s.1 (ops.map Prod.fst) s'.1 := by
  induction h with
  | nil s => exact .nil s.1
  | cons hstep _ ih => exact .cons (step_of_timed hstep) ih

theorem firedOf_append (l m : List (Envelope × Bool)) : firedOf (l++m) = firedOf l++firedOf m := by
  unfold firedOf
  rw [List.filter_append,List.map_append]

theorem fired_settle (s : State) (i : ℕ) : fired (s.settle i) = fired s := by
  unfold fired State.settle
  congr 1
  dsimp only
  generalize s.handed = l
  induction l generalizing i with
  | nil => rw [List.modify_nil]
  | cons h l ih =>
    cases i with
    | zero => rfl
    | succ i => rw [List.modify_succ_cons,List.map_cons,List.map_cons,ih]

variable {now : ℤ} {source : Source}

theorem OnTime.mono {now' first : ℤ} {fired : List ℤ} (h : OnTime cfg now first fired source)
    (hle : now ≤ now') : OnTime cfg now' first fired source := by
  obtain ⟨passed,next,hnext,hpassed,hdue,haccounted⟩ := h
  exact ⟨passed,next,hnext,hpassed,fun t ht => (hdue t ht).trans hle,haccounted⟩

/-- Besides the account: an immediate run that is pending comes before any other,
and what waits for its retry was tried. -/
structure Prompt (cfg : Settings) (s : State) : Prop where
  pending : s.source.pendingImmediate = true →
    s.handed = [] ∧ s.source.retryHeap = [] ∧ s.source.inflight = 0
  retried : ∀ r ∈ s.source.retryHeap, r.envelope.attempts ≠ 0
  untouched : s.source.initialized = false →
    s.handed = [] ∧ s.source.queuedRuns = [] ∧ s.source.dropped = [] ∧ s.firstFireAt = none
  onTime : s.source.initialized = true → ∃ first now, s.firstFireAt = some first ∧
    s.clock = some now ∧ OnTime cfg now first (fired s) s.source

theorem prompt_constructed (cfg : Settings) : Prompt cfg (constructed cfg) where
  pending _ := ⟨rfl,rfl,rfl⟩
  retried := by simp [constructed]
  untouched _ := ⟨rfl,rfl,rfl,rfl⟩
  onTime h := by cases h

theorem Prompt.tick (h : Prompt cfg s) (htimely : ∀ t ∈ s.clock, t ≤ now) :
    Prompt cfg {s with clock := some now} where
  pending := h.pending
  retried := h.retried
  untouched := h.untouched
  onTime hinit := by
    obtain ⟨first,t,hfirst,ht,honTime⟩ := h.onTime hinit
    exact ⟨first,now,hfirst,rfl,honTime.mono (htimely t ht)⟩

theorem Prompt.initializeLocked (h : Prompt cfg s) (hclock : s.clock = some now) :
    Prompt cfg (s.initializeLocked cfg now) := by
  unfold State.initializeLocked
  split
  · exact h
  · next hfresh =>
      obtain ⟨hhanded,hqueued,-⟩ := h.untouched (Bool.eq_false_iff.mpr hfresh)
      split
      · exact h
      · next first _ =>
          refine ⟨h.pending,h.retried,fun hnot => (by cases hnot),fun _ => ⟨first,now,rfl,hclock,?_⟩⟩
          refine ⟨[],first,rfl,rfl,by simp,?_⟩
          have hnone : fired s = [] := by
            unfold fired
            rw [hhanded]
            rfl
          change Accounted cfg (fired s) _ []
          rw [hnone]
          unfold Accounted
          cases cfg.overlap with
          | allow => rfl
          | skip => trivial
          | queue =>
            change Kept cfg.maxQueuedRuns [] s.source.queuedRuns [] s.source.dropped
            rw [hqueued]
            exact ⟨.slnil,Nat.zero_le _,by simp⟩

theorem fired_append (s : State) (es : List (Envelope × Bool)) :
    firedOf ((s.handed++es.map fun d => ({envelope := d.1,immediate := d.2} : Handed)).map
      fun h => (h.envelope,h.immediate)) = fired s++firedOf es := by
  rw [List.map_append,firedOf_append,List.map_map]
  congr 2
  exact List.map_id es

theorem initializeLocked_clock (s : State) (now : ℤ) :
    (s.initializeLocked cfg now).clock = s.clock := by
  unfold State.initializeLocked
  split
  · rfl
  · split <;> rfl

theorem fetch_clock (s : State) (limit : ℕ) (now : ℤ) (payload : ℕ → Bool) :
    (s.fetch cfg limit now payload).clock = s.clock := by
  unfold State.fetch
  dsimp only
  split
  · exact initializeLocked_clock s now
  · exact initializeLocked_clock s now

theorem Prompt.fetch (h : Prompt cfg s) {limit : ℕ} {payload : ℕ → Bool}
    (hclock : s.clock = some now) (hkeeps : Keeps cfg s (.fetch limit now payload)) :
    Prompt cfg (s.fetch cfg limit now payload) ∧
      (cfg.overlap = .allow → returned cfg s limit now payload = some [] →
        ∀ next ∈ (s.fetch cfg limit now payload).source.nextFireAt, now < next) := by
  have hfirst := h.initializeLocked hclock
  have hnow : (s.initializeLocked cfg now).clock = some now := by
    rw [initializeLocked_clock,hclock]
  unfold State.fetch returned
  change Quiet (s.initializeLocked cfg now).source now (max 1 limit) →
    Fits cfg (s.initializeLocked cfg now).source payload now (max 1 limit) at hkeeps
  dsimp only
  generalize s.initializeLocked cfg now = t at hfirst hnow hkeeps
  by_cases hinit : t.source.initialized = true
  · rw [if_pos hinit,if_pos hinit]
    obtain ⟨first,now',hfirstAt,hclock',honTime⟩ := hfirst.onTime hinit
    obtain rfl : now' = now := Option.some.inj (hclock'.symm.trans hnow)
    obtain ⟨hserved,hlast⟩ := fetch_onTime hfirst.retried (fun him => (hfirst.pending him).2) hkeeps
      honTime
    have hinit' : (t.source.fetch cfg payload now' limit).1.initialized = t.source.initialized :=
      fetch_initialized t.source payload now' limit
    refine ⟨⟨?_,?_,?_,?_⟩,hlast⟩
    · intro him
      by_cases hready : t.source.ready now' (max 1 limit) = []
      · rw [(fetch_undisturbed t.source payload now' limit hready).pendingImmediate] at him
        cases him
      · rw [fetch_ready t.source hready] at him
        have hheap := (hfirst.pending him).2.1
        exact absurd (by simp [Source.ready,hheap]) hready
    · intro r hr
      by_cases hready : t.source.ready now' (max 1 limit) = []
      · rw [(fetch_undisturbed t.source payload now' limit hready).retryHeap] at hr
        exact hfirst.retried r hr
      · rw [fetch_ready t.source hready] at hr
        exact hfirst.retried r (List.mem_of_mem_drop hr)
    · intro hnot
      rw [hinit',hinit] at hnot
      cases hnot
    · intro _
      refine ⟨first,now',hfirstAt,hnow,?_⟩
      unfold fired
      dsimp only
      rw [fired_append]
      exact hserved
  · rw [if_neg hinit,if_neg hinit]
    exact ⟨hfirst,fun _ hnil => by cases hnil⟩

theorem initializeLocked_tick (s : State) (clock : Option ℤ) (now : ℤ) :
    (State.initializeLocked cfg {s with clock := clock} now).source =
      (s.initializeLocked cfg now).source := by
  unfold State.initializeLocked
  dsimp only
  split
  · rfl
  · split
    · rfl
    · rfl

theorem keeps_tick {limit : ℕ} {payload : ℕ → Bool} (clock : Option ℤ)
    (h : Keeps cfg s (.fetch limit now payload)) :
    Keeps cfg {s with clock := clock} (.fetch limit now payload) := by
  unfold Keeps at h ⊢
  dsimp only at h ⊢
  rw [initializeLocked_tick]
  exact h

/-- Settling a run: the fire times and the queue stay. -/
theorem Prompt.settle {i : ℕ} {d : Handed} (h : Prompt cfg s) (hd : s.unsettled i = some d)
    (hinit : source.initialized = s.source.initialized)
    (hpending : source.pendingImmediate = s.source.pendingImmediate)
    (hnext : source.nextFireAt = s.source.nextFireAt)
    (hqueued : source.queuedRuns = s.source.queuedRuns)
    (hdropped : source.dropped = s.source.dropped)
    (hretried : ∀ r ∈ source.retryHeap, r.envelope.attempts ≠ 0) :
    Prompt cfg (State.settle {s with source := source} i) := by
  have hsome : s.handed ≠ [] := by
    intro hnil
    unfold State.unsettled at hd
    rw [hnil] at hd
    cases hd
  refine ⟨fun him => ?_,hretried,fun hnot => ?_,fun hdone => ?_⟩
  · exact absurd (h.pending (hpending.symm.trans him)).1 hsome
  · exact absurd (h.untouched (hinit.symm.trans hnot)).1 hsome
  · obtain ⟨first,now,hfirst,hclock,honTime⟩ := h.onTime (hinit.symm.trans hdone)
    refine ⟨first,now,hfirst,hclock,?_⟩
    rw [fired_settle]
    exact honTime.congr hnext hqueued hdropped

theorem push_retried {r : Retry} (h : ∀ q ∈ source.retryHeap, q.envelope.attempts ≠ 0)
    (hr : r.envelope.attempts ≠ 0) : ∀ q ∈ (source.push r).retryHeap, q.envelope.attempts ≠ 0 := by
  intro q hq
  rcases List.mem_append.mp hq with hq | hq
  · exact h q ((List.takeWhile_sublist _).subset hq)
  · rcases List.mem_cons.mp hq with rfl | hq
    · exact hr
    · exact h q ((List.dropWhile_sublist _).subset hq)

theorem Prompt.step (h : Prompt cfg s) (hs : Step cfg s op s') : Prompt cfg s' := by
  obtain ⟨hs,htimely,hkeeps⟩ := hs
  cases op with
  | open_ now =>
    cases hs
    exact (h.tick fun t ht => htimely t ht now rfl).initializeLocked rfl
  | fetch limit now payload =>
    cases hs
    exact ((h.tick fun t ht => htimely t ht now rfl).fetch rfl (keeps_tick _ hkeeps)).1
  | ack i =>
    obtain ⟨d,hd,rfl⟩ := Option.map_eq_some_iff.mp hs
    exact h.settle hd rfl rfl rfl rfl rfl h.retried
  | fail i =>
    obtain ⟨d,hd,rfl⟩ := Option.map_eq_some_iff.mp hs
    exact h.settle hd rfl rfl rfl rfl rfl h.retried
  | retry i now delay =>
    obtain ⟨d,hd,rfl⟩ := Option.map_eq_some_iff.mp hs
    exact (h.tick fun t ht => htimely t ht now rfl).settle hd rfl rfl rfl rfl rfl
      (push_retried h.retried (Nat.succ_ne_zero _))
  | releaseUnstarted i =>
    obtain ⟨d,hd,rfl⟩ := Option.map_eq_some_iff.mp hs
    exact h

/-- What a step that is no fetch leaves as it is, once the source is initialized. -/
structure Still (s s' : State) : Prop where
  initialized : s'.source.initialized = s.source.initialized
  next : s'.source.nextFireAt = s.source.nextFireAt
  queued : s'.source.queuedRuns = s.source.queuedRuns
  dropped : s'.source.dropped = s.source.dropped
  fired : fired s' = fired s

def Op.IsFetch : Op → Prop
  | .fetch _ _ _ => True
  | _ => False

theorem still_step (hinit : s.source.initialized = true) (hop : ¬Op.IsFetch op)
    (hs : perform cfg s op = some s') : Still s s' := by
  cases op with
  | open_ now =>
    cases hs
    unfold State.initializeLocked
    rw [if_pos hinit]
    exact ⟨rfl,rfl,rfl,rfl,rfl⟩
  | fetch limit now payload => exact absurd trivial hop
  | ack i =>
    obtain ⟨d,-,rfl⟩ := Option.map_eq_some_iff.mp hs
    exact ⟨rfl,rfl,rfl,rfl,fired_settle _ i⟩
  | fail i =>
    obtain ⟨d,-,rfl⟩ := Option.map_eq_some_iff.mp hs
    exact ⟨rfl,rfl,rfl,rfl,fired_settle _ i⟩
  | retry i now delay =>
    obtain ⟨d,-,rfl⟩ := Option.map_eq_some_iff.mp hs
    exact ⟨rfl,rfl,rfl,rfl,fired_settle _ i⟩
  | releaseUnstarted i =>
    obtain ⟨d,-,rfl⟩ := Option.map_eq_some_iff.mp hs
    exact ⟨rfl,rfl,rfl,rfl,rfl⟩

theorem still_run {ops : List Op} (hinit : s.source.initialized = true)
    (hops : ∀ op ∈ ops, ¬Op.IsFetch op) (hr : Run (Step cfg) s ops s') : Still s s' := by
  induction hr with
  | nil s => exact ⟨rfl,rfl,rfl,rfl,rfl⟩
  | cons hstep _ ih =>
    have hone := still_step hinit (hops _ List.mem_cons_self) hstep.1
    have hrest := ih (hone.initialized.trans hinit) fun op hop => hops op (List.mem_cons_of_mem _ hop)
    exact ⟨hrest.initialized.trans hone.initialized,hrest.next.trans hone.next,
      hrest.queued.trans hone.queued,hrest.dropped.trans hone.dropped,hrest.fired.trans hone.fired⟩

end Steps

theorem readings_handed (cfg : Settings) {ops later : List Op} {s s' s'' : State} {limit : ℕ}
    {now first : ℤ} {payload : ℕ → Bool} (hr : Run (Step cfg) (constructed cfg) ops s)
    (hfetch : Step cfg s (.fetch limit now payload) s') (hfirst : s'.firstFireAt = some first)
    (hlater : Run (Step cfg) s' later s'') (hquiet : ∀ op ∈ later, ¬Op.IsFetch op) :
    (fireTimes cfg.schedule now first).Pairwise (· < ·) ∧
      (cfg.overlap = .allow → returned cfg s limit now payload = some [] →
        fired s'' = fireTimes cfg.schedule now first) ∧
      (cfg.overlap = .queue → ∃ passed next, s''.source.nextFireAt = some next ∧
        fireTimes cfg.schedule now first = passed++fireTimes cfg.schedule now next ∧
          Kept cfg.maxQueuedRuns (fired s'') s''.source.queuedRuns passed s''.source.dropped) := by
  have hprompt : Prompt cfg s := hr.invariant (fun _ _ _ h hs => h.step hs) (prompt_constructed cfg)
  have hprompt' : Prompt cfg s' := hprompt.step hfetch
  have hinit : s'.source.initialized = true := by
    by_contra hnot
    have hnone := (hprompt'.untouched (Bool.eq_false_iff.mpr hnot)).2.2.2
    rw [hfirst] at hnone
    cases hnone
  have hstill := still_run hinit hquiet hlater
  obtain ⟨first',now',hfirst',hclock,passed,next,hnext,hpassed,hdue,haccounted⟩ :=
    hprompt'.onTime hinit
  obtain rfl : first' = first := Option.some.inj (hfirst'.symm.trans hfirst)
  obtain ⟨hs,htimely,hkeeps⟩ := hfetch
  cases hs
  obtain rfl : now = now' := by
    rw [fetch_clock] at hclock
    exact Option.some.inj hclock
  have hall := hpassed.fireTimes_eq hdue
  refine ⟨fires_ascending _ _,fun hallow hreturned => ?_,fun hqueue => ?_⟩
  · have hticked := hprompt.tick fun t ht => htimely t ht now rfl
    have hlast := (hticked.fetch rfl (keeps_tick _ hkeeps)).2 hallow (by
      unfold returned at hreturned ⊢
      rw [initializeLocked_tick]
      exact hreturned) next hnext
    unfold Accounted at haccounted
    rw [hallow] at haccounted
    rw [hstill.fired,hall,fireTimes_of_lt hlast,List.append_nil]
    exact haccounted
  · refine ⟨passed,next,hstill.next.trans hnext,hall,?_⟩
    unfold Accounted at haccounted
    rw [hqueue] at haccounted
    rw [hstill.fired,hstill.queued,hstill.dropped]
    exact haccounted

/-- After the last fetch of a run that loses no due run: with `allow`, once that
fetch returned nothing, the fire times handed out are all fire times up to it;
with `queue` they and those queued are kept, of the fire times that passed, and
the others are still to be collected. -/
theorem fireTimes_handed (cfg : Settings) (wall : ℤ → ℤ) {ops later : List (Op × ℤ)}
    {s s' s'' : State × Option ℤ} {limit : ℕ} {now instant first : ℤ} {payload : ℕ → Bool}
    (hr : Run (TimedStep cfg wall (Sound cfg)) (constructed cfg,none) ops s)
    (hfetch : TimedStep cfg wall (Sound cfg) s (.fetch limit now payload,instant) s')
    (hfirst : s'.1.firstFireAt = some first)
    (hlater : Run (TimedStep cfg wall (Sound cfg)) s' later s'')
    (hquiet : ∀ l ∈ later, ¬Op.IsFetch l.1) :
    (fireTimes cfg.schedule now first).Pairwise (· < ·) ∧
      (cfg.overlap = .allow → returned cfg s.1 limit now payload = some [] →
        fired s''.1 = fireTimes cfg.schedule now first) ∧
      (cfg.overlap = .queue → ∃ passed next, s''.1.source.nextFireAt = some next ∧
        fireTimes cfg.schedule now first = passed++fireTimes cfg.schedule now next ∧
          Kept cfg.maxQueuedRuns (fired s''.1) s''.1.source.queuedRuns passed
            s''.1.source.dropped) := by
  refine readings_handed cfg (run_of_timed hr) (step_of_timed hfetch) hfirst (run_of_timed hlater) ?_
  intro op hop
  obtain ⟨l,hl,rfl⟩ := List.mem_map.mp hop
  exact hquiet l hl

section Samples

instance (source : Source) (now : ℤ) (limit : ℕ) : Decidable (Quiet source now limit) :=
  inferInstanceAs (Decidable (_ ∧ _))

instance (cfg : Settings) (source : Source) : Decidable (Pops cfg source) :=
  inferInstanceAs (Decidable (_ ∧ _))

theorem fits_iff {source : Source} {payload : ℕ → Bool} {now : ℤ} {limit : ℕ} :
    Fits cfg source payload now limit ↔ (∀ i < limit, payload i = true) ∧
      (cfg.overlap = .allow → ∀ next ∈ source.nextFireAt,
        (fires cfg.schedule now maxDue next).length ≤ limit) ∧
      (¬Pops cfg source → ∀ next ∈ source.nextFireAt,
        2 ≤ (fires cfg.schedule now maxDue next).length →
          ∀ t ∈ fires cfg.schedule now maxDue next, cfg.schedule.nextFireAfter t ≠ none) :=
  ⟨fun h => ⟨h.built,h.asked,h.found⟩,fun h => ⟨h.1,h.2.1,h.2.2⟩⟩

instance (source : Source) (payload : ℕ → Bool) (now : ℤ) (limit : ℕ) :
    Decidable (Fits cfg source payload now limit) := decidable_of_iff' _ fits_iff

instance (s : State) (op : Op) : Decidable (Keeps cfg s op) :=
  match op with
  | .fetch _ _ _ => inferInstanceAs (Decidable (_ → _))
  | .open_ _ | .ack _ | .fail _ | .retry _ _ _ | .releaseUnstarted _ => .isTrue trivial

instance (s : State) (op : Op) : Decidable (Onward s op) :=
  inferInstanceAs (Decidable (∀ t ∈ s.clock, ∀ now ∈ op.now, t ≤ now))

instance (s : State) (op : Op) : Decidable (Sound cfg s op) :=
  inferInstanceAs (Decidable (_ ∧ _))

instance (wall : ℤ → ℤ) (s : State × Option ℤ) (l : Op × ℤ) : Decidable (Clocked wall s l) :=
  inferInstanceAs (Decidable ((∀ t ∈ s.2, t ≤ l.2) ∧ ∀ now ∈ l.1.now, now = wall l.2))

def everyTen : Settings := {skipping with overlap := .allow}

theorem timed_of_runs {wall : ℤ → ℤ} {allowed : State → Op → Prop}
    [∀ s op, Decidable (allowed s op)] {s s' : State × Option ℤ} {ops : List (Op × ℤ)}
    (h : runs (tick everyTen) (fun s l => decide (Clocked wall s l ∧ allowed s.1 l.1)) s ops =
      some s') : Run (TimedStep everyTen wall allowed) s ops s' :=
  run_of_runs (fun _ _ hmay => of_decide_eq_true hmay) h

theorem timed_of_run {wall : ℤ → ℤ} {allowed : State → Op → Prop} {s s' : State × Option ℤ}
    {l : Op × ℤ} (h : Run (TimedStep everyTen wall allowed) s [l] s') :
    TimedStep everyTen wall allowed s l s' := by
  cases h with
  | cons hstep hnil =>
    cases hnil
    exact hstep

/-- A wall clock that is set back once. -/
def setBack (instant : ℤ) : ℤ := if instant ≤ 30 then instant else instant-25

/-- Three runs are due and three are asked for. -/
theorem polledForAll_handed : ∃ s s' s'',
    Run (TimedStep everyTen id (Sound everyTen)) (constructed everyTen,none)
      [(.open_ 0,0),(.fetch 3 30 fun _ => true,30)] s ∧
      TimedStep everyTen id (Sound everyTen) s (.fetch 3 35 fun _ => true,35) s' ∧
      Run (TimedStep everyTen id (Sound everyTen)) s' [(.ack 0,40)] s'' ∧
        fired s''.1 = fireTimes everyTen.schedule 35 10 := by
  have hruns : ((runs (tick everyTen) (fun s l => decide (Clocked id s l ∧ Sound everyTen s.1 l.1))
      (constructed everyTen,none) [(.open_ 0,0),(.fetch 3 30 fun _ => true,30)]).bind fun s =>
        (runs (tick everyTen) (fun s l => decide (Clocked id s l ∧ Sound everyTen s.1 l.1)) s
          [(.fetch 3 35 fun _ => true,35)]).bind fun s' =>
            (runs (tick everyTen) (fun s l => decide (Clocked id s l ∧ Sound everyTen s.1 l.1)) s'
              [(.ack 0,40)]).map fun _ =>
                (returned everyTen s.1 3 35 fun _ => true,s'.1.firstFireAt)) =
                  some (some [],some 10) := by
    decide +kernel
  obtain ⟨s,hs,hrest⟩ := Option.bind_eq_some_iff.mp hruns
  obtain ⟨s',hs',hrest⟩ := Option.bind_eq_some_iff.mp hrest
  obtain ⟨s'',hs'',hrest⟩ := Option.map_eq_some_iff.mp hrest
  obtain ⟨hreturned,hfirst⟩ := Prod.mk.inj hrest
  have hfetch := timed_of_run (timed_of_runs hs')
  refine ⟨s,s',s'',timed_of_runs hs,hfetch,timed_of_runs hs'',?_⟩
  exact (fireTimes_handed everyTen id (timed_of_runs hs) hfetch hfirst (timed_of_runs hs'')
    (by simp [Op.IsFetch])).2.1 rfl hreturned

/-- The last fetch of a run returns nothing, though the fire times up to it are not the
ones that were handed out. -/
def Astray (wall : ℤ → ℤ) (allowed : State → Op → Prop) (limit : ℕ) (now instant : ℤ)
    (handed due : List ℤ) : Prop :=
  ∃ s s', Run (TimedStep everyTen wall allowed) (constructed everyTen,none)
    [(.open_ 0,0),(.fetch limit 30 fun _ => true,30)] s ∧
      TimedStep everyTen wall allowed s (.fetch limit now fun _ => true,instant) s' ∧
      returned everyTen s.1 limit now (fun _ => true) = some [] ∧ s'.1.firstFireAt = some 10 ∧
      fired s'.1 = handed ∧ fireTimes everyTen.schedule now 10 = due

theorem astray_of_runs {wall : ℤ → ℤ} {allowed : State → Op → Prop}
    [∀ s op, Decidable (allowed s op)] {limit : ℕ} {now instant : ℤ} {handed due : List ℤ}
    (h : ((runs (tick everyTen) (fun s l => decide (Clocked wall s l ∧ allowed s.1 l.1))
      (constructed everyTen,none) [(.open_ 0,0),(.fetch limit 30 fun _ => true,30)]).bind fun s =>
        (runs (tick everyTen) (fun s l => decide (Clocked wall s l ∧ allowed s.1 l.1)) s
          [(.fetch limit now fun _ => true,instant)]).map fun s' =>
            (returned everyTen s.1 limit now fun _ => true,s'.1.firstFireAt,fired s'.1)) =
              some (some [],some 10,handed))
    (hdue : fireTimes everyTen.schedule now 10 = due) :
    Astray wall allowed limit now instant handed due := by
  obtain ⟨s,hs,hrest⟩ := Option.bind_eq_some_iff.mp h
  obtain ⟨s',hs',hrest⟩ := Option.map_eq_some_iff.mp hrest
  simp only [Prod.mk.injEq] at hrest
  exact ⟨s,s',timed_of_runs hs,timed_of_run (timed_of_runs hs'),hrest.1,hrest.2.1,hrest.2.2,hdue⟩

/-- Three runs are due and one is asked for: the other two are never handed out. Or
all three are, and then the wall clock is set back to a time before two of them. -/
theorem fireTimes_astray : Astray id Onward 1 30 30 [10] [10,20,30] ∧
    Astray setBack (Keeps everyTen) 3 10 35 [10,20,30] [10] :=
  ⟨astray_of_runs (by decide +kernel) (by decide +kernel),
    astray_of_runs (by decide +kernel) (by decide +kernel)⟩

end Samples

end OneStep.ScheduleFireTimes
