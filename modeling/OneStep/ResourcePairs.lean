import Mathlib.Data.List.Perm.Subperm
import OneStep.AppResources

/-!
# Opens and closes pair up

What is open, in the order in which it was opened, can be followed through a run of `serve`:
a stop takes out the private resources it comes to, a start enters them again. The calls pair
up exactly when every stop finds what it closes open and every start what it opens closed,
and when at the end all is as `startup` left it.
-/
namespace OneStep.ResourcePairs
open AppResources PairedCalls

variable {R : Type} [DecidableEq R] {app : App R}

def calls (log : List (Event R)) : List (Call R) := log.map Event.call

/-- A stop closes nothing that is named, the state, or a resource of another task. -/
def Spared (app : App R) (log : List (Event R)) : Prop :=
  ∀ e ∈ log, ∀ i, e.cause = .stop i → e.call.side = .closing →
    e.call.resource ∉ app.common ∧
      ∀ j task, app.tasks[j]? = some task → j ≠ i → e.call.resource ∉ taskResources task

def shutdownCloses (log : List (Event R)) : List R :=
  (log.filter fun e => e.cause = .shutdown).map fun e => e.call.resource

structure Pairs (app : App R) (log : List (Event R)) : Prop where
  alternate : Paired (calls log)
  closed : ∀ x, (∃ e ∈ log, e.call = opening x ∧ e.outcome = .returned) →
    (sides x (calls log)).getLast? = some .closing
  spared : Spared app log
  reversed : (shutdownCloses log).Sublist (latest [] (calls log)).reverse

section Resources

theorem addResource_spec {resources : List R} (h : resources.Nodup) (x : R) :
    (addResource resources x).Nodup ∧ ∀ y, y ∈ addResource resources x ↔ y ∈ resources ∨ y = x := by
  unfold addResource
  split
  · next hx =>
      refine ⟨h,fun y => ⟨.inl,?_⟩⟩
      rintro (hy | rfl)
      · exact hy
      · exact hx
  · next hx =>
      refine ⟨h.append (List.nodup_singleton x) (List.disjoint_singleton.mpr hx),fun y => ?_⟩
      rw [List.mem_append,List.mem_singleton]

theorem addResources_spec {resources : List R} (h : resources.Nodup) (xs : List R) :
    (xs.foldl addResource resources).Nodup ∧
      ∀ y, y ∈ xs.foldl addResource resources ↔ y ∈ resources ∨ y ∈ xs := by
  induction xs generalizing resources with
  | nil => exact ⟨h,fun y => by simp⟩
  | cons x xs ih =>
    obtain ⟨hnodup,hmem⟩ := addResource_spec h x
    obtain ⟨hnodup',hmem'⟩ := ih hnodup
    refine ⟨hnodup',fun y => ?_⟩
    rw [List.foldl_cons,hmem',hmem,List.mem_cons,or_assoc]

theorem startupResources_nodup : app.startupResources.Nodup :=
  (addResources_spec List.nodup_nil _).1

theorem mem_startupResources {x : R} :
    x ∈ app.startupResources ↔ x ∈ app.common ∨ ∃ task ∈ app.tasks, x ∈ taskResources task := by
  unfold App.startupResources
  rw [(addResources_spec List.nodup_nil _).2,List.mem_append,List.mem_flatMap]
  simp

omit [DecidableEq R] in
theorem requireControllableTask_mem {taskName : String} {i : ℕ} {task : TaskSpec R}
    (h : app.requireControllableTask taskName = some (i,task)) : task ∈ app.tasks := by
  obtain ⟨j,-,hj⟩ := Option.bind_eq_some_iff.mp h
  obtain ⟨found,hfound,hsource⟩ := Option.bind_eq_some_iff.mp hj
  obtain ⟨_,-,he⟩ := Option.map_eq_some_iff.mp hsource
  cases he
  exact List.mem_of_getElem? hfound

theorem privateResources_subset {task : TaskSpec R} (h : task ∈ app.tasks) {x : R}
    (hx : x ∈ app.privateResources task) : x ∈ app.startupResources :=
  mem_startupResources.mpr (.inr ⟨task,h,(List.mem_filter.mp hx).1⟩)

end Resources

section Series
variable {ends : Outcome → Bool} {outcomes : ℕ → Outcome} {i : ℕ} {xs : List R}

omit [DecidableEq R] in
theorem reached_sublist : ((reached ends outcomes i xs).map Prod.fst).Sublist xs := by
  induction xs generalizing i with
  | nil => exact .slnil
  | cons x xs ih =>
    unfold reached
    split
    · exact List.Sublist.cons_cons x (List.nil_sublist xs)
    · exact List.Sublist.cons_cons x ih

omit [DecidableEq R] in
theorem reached_all (h : seriesOutcome notReturned outcomes i xs = .returned) :
    (reached notReturned outcomes i xs).map Prod.fst = xs ∧
      ∀ c ∈ reached notReturned outcomes i xs, c.2 = .returned := by
  induction xs generalizing i with
  | nil => exact ⟨rfl,fun c hc => absurd hc List.not_mem_nil⟩
  | cons x xs ih =>
    unfold seriesOutcome at h
    unfold reached
    have hi : outcomes i = .returned := by
      split at h
      · exact h
      · next hends =>
          cases ho : outcomes i with
          | returned => rfl
          | raised => exact absurd (by rw [ho]; rfl) hends
          | cancelled => exact absurd (by rw [ho]; rfl) hends
    rw [hi] at h ⊢
    obtain ⟨hall,hreturned⟩ := ih h
    refine ⟨?_,?_⟩
    · change x::(reached notReturned outcomes (i+1) xs).map Prod.fst = x::xs
      rw [hall]
    · rintro c (- | ⟨_,hc⟩)
      · rfl
      · exact hreturned c hc

omit [DecidableEq R] in
theorem reached_never : (reached never outcomes i xs).map Prod.fst = xs := by
  induction xs generalizing i with
  | nil => rfl
  | cons x xs ih =>
    change x::(reached never outcomes (i+1) xs).map Prod.fst = x::xs
    rw [ih]

omit [DecidableEq R] in
theorem calls_events {cause : Cause} {call : R → Call R} {cs : List (R × Outcome)} :
    calls (events cause call cs) = (cs.map Prod.fst).map call := by
  unfold calls events
  rw [List.map_map,List.map_map]
  rfl

end Series

section Controls

/-- The resources belong to the task at the position alone. -/
def Unshared (app : App R) (i : ℕ) (xs : List R) : Prop :=
  ∀ x ∈ xs, x ∉ app.common ∧
    ∀ j task, app.tasks[j]? = some task → j ≠ i → x ∉ taskResources task

def Stops (app : App R) (taskName : String) (interrupted : Bool) (closes : ℕ → Outcome)
    (order order' : List R) : Prop :=
  match app.requireControllableTask taskName with
  | none => order' = order
  | some (i,task) =>
    let xs := (closedBy app task interrupted closes).map Prod.fst
    xs.Nodup ∧ (∀ x ∈ xs, x ∈ order) ∧ Unshared app i xs ∧ order' = order.filter fun x => x ∉ xs

def Starts (app : App R) (taskName : String) (opens : ℕ → Outcome) (order order' : List R) :
    Prop :=
  match app.requireControllableTask taskName with
  | none => order' = order
  | some (_,task) =>
    let xs := (openedBy app task opens).map Prod.fst
    xs.Nodup ∧ (∀ x ∈ xs, x ∉ order) ∧ order' = order++xs

/-- A stop finds what it closes open, a start what it opens closed. -/
def Turns (app : App R) : Control → List R → List R → Prop
  | .stopTaskRunner taskName interrupted closes,order,order' =>
    Stops app taskName interrupted closes order order'
  | .startTaskRunner taskName opens,order,order' => Starts app taskName opens order order'
  | .restartTaskRunner taskName interrupted closes opens,order,order' =>
    ∃ middle, Stops app taskName interrupted closes order middle ∧
      if stopReturns app taskName interrupted closes then
        Starts app taskName opens middle order'
      else order' = middle

def Follows (app : App R) : List Control → List R → List R → Prop
  | [],order,order' => order' = order
  | c::cs,order,order' => ∃ middle, Turns app c order middle ∧ Follows app cs middle order'

/-- The register after some calls, of which no stop closed what it should spare. -/
def Leads (app : App R) (log : List (Event R)) (order order' : List R) : Prop :=
  replay order (calls log) = some order' ∧ Spared app log

omit [DecidableEq R] in
variable {log' : List (Event R)}

variable {log : List (Event R)}

omit [DecidableEq R] in
theorem spared_append : Spared app (log++log') ↔ Spared app log ∧ Spared app log' :=
  List.forall_mem_append

omit [DecidableEq R] in
theorem calls_append : calls (log++log') = calls log++calls log' :=
  List.map_append

theorem leads_append {order order' : List R} :
    Leads app (log++log') order order' ↔
      ∃ middle, Leads app log order middle ∧ Leads app log' middle order' := by
  unfold Leads
  rw [calls_append,replay_append,Option.bind_eq_some_iff,spared_append]
  constructor
  · rintro ⟨⟨middle,hfirst,hsecond⟩,hspared,hspared'⟩
    exact ⟨middle,⟨hfirst,hspared⟩,hsecond,hspared'⟩
  · rintro ⟨middle,⟨hfirst,hspared⟩,hsecond,hspared'⟩
    exact ⟨⟨middle,hfirst,hsecond⟩,hspared,hspared'⟩

theorem leads_nil {order order' : List R} : Leads app [] order order' ↔ order' = order := by
  unfold Leads
  constructor
  · rintro ⟨h,-⟩
    cases h
    rfl
  · rintro rfl
    exact ⟨rfl,fun e he => absurd he List.not_mem_nil⟩

omit [DecidableEq R] in
/-- Only closes of a stop can hurt another task. -/
theorem spared_of_cause {cause : Cause} {call : R → Call R} {cs : List (R × Outcome)}
    (h : ∀ i, cause ≠ .stop i) : Spared app (events cause call cs) := by
  intro e he i hcause
  obtain ⟨c,-,rfl⟩ := List.mem_map.mp he
  exact absurd hcause (h i)

omit [DecidableEq R] in
theorem spared_stop {i : ℕ} {cs : List (R × Outcome)} :
    Spared app (events (.stop i) closing cs) ↔ Unshared app i (cs.map Prod.fst) := by
  constructor
  · intro h x hx
    obtain ⟨c,hc,rfl⟩ := List.mem_map.mp hx
    exact h _ (List.mem_map.mpr ⟨c,hc,rfl⟩) i rfl rfl
  · intro h e he j hcause _
    obtain ⟨c,hc,rfl⟩ := List.mem_map.mp he
    cases hcause
    exact h c.1 (List.mem_map_of_mem hc)

variable {order order' : List R} (hnodup : order.Nodup)
include hnodup

theorem leads_stopTaskRunner (taskName : String) (interrupted : Bool) (closes : ℕ → Outcome) :
    Leads app (stopTaskRunner app taskName interrupted closes) order order' ↔
      Stops app taskName interrupted closes order order' := by
  unfold stopTaskRunner Stops
  cases app.requireControllableTask taskName with
  | none => exact leads_nil
  | some found =>
    obtain ⟨i,task⟩ := found
    unfold Leads
    dsimp only
    rw [calls_events,replay_closings hnodup,spared_stop]
    constructor
    · rintro ⟨⟨hxs,hopen,he⟩,hunshared⟩
      exact ⟨hxs,hopen,hunshared,he⟩
    · rintro ⟨hxs,hopen,hunshared,he⟩
      exact ⟨⟨hxs,hopen,he⟩,hunshared⟩

omit hnodup in
theorem leads_startTaskRunner (taskName : String) (opens : ℕ → Outcome) :
    Leads app (startTaskRunner app taskName opens) order order' ↔
      Starts app taskName opens order order' := by
  unfold startTaskRunner Starts
  cases app.requireControllableTask taskName with
  | none => exact leads_nil
  | some found =>
    obtain ⟨i,task⟩ := found
    unfold Leads
    dsimp only
    rw [calls_events,replay_openings]
    exact and_iff_left (spared_of_cause nofun)

theorem leads_control (c : Control) :
    Leads app (control app c) order order' ↔ Turns app c order order' := by
  cases c with
  | stopTaskRunner taskName interrupted closes => exact leads_stopTaskRunner hnodup _ _ _
  | startTaskRunner taskName opens => exact leads_startTaskRunner _ _
  | restartTaskRunner taskName interrupted closes opens =>
    unfold AppResources.control Turns
    rw [leads_append]
    refine exists_congr fun middle => ?_
    rw [leads_stopTaskRunner hnodup]
    refine and_congr_right fun _ => ?_
    split
    · exact leads_startTaskRunner _ _
    · exact leads_nil

theorem leads_controls (cs : List Control) :
    Leads app (cs.flatMap (control app)) order order' ↔ Follows app cs order order' := by
  induction cs generalizing order with
  | nil => exact leads_nil
  | cons c cs ih =>
    rw [List.flatMap_cons,leads_append]
    refine exists_congr fun middle => ?_
    rw [leads_control hnodup]
    refine and_congr_right fun hturns => ih ?_
    exact replay_nodup hnodup ((leads_control hnodup c).mpr hturns).1

omit hnodup in
/-- A task opens none but its own resources, and nothing but `shutdown` closes for it. -/
theorem controls_spec {cs : List Control} {e : Event R} (he : e ∈ cs.flatMap (control app)) :
    e.cause ≠ .shutdown ∧ (e.call.side = .opening → e.call.resource ∈ app.startupResources) := by
  have hstop : ∀ {taskName interrupted closes}, e ∈ stopTaskRunner app taskName interrupted closes →
      e.cause ≠ .shutdown ∧ (e.call.side = .opening → e.call.resource ∈ app.startupResources) := by
    intro taskName interrupted closes he
    unfold stopTaskRunner at he
    split at he
    · cases he
    · obtain ⟨c,-,rfl⟩ := List.mem_map.mp he
      exact ⟨nofun,nofun⟩
  have hstart : ∀ {taskName opens}, e ∈ startTaskRunner app taskName opens →
      e.cause ≠ .shutdown ∧ (e.call.side = .opening → e.call.resource ∈ app.startupResources) := by
    intro taskName opens he
    unfold startTaskRunner at he
    split at he
    · cases he
    · next i task hfound =>
        obtain ⟨c,hc,rfl⟩ := List.mem_map.mp he
        refine ⟨nofun,fun _ => ?_⟩
        have hprivate := reached_sublist.subset (List.mem_map_of_mem hc)
        exact privateResources_subset (requireControllableTask_mem hfound) hprivate
  obtain ⟨c,-,hc⟩ := List.mem_flatMap.mp he
  cases c with
  | stopTaskRunner => exact hstop hc
  | startTaskRunner => exact hstart hc
  | restartTaskRunner =>
    rcases List.mem_append.mp hc with hc | hc
    · exact hstop hc
    · split at hc
      · exact hstart hc
      · cases hc

end Controls

section Serving
variable {s : Serving} {log : List (Event R)}

/-- When the calls of a run of `serve` pair up. -/
def Orderly (app : App R) (s : Serving) : Prop :=
  match seriesOutcome notReturned s.opens 0 app.startupResources with
  | .cancelled => opened s.opens app.startupResources = []
  | .raised => True
  | .returned =>
    ∃ order, Follows app s.startupControls app.startupResources order ∧
      match s.startupHooks with
      | .cancelled => order = []
      | .raised => ∀ x ∈ app.startupResources, x ∈ order
      | .returned => Follows app s.controls order app.startupResources

theorem pairs_iff : Pairs app log ↔
    ∃ order, Leads app log [] order ∧
      (∀ x, (∃ e ∈ log, e.call = opening x ∧ e.outcome = .returned) → x ∉ order) ∧
      (shutdownCloses log).Sublist (latest [] (calls log)).reverse := by
  constructor
  · intro h
    obtain ⟨order,horder⟩ := paired_iff_replay.mp h.alternate
    refine ⟨order,⟨horder,h.spared⟩,fun x hx => ?_,h.reversed⟩
    have hlast := h.closed x hx
    obtain ⟨e,he,hcall,-⟩ := hx
    exact (closed_iff horder (List.mem_map.mpr ⟨e,he,hcall⟩)).mp hlast
  · rintro ⟨order,⟨horder,hspared⟩,hclosed,hreversed⟩
    refine ⟨paired_iff_replay.mpr ⟨order,horder⟩,fun x hx => ?_,hspared,hreversed⟩
    have hout := hclosed x hx
    obtain ⟨e,he,hcall,-⟩ := hx
    exact (closed_iff horder (List.mem_map.mpr ⟨e,he,hcall⟩)).mpr hout

/-- The openings that `startup` comes to. -/
def startupOpens (app : App R) (s : Serving) : List (R × Outcome) :=
  reached notReturned s.opens 0 app.startupResources

theorem startupOpens_nodup : ((startupOpens app s).map Prod.fst).Nodup :=
  startupResources_nodup.sublist reached_sublist

variable {order : List R}

theorem leads_startupOpens :
    Leads app (events .startup opening (startupOpens app s)) [] order ↔
      order = (startupOpens app s).map Prod.fst := by
  unfold Leads
  rw [calls_events,replay_openings,List.nil_append]
  constructor
  · rintro ⟨⟨-,-,he⟩,-⟩
    exact he
  · intro he
    exact ⟨⟨startupOpens_nodup,fun x _ => List.not_mem_nil,he⟩,spared_of_cause nofun⟩

variable {closes : ℕ → Outcome} {order' : List R}

theorem leads_startupCloses {cause : Cause} (hcause : ∀ i, cause ≠ .stop i) (hnodup : order.Nodup)
    {xs : List R} (hxs : xs.Nodup) :
    Leads app (events cause closing (reached never closes 0 xs.reverse)) order order' ↔
      (∀ x ∈ xs, x ∈ order) ∧ order' = order.filter fun x => x ∉ xs := by
  unfold Leads
  rw [calls_events,reached_never,replay_closings hnodup]
  simp only [List.nodup_reverse,List.mem_reverse]
  constructor
  · rintro ⟨⟨-,hopen,he⟩,-⟩
    exact ⟨hopen,he⟩
  · rintro ⟨hopen,he⟩
    exact ⟨⟨hxs,hopen,he⟩,spared_of_cause hcause⟩

omit [DecidableEq R] in
theorem shutdownCloses_append {log' : List (Event R)} :
    shutdownCloses (log++log') = shutdownCloses log++shutdownCloses log' := by
  unfold shutdownCloses
  rw [List.filter_append,List.map_append]

omit [DecidableEq R] in
theorem shutdownCloses_nil (h : ∀ e ∈ log, e.cause ≠ .shutdown) : shutdownCloses log = [] := by
  unfold shutdownCloses
  rw [List.filter_eq_nil_iff.mpr fun e he => by simpa using h e he]
  rfl

omit [DecidableEq R] in
theorem shutdownCloses_startup {call : R → Call R} {cs : List (R × Outcome)} :
    shutdownCloses (events .startup call cs) = [] := by
  refine shutdownCloses_nil fun e he => ?_
  obtain ⟨c,-,rfl⟩ := List.mem_map.mp he
  exact nofun

omit [DecidableEq R] in
theorem shutdownCloses_shutdown {xs : List R} :
    shutdownCloses (shutdown closes xs) = xs.reverse := by
  unfold shutdownCloses shutdown events
  rw [List.filter_eq_self.mpr fun e he => ?_]
  · rw [List.map_map]
    exact reached_never
  · obtain ⟨c,-,rfl⟩ := List.mem_map.mp he
    rfl

theorem pairs_of_raised
    (h : seriesOutcome notReturned s.opens 0 app.startupResources = .raised) :
    Pairs app (serve app s) := by
  have hserve : serve app s = events .startup opening (startupOpens app s)++
      abandon s.closes (opened s.opens app.startupResources) := by
    unfold serve
    dsimp only
    rw [h]
    rfl
  have hopened : (opened s.opens app.startupResources).Sublist ((startupOpens app s).map Prod.fst) :=
    List.filter_sublist.map _
  have hcause : ∀ i, Cause.startup ≠ .stop i := nofun
  rw [hserve,pairs_iff]
  refine ⟨((startupOpens app s).map Prod.fst).filter
      fun x => x ∉ opened s.opens app.startupResources,
    leads_append.mpr ⟨_,leads_startupOpens.mpr rfl,?_⟩,?_,?_⟩
  · refine (leads_startupCloses hcause startupOpens_nodup ?_).mpr ⟨?_,rfl⟩
    · exact startupOpens_nodup.sublist hopened
    · exact fun x hx => hopened.subset hx
  · rintro x ⟨e,he,hcall,hreturned⟩ hmem
    refine of_decide_eq_true (List.mem_filter.mp hmem).2 ?_
    rcases List.mem_append.mp he with he | he
    · obtain ⟨c,hc,rfl⟩ := List.mem_map.mp he
      cases hcall
      exact List.mem_map.mpr ⟨c,List.mem_filter.mpr ⟨hc,decide_eq_true hreturned⟩,rfl⟩
    · obtain ⟨c,-,rfl⟩ := List.mem_map.mp he
      cases hcall
  · rw [shutdownCloses_append,shutdownCloses_startup]
    unfold abandon
    rw [shutdownCloses_startup]
    exact List.nil_sublist _

theorem pairs_iff_of_cancelled
    (h : seriesOutcome notReturned s.opens 0 app.startupResources = .cancelled) :
    Pairs app (serve app s) ↔ opened s.opens app.startupResources = [] := by
  have hserve : serve app s = events .startup opening (startupOpens app s) := by
    unfold serve
    dsimp only
    rw [h]
    exact List.append_nil _
  rw [hserve,pairs_iff]
  constructor
  · rintro ⟨order,hleads,hclosed,-⟩
    rw [leads_startupOpens.mp hleads] at hclosed
    refine List.eq_nil_iff_forall_not_mem.mpr fun x hx => ?_
    obtain ⟨c,hc,rfl⟩ := List.mem_map.mp hx
    obtain ⟨hmem,hreturned⟩ := List.mem_filter.mp hc
    refine hclosed c.1 ⟨_,List.mem_map.mpr ⟨c,hmem,rfl⟩,rfl,?_⟩ (List.mem_map_of_mem hmem)
    exact of_decide_eq_true hreturned
  · intro hnone
    refine ⟨_,leads_startupOpens.mpr rfl,?_,?_⟩
    · rintro x ⟨e,he,hcall,hreturned⟩
      obtain ⟨c,hc,rfl⟩ := List.mem_map.mp he
      have hmem : c.1 ∈ opened s.opens app.startupResources :=
        List.mem_map_of_mem (List.mem_filter.mpr ⟨hc,decide_eq_true hreturned⟩)
      rw [hnone] at hmem
      cases hmem
    · rw [shutdownCloses_startup]
      exact List.nil_sublist _

theorem follows_subset {cs : List Control} (hnodup : order.Nodup)
    (horder : ∀ x ∈ order, x ∈ app.startupResources) (hfollows : Follows app cs order order') :
    ∀ x ∈ order', x ∈ app.startupResources := by
  intro x hx
  rcases mem_of_replay ((leads_controls hnodup cs).mpr hfollows).1 hx with hold | hnew
  · exact horder x hold
  · obtain ⟨e,he,hcall⟩ := List.mem_map.mp hnew
    have hopens := (controls_spec he).2
    rw [hcall] at hopens
    exact hopens rfl

theorem follows_nodup {cs : List Control} (hnodup : order.Nodup)
    (hfollows : Follows app cs order order') : order'.Nodup :=
  replay_nodup hnodup ((leads_controls hnodup cs).mpr hfollows).1

theorem filter_startupResources (hsubset : ∀ x ∈ order, x ∈ app.startupResources) :
    order.filter (fun x => x ∉ app.startupResources) = [] :=
  List.filter_eq_nil_iff.mpr fun x hx => by simpa using hsubset x hx

/-- The closes of `shutdown` come in the reverse order of the openings when nothing is out of
the order of `startup`. -/
theorem reversed_iff (horder : replay [] (calls log) = some order)
    (hopen : ∀ x ∈ app.startupResources, x ∈ order)
    (hlog : ∀ e ∈ log, e.call.side = .opening → e.call.resource ∈ app.startupResources) :
    app.startupResources.reverse.Sublist
      (latest [] (calls (log++shutdown closes app.startupResources))).reverse ↔
    order = app.startupResources := by
  have hlatest : latest [] (calls (log++shutdown closes app.startupResources)) =
      latest [] (calls log) := by
    unfold shutdown
    rw [calls_append,latest_append,calls_events,latest_closings]
  have hsublist : order.Sublist (latest [] (calls log)) :=
    replay_sublist horder (List.Sublist.refl [])
  have hsubset : latest [] (calls log) ⊆ app.startupResources := by
    intro x hx
    rcases mem_latest hx with hnil | hcall
    · cases hnil
    · obtain ⟨e,he,hopens⟩ := List.mem_map.mp hcall
      have hmem := hlog e he
      rw [hopens] at hmem
      exact hmem rfl
  have hall : order = latest [] (calls log) := by
    refine hsublist.eq_of_length_le ?_
    refine Nat.le_trans (List.Nodup.subperm (latest_nodup List.nodup_nil) hsubset).length_le ?_
    exact (List.Nodup.subperm startupResources_nodup hopen).length_le
  rw [hlatest,List.reverse_sublist,← hall]
  constructor
  · intro hsub
    have hback : order ⊆ app.startupResources := by
      rw [hall]
      exact hsubset
    have hnodup := replay_nodup List.nodup_nil horder
    exact (hsub.eq_of_length_le (List.Nodup.subperm hnodup hback).length_le).symm
  · intro he
    rw [he]

section Started
variable (h : seriesOutcome notReturned s.opens 0 app.startupResources = .returned)
include h

theorem startupOpens_all : (startupOpens app s).map Prod.fst = app.startupResources :=
  (reached_all h).1

theorem leads_started {rest : List (Event R)} {order : List R} :
    Leads app (events .startup opening (startupOpens app s)++rest) [] order ↔
      Leads app rest app.startupResources order := by
  rw [leads_append]
  constructor
  · rintro ⟨middle,hfirst,hsecond⟩
    rw [leads_startupOpens.mp hfirst,startupOpens_all h] at hsecond
    exact hsecond
  · intro hrest
    refine ⟨_,leads_startupOpens.mpr rfl,?_⟩
    rw [startupOpens_all h]
    exact hrest

/-- All that `startup` opened has to be closed in the end. -/
theorem closed_started {rest : List (Event R)} {order : List R}
    (horder : ∀ x ∈ order, x ∈ app.startupResources) :
    (∀ x, (∃ e ∈ events .startup opening (startupOpens app s)++rest,
      e.call = opening x ∧ e.outcome = .returned) → x ∉ order) ↔ order = [] := by
  constructor
  · intro hclosed
    refine List.eq_nil_iff_forall_not_mem.mpr fun x hx => ?_
    have hmem := horder x hx
    rw [← startupOpens_all h] at hmem
    obtain ⟨c,hc,rfl⟩ := List.mem_map.mp hmem
    refine hclosed c.1 ⟨_,List.mem_append_left _ (List.mem_map.mpr ⟨c,hc,rfl⟩),rfl,?_⟩ hx
    exact (reached_all h).2 c hc
  · rintro rfl x -
    exact List.not_mem_nil

theorem pairs_iff_of_hooks_cancelled :
    Pairs app (events .startup opening (startupOpens app s)++
      s.startupControls.flatMap (control app)) ↔
    Follows app s.startupControls app.startupResources [] := by
  rw [pairs_iff]
  simp only [leads_started h,leads_controls startupResources_nodup]
  constructor
  · rintro ⟨order,hfollows,hclosed,-⟩
    have hsubset := follows_subset startupResources_nodup (fun _ hx => hx) hfollows
    rw [(closed_started h hsubset).mp hclosed] at hfollows
    exact hfollows
  · intro hfollows
    refine ⟨[],hfollows,fun _ _ => List.not_mem_nil,?_⟩
    rw [shutdownCloses_append,shutdownCloses_startup,
      shutdownCloses_nil fun e he => (controls_spec he).1]
    exact List.nil_sublist _

theorem pairs_iff_of_hooks_raised :
    Pairs app (events .startup opening (startupOpens app s)++
      (s.startupControls.flatMap (control app)++abandon s.closes app.startupResources)) ↔
    ∃ order, Follows app s.startupControls app.startupResources order ∧
      ∀ x ∈ app.startupResources, x ∈ order := by
  have hcause : ∀ i, Cause.startup ≠ .stop i := nofun
  rw [pairs_iff]
  simp only [leads_started h,leads_append,leads_controls startupResources_nodup]
  constructor
  · rintro ⟨final,⟨order,hfollows,hcloses⟩,-⟩
    have hnodup := follows_nodup startupResources_nodup hfollows
    exact ⟨order,hfollows,((leads_startupCloses hcause hnodup startupResources_nodup).mp hcloses).1⟩
  · rintro ⟨order,hfollows,hopen⟩
    have hnodup := follows_nodup startupResources_nodup hfollows
    have hsubset := follows_subset startupResources_nodup (fun _ hx => hx) hfollows
    refine ⟨[],⟨order,hfollows,?_⟩,fun _ _ => List.not_mem_nil,?_⟩
    · refine (leads_startupCloses hcause hnodup startupResources_nodup).mpr ⟨hopen,?_⟩
      exact (filter_startupResources hsubset).symm
    · unfold abandon
      rw [shutdownCloses_append,shutdownCloses_append,shutdownCloses_startup,
        shutdownCloses_startup,shutdownCloses_nil fun e he => (controls_spec he).1]
      exact List.nil_sublist _

theorem pairs_iff_of_served :
    Pairs app (events .startup opening (startupOpens app s)++
      (s.startupControls.flatMap (control app)++
        (s.controls.flatMap (control app)++shutdown s.closes app.startupResources))) ↔
    ∃ order, Follows app s.startupControls app.startupResources order ∧
      Follows app s.controls order app.startupResources := by
  have hcause : ∀ i, Cause.shutdown ≠ .stop i := nofun
  have hassoc : events .startup opening (startupOpens app s)++
      (s.startupControls.flatMap (control app)++
        (s.controls.flatMap (control app)++shutdown s.closes app.startupResources)) =
      (events .startup opening (startupOpens app s)++(s.startupControls.flatMap (control app)++
        s.controls.flatMap (control app)))++shutdown s.closes app.startupResources := by
    simp only [List.append_assoc]
  have hcloses : shutdownCloses (events .startup opening (startupOpens app s)++
      (s.startupControls.flatMap (control app)++
        (s.controls.flatMap (control app)++shutdown s.closes app.startupResources))) =
      app.startupResources.reverse := by
    rw [shutdownCloses_append,shutdownCloses_append,shutdownCloses_append,shutdownCloses_startup,
      shutdownCloses_nil fun e he => (controls_spec he).1,
      shutdownCloses_nil fun e he => (controls_spec he).1,shutdownCloses_shutdown]
    rfl
  have hown : ∀ e ∈ events .startup opening (startupOpens app s)++
      (s.startupControls.flatMap (control app)++s.controls.flatMap (control app)),
      e.call.side = .opening → e.call.resource ∈ app.startupResources := by
    intro e he
    rcases List.mem_append.mp he with he | he
    · obtain ⟨c,hc,rfl⟩ := List.mem_map.mp he
      exact fun _ => reached_sublist.subset (List.mem_map_of_mem hc)
    · rcases List.mem_append.mp he with he | he
      · exact (controls_spec he).2
      · exact (controls_spec he).2
  rw [pairs_iff,hcloses]
  simp only [leads_started h,leads_append,leads_controls startupResources_nodup]
  constructor
  · rintro ⟨final,⟨order,hfollows,order',hleads,hshutdown⟩,-,hreversed⟩
    have hnodup := follows_nodup startupResources_nodup hfollows
    have hfollows' := (leads_controls hnodup _).mp hleads
    have hopen := ((leads_startupCloses hcause (follows_nodup hnodup hfollows')
      startupResources_nodup).mp hshutdown).1
    have hreplay := ((leads_started h).mpr (leads_append.mpr
      ⟨order,(leads_controls startupResources_nodup _).mpr hfollows,hleads⟩)).1
    rw [hassoc,reversed_iff hreplay hopen hown] at hreversed
    rw [hreversed] at hfollows'
    exact ⟨order,hfollows,hfollows'⟩
  · rintro ⟨order,hfollows,hfollows'⟩
    have hnodup := follows_nodup startupResources_nodup hfollows
    have hleads := (leads_controls hnodup _).mpr hfollows'
    have hreplay := ((leads_started h).mpr (leads_append.mpr
      ⟨order,(leads_controls startupResources_nodup _).mpr hfollows,hleads⟩)).1
    refine ⟨[],⟨order,hfollows,app.startupResources,hleads,?_⟩,fun _ _ => List.not_mem_nil,?_⟩
    · refine (leads_startupCloses hcause startupResources_nodup startupResources_nodup).mpr ?_
      exact ⟨fun _ hx => hx,(filter_startupResources fun _ hx => hx).symm⟩
    · rw [hassoc,reversed_iff hreplay (fun _ hx => hx) hown]

end Started

/-- The calls of a run of `serve` pair up exactly when every stop finds what it closes open,
every start finds what it opens closed, and in the end all is as it was opened. -/
theorem serve_pairs_iff (app : App R) (s : Serving) : Pairs app (serve app s) ↔ Orderly app s := by
  unfold Orderly
  cases h : seriesOutcome notReturned s.opens 0 app.startupResources with
  | cancelled => exact pairs_iff_of_cancelled h
  | raised => exact iff_of_true (pairs_of_raised h) trivial
  | returned =>
    dsimp only
    cases hhooks : s.startupHooks with
    | cancelled =>
      have hserve : serve app s = events .startup opening (startupOpens app s)++
          s.startupControls.flatMap (control app) := by
        unfold serve
        dsimp only
        rw [h,hhooks]
        exact congrArg _ (List.append_nil _)
      rw [hserve,pairs_iff_of_hooks_cancelled h]
      exact exists_eq_right.symm
    | raised =>
      have hserve : serve app s = events .startup opening (startupOpens app s)++
          (s.startupControls.flatMap (control app)++
            abandon s.closes app.startupResources) := by
        unfold serve
        dsimp only
        rw [h,hhooks]
        rfl
      rw [hserve]
      exact pairs_iff_of_hooks_raised h
    | returned =>
      have hserve : serve app s = events .startup opening (startupOpens app s)++
          (s.startupControls.flatMap (control app)++
            (s.controls.flatMap (control app)++shutdown s.closes app.startupResources)) := by
        unfold serve
        dsimp only
        rw [h,hhooks]
        rfl
      rw [hserve]
      exact pairs_iff_of_served h

/-- A task that reads from one resource and writes to another, or to the same. -/
def twoResources : App ℕ := ⟨[],0,[⟨"sync",some 1,[2],[]⟩]⟩

def oneResource : App ℕ := ⟨[],0,[⟨"sync",some 1,[1],[]⟩]⟩

def allReturn : ℕ → Outcome := fun _ => .returned

/-- A `startup` that is cancelled leaves open what it has opened; what was stopped is closed
again by `shutdown`; and what a task names twice is closed twice. -/
theorem serve_unpaired :
    ¬Pairs twoResources (serve twoResources
      ⟨fun i => if i = 1 then .cancelled else .returned,[],.returned,[],allReturn⟩) ∧
    ¬Pairs twoResources (serve twoResources
      ⟨allReturn,[],.returned,[.stopTaskRunner "sync" false allReturn],allReturn⟩) ∧
    ¬Pairs oneResource (serve oneResource
      ⟨allReturn,[],.returned,[.restartTaskRunner "sync" false allReturn allReturn],allReturn⟩) := by
  refine ⟨fun h => ?_,fun h => ?_,fun h => ?_⟩
  · have hlast := h.closed 0 ⟨⟨opening 0,.returned,.startup⟩,by decide,rfl,rfl⟩
    revert hlast
    decide
  · exact nomatch (h.alternate 1).2.2.1
  · exact nomatch (h.alternate 1).2.2.1

end Serving

end OneStep.ResourcePairs
