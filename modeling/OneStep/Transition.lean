import Mathlib.Logic.Basic
import Mathlib.Data.List.Basic
import Mathlib.Data.List.Induction

/-!
# Labelled runs

A system is a relation between states, labelled by what was observed of each
step. Runs keep the list of labels, so that a result can speak of everything
that was observed on the way. Three induction rules cover the uses: a property
preserved by a step holds after a run, a preorder respected by a step relates
the ends of a run, and a bound on one label extends to every label of a run.
-/
namespace OneStep.Transition

variable {S L : Type}

inductive Run (step : S → L → S → Prop) : S → List L → S → Prop
  | nil (s : S) : Run step s [] s
  | cons {s t u : S} {l : L} {ls : List L} :
      step s l t → Run step t ls u → Run step s (l::ls) u

def Reachable (init : S) (step : S → L → S → Prop) (s : S) : Prop :=
  ∃ ls, Run step init ls s

variable {step : S → L → S → Prop} {s t : S} {ls : List L}

theorem Run.append {u : S} {ms : List L} (h : Run step s ls t) (k : Run step t ms u) :
    Run step s (ls++ms) u := by
  induction h with
  | nil s => exact k
  | cons hs _ ih => exact .cons hs (ih k)

theorem Run.single {l : L} (h : step s l t) : Run step s [l] t :=
  .cons h (.nil t)

theorem Run.split {u : S} {ms : List L} (h : Run step s (ls++ms) u) :
    ∃ t, Run step s ls t ∧ Run step t ms u := by
  induction ls generalizing s with
  | nil => exact ⟨s,.nil s,h⟩
  | cons l ls ih =>
    rw [List.cons_append] at h
    cases h with
    | cons hstep hrest =>
      obtain ⟨t,hfront,hback⟩ := ih hrest
      exact ⟨t,.cons hstep hfront,hback⟩

/-- A run that comes back to its start can be made any number of times. -/
theorem Run.again (h : Run step s ls s) (n : ℕ) : Run step s (List.replicate n ls).flatten s := by
  induction n with
  | zero => exact .nil s
  | succ n ih =>
    rw [List.replicate_succ,List.flatten_cons]
    exact h.append ih

variable {I : S → Prop}

theorem Run.invariant (hI : ∀ s l t, I s → step s l t → I t) (h : Run step s ls t) (hs : I s) :
    I t := by
  induction h with
  | nil s => exact hs
  | cons hstep _ ih => exact ih (hI _ _ _ hs hstep)

theorem Reachable.invariant {init : S} (h0 : I init) (hI : ∀ s l t, I s → step s l t → I t)
    (h : Reachable init step s) : I s := by
  obtain ⟨ls,hr⟩ := h
  exact hr.invariant hI h0

theorem Reachable.run {init : S} (h : Reachable init step s) (hr : Run step s ls t) :
    Reachable init step t := by
  obtain ⟨ms,hm⟩ := h
  exact ⟨ms++ls,hm.append hr⟩

theorem Run.mono {step' : S → L → S → Prop} (hstep : ∀ s l t, step s l t → step' s l t)
    (h : Run step s ls t) : Run step' s ls t := by
  induction h with
  | nil s => exact .nil s
  | cons hs _ ih => exact .cons (hstep _ _ _ hs) ih

/-- Performs the labels one by one, as long as each is allowed. -/
def runs (perform : S → L → Option S) (allowed : S → L → Bool) : S → List L → Option S
  | s,[] => some s
  | s,l::ls => if allowed s l then (perform s l).bind fun t => runs perform allowed t ls else none

variable {perform : S → L → Option S} {P : S → L → Prop}

theorem run_of_runs {allowed : S → L → Bool} (hP : ∀ s l, allowed s l = true → P s l)
    (h : runs perform allowed s ls = some t) :
    Run (fun s l t => perform s l = some t ∧ P s l) s ls t := by
  induction ls generalizing s with
  | nil =>
    cases h
    exact .nil _
  | cons l ls ih =>
    rw [runs] at h
    split at h
    · next hl =>
        obtain ⟨u,hu,hrest⟩ := Option.bind_eq_some_iff.mp h
        exact .cons ⟨hu,hP s l hl⟩ (ih hrest)
    · cases h

/-- A run of labels each of which is fine wherever it is performed. -/
theorem run_of_labels {P : L → Prop} (hP : ∀ l ∈ ls, P l)
    (h : runs perform (fun _ _ => true) s ls = some t) :
    Run (fun s l t => perform s l = some t ∧ P l) s ls t := by
  induction ls generalizing s with
  | nil =>
    cases h
    exact .nil _
  | cons l ls ih =>
    rw [runs,if_pos rfl] at h
    obtain ⟨u,hu,hrest⟩ := Option.bind_eq_some_iff.mp h
    exact .cons ⟨hu,hP l List.mem_cons_self⟩
      (ih (fun l' hl' => hP l' (List.mem_cons_of_mem _ hl')) hrest)

theorem runs_snoc (s : S) (ls : List L) (l : L) :
    runs perform (fun _ _ => true) s (ls++[l]) =
      (runs perform (fun _ _ => true) s ls).bind fun t => perform t l := by
  induction ls generalizing s with
  | nil =>
    simp only [List.nil_append,runs,if_true,Option.bind_some]
    cases perform s l <;> rfl
  | cons m ls ih =>
    simp only [List.cons_append,runs,if_true,Option.bind_assoc]
    congr 1
    funext t
    exact ih t

/-- What holds at the start, and after a step of what held before, holds after a run; it
may speak of all that was done. -/
theorem runs_history {I : List L → S → Prop} (h0 : I [] s)
    (hI : ∀ ls l t u, runs perform (fun _ _ => true) s ls = some t → I ls t →
      perform t l = some u → I (ls++[l]) u) (h : runs perform (fun _ _ => true) s ls = some t) :
    I ls t := by
  induction ls using List.reverseRecOn generalizing t with
  | nil =>
    cases h
    exact h0
  | append_singleton ls l ih =>
    rw [runs_snoc] at h
    obtain ⟨u,hu,hl⟩ := Option.bind_eq_some_iff.mp h
    exact hI ls l u t hu (ih hu) hl

/-- What a list of operations does, with what was observed of each. -/
def trace {O : Type} (perform : S → O → Option S) (event : S → O → S → L) :
    S → List O → Option (List L × S)
  | s,[] => some ([],s)
  | s,op::ops => (perform s op).bind fun t =>
    (trace perform event t ops).map fun r => (event s op t::r.1,r.2)

theorem run_of_trace {O : Type} {perform : S → O → Option S} {event : S → O → S → L}
    (hstep : ∀ s op t, perform s op = some t → step s (event s op t) t) {u : S} {ops : List O}
    (h : trace perform event s ops = some (ls,u)) : Run step s ls u := by
  induction ops generalizing s ls with
  | nil =>
    cases h
    exact .nil _
  | cons op ops ih =>
    obtain ⟨t,ht,hrest⟩ := Option.bind_eq_some_iff.mp h
    obtain ⟨r,hr,hls⟩ := Option.map_eq_some_iff.mp hrest
    cases hls
    exact .cons (hstep s op t ht) (ih hr)

/-- The property holds of every state a list of labels leads through. -/
def Throughout (perform : S → L → Option S) (I : S → Prop) : S → List L → Prop
  | s,[] => I s
  | s,l::ls => I s ∧ ∀ t, perform s l = some t → Throughout perform I t ls

/-- Every step a list of labels leads through is of the kind. -/
def EachStep (perform : S → L → Option S) (P : S → L → Prop) : S → List L → Prop
  | _,[] => True
  | s,l::ls => ∀ t, perform s l = some t → P s l ∧ EachStep perform P t ls

theorem Throughout.head (h : Throughout perform I s ls) : I s := by
  cases ls with
  | nil => exact h
  | cons l ls => exact h.1

theorem Throughout.last (h : Throughout perform I s ls)
    (hr : runs perform (fun _ _ => true) s ls = some t) : I t := by
  induction ls generalizing s with
  | nil =>
    cases hr
    exact h
  | cons l ls ih =>
    rw [runs,if_pos rfl] at hr
    obtain ⟨u,hu,hrest⟩ := Option.bind_eq_some_iff.mp hr
    exact ih (h.2 u hu) hrest

variable {J : S → Prop}

theorem throughout_of_invariant (hJ : ∀ s l t, J s → perform s l = some t → J t)
    (hI : ∀ s, J s → I s) (hs : J s) (ls : List L) : Throughout perform I s ls := by
  induction ls generalizing s with
  | nil => exact hI s hs
  | cons l ls ih => exact ⟨hI s hs,fun t ht => ih (hJ s l t hs ht)⟩

/-- What steps of a kind keep holds throughout a list of such steps. -/
theorem throughout_of_eachStep (h : EachStep perform P s ls)
    (hJ : ∀ s l t, J s → perform s l = some t → P s l → J t) (hI : ∀ s, J s → I s) (hs : J s) :
    Throughout perform I s ls := by
  induction ls generalizing s with
  | nil => exact hI s hs
  | cons l ls ih =>
    refine ⟨hI s hs,fun t ht => ?_⟩
    obtain ⟨hl,hrest⟩ := h t ht
    exact ih hrest (hJ s l t hs ht hl)

theorem eachStep_of_mem (h : ∀ l ∈ ls, ∀ s, P s l) (s : S) : EachStep perform P s ls := by
  induction ls generalizing s with
  | nil => trivial
  | cons l ls ih =>
    exact fun t _ => ⟨h l List.mem_cons_self s,ih (fun m hm => h m (List.mem_cons_of_mem l hm)) t⟩

/-- Each step checked in turn. -/
def checks (perform : S → L → Option S) (p : S → L → Bool) : S → List L → Bool
  | _,[] => true
  | s,l::ls =>
    match perform s l with
    | none => true
    | some t => p s l && checks perform p t ls

theorem eachStep_of_checks {p : S → L → Bool} (hP : ∀ s l, p s l = true → P s l)
    (h : checks perform p s ls = true) : EachStep perform P s ls := by
  induction ls generalizing s with
  | nil => trivial
  | cons l ls ih =>
    intro t ht
    rw [checks,ht] at h
    obtain ⟨hl,hrest⟩ := Bool.and_eq_true_iff.mp h
    exact ⟨hP s l hl,ih hrest⟩

/-- Two kinds of steps that are one from the good states, which steps of the kind keep. -/
theorem eachStep_iff {Q : S → L → Prop} (hJ : ∀ s l t, J s → perform s l = some t → Q s l → J t)
    (hPQ : ∀ s l t, J s → perform s l = some t → (P s l ↔ Q s l)) (hs : J s) (ls : List L) :
    EachStep perform P s ls ↔ EachStep perform Q s ls := by
  induction ls generalizing s with
  | nil => exact Iff.rfl
  | cons l ls ih =>
    constructor
    · intro h t ht
      have hl := (hPQ s l t hs ht).mp (h t ht).1
      exact ⟨hl,(ih (hJ s l t hs ht hl)).mp (h t ht).2⟩
    · intro h t ht
      have hl := (h t ht).1
      exact ⟨(hPQ s l t hs ht).mpr hl,(ih (hJ s l t hs ht hl)).mpr (h t ht).2⟩

/-- What remains of a list of labels after its front, and where it starts. -/
theorem eachStep_append (hJ : ∀ s l t, J s → perform s l = some t → P s l → J t)
    {front back : List L} (hs : J s) (h : EachStep perform P s (front++back))
    (hr : runs perform (fun _ _ => true) s front = some t) : J t ∧ EachStep perform P t back := by
  induction front generalizing s with
  | nil =>
    cases hr
    exact ⟨hs,h⟩
  | cons l front ih =>
    rw [runs,if_pos rfl] at hr
    obtain ⟨u,hu,hrest⟩ := Option.bind_eq_some_iff.mp hr
    obtain ⟨hl,htail⟩ := h u hu
    exact ih (hJ s l u hs hu hl) htail hrest

/-- A property that good states have, and that a step from one loses unless it is of the
kind that keeps them good. -/
theorem throughout_iff_kept (hI : ∀ s, J s → I s)
    (hJ : ∀ s l t, J s → perform s l = some t → P s l → J t)
    (hP : ∀ s l t, J s → perform s l = some t → I t → P s l) (hs : J s) (ls : List L) :
    Throughout perform I s ls ↔ EachStep perform P s ls := by
  constructor
  · intro h
    induction ls generalizing s with
    | nil => trivial
    | cons l ls ih =>
      intro t ht
      have hl := hP s l t hs ht (h.2 t ht).head
      exact ⟨hl,ih (hJ s l t hs ht hl) (h.2 t ht)⟩
  · exact fun h => throughout_of_eachStep h hJ hI hs

/-- The same with a property of the steps beside the one of the states. -/
theorem throughout_and_eachStep_iff {A : S → L → Prop} (hI : ∀ s, J s → I s)
    (hJ : ∀ s l t, J s → perform s l = some t → P s l → J t ∧ A s l)
    (hP : ∀ s l t, J s → perform s l = some t → I t → A s l → P s l) (hs : J s) (ls : List L) :
    Throughout perform I s ls ∧ EachStep perform A s ls ↔ EachStep perform P s ls := by
  induction ls generalizing s with
  | nil => exact iff_of_true ⟨hI s hs,trivial⟩ trivial
  | cons l ls ih =>
    constructor
    · rintro ⟨hall,hsteps⟩ t ht
      have hl := hP s l t hs ht (hall.2 t ht).head (hsteps t ht).1
      exact ⟨hl,(ih (hJ s l t hs ht hl).1).mp ⟨hall.2 t ht,(hsteps t ht).2⟩⟩
    · intro h
      have hrest : ∀ t, perform s l = some t →
          A s l ∧ Throughout perform I t ls ∧ EachStep perform A t ls := by
        intro t ht
        obtain ⟨ht',hl⟩ := hJ s l t hs ht (h t ht).1
        exact ⟨hl,(ih ht').mpr (h t ht).2⟩
      exact ⟨⟨hI s hs,fun t ht => (hrest t ht).2.1⟩,fun t ht => ⟨(hrest t ht).1,(hrest t ht).2.2⟩⟩

/-- When steps from good states stay among them exactly if they are of a kind,
a run stays among them exactly if all of its steps are. -/
theorem throughout_iff (hJ : ∀ s l t, J s → perform s l = some t → J t)
    (hI : ∀ s l t, J s → I s → perform s l = some t → (I t ↔ P s l)) (hs : J s) (hgood : I s)
    (ls : List L) : Throughout perform I s ls ↔ EachStep perform P s ls := by
  induction ls generalizing s with
  | nil => exact iff_of_true hgood trivial
  | cons l ls ih =>
    constructor
    · intro h t ht
      have hgood' := (h.2 t ht).head
      exact ⟨(hI s l t hs hgood ht).mp hgood',(ih (hJ s l t hs ht) hgood').mp (h.2 t ht)⟩
    · intro h
      refine ⟨hgood,fun t ht => ?_⟩
      have hgood' := (hI s l t hs hgood ht).mpr (h t ht).1
      exact (ih (hJ s l t hs ht) hgood').mpr (h t ht).2

end OneStep.Transition
