import OneStep.PairedCalls

/-!
# The resources of an application

`startup` opens every resource once and `shutdown` closes what `startup` opened. In between
the runner of a single task can be stopped and started, which closes and opens the resources
that nothing else refers to. Each call returns, raises or is cancelled, and three different
rules say how far a series of calls gets.
-/
namespace OneStep.AppResources
open PairedCalls

variable {R : Type} [DecidableEq R]

structure TaskSpec (R : Type) where
  name : String
  source : Option R
  sinks : List R
  deadLetterSinks : List R
deriving DecidableEq, Repr

structure App (R : Type) where
  namedResources : List (Option R)
  state : R
  tasks : List (TaskSpec R)
deriving DecidableEq, Repr

/-- `cancelled` stands for every exception that is not an `Exception`. -/
inductive Outcome where
  | returned
  | raised
  | cancelled
deriving DecidableEq, Repr

inductive Cause where
  | startup
  | stop (position : ℕ)
  | start (position : ℕ)
  | shutdown
deriving DecidableEq, Repr

structure Event (R : Type) where
  call : Call R
  outcome : Outcome
  cause : Cause
deriving DecidableEq, Repr

def taskResources (task : TaskSpec R) : List R :=
  task.source.toList++task.sinks++task.deadLetterSinks

/-- What does not belong to a task alone: the named resources and the state. -/
def App.common (app : App R) : List R := app.namedResources.filterMap id++[app.state]

def addResource (resources : List R) (resource : R) : List R :=
  if resource ∈ resources then resources else resources++[resource]

def App.startupResources (app : App R) : List R :=
  (app.common++app.tasks.flatMap taskResources).foldl addResource []

def App.referencedResources (app : App R) (excludeTaskName : String) : List R :=
  app.common++(app.tasks.filter fun task => task.name ≠ excludeTaskName).flatMap taskResources

def App.privateResources (app : App R) (task : TaskSpec R) : List R :=
  (taskResources task).filter fun resource => resource ∉ app.referencedResources task.name

/-- The task of the name, which needs a source, and its position. -/
def App.requireControllableTask (app : App R) (taskName : String) : Option (ℕ × TaskSpec R) :=
  (app.tasks.findIdx? fun task => task.name = taskName).bind fun i =>
    app.tasks[i]?.bind fun task => task.source.map fun _ => (i,task)

/-- The calls of a series, up to the first that ends it. -/
def reached (ends : Outcome → Bool) (outcomes : ℕ → Outcome) : ℕ → List R → List (R × Outcome)
  | _,[] => []
  | i,x::xs =>
    (x,outcomes i)::if ends (outcomes i) then [] else reached ends outcomes (i+1) xs

def seriesOutcome (ends : Outcome → Bool) (outcomes : ℕ → Outcome) : ℕ → List R → Outcome
  | _,[] => .returned
  | i,_::xs => if ends (outcomes i) then outcomes i else seriesOutcome ends outcomes (i+1) xs

def events (cause : Cause) (call : R → Call R) (calls : List (R × Outcome)) : List (Event R) :=
  calls.map fun c => ⟨call c.1,c.2,cause⟩

/-- An opening that does not return ends the series. -/
def notReturned : Outcome → Bool
  | .returned => false
  | _ => true

/-- `contextlib.suppress(Exception)` -/
def isCancelled : Outcome → Bool
  | .cancelled => true
  | _ => false

/-- `_close_resources` goes on after whatever a close raises. -/
def never : Outcome → Bool := fun _ => false

inductive Control where
  | stopTaskRunner (taskName : String) (interrupted : Bool) (closes : ℕ → Outcome)
  | startTaskRunner (taskName : String) (opens : ℕ → Outcome)
  | restartTaskRunner (taskName : String) (interrupted : Bool) (closes opens : ℕ → Outcome)

section Controls
variable (app : App R)

/-- What a stop comes to close; nothing, if it is cancelled while the runner ends. -/
def closedBy (task : TaskSpec R) (interrupted : Bool) (closes : ℕ → Outcome) :
    List (R × Outcome) :=
  if interrupted then [] else reached isCancelled closes 0 (app.privateResources task)

def openedBy (task : TaskSpec R) (opens : ℕ → Outcome) : List (R × Outcome) :=
  reached notReturned opens 0 (app.privateResources task)

def stopTaskRunner (taskName : String) (interrupted : Bool) (closes : ℕ → Outcome) :
    List (Event R) :=
  match app.requireControllableTask taskName with
  | none => []
  | some (i,task) => events (.stop i) closing (closedBy app task interrupted closes)

def startTaskRunner (taskName : String) (opens : ℕ → Outcome) : List (Event R) :=
  match app.requireControllableTask taskName with
  | none => []
  | some (i,task) => events (.start i) opening (openedBy app task opens)

/-- Whether `stop_task_runner` returns, so that a restart goes on. -/
def stopReturns (taskName : String) (interrupted : Bool) (closes : ℕ → Outcome) : Bool :=
  match app.requireControllableTask taskName with
  | none => false
  | some (_,task) => !interrupted &&
      !isCancelled (seriesOutcome isCancelled closes 0 (app.privateResources task))

def control : Control → List (Event R)
  | .stopTaskRunner taskName interrupted closes => stopTaskRunner app taskName interrupted closes
  | .startTaskRunner taskName opens => startTaskRunner app taskName opens
  | .restartTaskRunner taskName interrupted closes opens =>
    stopTaskRunner app taskName interrupted closes++
      if stopReturns app taskName interrupted closes then startTaskRunner app taskName opens
      else []

/-- How a run of `serve` goes: what the opens of `startup` come to, what its hooks ask for and
how they end, what is asked for while it serves and by the shutdown hooks, and what the closes
of the end come to. However the serving and the shutdown hooks end, the closes are made. -/
structure Serving where
  opens : ℕ → Outcome
  startupControls : List Control
  startupHooks : Outcome
  controls : List Control
  closes : ℕ → Outcome

def shutdown (closes : ℕ → Outcome) (resources : List R) : List (Event R) :=
  events .shutdown closing (reached never closes 0 resources.reverse)

/-- What the failing `startup` closes again. -/
def abandon (closes : ℕ → Outcome) (resources : List R) : List (Event R) :=
  events .startup closing (reached never closes 0 resources.reverse)

def opened (opens : ℕ → Outcome) (resources : List R) : List R :=
  ((reached notReturned opens 0 resources).filter fun c => c.2 = .returned).map Prod.fst

def serve (s : Serving) : List (Event R) :=
  let resources := app.startupResources
  events .startup opening (reached notReturned s.opens 0 resources)++
    match seriesOutcome notReturned s.opens 0 resources with
    | .cancelled => []
    | .raised => abandon s.closes (opened s.opens resources)
    | .returned =>
      s.startupControls.flatMap (control app)++
        match s.startupHooks with
        | .cancelled => []
        | .raised => abandon s.closes resources
        | .returned => s.controls.flatMap (control app)++shutdown s.closes resources

end Controls

end OneStep.AppResources
