import Mathlib.Data.List.Basic

/-!
# Coroutines with a call log

An asynchronous function awaits calls whose outcomes it does not choose: each
returns, raises or is cancelled. Every assignment of outcomes is one function,
so a coroutine is deterministic; it threads a mutable record and logs the calls
it makes, in order. The rules below answer three questions about a coroutine
without running it: how it ends, as the first interruption in a list of
outcomes; which calls it can make; and whether it makes a call of some kind.
-/
namespace OneStep.Coroutine

variable {σ C E α β : Type}

inductive Interrupt (E : Type) where
  | raised (e : E)
  | cancelled
  deriving DecidableEq, Repr

abbrev Outcome (E α : Type) := Except (Interrupt E) α

structure Ended (σ C E α : Type) where
  result : Outcome E α
  state : σ
  calls : List C

structure Co (σ C E α : Type) where
  run : σ → Ended σ C E α

/-- What follows an end with value `a`, after the calls made so far. -/
def Ended.andThen (calls : List C) (e : Ended σ C E β) : Ended σ C E β :=
  ⟨e.result,e.state,calls++e.calls⟩

instance : Monad (Co σ C E) where
  pure a := ⟨fun s => ⟨.ok a,s,[]⟩⟩
  bind p f := ⟨fun s =>
    match (p.run s).result with
    | .ok a => ((f a).run (p.run s).state).andThen (p.run s).calls
    | .error i => ⟨.error i,(p.run s).state,(p.run s).calls⟩⟩

def call (c : C) (o : Outcome E α) : Co σ C E α := ⟨fun s => ⟨o,s,[c]⟩⟩

/-- Synchronous code that may be interrupted and awaits nothing. -/
def lift (o : Outcome E α) : Co σ C E α := ⟨fun s => ⟨o,s,[]⟩⟩

def ofExcept (o : Except E α) : Co σ C E α := lift (o.mapError .raised)

def current : Co σ C E σ := ⟨fun s => ⟨.ok s,s,[]⟩⟩

def assign (f : σ → σ) : Co σ C E Unit := ⟨fun s => ⟨.ok (),f s,[]⟩⟩

def interrupt (i : Interrupt E) : Co σ C E α := lift (.error i)

/-- A try block whose handler sees every interruption. -/
def handle (p : Co σ C E α) (h : Interrupt E → Co σ C E α) : Co σ C E α := ⟨fun s =>
  match (p.run s).result with
  | .ok _ => p.run s
  | .error i => ((h i).run (p.run s).state).andThen (p.run s).calls⟩

/-- A try block that catches exceptions and lets a cancellation through. -/
def attempt (p : Co σ C E α) (h : E → Co σ C E α) : Co σ C E α :=
  handle p fun i =>
    match i with
    | .raised e => h e
    | .cancelled => interrupt .cancelled

/-- An except clause that acts on a cancellation and lets it through. -/
def onCancelled (p : Co σ C E α) (h : Co σ C E Unit) : Co σ C E α :=
  handle p fun i =>
    match i with
    | .raised e => interrupt (.raised e)
    | .cancelled => do
      h
      interrupt .cancelled

/-- A finally clause: it runs in either case, and an interruption of its own
replaces what went before. -/
def ensure (p : Co σ C E α) (q : Co σ C E Unit) : Co σ C E α := do
  let a ← handle p fun i => do
    q
    interrupt i
  q
  return a

/-- A try block that only logs what it catches. -/
def suppress (p : Co σ C E Unit) : Co σ C E Unit := attempt p fun _ => pure ()

def forEach (f : α → Co σ C E Unit) : List α → Co σ C E Unit
  | [] => pure ()
  | a::as => do
    f a
    forEach f as

section Steps
variable {p : Co σ C E α} {f : α → Co σ C E β} {s : σ}

theorem bind_of_ok {a : α} (h : (p.run s).result = .ok a) :
    (p >>= f).run s = ((f a).run (p.run s).state).andThen (p.run s).calls := by
  change (match (p.run s).result with
    | .ok a => ((f a).run (p.run s).state).andThen (p.run s).calls
    | .error i => ⟨.error i,(p.run s).state,(p.run s).calls⟩) = _
  rw [h]

theorem bind_of_error {i : Interrupt E} (h : (p.run s).result = .error i) :
    (p >>= f).run s = ⟨.error i,(p.run s).state,(p.run s).calls⟩ := by
  change (match (p.run s).result with
    | .ok a => ((f a).run (p.run s).state).andThen (p.run s).calls
    | .error i => ⟨.error i,(p.run s).state,(p.run s).calls⟩) = _
  rw [h]

theorem current_bind {g : σ → Co σ C E β} : (current >>= g).run s = (g s).run s := rfl

theorem ofExcept_ok_bind {a : α} :
    (ofExcept (.ok a) >>= f : Co σ C E β) = f a := rfl

theorem ofExcept_error_bind {e : E} :
    (ofExcept (.error e) >>= f : Co σ C E β) = interrupt (.raised e) := rfl

theorem bind_result {b : β} (h : ((p >>= f).run s).result = .ok b) :
    ∃ a, (p.run s).result = .ok a ∧ ((f a).run (p.run s).state).result = .ok b := by
  cases hr : (p.run s).result with
  | ok a =>
    rw [bind_of_ok hr] at h
    exact ⟨a,rfl,h⟩
  | error i =>
    rw [bind_of_error hr] at h
    cases h

theorem bind_bind {γ : Type} (p : Co σ C E α) (f : α → Co σ C E β) (g : β → Co σ C E γ) :
    (p >>= f) >>= g = p >>= fun a => f a >>= g := by
  refine congrArg Co.mk (funext fun s => ?_)
  cases hp : (p.run s).result with
  | error i => simp only [bind_of_error hp]
  | ok a =>
    simp only [bind_of_ok hp]
    cases hf : ((f a).run (p.run s).state).result with
    | error i => simp [Ended.andThen,hf,bind_of_error hf]
    | ok b => simp [Ended.andThen,hf,bind_of_ok hf]

theorem handle_of_ok {h : Interrupt E → Co σ C E α} {a : α} (hp : (p.run s).result = .ok a) :
    (handle p h).run s = p.run s := by
  simp only [handle,hp]

theorem handle_of_error {h : Interrupt E → Co σ C E α} {i : Interrupt E}
    (hp : (p.run s).result = .error i) :
    (handle p h).run s = ((h i).run (p.run s).state).andThen (p.run s).calls := by
  simp only [handle,hp]

end Steps

section Results

/-- The first interruption of a list of outcomes, if there is one. -/
def first : List (Outcome E Unit) → Outcome E Unit
  | [] => .ok ()
  | .ok ()::os => first os
  | .error i::_ => .error i

def void (o : Outcome E α) : Outcome E Unit := o.map fun _ => ()

/-- The outcome of synchronous code that may raise. -/
def raises (o : Except E α) : Outcome E Unit := void (o.mapError .raised)

/-- An outcome whose exceptions are logged and dropped. -/
def dropped : Outcome E Unit → Outcome E Unit
  | .error (.raised _) => .ok ()
  | o => o

theorem first_append (l m : List (Outcome E Unit)) :
    first (l++m) = match first l with
      | .ok () => first m
      | .error i => .error i := by
  induction l with
  | nil => rfl
  | cons o l ih =>
    cases o with
    | ok u => exact ih
    | error i => rfl

variable {l m : List (Outcome E Unit)}

theorem first_append_of_ok (h : first l = .ok ()) : first (l++m) = first m := by
  rw [first_append,h]

theorem first_append_ok : first (l++m) = .ok () ↔ first l = .ok () ∧ first m = .ok () := by
  rw [first_append]
  cases first l with
  | ok u => simp
  | error i => simp

theorem first_ok_iff : first l = .ok () ↔ ∀ o ∈ l, o = .ok () := by
  induction l with
  | nil => simp [first]
  | cons o l ih =>
    cases o with
    | ok u => simpa [first] using ih
    | error i => simp [first]

theorem mem_of_first {i : Interrupt E} (h : first l = .error i) : .error i ∈ l := by
  induction l with
  | nil => cases h
  | cons o l ih =>
    cases o with
    | ok u => exact List.mem_cons_of_mem _ (ih h)
    | error j =>
      cases h
      exact List.mem_cons_self

theorem first_singleton (o : Outcome E Unit) : first [o] = o := by
  cases o <;> rfl

theorem raises_ok {o : Except E α} : raises o = .ok () ↔ o.isOk = true := by
  cases o <;> simp [raises,void,Except.mapError,Except.map,Except.isOk,Except.toBool]

@[simp] theorem void_unit (o : Outcome E Unit) : void o = o := by
  cases o <;> rfl

variable {o : Outcome E α}

theorem void_ok : void o = .ok () ↔ ∃ a, o = .ok a := by
  cases o <;> simp [void,Except.map]

theorem void_error {i : Interrupt E} : void o = .error i ↔ o = .error i := by
  cases o <;> simp [void,Except.map]

/-- From any state satisfying `I`, the coroutine ends as the first interruption
of `l` and keeps `I`. -/
def Yields (I : σ → Prop) (p : Co σ C E α) (l : List (Outcome E Unit)) : Prop :=
  ∀ s, I s → void (p.run s).result = first l ∧ I (p.run s).state

def Returns (I : σ → Prop) (p : Co σ C E α) (a : α) : Prop :=
  ∃ s, I s ∧ (p.run s).result = .ok a

variable {I : σ → Prop} {p : Co σ C E α}

theorem yields_pure (a : α) : Yields I (pure a : Co σ C E α) [] := fun _ hs => ⟨rfl,hs⟩

theorem yields_lift (o : Outcome E α) : Yields I (lift o : Co σ C E α) [void o] := by
  intro s hs
  refine ⟨?_,hs⟩
  cases o <;> rfl

theorem yields_ofExcept (o : Except E α) : Yields I (ofExcept o : Co σ C E α) [raises o] :=
  yields_lift _

theorem yields_call (c : C) (o : Outcome E α) : Yields I (call c o : Co σ C E α) [void o] := by
  intro s hs
  refine ⟨?_,hs⟩
  cases o <;> rfl

theorem yields_assign {f : σ → σ} (h : ∀ s, I s → I (f s)) :
    Yields I (assign f : Co σ C E Unit) [] := fun s hs => ⟨rfl,h s hs⟩

theorem returns_call {c : C} {a : α} (h : Returns I (call c o : Co σ C E α) a) : o = .ok a := by
  obtain ⟨s,-,hr⟩ := h
  exact hr

theorem yields_bind {f : α → Co σ C E β} (hp : Yields I p l)
    (hf : ∀ a, Returns I p a → Yields I (f a) m) : Yields I (p >>= f) (l++m) := by
  intro s hs
  obtain ⟨hl,hI⟩ := hp s hs
  cases hr : (p.run s).result with
  | ok a =>
    obtain ⟨hm,hJ⟩ := hf a ⟨s,hs,hr⟩ (p.run s).state hI
    rw [hr] at hl
    rw [bind_of_ok hr,first_append_of_ok hl.symm]
    exact ⟨hm,hJ⟩
  | error i =>
    rw [bind_of_error hr,first_append,← hl,hr]
    exact ⟨rfl,hI⟩

theorem Yields.congr (h : Yields I p l) (e : l = m) : Yields I p m := e ▸ h

theorem yields_ite {c : Prop} [Decidable c] {r : Co σ C E α} (hp : Yields I p l)
    (hr : Yields I r m) : Yields I (if c then p else r) (if c then l else m) := by
  split
  · exact hp
  · exact hr

theorem yields_forEach {f : α → Co σ C E Unit} {l : α → List (Outcome E Unit)} {as : List α}
    (hf : ∀ a, Yields I (f a) (l a)) : Yields I (forEach f as) (as.flatMap l) := by
  induction as with
  | nil => exact yields_pure ()
  | cons a as ih => exact yields_bind (hf a) fun _ _ => ih

theorem yields_forEach_map {f : α → Co σ C E Unit} {o : α → Outcome E Unit} {as : List α}
    (hf : ∀ a, Yields I (f a) [o a]) : Yields I (forEach f as) (as.map o) := by
  refine (yields_forEach hf).congr ?_
  induction as with
  | nil => rfl
  | cons a as ih => simp [ih]

/-- The outcome of a try block that catches exceptions. -/
def caught (o : Outcome E Unit) (h : E → Outcome E Unit) : Outcome E Unit :=
  match o with
  | .ok () => .ok ()
  | .error (.raised e) => h e
  | .error .cancelled => .error .cancelled

theorem yields_attempt {h : E → Co σ C E α} {m : E → List (Outcome E Unit)} (hp : Yields I p l)
    (hh : ∀ e, first l = .error (.raised e) → Yields I (h e) (m e)) :
    Yields I (attempt p h) [caught (first l) fun e => first (m e)] := by
  intro s hs
  obtain ⟨hl,hI⟩ := hp s hs
  unfold attempt
  cases hr : (p.run s).result with
  | ok a =>
    rw [handle_of_ok hr,← hl,hr]
    exact ⟨rfl,hI⟩
  | error i =>
    rw [handle_of_error hr,← hl,hr]
    cases i with
    | raised e =>
      have hfirst : first l = .error (.raised e) := by rw [← hl,hr]; rfl
      obtain ⟨hm,hJ⟩ := hh e hfirst (p.run s).state hI
      refine ⟨?_,hJ⟩
      change void ((h e).run (p.run s).state).result = first [first (m e)]
      rw [hm]
      cases first (m e) <;> rfl
    | cancelled => exact ⟨rfl,hI⟩

theorem yields_suppress {p : Co σ C E Unit} (hp : Yields I p l) :
    Yields I (suppress p) [dropped (first l)] := by
  refine (yields_attempt hp fun _ _ => yields_pure ()).congr ?_
  cases first l with
  | ok u => rfl
  | error i => cases i <;> rfl

theorem yields_suppress_call (c : C) (o : Outcome E Unit) :
    Yields I (suppress (call c o) : Co σ C E Unit) [dropped o] := by
  refine (yields_suppress (yields_call c o)).congr ?_
  cases o <;> rfl

end Results

section Calls
variable {P : C → Prop} {p : Co σ C E α}

/-- Every call the coroutine can make satisfies `P`. -/
def Only (P : C → Prop) (p : Co σ C E α) : Prop := ∀ s, ∀ c ∈ (p.run s).calls, P c

theorem Only.mono {Q : C → Prop} (h : Only P p) (hPQ : ∀ c, P c → Q c) :
    Only Q p := fun s c hc => hPQ c (h s c hc)

theorem only_ite {c : Prop} [Decidable c] {r : Co σ C E α} (hp : Only P p) (hr : Only P r) :
    Only P (if c then p else r) := by
  split
  · exact hp
  · exact hr

theorem only_pure (a : α) : Only P (pure a : Co σ C E α) := by
  intro s c hc
  cases hc

theorem only_lift (o : Outcome E α) : Only P (lift o : Co σ C E α) := by
  intro s c hc
  cases hc

theorem only_current : Only P (current : Co σ C E σ) := by
  intro s c hc
  cases hc

theorem only_assign (f : σ → σ) : Only P (assign f : Co σ C E Unit) := by
  intro s c hc
  cases hc

theorem only_call {c : C} {o : Outcome E α} (h : P c) : Only P (call c o : Co σ C E α) := by
  intro s c' hc
  rw [List.mem_singleton.mp hc]
  exact h

/-- What follows need only be considered for the values that are returned. -/
theorem only_bind_returned {f : α → Co σ C E β} (hp : Only P p)
    (hf : ∀ a, Returns (fun _ => True) p a → Only P (f a)) : Only P (p >>= f) := by
  intro s c hc
  cases hr : (p.run s).result with
  | ok a =>
    rw [bind_of_ok hr] at hc
    rcases List.mem_append.mp hc with hc | hc
    · exact hp s c hc
    · exact hf a ⟨s,trivial,hr⟩ _ c hc
  | error i =>
    rw [bind_of_error hr] at hc
    exact hp s c hc

theorem only_bind {f : α → Co σ C E β} (hp : Only P p) (hf : ∀ a, Only P (f a)) :
    Only P (p >>= f) := only_bind_returned hp fun a _ => hf a

theorem only_handle {h : Interrupt E → Co σ C E α} (hp : Only P p) (hh : ∀ i, Only P (h i)) :
    Only P (handle p h) := by
  intro s c hc
  cases hr : (p.run s).result with
  | ok a =>
    rw [handle_of_ok hr] at hc
    exact hp s c hc
  | error i =>
    rw [handle_of_error hr] at hc
    rcases List.mem_append.mp hc with hc | hc
    · exact hp s c hc
    · exact hh i _ c hc

theorem only_attempt {h : E → Co σ C E α} (hp : Only P p) (hh : ∀ e, Only P (h e)) :
    Only P (attempt p h) := by
  refine only_handle hp fun i => ?_
  cases i with
  | raised e => exact hh e
  | cancelled => exact only_lift _

theorem only_onCancelled {q : Co σ C E Unit} (hp : Only P p) (hq : Only P q) :
    Only P (onCancelled p q) := by
  refine only_handle hp fun i => ?_
  cases i with
  | raised e => exact only_lift _
  | cancelled => exact only_bind hq fun _ => only_lift _

theorem only_ensure {q : Co σ C E Unit} (hp : Only P p) (hq : Only P q) : Only P (ensure p q) :=
  only_bind (only_handle hp fun _ => only_bind hq fun _ => only_lift _) fun _ =>
    only_bind hq fun _ => only_pure _

theorem only_suppress {p : Co σ C E Unit} (hp : Only P p) : Only P (suppress p) :=
  only_attempt hp fun _ => only_pure ()

theorem only_forEach_mem {f : α → Co σ C E Unit} {as : List α} (hf : ∀ a ∈ as, Only P (f a)) :
    Only P (forEach f as) := by
  induction as with
  | nil => exact only_pure ()
  | cons a as ih =>
    exact only_bind (hf a List.mem_cons_self) fun _ =>
      ih fun b hb => hf b (List.mem_cons_of_mem _ hb)

theorem only_forEach {f : α → Co σ C E Unit} {as : List α} (hf : ∀ a, Only P (f a)) :
    Only P (forEach f as) := only_forEach_mem fun a _ => hf a

end Calls

section Counting
variable {q : C → Bool} {p : Co σ C E α}

/-- At most `n` calls of kind `q`, whatever happens. -/
def AtMost (n : ℕ) (q : C → Bool) (p : Co σ C E α) : Prop :=
  ∀ s, (p.run s).calls.countP q ≤ n

theorem countP_of_only (h : Only (fun c => q c = false) p) (s : σ) : (p.run s).calls.countP q = 0 :=
  List.countP_eq_zero.mpr fun c hc => by simp [h s c hc]

theorem atMost_call (c : C) (o : Outcome E α) : AtMost 1 q (call c o : Co σ C E α) := by
  intro s
  exact List.countP_le_length

variable {n : ℕ}

theorem atMost_only (h : Only (fun c => q c = false) p) :
    AtMost n q p := fun s => by rw [countP_of_only h s]; exact Nat.zero_le n

variable {f : α → Co σ C E β}

/-- Only the second part counts. -/
theorem atMost_bind_right (hp : Only (fun c => q c = false) p) (hf : ∀ a, AtMost n q (f a)) :
    AtMost n q (p >>= f) := by
  intro s
  have hzero := countP_of_only hp s
  cases hr : (p.run s).result with
  | ok a =>
    have hbound := hf a (p.run s).state
    rw [bind_of_ok hr]
    change List.countP q (_++_) ≤ n
    rw [List.countP_append]
    omega
  | error i =>
    rw [bind_of_error hr]
    change List.countP q (p.run s).calls ≤ n
    omega

/-- Only the first part counts, unless it ends with a value that shows that it
has not counted. -/
theorem atMost_bind_left {P : α → Prop} (hp : AtMost n q p)
    (hfree : ∀ s a, (p.run s).result = .ok a → P a → (p.run s).calls.countP q = 0)
    (hf : ∀ a, P a → AtMost n q (f a)) (hspent : ∀ a, ¬P a → Only (fun c => q c = false) (f a)) :
    AtMost n q (p >>= f) := by
  intro s
  have hbound := hp s
  cases hr : (p.run s).result with
  | ok a =>
    rw [bind_of_ok hr]
    change List.countP q (_++_) ≤ n
    rw [List.countP_append]
    by_cases ha : P a
    · have hzero := hfree s a hr ha
      have hrest := hf a ha (p.run s).state
      omega
    · have hzero := countP_of_only (hspent a ha) (p.run s).state
      omega
  | error i =>
    rw [bind_of_error hr]
    exact hbound

/-- Only the first part counts. -/
theorem atMost_bind_quiet (hp : AtMost n q p) (hf : ∀ a, Only (fun c => q c = false) (f a)) :
    AtMost n q (p >>= f) :=
  atMost_bind_left (P := fun _ => False) hp (fun _ _ _ h => h.elim) (fun _ h => h.elim)
    fun a _ => hf a

theorem atMost_ite {c : Prop} [Decidable c] {r : Co σ C E α} (hp : AtMost n q p) (hr : AtMost n q r) :
    AtMost n q (if c then p else r) := by
  split
  · exact hp
  · exact hr

end Counting

section Reaching
variable {I : σ → Prop} {q : C → Prop} {φ ψ : Prop} {p : Co σ C E α} {f : α → Co σ C E β}

/-- From any state satisfying `I`, a call of kind `q` is made exactly when `φ`. -/
def Happens (I : σ → Prop) (q : C → Prop) (p : Co σ C E α) (φ : Prop) : Prop :=
  ∀ s, I s → ((∃ c ∈ (p.run s).calls, q c) ↔ φ)

/-- Whatever happens, a call of kind `q` is made. -/
def Always (q : C → Prop) (p : Co σ C E α) : Prop := ∀ s, ∃ c ∈ (p.run s).calls, q c

theorem always_call {c : C} {o : Outcome E α} (h : q c) : Always q (call c o : Co σ C E α) :=
  fun _ => ⟨c,List.mem_singleton_self c,h⟩

theorem always_bind (hp : Always q p) : Always q (p >>= f) := by
  intro s
  obtain ⟨c,hc,hq⟩ := hp s
  cases hr : (p.run s).result with
  | ok a =>
    rw [bind_of_ok hr]
    exact ⟨c,List.mem_append_left _ hc,hq⟩
  | error i =>
    rw [bind_of_error hr]
    exact ⟨c,hc,hq⟩

theorem always_attempt {h : E → Co σ C E α} (hp : Always q p) : Always q (attempt p h) := by
  intro s
  obtain ⟨c,hc,hq⟩ := hp s
  unfold attempt
  cases hr : (p.run s).result with
  | ok a =>
    rw [handle_of_ok hr]
    exact ⟨c,hc,hq⟩
  | error i =>
    rw [handle_of_error hr]
    exact ⟨c,List.mem_append_left _ hc,hq⟩

theorem Happens.congr (h : Happens I q p φ) (e : φ ↔ ψ) : Happens I q p ψ :=
  fun s hs => (h s hs).trans e

theorem happens_always (hp : Always q p) : Happens I q p True :=
  fun s _ => iff_of_true (hp s) trivial

theorem happens_never (hp : Only (fun c => ¬q c) p) : Happens I q p False := by
  intro s _
  constructor
  · rintro ⟨c,hc,hq⟩
    exact hp s c hc hq
  · exact False.elim

theorem happens_assign {J : σ → Prop} {f : σ → σ} (h : ∀ s, I s → J (f s)) (hp : Happens J q p φ) :
    Happens I q (assign f >>= fun _ => p) φ :=
  fun s hs => hp (f s) (h s hs)

variable {l : List (Outcome E Unit)}

theorem happens_bind (ho : Only (fun c => ¬q c) p) (hy : Yields I p l)
    (hf : ∀ a, Returns I p a → Happens I q (f a) φ) :
    Happens I q (p >>= f) (first l = .ok () ∧ φ) := by
  intro s hs
  obtain ⟨hl,hI⟩ := hy s hs
  have hnone : ∀ c ∈ (p.run s).calls, ¬q c := ho s
  cases hr : (p.run s).result with
  | ok a =>
    rw [hr] at hl
    have hfirst : first l = .ok () := hl.symm
    rw [bind_of_ok hr,← hf a ⟨s,hs,hr⟩ (p.run s).state hI]
    constructor
    · rintro ⟨c,hc,hq⟩
      rcases List.mem_append.mp hc with hc | hc
      · exact absurd hq (hnone c hc)
      · exact ⟨hfirst,c,hc,hq⟩
    · rintro ⟨-,c,hc,hq⟩
      exact ⟨c,List.mem_append_right _ hc,hq⟩
  | error i =>
    rw [hr] at hl
    rw [bind_of_error hr,← hl]
    constructor
    · rintro ⟨c,hc,hq⟩
      exact absurd hq (hnone c hc)
    · rintro ⟨h,-⟩
      cases h

/-- A call of kind `q` can only be made before the end of the first part. -/
theorem happens_bind_only (hp : Happens I q p φ)
    (ho : ∀ a, Returns I p a → Only (fun c => ¬q c) (f a)) : Happens I q (p >>= f) φ := by
  intro s hs
  rw [← hp s hs]
  cases hr : (p.run s).result with
  | ok a =>
    rw [bind_of_ok hr]
    constructor
    · rintro ⟨c,hc,hq⟩
      rcases List.mem_append.mp hc with hc | hc
      · exact ⟨c,hc,hq⟩
      · exact absurd hq (ho a ⟨s,hs,hr⟩ _ c hc)
    · rintro ⟨c,hc,hq⟩
      exact ⟨c,List.mem_append_left _ hc,hq⟩
  | error i => rw [bind_of_error hr]

/-- A call of kind `q` is made exactly when no outcome of `l` interrupts. -/
def Reaches (I : σ → Prop) (q : C → Prop) (p : Co σ C E α) (l : List (Outcome E Unit)) : Prop :=
  Happens I q p (first l = .ok ())

variable {m : List (Outcome E Unit)}

theorem Reaches.congr (h : Reaches I q p l) (e : first l = first m) :
    Reaches I q p m := Happens.congr h (by rw [e])

theorem reaches_always (hp : Always q p) : Reaches I q p [] :=
  (happens_always hp).congr (iff_of_true trivial rfl)

theorem reaches_never (hp : Only (fun c => ¬q c) p) (i : Interrupt E) (l : List (Outcome E Unit)) :
    Reaches I q p (.error i::l) :=
  (happens_never hp).congr (iff_of_false id (by simp [first]))

theorem reaches_assign {J : σ → Prop} {f : σ → σ} (h : ∀ s, I s → J (f s)) (hp : Reaches J q p l) :
    Reaches I q (assign f >>= fun _ => p) l := happens_assign h hp

theorem reaches_bind (ho : Only (fun c => ¬q c) p) (hy : Yields I p l)
    (hf : ∀ a, Returns I p a → Reaches I q (f a) m) : Reaches I q (p >>= f) (l++m) :=
  (happens_bind ho hy hf).congr first_append_ok.symm

/-- A first part that always returns and makes no call of kind `q`. -/
theorem reaches_skip (ho : Only (fun c => ¬q c) p) (hy : Yields I p [])
    (hf : ∀ a, Reaches I q (f a) m) :
    Reaches I q (p >>= f) m := reaches_bind ho hy fun a _ => hf a

theorem reaches_bind_only (hp : Reaches I q p l)
    (ho : ∀ a, Returns I p a → Only (fun c => ¬q c) (f a)) :
    Reaches I q (p >>= f) l := happens_bind_only hp ho

end Reaching

section Order
variable {q : C → Prop} {c : C}

/-- A coroutine that returns has made this call. -/
def Performs (c : C) (p : Co σ C E α) : Prop :=
  ∀ s a, (p.run s).result = .ok a → c ∈ (p.run s).calls

theorem performs_call (c : C) (o : Outcome E α) : Performs c (call c o : Co σ C E α) :=
  fun _ _ _ => List.mem_singleton_self c

variable {p : Co σ C E α} {f : α → Co σ C E β}

theorem performs_bind_left (hp : Performs c p) : Performs c (p >>= f) := by
  intro s b hb
  obtain ⟨a,ha,-⟩ := bind_result hb
  rw [bind_of_ok ha]
  exact List.mem_append_left _ (hp s a ha)

theorem performs_bind_right (hf : ∀ a, Performs c (f a)) : Performs c (p >>= f) := by
  intro s b hb
  obtain ⟨a,ha,hfa⟩ := bind_result hb
  rw [bind_of_ok ha]
  exact List.mem_append_right _ (hf a _ b hfa)

theorem performs_forEach {f : α → Co σ C E Unit} {as : List α} {a : α} (ha : a ∈ as)
    (hf : Performs c (f a)) : Performs c (forEach f as) := by
  induction as with
  | nil => cases ha
  | cons a' as ih =>
    rcases List.mem_cons.mp ha with rfl | ha
    · exact performs_bind_left hf
    · exact performs_bind_right fun _ => ih ha

/-- What `g` picks out of the calls of a coroutine that returns. -/
def Collects {γ : Type} (g : C → Option γ) (p : Co σ C E α) (l : List γ) : Prop :=
  ∀ s a, (p.run s).result = .ok a → (p.run s).calls.filterMap g = l

variable {γ : Type} {g : C → Option γ}

theorem collects_only (h : Only (fun c => g c = none) p) : Collects g p [] :=
  fun s _ _ => List.filterMap_eq_nil_iff.mpr (h s)

theorem collects_bind {l m : List γ} (hp : Collects g p l)
    (hf : ∀ a, Returns (fun _ => True) p a → Collects g (f a) m) : Collects g (p >>= f) (l++m) := by
  intro s b hb
  obtain ⟨a,ha,hfa⟩ := bind_result hb
  rw [bind_of_ok ha]
  change List.filterMap g (_++_) = _
  rw [List.filterMap_append,hp s a ha,hf a ⟨s,trivial,ha⟩ _ b hfa]

theorem Collects.congr {l m : List γ} (h : Collects g p l) (e : l = m) :
    Collects g p m := e ▸ h

theorem split_append {A B pre post : List C} {d : C} (h : A++B = pre++d::post) :
    (∃ pre', pre = A++pre' ∧ B = pre'++d::post) ∨
      ∃ post', A = pre++d::post' ∧ post = post'++B := by
  rcases List.append_eq_append_iff.mp h with ⟨pre',hpre,hB⟩ | ⟨rest,hA,hrest⟩
  · exact .inl ⟨pre',hpre,hB⟩
  · cases rest with
    | nil => exact .inl ⟨[],by simp [hA],by simpa using hrest.symm⟩
    | cons d' rest =>
      have hd : d = d' := (List.cons.inj hrest).1
      exact .inr ⟨rest,by rw [hA,hd],(List.cons.inj hrest).2⟩

/-- What was called before any call of kind `q` satisfies `G`. -/
def Guarded (q : C → Prop) (G : List C → Prop) (p : Co σ C E α) : Prop :=
  ∀ s pre d post, (p.run s).calls = pre++d::post → q d → G pre

variable {G : List C → Prop}

theorem guarded_never (h : Only (fun c => ¬q c) p) : Guarded q G p := by
  intro s pre d post hs hq
  have hd : d ∈ (p.run s).calls := by simp [hs]
  exact absurd hq (h s d hd)

/-- The first part makes no call of kind `q`, and either establishes the guard
or leaves it to the second. -/
theorem guarded_bind (hG : ∀ l m, G m → G (l++m)) (ho : Only (fun c => ¬q c) p)
    (hf : ∀ s a, (p.run s).result = .ok a → (∀ m, G ((p.run s).calls++m)) ∨ Guarded q G (f a)) :
    Guarded q G (p >>= f) := by
  intro s pre d post hs hq
  have hnone : ∀ d ∈ (p.run s).calls, ¬q d := ho s
  cases hr : (p.run s).result with
  | error i =>
    rw [bind_of_error hr] at hs
    have hd : d ∈ (p.run s).calls := by
      change (p.run s).calls = pre++d::post at hs
      simp [hs]
    exact absurd hq (hnone d hd)
  | ok a =>
    rw [bind_of_ok hr] at hs
    rcases split_append hs with ⟨pre',rfl,hB⟩ | ⟨post',hA,-⟩
    · rcases hf s a hr with hg | hg
      · exact hg pre'
      · exact hG _ _ (hg _ _ _ _ hB hq)
    · have hd : d ∈ (p.run s).calls := by simp [hA]
      exact absurd hq (hnone d hd)

/-- The calls are some that satisfy `P`, and then those of `r` from a state
that satisfies `J`. -/
def Leads (I : σ → Prop) (P : C → Prop) (p : Co σ C E α) (J : σ → Prop) (r : Co σ C E β) :
    Prop :=
  ∀ s, I s → ∃ before t, (∀ c ∈ before, P c) ∧ J t ∧ (p.run s).calls = before++(r.run t).calls

variable {P : C → Prop} {I J K : σ → Prop}

theorem leads_refl (p : Co σ C E α) : Leads I P p I p :=
  fun s hs => ⟨[],s,by simp,hs,rfl⟩

theorem leads_assign {f : σ → σ} {r : Co σ C E β} (h : ∀ s, I s → K (f s)) (hp : Leads K P p J r) :
    Leads I P (assign f >>= fun _ => p) J r :=
  fun s hs => hp (f s) (h s hs)

theorem leads_bind {r : Co σ C E γ} {l : List (Outcome E Unit)} (ho : Only P p) (hy : Yields I p l)
    (hl : first l = .ok ()) (hf : ∀ a, Returns I p a → Leads I P (f a) J r) :
    Leads I P (p >>= f) J r := by
  intro s hs
  obtain ⟨hfirst,hI⟩ := hy s hs
  rw [hl] at hfirst
  obtain ⟨a,ha⟩ := void_ok.mp hfirst
  obtain ⟨before,t,hbefore,ht,hcalls⟩ := hf a ⟨s,hs,ha⟩ _ hI
  refine ⟨(p.run s).calls++before,t,?_,ht,?_⟩
  · intro c hc
    rcases List.mem_append.mp hc with hc | hc
    · exact ho s c hc
    · exact hbefore c hc
  · rw [bind_of_ok ha]
    change _++_ = _
    rw [hcalls,List.append_assoc]

/-- The second part runs only when no outcome of the first interrupts. -/
theorem only_bind_yields {l : List (Outcome E Unit)} (hp : Only P p)
    (hy : Yields (fun _ => True) p l)
    (hf : first l = .ok () → ∀ a, Returns (fun _ => True) p a → Only P (f a)) :
    Only P (p >>= f) := by
  intro s c hc
  have hfirst := (hy s trivial).1
  cases hr : (p.run s).result with
  | ok a =>
    rw [hr] at hfirst
    rw [bind_of_ok hr] at hc
    rcases List.mem_append.mp hc with hc | hc
    · exact hp s c hc
    · exact hf hfirst.symm a ⟨s,trivial,hr⟩ _ c hc
  | error i =>
    rw [bind_of_error hr] at hc
    exact hp s c hc

end Order

section Ending
variable {γ : Type} {g : C → Option γ} {p : Co σ C E α} {f : α → Co σ C E β} {q : Co σ C E Unit}
  {a : α} {i : Interrupt E} {l m : List γ}

/-- From every state the coroutine ends with this outcome, and `g` picks this
list out of its calls. -/
def Ends (g : C → Option γ) (p : Co σ C E α) (o : Outcome E α) (l : List γ) : Prop :=
  ∀ s, (p.run s).result = o ∧ (p.run s).calls.filterMap g = l

variable {o : Outcome E α}

theorem Ends.congr (h : Ends g p o l) (e : l = m) : Ends g p o m := e ▸ h

theorem ends_pure (a : α) : Ends g (pure a : Co σ C E α) (.ok a) [] := fun _ => ⟨rfl,rfl⟩

theorem ends_interrupt : Ends g (interrupt i : Co σ C E α) (.error i) [] := fun _ => ⟨rfl,rfl⟩

theorem ends_assign (h : σ → σ) : Ends g (assign h : Co σ C E Unit) (.ok ()) [] :=
  fun _ => ⟨rfl,rfl⟩

theorem ends_call {c : C} (h : g c = none) : Ends g (call c o : Co σ C E α) o [] := by
  intro s
  exact ⟨rfl,by simp [call,h]⟩

theorem ends_call_picked {c : C} {b : γ} (h : g c = some b) :
    Ends g (call c o : Co σ C E α) o [b] := by
  intro s
  exact ⟨rfl,by simp [call,h]⟩

theorem ends_bind {o : Outcome E β} (hp : Ends g p (.ok a) l) (hf : Ends g (f a) o m) :
    Ends g (p >>= f) o (l++m) := by
  intro s
  obtain ⟨hres,hl⟩ := hp s
  obtain ⟨hres',hm⟩ := hf (p.run s).state
  rw [bind_of_ok hres]
  refine ⟨hres',?_⟩
  change List.filterMap g (_++_) = _
  rw [List.filterMap_append,hl,hm]

theorem ends_bind_error (hp : Ends g p (.error i) l) : Ends g (p >>= f) (.error i) l := by
  intro s
  rw [bind_of_error (hp s).1]
  exact ⟨rfl,(hp s).2⟩

theorem ends_handle_ok {h : Interrupt E → Co σ C E α} (hp : Ends g p (.ok a) l) :
    Ends g (handle p h) (.ok a) l := by
  intro s
  rw [handle_of_ok (hp s).1]
  exact hp s

theorem ends_handle_error {h : Interrupt E → Co σ C E α} (hp : Ends g p (.error i) l)
    (hh : Ends g (h i) o m) : Ends g (handle p h) o (l++m) := by
  intro s
  obtain ⟨hres,hl⟩ := hp s
  obtain ⟨hres',hm⟩ := hh (p.run s).state
  rw [handle_of_error hres]
  refine ⟨hres',?_⟩
  change List.filterMap g (_++_) = _
  rw [List.filterMap_append,hl,hm]

/-- Without a picked call, the outcomes that decide how it ends are enough. -/
theorem ends_of_yields {p : Co σ C E Unit} {os : List (Outcome E Unit)}
    (ho : Only (fun c => g c = none) p) (hy : Yields (fun _ => True) p os) :
    Ends g p (first os) [] := by
  intro s
  refine ⟨?_,List.filterMap_eq_nil_iff.mpr (ho s)⟩
  rw [← (hy s trivial).1,void_unit]

theorem ends_suppress {p : Co σ C E Unit} (hp : Ends g p (.ok ()) l) :
    Ends g (suppress p) (.ok ()) l := ends_handle_ok hp

theorem ends_suppress_raised {p : Co σ C E Unit} {e : E} (hp : Ends g p (.error (.raised e)) l) :
    Ends g (suppress p) (.ok ()) l :=
  (ends_handle_error hp (ends_pure ())).congr (List.append_nil l)

theorem ends_suppress_cancelled {p : Co σ C E Unit} (hp : Ends g p (.error .cancelled) l) :
    Ends g (suppress p) (.error .cancelled) l := by
  have hthrough : Ends g (suppress p) (.error .cancelled) (l++[]) :=
    ends_handle_error hp ends_interrupt
  exact hthrough.congr (List.append_nil l)

/-- The except clause may be interrupted itself. -/
theorem ends_onCancelled {o : Outcome E Unit} (hp : Ends g p (.error .cancelled) l)
    (hq : Ends g q o m) : ∃ j, Ends g (onCancelled p q) (.error j) (l++m) := by
  cases o with
  | ok u =>
    have hcaught : Ends g (q >>= fun _ => (interrupt .cancelled : Co σ C E α)) _ (m++[]) :=
      ends_bind hq ends_interrupt
    exact ⟨.cancelled,ends_handle_error hp (hcaught.congr (List.append_nil m))⟩
  | error j => exact ⟨j,ends_handle_error hp (ends_bind_error hq)⟩

theorem ends_ensure (hp : Ends g p (.ok a) l) (hq : Ends g q (.ok ()) m) :
    Ends g (ensure p q) (.ok a) (l++m) :=
  (ends_bind (ends_handle_ok hp) (ends_bind hq (ends_pure a))).congr (by rw [List.append_nil])

theorem ends_ensure_interrupted (hp : Ends g p (.ok a) l) (hq : Ends g q (.error i) m) :
    Ends g (ensure p q) (.error i) (l++m) :=
  ends_bind (ends_handle_ok hp) (ends_bind_error hq)

theorem ends_ensure_error {o : Outcome E Unit} (hp : Ends g p (.error i) l) (hq : Ends g q o m) :
    ∃ j, Ends g (ensure p q) (.error j) (l++m) := by
  cases o with
  | ok u =>
    have hcaught : Ends g (q >>= fun _ => (interrupt i : Co σ C E α)) _ (m++[]) :=
      ends_bind hq ends_interrupt
    exact ⟨i,ends_bind_error (ends_handle_error hp (hcaught.congr (List.append_nil m)))⟩
  | error j => exact ⟨j,ends_bind_error (ends_handle_error hp (ends_bind_error hq))⟩

end Ending

section Finishing
variable {I J : σ → Prop} {q final : C → Prop} {late : Prop}

/-- If no outcome of `l` interrupts, one call of kind `q` is made, which is final and is the
last call unless `late`; otherwise none is made. -/
def Finishes (I : σ → Prop) (q final : C → Prop) (p : Co σ C E α) (l : List (Outcome E Unit))
    (late : Prop) : Prop := ∀ s, I s →
  (first l = .ok () → ∃ pre c post, (p.run s).calls = pre++c::post ∧ final c ∧
    (∀ d ∈ pre++post, ¬q d) ∧ (late ∨ post = [])) ∧
  (first l ≠ .ok () → ∀ d ∈ (p.run s).calls, ¬q d)

variable {p : Co σ C E α} {l : List (Outcome E Unit)}

theorem Finishes.congr {m : List (Outcome E Unit)} (h : Finishes I q final p l late)
    (e : first l = first m) : Finishes I q final p m late := by
  intro s hs
  rw [← e]
  exact h s hs

theorem finishes_of_only (hp : Only (fun c => ¬q c) p) (hl : first l ≠ .ok ()) :
    Finishes I q final p l late :=
  fun s _ => ⟨fun h => absurd h hl,fun _ => hp s⟩

theorem finishes_never (hp : Only (fun c => ¬q c) p) (i : Interrupt E) (l : List (Outcome E Unit)) :
    Finishes I q final p (.error i::l) late :=
  finishes_of_only hp nofun

theorem finishes_assign {f : σ → σ} (h : ∀ s, I s → J (f s)) (hp : Finishes J q final p l late) :
    Finishes I q final (assign f >>= fun _ => p) l late := fun s hs => hp (f s) (h s hs)

theorem finishes_bind {f : α → Co σ C E β} {m : List (Outcome E Unit)} (ho : Only (fun c => ¬q c) p)
    (hy : Yields I p l) (hf : ∀ a, Returns I p a → Finishes I q final (f a) m late) :
    Finishes I q final (p >>= f) (l++m) late := by
  intro s hs
  obtain ⟨hl,hI⟩ := hy s hs
  cases hr : (p.run s).result with
  | error i =>
    rw [hr] at hl
    rw [bind_of_error hr,first_append,← hl]
    exact ⟨fun h => (by cases h),fun _ => ho s⟩
  | ok a =>
    rw [hr] at hl
    rw [bind_of_ok hr,first_append_of_ok hl.symm]
    obtain ⟨hone,hnone⟩ := hf a ⟨s,hs,hr⟩ _ hI
    constructor
    · intro hm
      obtain ⟨pre,c,post,hcalls,hfinal,hothers,hlate⟩ := hone hm
      refine ⟨(p.run s).calls++pre,c,post,?_,hfinal,fun d hd => ?_,hlate⟩
      · rw [List.append_assoc,← hcalls]
        rfl
      · rw [List.append_assoc] at hd
        rcases List.mem_append.mp hd with hd | hd
        · exact ho s d hd
        · exact hothers d hd
    · intro hm d hd
      rcases List.mem_append.mp hd with hd | hd
      · exact ho s d hd
      · exact hnone hm d hd

/-- What follows the final call is of another kind, and is nothing unless `late`. -/
theorem finishes_then {f : α → Co σ C E β} {early : Prop} (hp : Finishes I q final p l early)
    (hearly : early → late) (hJ : ∀ s, I s → J (p.run s).state)
    (ho : ∀ a, Only (fun c => ¬q c) (f a))
    (hsilent : ¬late → ∀ a s, J s → ((f a).run s).calls = []) :
    Finishes I q final (p >>= f) l late := by
  intro s hs
  obtain ⟨hone,hnone⟩ := hp s hs
  have hafter : ∃ after, ((p >>= f).run s).calls = (p.run s).calls++after ∧
      (∀ d ∈ after, ¬q d) ∧ (late ∨ after = []) := by
    cases hr : (p.run s).result with
    | error i =>
      rw [bind_of_error hr]
      exact ⟨[],(List.append_nil _).symm,fun _ hd => absurd hd List.not_mem_nil,.inr rfl⟩
    | ok a =>
      rw [bind_of_ok hr]
      refine ⟨_,rfl,ho a _,?_⟩
      by_cases hlate : late
      · exact .inl hlate
      · exact .inr (hsilent hlate a _ (hJ s hs))
  obtain ⟨after,hcalls,hafter,hlate⟩ := hafter
  rw [hcalls]
  constructor
  · intro hl
    obtain ⟨pre,c,post,hp,hfinal,hothers,hpost⟩ := hone hl
    refine ⟨pre,c,post++after,?_,hfinal,fun d hd => ?_,?_⟩
    · rw [hp,List.append_assoc]
      rfl
    · rw [← List.append_assoc] at hd
      rcases List.mem_append.mp hd with hd | hd
      · exact hothers d hd
      · exact hafter d hd
    · rcases hpost with hpost | rfl
      · exact .inl (hearly hpost)
      · exact hlate
  · intro hl d hd
    rcases List.mem_append.mp hd with hd | hd
    · exact hnone hl d hd
    · exact hafter d hd

end Finishing

section After

/-- What holds of the end from a state: of the outcome, the state, and the calls made. -/
def After (p : Co σ C E α) (s : σ) (Q : Outcome E α → σ → List C → Prop) : Prop :=
  Q (p.run s).result (p.run s).state (p.run s).calls

variable {s : σ}

theorem after_attempt {p : Co σ C E α} {h : E → Co σ C E α} {Q : Outcome E α → σ → List C → Prop} :
    After (attempt p h) s Q ↔ After p s fun r t calls =>
      match r with
      | .error (.raised e) => After (h e) t fun r u later => Q r u (calls++later)
      | r => Q r t calls := by
  unfold After attempt
  cases hr : (p.run s).result with
  | ok a => rw [handle_of_ok hr,hr]
  | error i =>
    rw [handle_of_error hr]
    cases i with
    | raised e => exact Iff.rfl
    | cancelled =>
      change Q _ _ ((p.run s).calls++[]) ↔ _
      rw [List.append_nil]
      exact Iff.rfl

end After

end OneStep.Coroutine
