import Mathlib.Control.Basic

/-!
# Transactions with rollback

A transaction body threads a store through a computation that may fail. The
outer commit keeps the final store on success and the initial one on failure.
Bodies are taken apart by inversion of their successful runs; a loop over a
list is taken apart by a preorder that every iteration respects.
-/
namespace OneStep.Transaction

variable {σ ε α β : Type} {s : σ}

abbrev Tx (σ ε : Type) := StateT σ (Except ε)

/-- The store after a failed body is the store before it. -/
def commit (tx : Tx σ ε α) (s : σ) : Except ε α × σ :=
  match tx.run s with
  | .ok (a,t) => (.ok a,t)
  | .error e => (.error e,s)

variable {tx : Tx σ ε α} {t : σ} {a : α}

theorem commit_of_ok (h : tx.run s = .ok (a,t)) : commit tx s = (.ok a,t) := by
  simp only [commit,h]

theorem commit_of_error {e : ε} (h : tx.run s = .error e) : commit tx s = (.error e,s) := by
  simp only [commit,h]

/-- Either the body ran to its end, or nothing happened. -/
theorem commit_cases (tx : Tx σ ε α) (s : σ) :
    (∃ a t, tx.run s = .ok (a,t) ∧ commit tx s = (.ok a,t)) ∨
      ∃ e, tx.run s = .error e ∧ commit tx s = (.error e,s) := by
  cases h : tx.run s with
  | ok p => exact .inl ⟨p.1,p.2,rfl,commit_of_ok h⟩
  | error e => exact .inr ⟨e,rfl,commit_of_error h⟩

variable {x : Tx σ ε α} {f : α → Tx σ ε β}

theorem bind_ok {u : σ} {b : β} :
    (x >>= f).run s = .ok (b,u) ↔
      ∃ a t, x.run s = .ok (a,t) ∧ (f a).run t = .ok (b,u) := by
  rw [StateT.run_bind]
  cases h : x.run s with
  | error e =>
    constructor
    · intro hb
      cases hb
    · rintro ⟨a,t,ha,_⟩
      cases ha
  | ok p =>
    constructor
    · intro hb
      exact ⟨p.1,p.2,rfl,hb⟩
    · rintro ⟨a,t,ha,hb⟩
      cases ha
      exact hb

/-- A first step that succeeds hands its value and its store on. -/
theorem bind_run (h : x.run s = .ok (a,t)) : (x >>= f).run s = (f a).run t := by
  rw [StateT.run_bind,h]
  rfl

theorem pure_ok {b : α} : (pure a : Tx σ ε α).run s = .ok (b,t) ↔ a = b ∧ s = t := by
  constructor
  · intro h
    cases h
    exact ⟨rfl,rfl⟩
  · rintro ⟨rfl,rfl⟩
    rfl

theorem get_ok {a : σ} : (get : Tx σ ε σ).run s = .ok (a,t) ↔ a = s ∧ t = s := by
  constructor
  · intro h
    cases h
    exact ⟨rfl,rfl⟩
  · rintro ⟨rfl,rfl⟩
    rfl

theorem throw_ok {e : ε} : (throw e : Tx σ ε α).run s = .ok (a,t) ↔ False := by
  constructor
  · intro h
    cases h
  · exact False.elim

/-- Every failure of the body, from any store, satisfies `P`. -/
def Raises (P : ε → Prop) (x : Tx σ ε α) : Prop := ∀ s e, x.run s = .error e → P e

variable {P : ε → Prop}

theorem raises_bind (hx : Raises P x) (hf : ∀ a, Raises P (f a)) : Raises P (x >>= f) := by
  intro s e h
  rw [StateT.run_bind] at h
  cases hr : x.run s with
  | error e' =>
    rw [hr] at h
    cases h
    exact hx s _ hr
  | ok p =>
    rw [hr] at h
    exact hf p.1 p.2 e h

theorem raises_pure (P : ε → Prop) (a : α) : Raises P (pure a : Tx σ ε α) := by
  intro s e h
  cases h

theorem raises_throw {e : ε} (h : P e) : Raises P (throw e : Tx σ ε α) := by
  intro s e' he
  cases he
  exact h

theorem raises_ite {c : Prop} [Decidable c] {y : Tx σ ε α} (hx : Raises P x) (hy : Raises P y) :
    Raises P (if c then x else y) := by
  split
  · exact hx
  · exact hy

/-- A body that fails only as `P` and does not succeed leaves the store alone. -/
theorem commit_raises (hP : Raises P tx) (h : ∀ a t, tx.run s ≠ .ok (a,t)) :
    ∃ e, P e ∧ commit tx s = (.error e,s) := by
  rcases commit_cases tx s with ⟨a,t,hrun,_⟩ | ⟨e,hrun,hc⟩
  · exact absurd hrun (h a t)
  · exact ⟨e,hP s e hrun,hc⟩

/-- Run the body on every element, in order. -/
def each (f : α → Tx σ ε Unit) : List α → Tx σ ε Unit
  | [] => pure ()
  | a::as => do
    f a
    each f as

theorem each_relates {f : α → Tx σ ε Unit} {I : σ → Prop} {R : σ → σ → Prop} (hrefl : ∀ s, R s s)
    (htrans : ∀ s t u, R s t → R t u → R s u)
    (hf : ∀ a s t, I s → (f a).run s = .ok ((),t) → I t ∧ R s t) {as : List α} (hs : I s)
    (h : (each f as).run s = .ok ((),t)) : I t ∧ R s t := by
  induction as generalizing s with
  | nil =>
    obtain ⟨_,rfl⟩ := pure_ok.mp h
    exact ⟨hs,hrefl s⟩
  | cons a as ih =>
    obtain ⟨_,u,ha,hrest⟩ := bind_ok.mp h
    obtain ⟨hu,hR⟩ := hf a s u hs ha
    obtain ⟨ht,hR'⟩ := ih hu hrest
    exact ⟨ht,htrans _ _ _ hR hR'⟩

end OneStep.Transaction
