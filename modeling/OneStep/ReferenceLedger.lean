import Mathlib.Data.Finset.Card

/-!
# Counted references

Owners share a resource through a counter of references. An operation under way accounts for
a reference too: one it has taken and not yet handed to an owner, or one it has taken back
from an owner and not yet given up. The counter is right when it is the number of the owners
and of the references in the hands of operations.
-/
namespace OneStep.ReferenceLedger

variable {Q O : Type}

/-- The references in the hands of the operations. -/
def load (weight : O → ℕ) : List O → ℕ
  | [] => 0
  | o::ops => weight o+load weight ops

section Equations
attribute [local simp] load
end Equations

structure Ledger (Q O : Type) where
  count : ℕ
  opened : Finset Q
  ops : List O
deriving DecidableEq

def Balanced (weight : O → ℕ) (l : Ledger Q O) : Prop :=
  l.count = l.opened.card+load weight l.ops

variable {weight : O → ℕ} {ops : List O} {o o' : O} {i : ℕ}

theorem load_set (h : ops[i]? = some o) :
    load weight (ops.set i o')+weight o = load weight ops+weight o' := by
  induction ops generalizing i with
  | nil => cases h
  | cons p ops ih =>
    cases i with
    | zero =>
      cases h
      rw [List.set_cons_zero,load,load]
      omega
    | succ i =>
      have hrest := ih h
      rw [List.set_cons_succ,load,load]
      omega

theorem load_append : load weight (ops++[o]) = load weight ops+weight o := by
  induction ops with
  | nil => exact Nat.add_comm _ _
  | cons p ops ih =>
    rw [List.cons_append,load,load,ih]
    omega

theorem weight_le_load (h : o ∈ ops) : weight o ≤ load weight ops := by
  induction ops with
  | nil => cases h
  | cons p ops ih =>
    rw [load]
    rcases List.mem_cons.mp h with rfl | hrest
    · omega
    · have hle := ih hrest
      omega

theorem load_eq_zero (h : ∀ o ∈ ops, weight o = 0) : load weight ops = 0 := by
  induction ops with
  | nil => rfl
  | cons p ops ih =>
    rw [load,h p List.mem_cons_self,ih fun o ho => h o (List.mem_cons_of_mem _ ho)]

section Balances
variable {count : ℕ} {opened : Finset Q} {l : Ledger Q O}

/-- A step of one operation keeps the balance when what it adds is what it accounts for. -/
theorem Balanced.update (h : Balanced weight l) (ho : l.ops[i]? = some o)
    (hstep : count+l.opened.card+weight o = l.count+opened.card+weight o') :
    Balanced weight ⟨count,opened,l.ops.set i o'⟩ := by
  have hload : load weight (l.ops.set i o')+weight o = load weight l.ops+weight o' := load_set ho
  unfold Balanced at h ⊢
  dsimp only
  omega

theorem Balanced.start (h : Balanced weight l)
    (hstep : count+l.opened.card = l.count+opened.card+weight o) :
    Balanced weight ⟨count,opened,l.ops++[o]⟩ := by
  unfold Balanced at h ⊢
  dsimp only
  rw [load_append]
  omega

theorem Balanced.none_held (h : Balanced weight l) (hcount : l.count = 0) :
    l.opened = ∅ ∧ ∀ o ∈ l.ops, weight o = 0 := by
  unfold Balanced at h
  refine ⟨Finset.card_eq_zero.mp (by omega),fun o ho => ?_⟩
  have hle : weight o ≤ load weight l.ops := weight_le_load ho
  omega

theorem Balanced.quiet (h : Balanced weight l) (hquiet : ∀ o ∈ l.ops, weight o = 0) :
    l.count = l.opened.card := by
  unfold Balanced at h
  rw [load_eq_zero hquiet] at h
  exact h

end Balances

end OneStep.ReferenceLedger
