import OneStep.Transition
import Mathlib.Tactic

/-!
# Items handed out

A store hands items out in deliveries, numbered in order, and deliveries are settled or
returned. A store is lawful when an item stays available until it is handed out, settled
for good or put back. Then an item that was handed out is available again, was settled for
good, or is with a delivery that put nothing back.
-/
namespace OneStep.HandedOut
open Transition

inductive Op (β : Type) where
  | send (item : β)
  | fetch (limit : ℕ)
  | ack (i : ℕ)
  | retry (i : ℕ)
  | fail (i : ℕ)
  | release (i : ℕ)

variable {σ β κ : Type}

def Op.delivery : Op β → Option ℕ
  | send _ | fetch _ => none
  | ack i | retry i | fail i | release i => some i

/-- The delivery that an operation settles for good. -/
def Op.ends : Op β → Option ℕ
  | ack i | fail i => some i
  | _ => none

structure Store (σ β κ : Type) where
  perform : σ → Op β → Option σ
  /-- The items of the deliveries so far. -/
  handed : σ → List κ
  available : σ → κ → Prop

def Store.Step (q : Store σ β κ) (s : σ) (op : Op β) (t : σ) : Prop := q.perform s op = some t

/-- `puts` says which operations put an item back. -/
structure Lawful (q : Store σ β κ) (puts : Op β → Bool) (I : σ → Prop) : Prop where
  invariant : ∀ s op t, I s → q.Step s op t → I t
  handed : ∀ s op t, I s → q.Step s op t → (∃ new, q.handed t = q.handed s++new) ∧
    ∀ i, op.delivery = some i → i < (q.handed s).length
  kept : ∀ s op t k, I s → q.Step s op t → q.available s k → q.available t k ∨
    (∃ i, (q.handed s).length ≤ i ∧ (q.handed t)[i]? = some k) ∨
    ∃ i, op.ends = some i ∧ (q.handed s)[i]? = some k
  back : ∀ s op t i k, I s → q.Step s op t → puts op = true → op.delivery = some i →
    (q.handed s)[i]? = some k → q.available t k

variable {q : Store σ β κ} {puts : Op β → Bool} {I : σ → Prop} {s t : σ} {op : Op β}

/-- The places an item can be in that was handed out, by what was done so far. -/
structure Placed (q : Store σ β κ) (puts : Op β → Bool) (past : List (Op β)) (s : σ) : Prop where
  bounded : ∀ op ∈ past, ∀ i, op.delivery = some i → i < (q.handed s).length
  placed : ∀ (i : ℕ) k, (q.handed s)[i]? = some k → q.available s k ∨
    (∃ j : ℕ, (q.handed s)[j]? = some k ∧ ∃ op ∈ past, op.ends = some j) ∨
    ∃ j : ℕ, (q.handed s)[j]? = some k ∧ ∀ op ∈ past, op.delivery = some j → puts op = false

theorem Placed.step {past : List (Op β)} (h : Placed q puts past s) (hq : Lawful q puts I)
    (hI : I s) (hs : q.Step s op t) : Placed q puts (past++[op]) t := by
  obtain ⟨⟨new,hnew⟩,hdelivery⟩ := hq.handed s op t hI hs
  have hold {i : ℕ} {k : κ} (hk : (q.handed s)[i]? = some k) : (q.handed t)[i]? = some k := by
    rw [hnew,List.getElem?_append_left (List.getElem?_eq_some_iff.mp hk).1]
    exact hk
  have hbound {o : Op β} {i : ℕ} (ho : o ∈ past++[op]) (hi : o.delivery = some i) :
      i < (q.handed s).length := by
    rcases List.mem_append.mp ho with ho | ho
    · exact h.bounded o ho i hi
    · rw [List.mem_singleton.mp ho] at hi
      exact hdelivery i hi
  have hfresh {i : ℕ} {k : κ} (hi : (q.handed s).length ≤ i) (hk : (q.handed t)[i]? = some k) :
      ∃ j, (q.handed t)[j]? = some k ∧ ∀ o ∈ past++[op], o.delivery = some j → puts o = false :=
    ⟨i,hk,fun o ho hdel => absurd (hbound ho hdel) (by omega)⟩
  refine ⟨fun o ho i hi => ?_,fun i k hk => ?_⟩
  · have := hbound ho hi
    rw [hnew,List.length_append]
    omega
  · by_cases hi : i < (q.handed s).length
    · have hki : (q.handed s)[i]? = some k := by
        rw [hnew,List.getElem?_append_left hi] at hk
        exact hk
      rcases h.placed i k hki with havail | ⟨j,hj,o,ho,hends⟩ | ⟨j,hj,hopen⟩
      · rcases hq.kept s op t k hI hs havail with h' | ⟨j,hle,hj⟩ | ⟨j,hends,hj⟩
        · exact .inl h'
        · exact .inr (.inr (hfresh hle hj))
        · exact .inr (.inl ⟨j,hold hj,op,List.mem_append_right _ List.mem_cons_self,hends⟩)
      · exact .inr (.inl ⟨j,hold hj,o,List.mem_append_left _ ho,hends⟩)
      · by_cases hput : puts op = true ∧ op.delivery = some j
        · exact .inl (hq.back s op t j k hI hs hput.1 hput.2 hj)
        · refine .inr (.inr ⟨j,hold hj,fun o ho hdel => ?_⟩)
          rcases List.mem_append.mp ho with ho | ho
          · exact hopen o ho hdel
          · rw [List.mem_singleton.mp ho] at hdel ⊢
            rw [← Bool.not_eq_true]
            exact fun hputs => hput ⟨hputs,hdel⟩
    · exact .inr (.inr (hfresh (not_lt.mp hi) hk))

theorem Placed.run {past ops : List (Op β)} (h : Placed q puts past s) (hq : Lawful q puts I)
    (hI : I s) (hrun : Run q.Step s ops t) : Placed q puts (past++ops) t := by
  induction hrun generalizing past with
  | nil s =>
    rw [List.append_nil]
    exact h
  | @cons s t u op ops hstep hrest ih =>
    rw [List.append_cons]
    exact ih (h.step hq hI hstep) (hq.invariant _ _ _ hI hstep)

/-- When every delivery was settled for good or put its item back, every item handed out is
available or was settled for good. -/
theorem Lawful.available {ops : List (Op β)} (hq : Lawful q puts I) (hI : I s)
    (hnone : q.handed s = []) (hrun : Run q.Step s ops t)
    (hall : ∀ i < (q.handed t).length, ∃ op ∈ ops, op.delivery = some i ∧
      (op.ends = some i ∨ puts op = true)) {i : ℕ} {k : κ} (hk : (q.handed t)[i]? = some k) :
    q.available t k ∨ ∃ j, (q.handed t)[j]? = some k ∧ ∃ op ∈ ops, op.ends = some j := by
  have hstart : Placed q puts [] s := by
    refine ⟨fun _ ho => absurd ho List.not_mem_nil,fun i k hk => ?_⟩
    rw [hnone] at hk
    cases hk
  have hplaced := hstart.run hq hI hrun
  rw [List.nil_append] at hplaced
  rcases hplaced.placed i k hk with h | h | ⟨j,hj,hopen⟩
  · exact .inl h
  · exact .inr h
  · obtain ⟨op,hop,hdel,hdone⟩ := hall j (List.getElem?_eq_some_iff.mp hj).1
    rcases hdone with hends | hputs
    · exact .inr ⟨j,hj,op,hop,hends⟩
    · rw [hopen op hop hdel] at hputs
      cases hputs

end OneStep.HandedOut
