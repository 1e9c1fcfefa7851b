import Mathlib.Data.Prod.Lex
import Mathlib.Data.List.Infix
import Mathlib.Data.List.TakeDrop

/-!
# Selecting the latest of what arrives

An element is adopted if there is none before it or its key is greater than that of the one
adopted last. What is adopted in the end is the greatest element, in whatever order and however
often the elements arrive, when no two of them share a key.
-/
namespace OneStep.LatestSelection

variable {α K : Type} [LinearOrder K] (key : α → K)

def adopts : Option α → α → Bool
  | none,_ => true
  | some f,a => key f < key a

def adopt (floor : Option α) (a : α) : Option α := if adopts key floor a then some a else floor

def latest (l : List α) : Option α := l.foldl (adopt key) none

structure Greatest (l : List α) (a : α) : Prop where
  mem : a ∈ l
  top : ∀ b ∈ l, key b ≤ key a

variable {key} {l : List α} {a b : α}

theorem latest_append_singleton (l : List α) (a : α) :
    latest key (l++[a]) = adopt key (latest key l) a := by
  rw [latest,List.foldl_append]
  rfl

theorem greatest_adopt (hnone : latest key l = none → l = [])
    (hsome : ∀ b, latest key l = some b → Greatest key l b)
    (h : adopt key (latest key l) a = some b) : Greatest key (l++[a]) b := by
  cases hl : latest key l with
  | none =>
    rw [hl] at h
    cases h
    rw [hnone hl]
    exact ⟨List.mem_singleton_self a,fun b hb => le_of_eq (by rw [List.mem_singleton.mp hb])⟩
  | some f =>
    have hf := hsome f hl
    rw [hl,adopt] at h
    split at h
    · next hnewer =>
        cases h
        have hlt : key f < key a := of_decide_eq_true hnewer
        refine ⟨List.mem_append_right _ (List.mem_singleton_self a),fun c hc => ?_⟩
        rcases List.mem_append.mp hc with hc | hc
        · exact le_trans (hf.top c hc) hlt.le
        · rw [List.mem_singleton.mp hc]
    · next hstale =>
        cases h
        have hle : key a ≤ key b := not_lt.mp fun hlt => hstale (decide_eq_true hlt)
        refine ⟨List.mem_append_left _ hf.mem,fun c hc => ?_⟩
        rcases List.mem_append.mp hc with hc | hc
        · exact hf.top c hc
        · rw [List.mem_singleton.mp hc]
          exact hle

theorem latest_none (h : latest key l = none) : l = [] := by
  induction l using List.reverseRecOn with
  | nil => rfl
  | append_singleton l a ih =>
    rw [latest_append_singleton] at h
    unfold adopt at h
    split at h
    · cases h
    · next hstale =>
        rw [h] at hstale
        exact absurd rfl hstale

theorem greatest_latest (h : latest key l = some a) : Greatest key l a := by
  induction l using List.reverseRecOn generalizing a with
  | nil => cases h
  | append_singleton l b ih =>
    rw [latest_append_singleton] at h
    exact greatest_adopt latest_none (fun c hc => ih hc) h

/-- What is adopted in the end is the greatest element. -/
theorem latest_eq (hdistinct : ∀ a ∈ l, ∀ b ∈ l, key a = key b → a = b) (h : Greatest key l a) :
    latest key l = some a := by
  cases hl : latest key l with
  | none =>
    have hmem := h.mem
    rw [latest_none hl] at hmem
    exact absurd hmem List.not_mem_nil
  | some b =>
    have hb := greatest_latest hl
    rw [hdistinct b hb.mem a h.mem (le_antisymm (h.top b hb.mem) (hb.top a h.mem))]

end OneStep.LatestSelection
