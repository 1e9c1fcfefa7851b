import OneStep.Transition
import Mathlib.Tactic

/-!
# Work handed out by a system

A system hands out work items one after another, and keeps the list of all it
handed out. An item comes back from a state when some later run hands it out.
It does not when an invariant keeps every step from handing it out.
-/
namespace OneStep.WorkItems
open Transition

section Lists
variable {α : Type}

/-- Changing one entry changes a count by that entry. -/
theorem countP_modify {p : α → Bool} {f : α → α} {l : List α} {i : ℕ} {a : α}
    (h : l[i]? = some a) :
    (l.modify i f).countP p+(if p a then 1 else 0) = l.countP p+(if p (f a) then 1 else 0) := by
  induction l generalizing i with
  | nil => cases h
  | cons b l ih =>
    cases i with
    | zero =>
      cases h
      rw [List.modify_zero_cons,List.countP_cons,List.countP_cons]
      omega
    | succ i =>
      rw [List.getElem?_cons_succ] at h
      have hrest := ih h
      rw [List.modify_succ_cons,List.countP_cons,List.countP_cons]
      omega

theorem map_modify {β : Type} {f : α → α} {g : α → β} (h : ∀ a, g (f a) = g a) (l : List α)
    (i : ℕ) : (l.modify i f).map g = l.map g := by
  induction l generalizing i with
  | nil => rw [List.modify_nil]
  | cons a l ih =>
    cases i with
    | zero => rw [List.modify_zero_cons,List.map_cons,List.map_cons,h]
    | succ i => rw [List.modify_succ_cons,List.map_cons,List.map_cons,ih]

end Lists

section ComesBack
variable {S L ω : Type} {step : S → L → S → Prop} {handed : S → List ω} {s t : S} {w : ω}

/-- Some later run hands the item out. -/
def ComesBack (step : S → L → S → Prop) (handed : S → List ω) (s : S) (w : ω) : Prop :=
  ∃ ls t, Run step s ls t ∧ w ∈ (handed t).drop (handed s).length

theorem comesBack_now {l : L} {new : List ω} (hs : step s l t)
    (hnew : handed t = handed s++new) (hw : w ∈ new) : ComesBack step handed s w := by
  refine ⟨[l],t,.single hs,?_⟩
  rw [hnew,List.drop_left]
  exact hw

theorem ComesBack.later {l : L} {new : List ω} (hs : step s l t)
    (hnew : handed t = handed s++new) (h : ComesBack step handed t w) :
    ComesBack step handed s w := by
  obtain ⟨ls,u,hr,hw⟩ := h
  refine ⟨l::ls,u,.cons hs hr,?_⟩
  refine List.mem_of_mem_drop (i := new.length) ?_
  rw [List.drop_drop,show (handed s).length+new.length = (handed t).length by rw [hnew]; simp]
  exact hw

/-- Steps that hand out only other items, as long as an invariant holds. -/
theorem not_comesBack {I : S → Prop}
    (hI : ∀ s l t, I s → step s l t → I t ∧ ∃ new, handed t = handed s++new ∧ w ∉ new)
    (hs : I s) : ¬ComesBack step handed s w := by
  rintro ⟨ls,t,hr,hw⟩
  have hnone : ∃ new, handed t = handed s++new ∧ w ∉ new := by
    clear hw
    induction hr with
    | nil s => exact ⟨[],(List.append_nil _).symm,List.not_mem_nil⟩
    | cons hstep _ ih =>
      obtain ⟨hnext,new,hnew,hnot⟩ := hI _ _ _ hs hstep
      obtain ⟨rest,hrest,hnot'⟩ := ih hnext
      refine ⟨new++rest,?_,fun hmem => ?_⟩
      · rw [hrest,hnew,List.append_assoc]
      · rcases List.mem_append.mp hmem with hmem | hmem
        · exact hnot hmem
        · exact hnot' hmem
  obtain ⟨new,hnew,hnot⟩ := hnone
  rw [hnew,List.drop_left] at hw
  exact hnot hw

end ComesBack

end OneStep.WorkItems
