import Mathlib.Data.List.Nodup
import Mathlib.Data.List.Dedup

/-!
# Paired calls

Resources are opened and closed. That the calls on each of them alternate, beginning with an
opening, is the same as that a register of the open ones can be kept: an opening enters a
resource that is not there, and a closing takes one out. The register keeps the order of the
openings.
-/
namespace OneStep.PairedCalls

variable {R : Type}

inductive Side where
  | opening
  | closing
deriving DecidableEq, Repr

def Side.other : Side → Side
  | .opening => .closing
  | .closing => .opening

structure Call (R : Type) where
  resource : R
  side : Side
deriving DecidableEq, Repr

def opening (x : R) : Call R := ⟨x,.opening⟩

def closing (x : R) : Call R := ⟨x,.closing⟩

/-- The sides come in turn, beginning with the given one. -/
def Alternates : Side → List Side → Prop
  | _,[] => True
  | s,t::ts => t = s ∧ Alternates s.other ts

variable [DecidableEq R]

def sides (x : R) (cs : List (Call R)) : List Side :=
  (cs.filter fun c => c.resource = x).map Call.side

def Paired (cs : List (Call R)) : Prop := ∀ x, Alternates .opening (sides x cs)

@[simp] theorem sides_cons (x : R) (c : Call R) (cs : List (Call R)) :
    sides x (c::cs) = if c.resource = x then c.side::sides x cs else sides x cs := by
  unfold sides
  rw [List.filter_cons]
  split <;> simp_all

def enter (order : List R) (c : Call R) : Option (List R) :=
  match c.side with
  | .opening => if c.resource ∈ order then none else some (order++[c.resource])
  | .closing => if c.resource ∈ order then some (order.erase c.resource) else none

def replay : List R → List (Call R) → Option (List R)
  | order,[] => some order
  | order,c::cs => (enter order c).bind fun order => replay order cs

/-- The last call on a resource, as far as the register tells. -/
def last (order : List R) (x : R) : Side := if x ∈ order then .opening else .closing

section Register
variable {order order' : List R} {c : Call R} {cs ds : List (Call R)}

theorem enter_spec (hnodup : order.Nodup) (h : enter order c = some order') :
    order'.Nodup ∧ last order c.resource = c.side.other ∧ last order' c.resource = c.side ∧
      ∀ x ≠ c.resource, last order' x = last order x := by
  obtain ⟨x,side⟩ := c
  unfold enter at h
  cases side with
  | opening =>
    dsimp only at h
    split at h
    · cases h
    · next hx =>
        cases h
        refine ⟨List.Nodup.append hnodup (List.nodup_singleton x) ?_,if_neg hx,?_,?_⟩
        · exact List.disjoint_singleton.mpr hx
        · exact if_pos (List.mem_append_right _ List.mem_cons_self)
        · intro y hy
          have hmem : y ∈ order++[x] ↔ y ∈ order := by simp_all
          simp only [last,hmem]
  | closing =>
    dsimp only at h
    split at h
    · next hx =>
        cases h
        refine ⟨hnodup.erase x,if_pos hx,if_neg hnodup.not_mem_erase,?_⟩
        intro y hy
        simp only [last,List.mem_erase_of_ne hy]
    · cases h

theorem enter_isSome : (∃ order', enter order c = some order') ↔
    last order c.resource = c.side.other := by
  obtain ⟨x,side⟩ := c
  cases side <;> by_cases hx : x ∈ order <;> simp [enter,last,hx,Side.other]

theorem replay_append : replay order (cs++ds) = (replay order cs).bind fun o => replay o ds := by
  induction cs generalizing order with
  | nil => rfl
  | cons c cs ih =>
    rw [List.cons_append,replay,replay,Option.bind_assoc]
    exact congrArg _ (funext fun o => ih)

theorem replay_nodup (hnodup : order.Nodup) (h : replay order cs = some order') :
    order'.Nodup := by
  induction cs generalizing order with
  | nil =>
    cases h
    exact hnodup
  | cons c cs ih =>
    obtain ⟨o,ho,hrest⟩ := Option.bind_eq_some_iff.mp h
    exact ih (enter_spec hnodup ho).1 hrest

theorem replay_isSome (hnodup : order.Nodup) : (∃ order', replay order cs = some order') ↔
    ∀ x, Alternates (last order x).other (sides x cs) := by
  induction cs generalizing order with
  | nil => exact iff_of_true ⟨order,rfl⟩ fun _ => trivial
  | cons c cs ih =>
    have hother : ∀ s : Side, s.other.other = s := by
      intro s
      cases s <;> rfl
    constructor
    · rintro ⟨order',h⟩ x
      obtain ⟨o,ho,hrest⟩ := Option.bind_eq_some_iff.mp h
      obtain ⟨hnodup',hbefore,hafter,helse⟩ := enter_spec hnodup ho
      have halt := (ih hnodup').mp ⟨order',hrest⟩ x
      rw [sides_cons]
      split
      · next hx =>
          subst hx
          rw [hbefore,hother]
          rw [hafter] at halt
          exact ⟨rfl,halt⟩
      · next hx =>
          rw [← helse x (Ne.symm hx)]
          exact halt
    · intro h
      have hc := h c.resource
      rw [sides_cons,if_pos rfl] at hc
      obtain ⟨o,ho⟩ := enter_isSome.mpr (by rw [hc.1,hother])
      obtain ⟨hnodup',hbefore,hafter,helse⟩ := enter_spec hnodup ho
      obtain ⟨order',hrest⟩ := (ih hnodup').mpr fun x => by
        by_cases hx : x = c.resource
        · rw [hx,hafter]
          have hrest := hc.2
          rwa [hbefore,hother] at hrest
        · have hx' := h x
          rw [sides_cons,if_neg (Ne.symm hx)] at hx'
          rw [helse x hx]
          exact hx'
      exact ⟨order',Option.bind_eq_some_iff.mpr ⟨o,ho,hrest⟩⟩

theorem paired_iff_replay : Paired cs ↔ ∃ order, replay [] cs = some order := by
  rw [replay_isSome List.nodup_nil]
  exact Iff.rfl

theorem last_of_replay (hnodup : order.Nodup) (h : replay order cs = some order') (x : R) :
    last order' x = (sides x cs).getLast?.getD (last order x) := by
  induction cs generalizing order with
  | nil =>
    cases h
    rfl
  | cons c cs ih =>
    obtain ⟨o,ho,hrest⟩ := Option.bind_eq_some_iff.mp h
    obtain ⟨hnodup',-,hafter,helse⟩ := enter_spec hnodup ho
    rw [ih hnodup' hrest,sides_cons]
    split
    · next hx =>
        subst hx
        rw [hafter,List.getLast?_cons]
        rfl
    · next hx => rw [helse x (Ne.symm hx)]

theorem mem_of_replay {x : R} (h : replay order cs = some order') (hx : x ∈ order') :
    x ∈ order ∨ opening x ∈ cs := by
  induction cs generalizing order with
  | nil =>
    cases h
    exact .inl hx
  | cons c cs ih =>
    obtain ⟨o,ho,hrest⟩ := Option.bind_eq_some_iff.mp h
    rcases ih hrest with hold | hnew
    · obtain ⟨y,side⟩ := c
      unfold enter at ho
      cases side with
      | opening =>
        dsimp only at ho
        split at ho
        · cases ho
        · cases ho
          rcases List.mem_append.mp hold with hmem | hy
          · exact .inl hmem
          · rw [List.mem_singleton.mp hy]
            exact .inr List.mem_cons_self
      | closing =>
        dsimp only at ho
        split at ho
        · cases ho
          exact .inl (List.mem_of_mem_erase hold)
        · cases ho
    · exact .inr (List.mem_cons_of_mem _ hnew)

/-- What has been opened was closed last when it is not in the register. -/
theorem closed_iff {x : R} (h : replay [] cs = some order') (hx : opening x ∈ cs) :
    (sides x cs).getLast? = some .closing ↔ x ∉ order' := by
  have hlast := last_of_replay List.nodup_nil h x
  have hne : sides x cs ≠ [] := by
    refine List.ne_nil_of_mem (List.mem_map.mpr ⟨opening x,?_,rfl⟩)
    exact List.mem_filter.mpr ⟨hx,decide_eq_true rfl⟩
  rw [List.getLast?_eq_some_getLast hne] at hlast ⊢
  rw [Option.getD_some] at hlast
  rw [← hlast]
  unfold last
  split <;> simp_all

end Register

section Latest

/-- The resources in the order in which they were last opened. -/
def latest : List R → List (Call R) → List R
  | acc,[] => acc
  | acc,c::cs => latest (match c.side with
      | .opening => acc.erase c.resource++[c.resource]
      | .closing => acc) cs

variable {order order' acc : List R} {cs : List (Call R)}

theorem replay_sublist (h : replay order cs = some order') (hacc : order.Sublist acc) :
    order'.Sublist (latest acc cs) := by
  induction cs generalizing order acc with
  | nil =>
    cases h
    exact hacc
  | cons c cs ih =>
    obtain ⟨o,ho,hrest⟩ := Option.bind_eq_some_iff.mp h
    refine ih hrest ?_
    unfold enter at ho
    split at ho
    · split at ho
      · cases ho
      · next hx =>
          cases ho
          have herase := hacc.erase c.resource
          rw [List.erase_of_not_mem hx] at herase
          exact herase.append (List.Sublist.refl _)
    · split at ho
      · cases ho
        exact List.erase_sublist.trans hacc
      · cases ho

theorem latest_nodup (h : acc.Nodup) : (latest acc cs).Nodup := by
  induction cs generalizing acc with
  | nil => exact h
  | cons c cs ih =>
    refine ih ?_
    split
    · refine List.Nodup.append (h.erase _) (List.nodup_singleton _) ?_
      exact List.disjoint_singleton.mpr h.not_mem_erase
    · exact h

theorem mem_latest {x : R} (h : x ∈ latest acc cs) : x ∈ acc ∨ opening x ∈ cs := by
  induction cs generalizing acc with
  | nil => exact .inl h
  | cons c cs ih =>
    obtain ⟨y,side⟩ := c
    rcases ih h with hacc | hcs
    · cases side with
      | opening =>
        rcases List.mem_append.mp hacc with hold | hnew
        · exact .inl (List.mem_of_mem_erase hold)
        · rw [List.mem_singleton.mp hnew]
          exact .inr List.mem_cons_self
      | closing => exact .inl hacc
    · exact .inr (List.mem_cons_of_mem _ hcs)

theorem latest_append {ds : List (Call R)} : latest acc (cs++ds) = latest (latest acc cs) ds := by
  induction cs generalizing acc with
  | nil => rfl
  | cons c cs ih => exact ih

theorem latest_closings {xs : List R} : latest acc (xs.map closing) = acc := by
  induction xs with
  | nil => rfl
  | cons x xs ih => exact ih

end Latest

section Sides
variable {order order' xs : List R}

theorem replay_openings : replay order (xs.map opening) = some order' ↔
    xs.Nodup ∧ (∀ x ∈ xs, x ∉ order) ∧ order' = order++xs := by
  induction xs generalizing order with
  | nil => simp [replay,eq_comm]
  | cons x xs ih =>
    by_cases hx : x ∈ order
    · have hnone : replay order ((x::xs).map opening) = none := by
        simp [replay,enter,opening,hx]
      rw [hnone]
      refine iff_of_false nofun fun h => ?_
      exact h.2.1 x List.mem_cons_self hx
    · have hcons : replay order ((x::xs).map opening) =
          replay (order++[x]) (xs.map opening) := by
        simp [replay,enter,opening,hx]
      rw [hcons,ih,List.nodup_cons,List.append_assoc]
      constructor
      · rintro ⟨hnodup,hout,he⟩
        refine ⟨⟨fun hmem => ?_,hnodup⟩,?_,he⟩
        · exact hout x hmem (List.mem_append_right _ List.mem_cons_self)
        · rintro y (- | ⟨_,hy⟩)
          · exact hx
          · exact fun hmem => hout y hy (List.mem_append_left _ hmem)
      · rintro ⟨⟨hnot,hnodup⟩,hout,he⟩
        refine ⟨hnodup,fun y hy hmem => ?_,he⟩
        rcases List.mem_append.mp hmem with hold | hnew
        · exact hout y (List.mem_cons_of_mem _ hy) hold
        · rw [List.mem_singleton.mp hnew] at hy
          exact hnot hy

theorem replay_closings (hnodup : order.Nodup) : replay order (xs.map closing) = some order' ↔
    xs.Nodup ∧ (∀ x ∈ xs, x ∈ order) ∧ order' = order.filter fun x => x ∉ xs := by
  induction xs generalizing order with
  | nil => simp [replay,eq_comm]
  | cons x xs ih =>
    by_cases hx : x ∈ order
    · have hcons : replay order ((x::xs).map closing) =
          replay (order.erase x) (xs.map closing) := by
        simp [replay,enter,closing,hx]
      have hfilter : (order.erase x).filter (fun y => y ∉ xs) =
          order.filter fun y => y ∉ x::xs := by
        rw [hnodup.erase_eq_filter,List.filter_filter]
        refine List.filter_congr fun y _ => ?_
        by_cases hy : y = x <;> simp [hy]
      rw [hcons,ih (hnodup.erase x),List.nodup_cons,hfilter]
      constructor
      · rintro ⟨hxs,hin,he⟩
        refine ⟨⟨fun hmem => hnodup.not_mem_erase (hin x hmem),hxs⟩,?_,he⟩
        rintro y (- | ⟨_,hy⟩)
        · exact hx
        · exact List.mem_of_mem_erase (hin y hy)
      · rintro ⟨⟨hnot,hxs⟩,hin,he⟩
        refine ⟨hxs,fun y hy => ?_,he⟩
        have hne : y ≠ x := fun hyx => hnot (hyx ▸ hy)
        exact (List.mem_erase_of_ne hne).mpr (hin y (List.mem_cons_of_mem _ hy))
    · have hnone : replay order ((x::xs).map closing) = none := by
        simp [replay,enter,closing,hx]
      rw [hnone]
      exact iff_of_false nofun fun h => hx (h.2.1 x List.mem_cons_self)

end Sides

end OneStep.PairedCalls
