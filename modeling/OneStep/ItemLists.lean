import Mathlib.Data.List.Perm.Basic
import Mathlib.Data.List.Sort
import Mathlib.Order.Basic

/-!
# Lists of items

Two lists that match element by element, lists of keys with values, and lists
sorted by a key. Items with distinct keys are told by their lookups, by the order
of their keys, and by being sorted.
-/
namespace OneStep.ItemLists

section Matching
variable {α β γ : Type} {R : α → β → Prop} {S : α → γ → Prop} {T : β → γ → Prop}

variable {as : List α} {bs : List β}

theorem forall₂_left (h : List.Forall₂ R as bs) {a : α} (ha : a ∈ as) : ∃ b ∈ bs, R a b := by
  induction h with
  | nil => cases ha
  | cons hr _ ih =>
    rcases List.mem_cons.mp ha with rfl | ha
    · exact ⟨_,List.mem_cons_self,hr⟩
    · obtain ⟨b,hb,hr⟩ := ih ha
      exact ⟨b,List.mem_cons_of_mem _ hb,hr⟩

theorem forall₂_right (h : List.Forall₂ R as bs) {b : β} (hb : b ∈ bs) : ∃ a ∈ as, R a b := by
  obtain ⟨a,ha,hr⟩ := forall₂_left (R := fun b a => R a b) h.flip hb
  exact ⟨a,ha,hr⟩

/-- What an optional map gives matches what it was given. -/
theorem mapM_some {α β : Type} {g : α → Option β} {as : List α} {bs : List β}
    (h : as.mapM g = some bs) : List.Forall₂ (fun a b => g a = some b) as bs := by
  induction as generalizing bs with
  | nil =>
    cases h
    exact .nil
  | cons a as ih =>
    rw [List.mapM_cons] at h
    cases ha : g a with
    | none => simp [ha] at h
    | some b =>
      cases has : as.mapM g with
      | none => simp [ha,has] at h
      | some rest =>
        have heq : bs = b::rest := by simpa [ha,has] using h.symm
        rw [heq]
        exact .cons ha (ih has)

theorem forall₂_join {cs : List γ} (hleft : List.Forall₂ S as cs) (hright : List.Forall₂ T bs cs)
    (h : ∀ a ∈ as, ∀ b ∈ bs, ∀ c, S a c → T b c → R a b) : List.Forall₂ R as bs := by
  induction hleft generalizing bs with
  | nil =>
    cases hright
    exact .nil
  | @cons a c as cs hq _ ih =>
    cases hright with
    | @cons b _ bs _ hs hright =>
      apply List.Forall₂.cons
      · exact h a List.mem_cons_self b List.mem_cons_self c hq hs
      · apply ih hright
        intro a ha b hb
        exact h a (List.mem_cons_of_mem _ ha) b (List.mem_cons_of_mem _ hb)

/-- The elements of a list that matches are told by the elements matched. -/
theorem forall₂_determined {cs ds : List γ} (h : List.Forall₂ R as bs)
    (hleft : List.Forall₂ S as cs) (hright : List.Forall₂ T bs ds)
    (heq : ∀ a ∈ as, ∀ b ∈ bs, ∀ c d, R a b → S a c → T b d → c = d) : cs = ds := by
  induction h generalizing cs ds with
  | nil =>
    cases hleft
    cases hright
    rfl
  | @cons a b as bs hab _ ih =>
    cases hleft with
    | cons hc hleft =>
      cases hright with
      | cons hd hright =>
        have hhead := heq a List.mem_cons_self b List.mem_cons_self _ _ hab hc hd
        have htail := ih hleft hright fun a ha b hb =>
          heq a (List.mem_cons_of_mem _ ha) b (List.mem_cons_of_mem _ hb)
        exact congrArg₂ List.cons hhead htail

end Matching

section Lookups
variable {κ α : Type}

variable {items : List (κ × α)}

/-- Items in the order of their keys, which are distinct. -/
theorem perm_eq_of_keys {others : List (κ × α)} (hperm : items.Perm others)
    (hnodup : (items.map Prod.fst).Nodup) (hkeys : items.map Prod.fst = others.map Prod.fst) :
    items = others := by
  induction items generalizing others with
  | nil => exact (List.nil_perm.mp hperm).symm
  | cons item items ih =>
    cases others with
    | nil => cases hkeys
    | cons other others =>
      rw [List.map_cons,List.map_cons,List.cons.injEq] at hkeys
      rw [List.map_cons,List.nodup_cons] at hnodup
      have hhead : item = other := by
        rcases List.mem_cons.mp (hperm.subset List.mem_cons_self) with heq | hmem
        · exact heq
        · have hkey : item.1 ∈ others.map Prod.fst := List.mem_map.mpr ⟨item,hmem,rfl⟩
          rw [← hkeys.2] at hkey
          exact absurd hkey hnodup.1
      subst hhead
      rw [ih hperm.cons_inv hnodup.2 hkeys.2]

variable [DecidableEq κ]

theorem lookup_of_mem (hnodup : (items.map Prod.fst).Nodup) {k : κ} {v : α} (hmem : (k,v) ∈ items) :
    items.lookup k = some v := by
  induction items with
  | nil => cases hmem
  | cons item items ih =>
    obtain ⟨k',v'⟩ := item
    rw [List.map_cons,List.nodup_cons] at hnodup
    rw [List.lookup_cons]
    rcases List.mem_cons.mp hmem with heq | hmem
    · cases heq
      simp
    · have hne : (k == k') = false := by
        rw [beq_eq_false_iff_ne]
        intro heq
        exact hnodup.1 (heq ▸ List.mem_map.mpr ⟨(k,v),hmem,rfl⟩)
      rw [hne]
      exact ih hnodup.2 hmem

theorem mem_of_lookup {k : κ} {v : α} (h : items.lookup k = some v) : (k,v) ∈ items := by
  obtain ⟨before,after,rfl,-⟩ := List.lookup_eq_some_iff.mp h
  exact List.mem_append_right _ List.mem_cons_self

theorem lookup_perm {others : List (κ × α)} (hperm : items.Perm others)
    (hnodup : (items.map Prod.fst).Nodup) (k : κ) : items.lookup k = others.lookup k := by
  have hnodup' : (others.map Prod.fst).Nodup := (hperm.map Prod.fst).nodup_iff.mp hnodup
  cases hitems : items.lookup k with
  | some v => exact (lookup_of_mem hnodup' (hperm.subset (mem_of_lookup hitems))).symm
  | none =>
    cases hothers : others.lookup k with
    | none => rfl
    | some v =>
      have hmem := hperm.symm.subset (mem_of_lookup hothers)
      rw [lookup_of_mem hnodup hmem] at hitems
      cases hitems

end Lookups

section Sorting
variable {κ α : Type} [LinearOrder κ] (key : α → κ)

theorem pairwise_sorted (as : List α) :
    (as.insertionSort fun a b => key a ≤ key b).Pairwise fun a b => key a ≤ key b := by
  have : Std.Total fun a b => key a ≤ key b := ⟨fun a b => le_total (key a) (key b)⟩
  have : IsTrans α fun a b => key a ≤ key b := ⟨fun _ _ _ hab hbc => hab.trans hbc⟩
  exact List.pairwise_insertionSort _ as

/-- There is one order when the keys tell the elements apart. -/
theorem sorted_unique {as bs : List α} (hperm : as.Perm bs)
    (has : as.Pairwise fun a b => key a ≤ key b) (hbs : bs.Pairwise fun a b => key a ≤ key b)
    (hinj : ∀ a ∈ as, ∀ b ∈ bs, key a = key b → a = b) : as = bs := by
  apply hperm.eq_of_pairwise _ has hbs
  intro a b ha hb hab hba
  exact hinj a ha b hb (le_antisymm hab hba)

end Sorting

end OneStep.ItemLists
