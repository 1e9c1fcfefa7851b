import OneStep.KeyedTable

/-!
# Pages in the order of a key

Rows are arranged with the greatest key in front. When the keys are distinct, the
rows below the last one of a page are arranged as what followed it, so that pages
can be cut one after the other by the key where the last one ended.
-/
namespace OneStep.KeysetPages
open KeyedTable

section Order
variable {R K : Type} [LinearOrder K] (key : R → K) {rows : List R}

/-- The greater key comes first. -/
def newest (r s : R) : Prop := key s ≤ key r

instance : DecidableRel (newest key) := fun r s => inferInstanceAs (Decidable (key s ≤ key r))

instance : Std.Total (newest key) := ⟨fun r s => le_total (key s) (key r)⟩

instance : IsTrans R (newest key) := ⟨fun _ _ _ h k => le_trans k h⟩

def arranged (rows : List R) : List R := rows.insertionSort (newest key)

theorem perm_arranged (rows : List R) : (arranged key rows).Perm rows :=
  List.perm_insertionSort _ rows

theorem unique_arranged (h : UniqueKey key rows) : UniqueKey key (arranged key rows) :=
  ((perm_arranged key rows).map key).nodup_iff.mpr h

/-- Distinct keys go down strictly. -/
theorem arranged_strict (h : UniqueKey key rows) :
    (arranged key rows).Pairwise fun r s => key s < key r := by
  have hle : (arranged key rows).Pairwise (newest key) := List.pairwise_insertionSort _ rows
  have hne : (arranged key rows).Pairwise fun r s => key r ≠ key s :=
    List.pairwise_map.mp (unique_arranged key h)
  exact hle.imp₂ (fun r s hrs hns => lt_of_le_of_ne hrs hns.symm) hne

/-- Only one arrangement is strict. -/
theorem arranged_eq {l : List R} (hperm : l.Perm rows)
    (hstrict : l.Pairwise fun r s => key s < key r) : arranged key rows = l := by
  have hunique : UniqueKey key rows := by
    have hl : (l.map key).Nodup := List.pairwise_map.mpr (hstrict.imp fun h => h.ne')
    exact (hperm.map key).nodup_iff.mp hl
  have hboth := arranged_strict key hunique
  refine List.Perm.eq_of_pairwise ?_ hboth hstrict ((perm_arranged key rows).trans hperm.symm)
  intro r s _ _ hrs hsr
  exact absurd hrs (lt_asymm hsr)

/-- What is below the end of a page is what followed the page. -/
theorem arranged_below {front rest : List R} {last : R} (hunique : UniqueKey key rows)
    (h : arranged key rows = front++last::rest) :
    arranged key (rows.filter fun r => key r < key last) = rest := by
  have hstrict := arranged_strict key hunique
  rw [h] at hstrict
  obtain ⟨-,htail,hcross⟩ := List.pairwise_append.mp hstrict
  obtain ⟨hlast,hrest⟩ := List.pairwise_cons.mp htail
  apply arranged_eq key _ hrest
  have hfilter : (front++last::rest).filter (fun r => decide (key r < key last)) = rest := by
    rw [List.filter_append,List.filter_cons_of_neg (by simp)]
    have hfront : front.filter (fun r => decide (key r < key last)) = [] := by
      apply List.filter_eq_nil_iff.mpr
      intro r hr
      simpa using (hcross r hr last List.mem_cons_self).le
    have hkeep : rest.filter (fun r => decide (key r < key last)) = rest := by
      apply List.filter_eq_self.mpr
      intro r hr
      simpa using hlast r hr
    rw [hfront,hkeep,List.nil_append]
  rw [← hfilter,← h]
  exact (perm_arranged key rows).filter _

end Order

end OneStep.KeysetPages
