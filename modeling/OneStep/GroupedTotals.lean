import Mathlib.Algebra.Order.BigOperators.Group.List
import Mathlib.Algebra.Order.Group.Nat
import Mathlib.Data.List.Dedup
import Mathlib.Data.List.Induction

/-!
# Totals of grouped rows

Rows are grouped by a key, and each group has the sum of its values. What is collected from a
list of keyed values is a dictionary, in which a later value takes the place of an earlier one
with its key; it is the list itself when no two have one key. Totals grow with the rows, as
long as the values are not negative, and rows that count nothing can go.
-/
namespace OneStep.GroupedTotals

section Dictionary
variable {S A : Type} [DecidableEq S] {pairs : List (S × A)}

/-- The value of a key changed, or the key added with the value made of none. -/
def change (key : S) (f : Option A → A) : List (S × A) → List (S × A)
  | [] => [(key,f none)]
  | (k,a)::pairs => if k = key then (k,f (some a))::pairs else (k,a)::change key f pairs

def collect (pairs : List (S × A)) : List (S × A) :=
  pairs.foldl (fun found pair => change pair.1 (fun _ => pair.2) found) []

theorem keys_change (key : S) (f : Option A → A) (pairs : List (S × A)) :
    (change key f pairs).map Prod.fst =
      if key ∈ pairs.map Prod.fst then pairs.map Prod.fst else pairs.map Prod.fst++[key] := by
  induction pairs with
  | nil => rfl
  | cons pair pairs ih =>
    obtain ⟨k,a⟩ := pair
    rw [change]
    by_cases hk : k = key
    · simp [hk]
    · rw [if_neg hk,List.map_cons,ih]
      by_cases hmem : key ∈ pairs.map Prod.fst <;> simp [hmem,Ne.symm hk]

theorem nodup_change (h : (pairs.map Prod.fst).Nodup) (key : S) (f : Option A → A) :
    ((change key f pairs).map Prod.fst).Nodup := by
  rw [keys_change]
  split
  · exact h
  · next hmem =>
      rw [List.nodup_append]
      refine ⟨h,List.nodup_singleton _,?_⟩
      intro a ha b hb heq
      rw [List.mem_singleton] at hb
      exact hmem (hb ▸ heq ▸ ha)

variable {key : S} {f : Option A → A}

theorem mem_keys_change {k : S} :
    k ∈ (change key f pairs).map Prod.fst ↔ k ∈ pairs.map Prod.fst ∨ k = key := by
  rw [keys_change]
  split
  · next hmem => exact ⟨.inl,fun h => h.elim id fun heq => heq ▸ hmem⟩
  · rw [List.mem_append,List.mem_singleton]

/-- A change of a value says nothing of other keys. -/
theorem mem_change_of_ne {k : S} (hne : k ≠ key) {a : A} :
    (k,a) ∈ change key f pairs ↔ (k,a) ∈ pairs := by
  induction pairs with
  | nil => simp [change,hne]
  | cons pair pairs ih =>
    obtain ⟨k',a'⟩ := pair
    rw [change]
    by_cases hk : k' = key
    · rw [if_pos hk,List.mem_cons,List.mem_cons,Prod.mk.injEq,Prod.mk.injEq]
      have hother : k ≠ k' := fun heq => hne (heq.trans hk)
      simp [hother]
    · rw [if_neg hk,List.mem_cons,List.mem_cons,ih]

theorem mem_change_const {b : A} {pair : S × A} (h : pair ∈ change key (fun _ => b) pairs) :
    pair ∈ pairs ∨ pair = (key,b) := by
  induction pairs with
  | nil => exact .inr (List.mem_singleton.mp h)
  | cons first pairs ih =>
    obtain ⟨k,a⟩ := first
    rw [change] at h
    split at h
    · next hk =>
        rcases List.mem_cons.mp h with rfl | h
        · exact .inr (hk ▸ rfl)
        · exact .inl (List.mem_cons_of_mem _ h)
    · rcases List.mem_cons.mp h with rfl | h
      · exact .inl List.mem_cons_self
      · exact (ih h).imp_left (List.mem_cons_of_mem _)

/-- A change of what is there keeps the parts that it does not touch. -/
theorem map_change {B : Type} {p : A → B} (hp : ∀ a, p (f (some a)) = p a)
    (hkey : key ∈ pairs.map Prod.fst) :
    (change key f pairs).map (fun pair => (pair.1,p pair.2)) =
      pairs.map fun pair => (pair.1,p pair.2) := by
  induction pairs with
  | nil => cases hkey
  | cons pair pairs ih =>
    obtain ⟨k,a⟩ := pair
    rw [change]
    by_cases hk : k = key
    · rw [if_pos hk,List.map_cons,List.map_cons,hp]
    · rw [List.map_cons,List.mem_cons] at hkey
      rw [if_neg hk,List.map_cons,List.map_cons,ih (hkey.resolve_left (Ne.symm hk))]

theorem change_fresh (h : key ∉ pairs.map Prod.fst) :
    change key f pairs = pairs++[(key,f none)] := by
  induction pairs with
  | nil => rfl
  | cons pair pairs ih =>
    obtain ⟨k,a⟩ := pair
    rw [List.map_cons,List.mem_cons,not_or] at h
    rw [change,if_neg (Ne.symm h.1),ih h.2]
    rfl

theorem change_append {later : List (S × A)} (h : key ∉ pairs.map Prod.fst) :
    change key f (pairs++later) = pairs++change key f later := by
  induction pairs with
  | nil => rfl
  | cons pair pairs ih =>
    obtain ⟨k,a⟩ := pair
    rw [List.map_cons,List.mem_cons,not_or] at h
    rw [List.cons_append,change,if_neg (Ne.symm h.1),ih h.2]
    rfl

/-- The value of a changed key was made by the change, of the value it had if there was one. -/
theorem mem_change_self (hnodup : (pairs.map Prod.fst).Nodup) {a : A}
    (h : (key,a) ∈ change key f pairs) :
    (key ∉ pairs.map Prod.fst ∧ a = f none) ∨ ∃ b, (key,b) ∈ pairs ∧ a = f (some b) := by
  induction pairs with
  | nil =>
    cases List.mem_singleton.mp h
    exact .inl ⟨List.not_mem_nil,rfl⟩
  | cons pair pairs ih =>
    obtain ⟨k,b⟩ := pair
    rw [List.map_cons,List.nodup_cons] at hnodup
    rw [change] at h
    by_cases hk : k = key
    · rw [if_pos hk,List.mem_cons] at h
      rcases h with h | h
      · exact .inr ⟨b,hk ▸ List.mem_cons_self,(Prod.mk.inj h).2⟩
      · exact absurd (List.mem_map_of_mem h) (hk ▸ hnodup.1)
    · rw [if_neg hk,List.mem_cons] at h
      rcases h with h | h
      · exact absurd (Prod.mk.inj h).1.symm hk
      · rcases ih hnodup.2 h with ⟨hnew,heq⟩ | ⟨c,hc,heq⟩
        · rw [List.map_cons,List.mem_cons,not_or]
          exact .inl ⟨⟨Ne.symm hk,hnew⟩,heq⟩
        · exact .inr ⟨c,List.mem_cons_of_mem _ hc,heq⟩

theorem collect_append_singleton (pairs : List (S × A)) (pair : S × A) :
    collect (pairs++[pair]) = change pair.1 (fun _ => pair.2) (collect pairs) := by
  rw [collect,List.foldl_append]
  rfl

theorem nodup_collect (pairs : List (S × A)) : ((collect pairs).map Prod.fst).Nodup := by
  induction pairs using List.reverseRecOn with
  | nil => exact List.nodup_nil
  | append_singleton pairs pair ih =>
    rw [collect_append_singleton]
    exact nodup_change ih _ _

theorem mem_keys_collect {k : S} : k ∈ (collect pairs).map Prod.fst ↔ k ∈ pairs.map Prod.fst := by
  induction pairs using List.reverseRecOn with
  | nil => exact Iff.rfl
  | append_singleton pairs pair ih =>
    rw [collect_append_singleton,mem_keys_change,ih,List.map_append,List.mem_append,
      List.map_singleton,List.mem_singleton]

theorem mem_of_collect {pair : S × A} (h : pair ∈ collect pairs) : pair ∈ pairs := by
  induction pairs using List.reverseRecOn with
  | nil => exact h
  | append_singleton pairs last ih =>
    rw [collect_append_singleton] at h
    rcases mem_change_const h with h | h
    · exact List.mem_append_left _ (ih h)
    · exact List.mem_append_right _ (List.mem_singleton.mpr h)

/-- Keys that were not there stand after those that were. -/
theorem collect_append {later : List (S × A)} (h : ∀ pair ∈ later, pair.1 ∉ pairs.map Prod.fst) :
    collect (pairs++later) = collect pairs++collect later := by
  induction later using List.reverseRecOn with
  | nil => rw [List.append_nil,show collect ([] : List (S × A)) = [] from rfl,List.append_nil]
  | append_singleton later pair ih =>
    rw [List.forall_mem_append] at h
    rw [← List.append_assoc,collect_append_singleton,collect_append_singleton,ih h.1,
      change_append]
    rw [mem_keys_collect]
    exact h.2 pair (List.mem_singleton_self pair)

/-- Pairs with distinct keys are collected as they are. -/
theorem collect_of_nodup (h : (pairs.map Prod.fst).Nodup) : collect pairs = pairs := by
  induction pairs using List.reverseRecOn with
  | nil => rfl
  | append_singleton pairs pair ih =>
    rw [List.map_append,List.nodup_append] at h
    rw [collect_append_singleton,ih h.1,change_fresh]
    intro hmem
    exact h.2.2 _ hmem _ (List.mem_singleton_self _) rfl

/-- Each row changes the value of its key. -/
def changeAll {B : Type} (f : B → Option A → A) (rows : List (S × B)) (pairs : List (S × A)) :
    List (S × A) :=
  rows.foldl (fun pairs row => change row.1 (f row.2) pairs) pairs

section Rows
variable {B C : Type} {f : B → Option A → A} {rows : List (S × B)} {pairs : List (S × A)}

theorem changeAll_append_singleton (f : B → Option A → A) (rows : List (S × B)) (row : S × B)
    (pairs : List (S × A)) :
    changeAll f (rows++[row]) pairs = change row.1 (f row.2) (changeAll f rows pairs) := by
  rw [changeAll,List.foldl_append]
  rfl

theorem nodup_changeAll (h : (pairs.map Prod.fst).Nodup) :
    ((changeAll f rows pairs).map Prod.fst).Nodup := by
  induction rows using List.reverseRecOn with
  | nil => exact h
  | append_singleton rows row ih =>
    rw [changeAll_append_singleton]
    exact nodup_change ih _ _

theorem map_changeAll {p : A → C} (hp : ∀ b a, p (f b (some a)) = p a)
    (hkeys : ∀ row ∈ rows, row.1 ∈ pairs.map Prod.fst) :
    (changeAll f rows pairs).map (fun pair => (pair.1,p pair.2)) =
      pairs.map fun pair => (pair.1,p pair.2) := by
  induction rows using List.reverseRecOn with
  | nil => rfl
  | append_singleton rows row ih =>
    rw [List.forall_mem_append] at hkeys
    have hrows := ih hkeys.1
    rw [changeAll_append_singleton,map_change (hp row.2)]
    · exact hrows
    · have hfirst := congrArg (List.map Prod.fst) hrows
      simp only [List.map_map] at hfirst
      have hsame : (changeAll f rows pairs).map Prod.fst = pairs.map Prod.fst := hfirst
      rw [hsame]
      exact hkeys.2 row (List.mem_singleton_self row)

/-- With one row to a key, its value was made from the row. -/
theorem mem_changeAll (hpairs : (pairs.map Prod.fst).Nodup) (hrows : (rows.map Prod.fst).Nodup)
    {k : S} {a : A} {b : B} (h : (k,a) ∈ changeAll f rows pairs) (hrow : (k,b) ∈ rows) :
    ∃ o, a = f b o := by
  induction rows using List.reverseRecOn with
  | nil => cases hrow
  | append_singleton rows row ih =>
    rw [List.map_append,List.nodup_append] at hrows
    rw [changeAll_append_singleton] at h
    rcases List.mem_append.mp hrow with hold | hnew
    · have hne : k ≠ row.1 := fun heq => hrows.2.2 k (List.mem_map_of_mem hold) row.1
        (List.mem_singleton_self _) heq
      rw [mem_change_of_ne hne] at h
      exact ih hrows.1 h hold
    · cases List.mem_singleton.mp hnew
      rcases mem_change_self (nodup_changeAll hpairs) h with ⟨-,heq⟩ | ⟨o,-,heq⟩
      · exact ⟨none,heq⟩
      · exact ⟨some o,heq⟩

/-- Values of new keys are added. -/
theorem changeAll_fresh {rows : List (S × A)} (hrows : (rows.map Prod.fst).Nodup)
    (hnew : ∀ row ∈ rows, row.1 ∉ pairs.map Prod.fst) :
    changeAll (fun a _ => a) rows pairs = pairs++rows := by
  induction rows using List.reverseRecOn with
  | nil => exact (List.append_nil _).symm
  | append_singleton rows row ih =>
    rw [List.forall_mem_append] at hnew
    rw [List.map_append,List.nodup_append] at hrows
    rw [changeAll_append_singleton,ih hrows.1 hnew.1,change_fresh,List.append_assoc]
    rw [List.map_append,List.mem_append,not_or]
    exact ⟨hnew.2 row (List.mem_singleton_self row),fun hmem =>
      hrows.2.2 _ hmem row.1 (List.mem_singleton_self _) rfl⟩

end Rows

theorem lookup_map {A : Type} (f : S → A) (ks : List S) (k : S) :
    (ks.map fun k => (k,f k)).lookup k = if k ∈ ks then some (f k) else none := by
  induction ks with
  | nil => rfl
  | cons k' ks ih =>
    rw [List.map_cons,List.lookup_cons,ih]
    by_cases hk : k = k'
    · simp [hk]
    · have hbeq : (k == k') = false := beq_eq_false_iff_ne.mpr hk
      simp [hbeq,hk]

end Dictionary

section Totals
variable {R K V : Type} [DecidableEq K] [AddCommMonoid V] (key : R → K) (value : R → V)

def total (rows : List R) (k : K) : V := ((rows.filter fun r => key r = k).map value).sum

/-- `GROUP BY` the key, with the sum of the values. -/
def groupTotals (rows : List R) : List (K × V) :=
  (rows.map key).dedup.map fun k => (k,total key value rows k)

variable {key value} {rows more : List R} {k : K}

theorem keys_groupTotals : (groupTotals key value rows).map Prod.fst = (rows.map key).dedup := by
  rw [groupTotals,List.map_map]
  exact List.map_id _

variable {ks : List K}

theorem dedup_map {K' : Type} [DecidableEq K'] {g : K → K'}
    (hinj : ∀ a ∈ ks, ∀ b ∈ ks, g a = g b → a = b) : (ks.map g).dedup = ks.dedup.map g := by
  induction ks with
  | nil => rfl
  | cons a ks ih =>
    have hrest := ih fun b hb c hc => hinj b (List.mem_cons_of_mem _ hb) c
      (List.mem_cons_of_mem _ hc)
    by_cases ha : a ∈ ks
    · rw [List.map_cons,List.dedup_cons_of_mem (List.mem_map_of_mem ha),
        List.dedup_cons_of_mem ha,hrest]
    · have hnew : g a ∉ ks.map g := by
        intro hmem
        obtain ⟨b,hb,heq⟩ := List.mem_map.mp hmem
        exact ha (hinj a List.mem_cons_self b (List.mem_cons_of_mem _ hb) heq.symm ▸ hb)
      rw [List.map_cons,List.dedup_cons_of_notMem hnew,List.dedup_cons_of_notMem ha,hrest,
        List.map_cons]

/-- Groups may have other names, as long as these tell them apart. -/
theorem groupTotals_rename {K' : Type} [DecidableEq K'] {key' : R → K'} {g : K → K'}
    (hg : ∀ r ∈ rows, key' r = g (key r))
    (hinj : ∀ r ∈ rows, ∀ r' ∈ rows, key' r = key' r' → key r = key r') :
    (groupTotals key value rows).map (fun pair => (g pair.1,pair.2)) =
      groupTotals key' value rows := by
  have hkeys : rows.map key' = (rows.map key).map g := by
    rw [List.map_map]
    exact List.map_congr_left hg
  have hon : ∀ a ∈ rows.map key, ∀ b ∈ rows.map key, g a = g b → a = b := by
    intro a ha b hb heq
    obtain ⟨r,hr,rfl⟩ := List.mem_map.mp ha
    obtain ⟨r',hr',rfl⟩ := List.mem_map.mp hb
    exact hinj r hr r' hr' ((hg r hr).trans (heq.trans (hg r' hr').symm))
  rw [groupTotals,groupTotals,hkeys,dedup_map hon,List.map_map,List.map_map]
  apply List.map_congr_left
  intro k hk
  obtain ⟨r,hr,rfl⟩ := List.mem_map.mp (List.mem_dedup.mp hk)
  have hsame : ∀ r' ∈ rows, decide (key r' = key r) = decide (key' r' = g (key r)) := by
    intro r' hr'
    rw [decide_eq_decide]
    constructor
    · exact fun heq => (hg r' hr').trans (congrArg g heq)
    · exact fun heq => hinj r' hr' r hr (heq.trans (hg r hr).symm)
  change (g (key r),total key value rows (key r)) = (g (key r),total key' value rows (g (key r)))
  rw [total,total,List.filter_congr hsame]

theorem total_append : total key value (rows++more) k =
    total key value rows k+total key value more k := by
  rw [total,List.filter_append,List.map_append,List.sum_append]
  rfl

theorem total_cons (r : R) : total key value (r::rows) k =
    (if key r = k then value r else 0)+total key value rows k := by
  unfold total
  by_cases hk : key r = k
  · rw [List.filter_cons_of_pos (by simpa using hk),List.map_cons,List.sum_cons,if_pos hk]
  · rw [List.filter_cons_of_neg (by simpa using hk),if_neg hk,zero_add]

theorem total_add (f g : R → V) :
    total key (fun r => f r+g r) rows k = total key f rows k+total key g rows k :=
  List.sum_map_add

theorem total_ite (p : R → Bool) :
    total key (fun r => if p r = true then value r else 0) rows k =
      total key value (rows.filter p) k := by
  induction rows with
  | nil => rfl
  | cons r rows ih =>
    cases hp : p r with
    | true => rw [List.filter_cons_of_pos hp,total_cons,total_cons,ih,if_pos hp]
    | false =>
      rw [List.filter_cons_of_neg (by simp [hp]),total_cons,ih,hp,
        if_neg Bool.false_ne_true,ite_self,zero_add]

theorem total_of_notMem (h : k ∉ rows.map key) : total key value rows k = 0 := by
  have hnone : rows.filter (fun r => key r = k) = [] := by
    rw [List.filter_eq_nil_iff]
    intro r hr hk
    exact h (of_decide_eq_true hk ▸ List.mem_map_of_mem hr)
  rw [total,hnone]
  rfl

theorem getD_lookup_groupTotals :
    ((groupTotals key value rows).lookup k).getD 0 = total key value rows k := by
  rw [groupTotals,lookup_map]
  by_cases hk : k ∈ (rows.map key).dedup
  · rw [if_pos hk]
    rfl
  · rw [if_neg hk,total_of_notMem fun hmem => hk (List.mem_dedup.mpr hmem)]
    rfl

theorem sum_ite (v : V) (hks : ks.Nodup) (k : K) :
    (ks.map fun k' => if k = k' then v else 0).sum = if k ∈ ks then v else 0 := by
  induction ks with
  | nil => rfl
  | cons k' ks ih =>
    rw [List.nodup_cons] at hks
    rw [List.map_cons,List.sum_cons,ih hks.2]
    by_cases hk : k = k'
    · subst hk
      simp [hks.1]
    · simp [hk]

/-- The totals of the keys together count the rows with these keys. -/
theorem sum_totals (hks : ks.Nodup) : (ks.map (total key value rows)).sum =
    ((rows.filter fun r => key r ∈ ks).map value).sum := by
  induction rows with
  | nil =>
    have hzero : ks.map (total key value ([] : List R)) = ks.map fun _ => 0 :=
      List.map_congr_left fun _ _ => rfl
    rw [hzero,List.filter_nil,List.map_nil,List.sum_nil]
    exact List.sum_eq_zero fun v hv => by
      obtain ⟨-,-,rfl⟩ := List.mem_map.mp hv
      rfl
  | cons r rows ih =>
    have hcons : ks.map (total key value (r::rows)) =
        ks.map fun k => (if key r = k then value r else 0)+total key value rows k :=
      List.map_congr_left fun _ _ => total_cons r
    rw [hcons,List.sum_map_add,sum_ite (value r) hks,ih]
    by_cases hr : key r ∈ ks
    · rw [if_pos hr,List.filter_cons_of_pos (by simpa using hr),List.map_cons,List.sum_cons]
    · rw [if_neg hr,List.filter_cons_of_neg (by simpa using hr),zero_add]

/-- Rows that count nothing can go. -/
theorem total_filter (p : R → Bool) (h : ∀ r ∈ rows, p r = false → value r = 0) :
    total key value (rows.filter p) k = total key value rows k := by
  induction rows with
  | nil => rfl
  | cons r rows ih =>
    rw [List.forall_mem_cons] at h
    cases hp : p r with
    | true => rw [List.filter_cons_of_pos hp,total_cons,total_cons,ih h.2]
    | false => rw [List.filter_cons_of_neg (by simp [hp]),total_cons,ih h.2,h.1 hp,ite_self,zero_add]

variable [PartialOrder V] [IsOrderedAddMonoid V]

theorem total_nonneg (h : ∀ r ∈ rows, key r = k → 0 ≤ value r) : 0 ≤ total key value rows k := by
  refine List.sum_nonneg ?_
  intro v hv
  obtain ⟨r,hr,rfl⟩ := List.mem_map.mp hv
  obtain ⟨hmem,hkey⟩ := List.mem_filter.mp hr
  exact h r hmem (of_decide_eq_true hkey)

theorem total_pos {value : R → ℕ} {r : R} (hr : r ∈ rows) (hk : key r = k) (hpos : 0 < value r) :
    0 < total key value rows k := by
  have hmem : r ∈ rows.filter fun r => key r = k := List.mem_filter.mpr ⟨hr,decide_eq_true hk⟩
  exact Nat.lt_of_lt_of_le hpos (List.le_sum_of_mem (List.mem_map_of_mem hmem))

theorem total_le_append (h : ∀ r ∈ more, key r = k → 0 ≤ value r) :
    total key value rows k ≤ total key value (rows++more) k := by
  rw [total_append]
  exact le_add_of_nonneg_right (total_nonneg h)

end Totals

end OneStep.GroupedTotals
