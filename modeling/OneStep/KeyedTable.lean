import Mathlib.Data.List.Nodup
import Mathlib.Data.List.Sort

/-!
# Keyed tables

A table is the list of its rows. A key column identifies rows; an update
rewrites the rows that satisfy its guard and reports how many there were. The
lemmas state what one guarded update does to the row under a key, to the rows
that refer to a key, and to the reported count when the key is unique.

Nothing here mentions a schema: rows, keys and guards are parameters.
-/
namespace OneStep.KeyedTable

variable {R K : Type}

/-- Guarded update of every matching row. -/
def update (p : R → Bool) (f : R → R) (rows : List R) : List R :=
  rows.map fun r => if p r then f r else r

/-- Number of rows a guarded update touches. -/
def affected (p : R → Bool) (rows : List R) : ℕ := rows.countP p

def UniqueKey (key : R → K) (rows : List R) : Prop := (rows.map key).Nodup

/-- The first `limit` rows that satisfy `p`, in the order `le`. -/
def select (p : R → Bool) (le : R → R → Prop) [DecidableRel le] (limit : ℕ)
    (rows : List R) : List R :=
  ((rows.filter p).insertionSort le).take limit

variable {p : R → Bool}

variable {f : R → R}

/-- A column that the update keeps reads the same afterwards. -/
theorem map_update {β : Type} {g : R → β} (hf : ∀ r, g (f r) = g r) (rows : List R) :
    (update p f rows).map g = rows.map g := by
  simp only [update,List.map_map]
  apply List.map_congr_left
  intro r _
  simp only [Function.comp_apply]
  split_ifs
  · exact hf r
  · rfl

variable {key : R → K} {rows : List R}

theorem unique_update (hf : ∀ r, key (f r) = key r) (hu : UniqueKey key rows) :
    UniqueKey key (update p f rows) := by
  unfold UniqueKey
  rw [map_update hf]
  exact hu

variable {r : R}

theorem unique_append_singleton (hu : UniqueKey key rows) (hr : ∀ s ∈ rows, key s ≠ key r) :
    UniqueKey key (rows++[r]) := by
  unfold UniqueKey at *
  rw [List.map_append,List.nodup_append]
  refine ⟨hu,by simp,?_⟩
  intro a ha b hb
  obtain ⟨s,hs,rfl⟩ := List.mem_map.mp ha
  have he : b = key r := by simpa using hb
  rw [he]
  exact hr s hs

/-- A unique key tells rows apart. -/
theorem eq_of_key (hu : UniqueKey key rows) {s : R} (hr : r ∈ rows) (hs : s ∈ rows)
    (h : key r = key s) : r = s :=
  List.inj_on_of_nodup_map hu hr hs h

theorem mem_select {le : R → R → Prop} [DecidableRel le] {limit : ℕ}
    (h : r ∈ select p le limit rows) : r ∈ rows ∧ p r = true := by
  have hs := List.mem_of_mem_take h
  rw [List.mem_insertionSort] at hs
  exact List.mem_filter.mp hs

theorem unique_select {le : R → R → Prop} [DecidableRel le] {limit : ℕ} (hu : UniqueKey key rows) :
    UniqueKey key (select p le limit rows) := by
  have hf : UniqueKey key (rows.filter p) := (List.filter_sublist.map key).nodup hu
  have hs : UniqueKey key ((rows.filter p).insertionSort le) :=
    ((List.perm_insertionSort le (rows.filter p)).map key).nodup_iff.mpr hf
  exact ((List.take_sublist _ _).map key).nodup hs

variable [DecidableEq K]

/-- The row stored under `k`, if any. -/
def lookup (key : R → K) (k : K) (rows : List R) : Option R :=
  rows.find? fun r => key r = k

/-- All rows whose reference column is `k`, in insertion order. -/
def group (ref : R → K) (k : K) (rows : List R) : List R :=
  rows.filter fun r => ref r = k

theorem lookup_cons (key : R → K) (k : K) (r : R) (rows : List R) :
    lookup key k (r::rows) = if key r = k then some r else lookup key k rows := by
  by_cases h : key r = k <;> simp [lookup,h]

variable {k : K}

theorem lookup_key (h : lookup key k rows = some r) : key r = k := by
  simpa [lookup] using List.find?_some h

theorem lookup_mem (h : lookup key k rows = some r) : r ∈ rows := List.mem_of_find?_eq_some h

theorem lookup_of_mem (hu : UniqueKey key rows) (hr : r ∈ rows) :
    lookup key (key r) rows = some r := by
  induction rows with
  | nil => simp at hr
  | cons a rows ih =>
    obtain ⟨hn,hu⟩ := List.nodup_cons.mp hu
    rw [lookup_cons]
    rcases List.mem_cons.mp hr with rfl | hr
    · simp
    · have hne : key a ≠ key r := fun he => hn (he ▸ List.mem_map_of_mem hr)
      rw [if_neg hne]
      exact ih hu hr

theorem lookup_eq_none : lookup key k rows = none ↔ ∀ r ∈ rows, key r ≠ k := by
  simp [lookup]

theorem lookup_append_singleton (key : R → K) (k : K) (rows : List R) (r : R) :
    lookup key k (rows++[r]) =
      (lookup key k rows).or (if key r = k then some r else none) := by
  by_cases h : key r = k <;> simp [lookup,List.find?_append,h]

/-- An update that keeps the key acts on the stored row and nowhere else. -/
theorem lookup_update (key : R → K) (k : K) (p : R → Bool) (f : R → R)
    (hf : ∀ r, key (f r) = key r) (rows : List R) :
    lookup key k (update p f rows) =
      (lookup key k rows).map fun r => if p r then f r else r := by
  induction rows with
  | nil => rfl
  | cons a rows ih =>
    change lookup key k ((if p a then f a else a)::update p f rows) = _
    have hk : key (if p a then f a else a) = key a := by
      split_ifs
      · exact hf a
      · rfl
    rw [lookup_cons,lookup_cons,hk,ih]
    by_cases hak : key a = k
    · rw [if_pos hak,if_pos hak,Option.map_some]
    · rw [if_neg hak,if_neg hak]

theorem lookup_update_of_ne (key : R → K) {k' : K} (hf : ∀ r, key (f r) = key r)
    (hp : ∀ r, p r = true → key r = k) (hne : k' ≠ k) (rows : List R) :
    lookup key k' (update p f rows) = lookup key k' rows := by
  rw [lookup_update key k' p f hf]
  cases h : lookup key k' rows with
  | none => rfl
  | some r =>
    have hr : p r = false := by
      by_contra hc
      exact hne ((lookup_key h).symm.trans (hp r (by simpa using hc)))
    simp [hr]

/-- With a unique key, an update guarded by one key touches one row or none. -/
theorem affected_eq (hu : UniqueKey key rows) (hp : ∀ r, p r = true → key r = k) :
    affected p rows = if (lookup key k rows).any p then 1 else 0 := by
  induction rows with
  | nil => rfl
  | cons a rows ih =>
    obtain ⟨hn,hu⟩ := List.nodup_cons.mp hu
    have ih := ih hu
    unfold affected at *
    rw [List.countP_cons,lookup_cons,ih]
    by_cases hk : key a = k
    · have hnone : lookup key k rows = none := by
        rw [lookup_eq_none]
        intro r hr he
        exact hn (List.mem_map.mpr ⟨r,hr,he.trans hk.symm⟩)
      rw [if_pos hk,hnone]
      by_cases hpa : p a <;> simp [hpa]
    · have hpa : p a = false := by
        by_contra hc
        exact hk (hp a (by simpa using hc))
      rw [if_neg hk]
      simp [hpa]

theorem mem_group {ref : R → K} :
    r ∈ group ref k rows ↔ r ∈ rows ∧ ref r = k := by simp [group]

theorem group_append_singleton (ref : R → K) (k : K) (rows : List R) (r : R) :
    group ref k (rows++[r]) =
      group ref k rows ++ (if ref r = k then [r] else []) := by
  by_cases h : ref r = k <;> simp [group,h]

theorem group_update (ref : R → K) (k : K) (p : R → Bool) (f : R → R)
    (hf : ∀ r, ref (f r) = ref r) (rows : List R) :
    group ref k (update p f rows) = update p f (group ref k rows) := by
  induction rows with
  | nil => rfl
  | cons a rows ih =>
    have hk : ref (if p a then f a else a) = ref a := by
      split_ifs
      · exact hf a
      · rfl
    change List.filter _ ((if p a then f a else a)::update p f rows) = _
    rw [List.filter_cons]
    by_cases h : ref a = k
    · simpa [hk,h,group,update,List.filter_cons] using ih
    · simpa [hk,h,group,update,List.filter_cons] using ih

/-- Rows that refer to another key are left alone. -/
theorem group_update_of_ne (ref : R → K) {k' : K} (hf : ∀ r, ref (f r) = ref r)
    (hp : ∀ r, p r = true → ref r = k) (hne : k' ≠ k) (rows : List R) :
    group ref k' (update p f rows) = group ref k' rows := by
  rw [group_update ref k' p f hf]
  conv_rhs => rw [← List.map_id (group ref k' rows)]
  apply List.map_congr_left
  intro r hr
  have hpr : p r = false := by
    by_contra hc
    exact hne ((mem_group.mp hr).2.symm.trans (hp r (by simpa using hc)))
  simp [hpr]

end OneStep.KeyedTable
