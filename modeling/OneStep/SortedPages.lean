import OneStep.KeysetPages

/-!
# The least rows of a sequence of pages

The next rows above a cursor are wanted, in the order of a key, and the pages are
read one after the other until there are enough. Each page is sorted by itself, so
what was gathered need not be the least rows of all: it is exactly when no row
beyond the wanted ones stands on an earlier page than one that is wanted.
-/
namespace OneStep.SortedPages
open KeyedTable KeysetPages

section Pages
variable {R : Type}

/-- The rows by pages of one size, the last of them short; without rows there is
one page. -/
def pagesOf (size : ℕ) : ℕ → List R → List (List R)
  | 0,_ => []
  | fuel+1,rows => rows.take size::if (rows.drop size).isEmpty then [] else
      pagesOf size fuel (rows.drop size)

theorem flatten_pagesOf {size fuel : ℕ} {rows : List R} (hsize : 0 < size)
    (hfuel : rows.length < fuel) : (pagesOf size fuel rows).flatten = rows := by
  induction fuel generalizing rows with
  | zero => exact absurd hfuel (Nat.not_lt_zero _)
  | succ fuel ih =>
    simp only [pagesOf,List.flatten_cons]
    split
    · next hempty =>
        rw [List.isEmpty_iff] at hempty
        rw [List.flatten_nil,List.append_nil]
        exact List.take_of_length_le (List.drop_eq_nil_iff.mp hempty)
    · next hmore =>
        rw [List.isEmpty_iff,List.drop_eq_nil_iff] at hmore
        rw [ih (by rw [List.length_drop]; omega)]
        exact List.take_append_drop size rows

theorem pagesOf_map {S : Type} (f : R → S) (size fuel : ℕ) (rows : List R) :
    pagesOf size fuel (rows.map f) = (pagesOf size fuel rows).map (List.map f) := by
  induction fuel generalizing rows with
  | zero => rfl
  | succ fuel ih =>
    simp only [pagesOf,List.map_cons,← List.map_take,← List.map_drop,ih,List.isEmpty_map]
    split <;> rfl

end Pages

section Order
variable {R K : Type} [LinearOrder K] (key : R → K)

/-- The least key comes first. -/
def ascending (rows : List R) : List R := arranged (fun r => OrderDual.toDual (key r)) rows

/-- The first rows in the order of the key. -/
def least (n : ℕ) (rows : List R) : List R := (ascending key rows).take n

/-- Reads sorted pages until there are enough rows. -/
def gather (n : ℕ) : List (List R) → List R → List R
  | [],got => got
  | page::pages,got =>
    let got := got++(ascending key page).take (n-got.length)
    if n ≤ got.length then got else gather n pages got

/-- No row beyond the least ones stands on an earlier page than one of them. -/
def Unsplit (n : ℕ) (pages : List (List R)) : Prop :=
  pages.Pairwise fun p q => (∃ y ∈ p, y ∉ least key n pages.flatten) →
    ∀ x ∈ q, x ∉ least key n pages.flatten

variable {key}

theorem perm_ascending (rows : List R) : (ascending key rows).Perm rows := perm_arranged _ rows

variable {rows : List R}

theorem mem_ascending {r : R} : r ∈ ascending key rows ↔ r ∈ rows :=
  (perm_ascending rows).mem_iff

theorem length_ascending (rows : List R) : (ascending key rows).length = rows.length :=
  (perm_ascending rows).length_eq

omit [LinearOrder K] in
theorem uniqueKey_dual :
    UniqueKey (fun r => OrderDual.toDual (key r)) rows ↔ UniqueKey key rows := by
  have hmap : rows.map (fun r => OrderDual.toDual (key r)) =
      (rows.map key).map OrderDual.toDual := by
    rw [List.map_map]
    rfl
  unfold UniqueKey
  rw [hmap,List.nodup_map_iff OrderDual.toDual.injective]

theorem ascending_strict (h : UniqueKey key rows) :
    (ascending key rows).Pairwise fun r s => key r < key s :=
  arranged_strict _ (uniqueKey_dual.mpr h)

variable {l : List R}

theorem ascending_eq (hperm : l.Perm rows) (hstrict : l.Pairwise fun r s => key r < key s) :
    ascending key rows = l :=
  arranged_eq _ hperm hstrict

theorem ascending_congr {others : List R} (h : UniqueKey key rows) (hperm : rows.Perm others) :
    ascending key rows = ascending key others :=
  (ascending_eq ((perm_ascending rows).trans hperm) (ascending_strict h)).symm

theorem mem_of_least {n : ℕ} {r : R} (h : r ∈ least key n rows) : r ∈ rows :=
  mem_ascending.mp (List.mem_of_mem_take h)

theorem length_least (n : ℕ) (rows : List R) : (least key n rows).length = min n rows.length := by
  rw [least,List.length_take,length_ascending]

theorem least_all {n : ℕ} (h : rows.length ≤ n) : least key n rows = ascending key rows :=
  List.take_of_length_le (by rw [length_ascending]; exact h)

omit [LinearOrder K] in
theorem nodup_of_uniqueKey (h : UniqueKey key rows) : rows.Nodup := List.Nodup.of_map key h

theorem least_sublist (n : ℕ) (rows : List R) : (least key n rows).Sublist (ascending key rows) :=
  List.take_sublist n _

theorem nodup_least {n : ℕ} (h : UniqueKey key rows) : (least key n rows).Nodup :=
  (least_sublist n rows).nodup ((perm_ascending rows).nodup_iff.mpr (nodup_of_uniqueKey h))

/-- What is below one of the least rows is one of them. -/
theorem mem_least_below {n : ℕ} (hunique : UniqueKey key rows) {r s : R} (hs : s ∈ least key n rows)
    (hr : r ∈ rows) (h : key r < key s) : r ∈ least key n rows := by
  have hstrict := ascending_strict hunique
  rw [← @mem_ascending R K _ key,← List.take_append_drop n (ascending key rows)] at hr
  rw [← List.take_append_drop n (ascending key rows)] at hstrict
  obtain ⟨-,-,hcross⟩ := List.pairwise_append.mp hstrict
  rcases List.mem_append.mp hr with hr | hr
  · exact hr
  · exact absurd h (lt_asymm (hcross s hs r hr))

/-- Enough rows that are all among the least ones are the least ones. -/
theorem ascending_least {n : ℕ} (hunique : UniqueKey key rows) (hnodup : l.Nodup)
    (hsub : l ⊆ least key n rows) (hlength : (least key n rows).length ≤ l.length) :
    ascending key l = least key n rows := by
  have hperm : l.Subperm (least key n rows) := List.subperm_of_subset hnodup hsub
  have hsame := hperm.perm_of_length_le hlength
  exact ascending_eq hsame.symm ((ascending_strict hunique).sublist (least_sublist n rows))

/-- Reading stops within a page, or there are too few rows. -/
theorem gather_cases (n : ℕ) (pages : List (List R)) {got : List R} (hgot : got.length < n) :
    got.length+pages.flatten.length < n ∧ (gather key n pages got).Perm (got++pages.flatten) ∨
      ∃ front page back, pages = front++page::back ∧ got.length+front.flatten.length < n ∧
        n ≤ got.length+front.flatten.length+page.length ∧ (gather key n pages got).Perm
          (got++front.flatten++least key (n-(got.length+front.flatten.length)) page) := by
  induction pages generalizing got with
  | nil =>
    left
    rw [List.flatten_nil,List.append_nil]
    exact ⟨hgot,.refl _⟩
  | cons page pages ih =>
    have hlength : (got++(ascending key page).take (n-got.length)).length =
        got.length+min (n-got.length) page.length := by
      rw [List.length_append,List.length_take,length_ascending]
    by_cases hfull : n ≤ got.length+page.length
    · refine .inr ⟨[],page,pages,rfl,by simpa using hgot,by simpa using hfull,?_⟩
      have hstop : n ≤ (got++(ascending key page).take (n-got.length)).length := by
        rw [hlength]
        omega
      simp only [gather,if_pos hstop]
      simp [least]
    · have hgo : ¬n ≤ (got++(ascending key page).take (n-got.length)).length := by
        rw [hlength]
        omega
      have htake : (ascending key page).take (n-got.length) = ascending key page :=
        List.take_of_length_le (by rw [length_ascending]; omega)
      have hmore : (got++ascending key page).Perm (got++page) := (perm_ascending page).append_left got
      have hcount : (got++ascending key page).length = got.length+page.length := by
        rw [List.length_append,length_ascending]
      simp only [gather,if_neg hgo]
      rw [htake]
      rcases @ih (got++ascending key page) (by omega) with
        ⟨hfew,hperm⟩ | ⟨front,last,back,rfl,hfront,hlast,hperm⟩
      · refine .inl ⟨?_,hperm.trans ?_⟩
        · rw [hcount] at hfew
          rw [List.flatten_cons,List.length_append]
          omega
        · rw [List.flatten_cons,← List.append_assoc]
          exact hmore.append_right _
      · rw [hcount] at hfront hlast hperm
        refine .inr ⟨page::front,last,back,rfl,?_,?_,hperm.trans ?_⟩
        · rw [List.flatten_cons,List.length_append]
          omega
        · rw [List.flatten_cons,List.length_append]
          omega
        · rw [List.flatten_cons,List.length_append,← List.append_assoc,← Nat.add_assoc]
          exact (hmore.append_right _).append_right _

variable {n : ℕ} {pages front back : List (List R)} {page : List R}

/-- The pages that hold none of the wanted rows may come after any other. -/
theorem unsplit_append (hfront : ∀ y ∈ front.flatten, y ∈ least key n (front++page::back).flatten)
    (hback : ∀ x ∈ back.flatten, x ∉ least key n (front++page::back).flatten) :
    Unsplit key n (front++page::back) := by
  have hlate : ∀ p : List R, ∀ q ∈ back, (∃ y ∈ p, y ∉ least key n (front++page::back).flatten) →
      ∀ x ∈ q, x ∉ least key n (front++page::back).flatten :=
    fun _ q hq _ x hx => hback x (List.mem_flatten.mpr ⟨q,hq,hx⟩)
  have hearly : ∀ p ∈ front, ∀ q : List R, (∃ y ∈ p, y ∉ least key n (front++page::back).flatten) →
      ∀ x ∈ q, x ∉ least key n (front++page::back).flatten := by
    rintro p hp q ⟨y,hy,hout⟩
    exact absurd (hfront y (List.mem_flatten.mpr ⟨p,hp,hy⟩)) hout
  refine List.pairwise_append.mpr ⟨?_,List.pairwise_cons.mpr ⟨hlate page,?_⟩,
    fun p hp q _ => hearly p hp q⟩
  · exact List.pairwise_of_forall_mem_list fun p hp q _ => hearly p hp q
  · exact List.pairwise_of_forall_mem_list fun p _ q hq => hlate p q hq

/-- Behind a page with a row that is not wanted there is no wanted row. -/
theorem Unsplit.behind (h : Unsplit key n (front++page::back)) {y : R} (hy : y ∈ page)
    (hout : y ∉ least key n (front++page::back).flatten) :
    least key n (front++page::back).flatten ⊆ front.flatten++page := by
  intro t ht
  have hpage := (List.pairwise_cons.mp (List.pairwise_append.mp h).2.1).1
  have hmem := mem_of_least ht
  rw [List.flatten_append,List.flatten_cons,← List.append_assoc] at hmem
  rcases List.mem_append.mp hmem with hin | hin
  · exact hin
  · obtain ⟨q,hq,hin⟩ := List.mem_flatten.mp hin
    exact absurd ht (hpage q hq ⟨y,hy,hout⟩ t hin)

theorem length_le_of_subset {m : List R} (hl : l.Nodup) (h : l ⊆ m) : l.length ≤ m.length :=
  (List.subperm_of_subset hl h).length_le

/-- The rows of the pages before the last one read are wanted. -/
theorem Unsplit.before (h : Unsplit key n (front++page::back))
    (hunique : UniqueKey key (front++page::back).flatten) (hfew : front.flatten.length < n)
    (hlength : n ≤ (front++page::back).flatten.length) :
    front.flatten ⊆ least key n (front++page::back).flatten := by
  intro y hy
  by_contra hout
  obtain ⟨p,hp,hyp⟩ := List.mem_flatten.mp hy
  obtain ⟨before,after,rfl⟩ := List.append_of_mem hp
  rw [List.append_assoc,List.cons_append] at h hunique hlength hout
  have hcount := length_le_of_subset (nodup_least hunique) (h.behind hyp hout)
  rw [length_least] at hcount
  simp only [List.flatten_append,List.flatten_cons,List.length_append] at hfew hcount hlength
  omega

/-- The least rows of the last page read are wanted. -/
theorem Unsplit.within (h : Unsplit key n (front++page::back))
    (hunique : UniqueKey key (front++page::back).flatten) (hfew : front.flatten.length < n)
    (hlength : n ≤ front.flatten.length+page.length) :
    least key (n-front.flatten.length) page ⊆ least key n (front++page::back).flatten := by
  have hflat : (front++page::back).flatten = front.flatten++(page++back.flatten) := by
    rw [List.flatten_append,List.flatten_cons]
  have hpage : UniqueKey key page := by
    rw [hflat] at hunique
    exact (((List.sublist_append_left page _).trans (List.sublist_append_right _ _)).map key).nodup
      hunique
  intro b hb
  by_contra hout
  have hwanted : b::least key n (front++page::back).flatten ⊆
      front.flatten++least key (n-front.flatten.length) page := by
    intro t ht
    rcases List.mem_cons.mp ht with rfl | ht
    · exact List.mem_append_right _ hb
    rcases List.mem_append.mp (h.behind (mem_of_least hb) hout ht) with hin | hin
    · exact List.mem_append_left _ hin
    · apply List.mem_append_right
      rcases lt_trichotomy (key t) (key b) with hlt | heq | hgt
      · exact mem_least_below hpage hb hin hlt
      · exact absurd (eq_of_key hpage hin (mem_of_least hb) heq) fun heq => hout (heq ▸ ht)
      · refine absurd (mem_least_below hunique ht ?_ hgt) hout
        rw [hflat]
        exact List.mem_append_right _ (List.mem_append_left _ (mem_of_least hb))
  have hcount := length_le_of_subset (List.nodup_cons.mpr ⟨hout,nodup_least hunique⟩) hwanted
  rw [List.length_cons,List.length_append,length_least,length_least,hflat] at hcount
  simp only [List.length_append] at hcount
  omega

theorem gather_subset (n : ℕ) (pages : List (List R)) (got : List R) :
    gather key n pages got ⊆ got++pages.flatten := by
  induction pages generalizing got with
  | nil => exact List.subset_append_left got _
  | cons page pages ih =>
    have htake : (ascending key page).take (n-got.length) ⊆ page :=
      fun x hx => mem_ascending.mp (List.mem_of_mem_take hx)
    simp only [gather]
    split
    · exact List.append_subset.mpr ⟨List.subset_append_left _ _,fun x hx =>
        List.mem_append_right _ (List.mem_append_left _ (htake hx))⟩
    · intro x hx
      rcases List.mem_append.mp (ih _ hx) with hx | hx
      · rcases List.mem_append.mp hx with hx | hx
        · exact List.mem_append_left _ hx
        · exact List.mem_append_right _ (List.mem_append_left _ (htake hx))
      · exact List.mem_append_right _ (List.mem_append_right _ hx)

theorem length_least_gather (hn : 0 < n) :
    (least key n (gather key n pages [])).length = min n pages.flatten.length := by
  rw [length_least]
  rcases @gather_cases R K _ key n pages [] hn with
    ⟨-,hperm⟩ | ⟨front,page,back,rfl,hfront,hlast,hperm⟩
  · rw [hperm.length_eq,List.nil_append]
  · simp only [List.length_nil,Nat.zero_add,List.nil_append] at hfront hlast hperm
    rw [hperm.length_eq]
    simp only [List.length_append,length_least,List.flatten_append,List.flatten_cons]
    omega

/-- Reading page by page finds the least rows exactly when no page border splits them. -/
theorem gather_iff (hn : 0 < n) (hunique : UniqueKey key pages.flatten) :
    least key n (gather key n pages []) = least key n pages.flatten ↔ Unsplit key n pages := by
  rcases @gather_cases R K _ key n pages [] hn with
    ⟨hfew,hperm⟩ | ⟨front,page,back,rfl,hfront,hlast,hperm⟩
  · rw [List.nil_append] at hperm
    refine iff_of_true ?_ ?_
    · unfold least
      rw [ascending_congr hunique hperm.symm]
    · apply List.pairwise_of_forall_mem_list
      rintro p hp q - ⟨y,hy,hout⟩
      refine absurd ?_ hout
      rw [least_all (by simp only [List.length_nil] at hfew; omega),mem_ascending]
      exact List.mem_flatten.mpr ⟨p,hp,hy⟩
  · simp only [List.length_nil,Nat.zero_add,List.nil_append] at hfront hlast hperm
    have hflat : (front++page::back).flatten = front.flatten++(page++back.flatten) := by
      rw [List.flatten_append,List.flatten_cons]
    have hcount : (gather key n (front++page::back) []).length = n := by
      rw [hperm.length_eq,List.length_append,length_least]
      omega
    have hall : least key n (gather key n (front++page::back) []) =
        ascending key (gather key n (front++page::back) []) := least_all hcount.le
    rw [hall]
    have hnodup := nodup_of_uniqueKey hunique
    rw [hflat] at hnodup
    have hwanted : (least key n (front++page::back).flatten).length = n := by
      rw [length_least,hflat,List.length_append,List.length_append]
      omega
    constructor
    · intro heq
      have hmem : ∀ x, x ∈ least key n (front++page::back).flatten ↔
          x ∈ front.flatten++least key (n-front.flatten.length) page := by
        intro x
        rw [← heq,mem_ascending,hperm.mem_iff]
      refine unsplit_append (fun y hy => ?_) (fun x hx hin => ?_)
      · rw [hmem]
        exact List.mem_append_left _ hy
      · rw [hmem] at hin
        obtain ⟨-,hrest,hcross⟩ := List.nodup_append.mp hnodup
        rcases List.mem_append.mp hin with hin | hin
        · exact hcross x hin x (List.mem_append_right _ hx) rfl
        · exact (List.nodup_append.mp hrest).2.2 x (mem_of_least hin) x hx rfl
    · intro hunsplit
      have hgathered : (gather key n (front++page::back) []).Nodup := by
        rw [hperm.nodup_iff]
        have hpage := (List.nodup_append.mp (List.nodup_append.mp hnodup).2.1).1
        refine List.nodup_append.mpr ⟨(List.nodup_append.mp hnodup).1,?_,?_⟩
        · exact (List.take_sublist _ _).nodup ((perm_ascending page).nodup_iff.mpr hpage)
        · intro x hx y hy
          exact (List.nodup_append.mp hnodup).2.2 x hx y (List.mem_append_left _ (mem_of_least hy))
      refine ascending_least hunique hgathered (fun x hx => ?_) (by rw [hwanted,hcount])
      rw [hperm.mem_iff] at hx
      rcases List.mem_append.mp hx with hx | hx
      · refine hunsplit.before hunique hfront ?_ hx
        rw [hflat,List.length_append,List.length_append]
        omega
      · exact hunsplit.within hunique hfront hlast hx

/-- Pages cut from strictly ordered rows split nothing. -/
theorem unsplit_of_strict (h : pages.flatten.Pairwise fun r s => key r < key s) :
    Unsplit key n pages := by
  have hsame : ascending key pages.flatten = pages.flatten := ascending_eq (.refl _) h
  have hunique : UniqueKey key pages.flatten := List.pairwise_map.mpr (h.imp fun hlt => hlt.ne)
  have hpages := (List.pairwise_flatten.mp h).2
  refine List.Pairwise.imp_of_mem ?_ hpages
  rintro p q hp hq hlt ⟨y,hy,hout⟩ x hx hin
  exact hout (mem_least_below hunique hin (List.mem_flatten.mpr ⟨p,hp,hy⟩) (hlt y hy x hx))

end Order

end OneStep.SortedPages
