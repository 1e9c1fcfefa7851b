import OneStep.ItemLists
import OneStep.PythonValues

/-!
# The same value

Two values are the same when they agree in type and content at every node. The
elements of a set have no order, and neither have the items of a dictionary, but
for the dictionaries whose order is kept. This is finer than `==`. A value equals
every value that is the same, unless a NaN is in it.
-/
namespace OneStep.ValueEquality
open DateTimeText ItemLists JsonValues ScalarTexts PythonValues

section Same
variable (kept : List (Key × Value) → Prop)

mutual

def Same : Value → Value → Prop
  | .list vs,w => ∃ ws, w = .list ws ∧ SameAll vs ws
  | .tuple vs,w => ∃ ws, w = .tuple ws ∧ SameAll vs ws
  | .set vs,w => ∃ ws, w = .set ws ∧ SameBag vs ws
  | .frozenset vs,w => ∃ ws, w = .frozenset ws ∧ SameBag vs ws
  | .dict items,w => ∃ others, w = .dict others ∧ SameItems items others ∧
      (kept items → items.map Prod.fst = others.map Prod.fst)
  | .enum cls name v,w => ∃ u, w = .enum cls name u ∧ Same v u
  | .namedtuple cls vs,w => ∃ ws, w = .namedtuple cls ws ∧ SameAll vs ws
  | v,w => v = w

/-- One by one. -/
def SameAll : List Value → List Value → Prop
  | [],ws => ws = []
  | v::vs,ws => ∃ u us, ws = u::us ∧ Same v u ∧ SameAll vs us

/-- One by one, in any order. -/
def SameBag : List Value → List Value → Prop
  | [],ws => ws = []
  | v::vs,ws => ∃ u us, ws.Perm (u::us) ∧ Same v u ∧ SameBag vs us

/-- Key by key, in any order. -/
def SameItems : List (Key × Value) → List (Key × Value) → Prop
  | [],others => others = []
  | (k,v)::items,others => ∃ u us, others.Perm ((k,u)::us) ∧ Same v u ∧ SameItems items us

end

section Equations
attribute [local simp] Same
end Equations

/-- Items with one key and the same value. -/
def SameItem (a b : Key × Value) : Prop := a.1 = b.1 ∧ Same kept a.2 b.2

variable {kept}

theorem sameAll_iff {vs ws : List Value} : SameAll kept vs ws ↔ List.Forall₂ (Same kept) vs ws := by
  induction vs generalizing ws with
  | nil =>
    rw [SameAll]
    exact List.forall₂_nil_left_iff.symm
  | cons v vs ih =>
    rw [SameAll]
    constructor
    · rintro ⟨u,us,rfl,hv,hvs⟩
      exact .cons hv (ih.mp hvs)
    · intro h
      cases h with
      | cons hv hvs => exact ⟨_,_,rfl,hv,ih.mpr hvs⟩

theorem sameBag_iff {vs ws : List Value} :
    SameBag kept vs ws ↔ ∃ us, us.Perm ws ∧ List.Forall₂ (Same kept) vs us := by
  induction vs generalizing ws with
  | nil =>
    rw [SameBag]
    constructor
    · rintro rfl
      exact ⟨[],.nil,.nil⟩
    · rintro ⟨us,hperm,hus⟩
      cases hus
      exact List.nil_perm.mp hperm
  | cons v vs ih =>
    rw [SameBag]
    constructor
    · rintro ⟨u,us,hperm,hv,hvs⟩
      obtain ⟨us',hperm',hus⟩ := ih.mp hvs
      exact ⟨u::us',(hperm'.cons u).trans hperm.symm,.cons hv hus⟩
    · rintro ⟨us,hperm,hus⟩
      cases hus with
      | cons hv hvs => exact ⟨_,_,hperm.symm,hv,ih.mpr ⟨_,.refl _,hvs⟩⟩

theorem sameItems_iff {items others : List (Key × Value)} :
    SameItems kept items others ↔ ∃ us, us.Perm others ∧ List.Forall₂ (SameItem kept) items us := by
  induction items generalizing others with
  | nil =>
    rw [SameItems]
    constructor
    · rintro rfl
      exact ⟨[],.nil,.nil⟩
    · rintro ⟨us,hperm,hus⟩
      cases hus
      exact List.nil_perm.mp hperm
  | cons item items ih =>
    obtain ⟨k,v⟩ := item
    rw [SameItems]
    constructor
    · rintro ⟨u,us,hperm,hv,hvs⟩
      obtain ⟨us',hperm',hus⟩ := ih.mp hvs
      exact ⟨(k,u)::us',(hperm'.cons (k,u)).trans hperm.symm,.cons ⟨rfl,hv⟩ hus⟩
    · rintro ⟨us,hperm,hus⟩
      cases hus with
      | @cons _ u _ us hv hvs =>
        obtain ⟨k',u⟩ := u
        obtain ⟨hkey,hv⟩ := hv
        cases hkey
        exact ⟨u,us,hperm.symm,hv,ih.mpr ⟨_,.refl _,hvs⟩⟩

theorem same_leaf {v w : Value} (hv : v.Leaf) : Same kept v w ↔ v = w := by
  cases v <;> first | exact absurd hv id | simp only [Same]

theorem same_cases : Cases fun v => Same kept v v where
  leaf v hleaf := (same_leaf hleaf).mpr rfl
  list vs ih := by
    rw [Same]
    exact ⟨vs,rfl,sameAll_iff.mpr (List.forall₂_same.mpr ih)⟩
  tuple vs ih := by
    rw [Same]
    exact ⟨vs,rfl,sameAll_iff.mpr (List.forall₂_same.mpr ih)⟩
  set vs ih := by
    rw [Same]
    exact ⟨vs,rfl,sameBag_iff.mpr ⟨vs,.refl vs,List.forall₂_same.mpr ih⟩⟩
  frozenset vs ih := by
    rw [Same]
    exact ⟨vs,rfl,sameBag_iff.mpr ⟨vs,.refl vs,List.forall₂_same.mpr ih⟩⟩
  dict items ih := by
    rw [Same]
    refine ⟨items,rfl,sameItems_iff.mpr ⟨items,.refl items,List.forall₂_same.mpr ?_⟩,fun _ => rfl⟩
    intro item hitem
    exact ⟨rfl,ih item hitem⟩
  enum cls name v ih := by
    rw [Same]
    exact ⟨v,rfl,ih⟩
  namedtuple cls vs ih := by
    rw [Same]
    exact ⟨vs,rfl,sameAll_iff.mpr (List.forall₂_same.mpr ih)⟩

theorem same_refl (v : Value) : Same kept v v := same_cases.all v

end Same

/-- The order of every dictionary is kept. -/
def ordered : List (Key × Value) → Prop := fun _ => True

/-- The order of no dictionary is kept. -/
def unordered : List (Key × Value) → Prop := fun _ => False

section Equality
variable {kept : List (Key × Value) → Prop} {vs ws : List Value}

theorem listEq_iff :
    listEq vs ws = some true ↔ List.Forall₂ (fun v w => pyEq v w = some true) vs ws := by
  induction vs generalizing ws with
  | nil =>
    cases ws with
    | nil => simp [listEq]
    | cons w ws => simp [listEq]
  | cons v vs ih =>
    cases ws with
    | nil => simp [listEq]
    | cons w ws =>
      rw [listEq,List.forall₂_cons]
      constructor
      · intro h
        split at h
        · obtain ⟨equal,hv,hrest⟩ := Option.bind_eq_some_iff.mp h
          cases equal with
          | true => exact ⟨hv,ih.mp hrest⟩
          | false => cases hrest
        · cases h
      · rintro ⟨hv,hvs⟩
        rw [if_pos hvs.length_eq,hv,Option.bind_some,if_pos rfl,ih.mpr hvs]

theorem allIn_iff : allIn vs ws = true ↔ ∀ v ∈ vs, ∃ w ∈ ws, pyEq v w = some true := by
  induction vs with
  | nil => simp [allIn]
  | cons v vs ih =>
    rw [allIn,Bool.and_eq_true,ih,List.forall_mem_cons,List.any_eq_true]
    simp

theorem itemsEq_iff {items others : List (Key × Value)} :
    itemsEq items others = some true ↔
      ∀ item ∈ items, ∃ w, others.lookup item.1 = some w ∧ pyEq item.2 w = some true := by
  induction items with
  | nil => simp [itemsEq]
  | cons item items ih =>
    obtain ⟨k,v⟩ := item
    rw [itemsEq,List.forall_mem_cons,← ih]
    cases others.lookup k with
    | none => simp
    | some w =>
      constructor
      · intro h
        obtain ⟨equal,hv,hrest⟩ := Option.bind_eq_some_iff.mp h
        cases equal with
        | true => exact ⟨⟨w,rfl,hv⟩,hrest⟩
        | false => cases hrest
      · rintro ⟨⟨w',hw,hv⟩,hrest⟩
        cases hw
        simp only [hv,Option.bind_some,if_true]
        exact hrest

/-- The elements of a tuple, named or not. -/
def seqOf : Value → Option (List Value)
  | .tuple vs => some vs
  | .namedtuple _ vs => some vs
  | _ => none

/-- The elements of a set, frozen or not. -/
def bagOf : Value → Option (List Value)
  | .set vs => some vs
  | .frozenset vs => some vs
  | _ => none

variable {v w : Value}

theorem seq_same (h : Same kept v w) (hw : seqOf w = some ws) :
    ∃ vs, seqOf v = some vs ∧ List.Forall₂ (Same kept) vs ws := by
  cases v with
  | tuple vs =>
    rw [Same] at h
    obtain ⟨ws',rfl,hall⟩ := h
    cases hw
    exact ⟨vs,rfl,sameAll_iff.mp hall⟩
  | namedtuple cls vs =>
    rw [Same] at h
    obtain ⟨ws',rfl,hall⟩ := h
    cases hw
    exact ⟨vs,rfl,sameAll_iff.mp hall⟩
  | list vs | set vs | frozenset vs | dict items | enum cls name u =>
    rw [Same] at h
    obtain ⟨_,rfl,-⟩ := h
    cases hw
  | none | bool b | int n | float x | str t | datetime d | uuid u | bytes bs | decimal d | other t =>
    simp only [Same] at h
    subst h
    cases hw

theorem bag_same (h : Same kept v w) (hw : bagOf w = some ws) :
    ∃ vs, bagOf v = some vs ∧ ∃ us, us.Perm ws ∧ List.Forall₂ (Same kept) vs us := by
  cases v with
  | set vs =>
    rw [Same] at h
    obtain ⟨ws',rfl,hall⟩ := h
    cases hw
    exact ⟨vs,rfl,sameBag_iff.mp hall⟩
  | frozenset vs =>
    rw [Same] at h
    obtain ⟨ws',rfl,hall⟩ := h
    cases hw
    exact ⟨vs,rfl,sameBag_iff.mp hall⟩
  | list vs | tuple vs | dict items | enum cls name u | namedtuple cls vs =>
    rw [Same] at h
    obtain ⟨_,rfl,-⟩ := h
    cases hw
  | none | bool b | int n | float x | str t | datetime d | uuid u | bytes bs | decimal d | other t =>
    simp only [Same] at h
    subst h
    cases hw

theorem pyEq_seq (hv : seqOf v = some vs) :
    pyEq v w = some true ↔
      ∃ ws, seqOf w = some ws ∧ List.Forall₂ (fun v w => pyEq v w = some true) vs ws := by
  have hcases : v = .tuple vs ∨ ∃ cls, v = .namedtuple cls vs := by
    cases v with
    | tuple us =>
      cases hv
      exact .inl rfl
    | namedtuple cls us =>
      cases hv
      exact .inr ⟨cls,rfl⟩
    | _ => cases hv
  rcases hcases with rfl | ⟨cls,rfl⟩ <;> cases w <;> simp [pyEq,seqOf,listEq_iff]

theorem pyEq_bag (hv : bagOf v = some vs) :
    pyEq v w = some true ↔ ∃ ws, bagOf w = some ws ∧ vs.length = ws.length ∧
      ∀ v ∈ vs, ∃ w ∈ ws, pyEq v w = some true := by
  have hcases : v = .set vs ∨ v = .frozenset vs := by
    cases v with
    | set us =>
      cases hv
      exact .inl rfl
    | frozenset us =>
      cases hv
      exact .inr rfl
    | _ => cases hv
  rcases hcases with rfl | rfl <;> cases w <;> simp [pyEq,bagOf,allIn_iff]

theorem pyEq_leaf (hv : v.Leaf) (h : pyEq v w = some true) : w.Leaf := by
  cases w with
  | list vs | tuple vs | set vs | frozenset vs | dict items | enum cls name u | namedtuple cls vs =>
    cases v <;> first | exact absurd hv id | simp [pyEq,Value.num] at h
  | _ => trivial

theorem flagValue_same (h : Same kept v w) : flagValue v = flagValue w := by
  cases v with
  | list vs | tuple vs | set vs | frozenset vs | dict items | enum cls name u | namedtuple cls vs =>
    rw [Same] at h
    obtain ⟨_,rfl,-⟩ := h
    rfl
  | _ =>
    simp only [Same] at h
    subst h
    rfl

theorem allHashable_iff : allHashable vs = true ↔ ∀ v ∈ vs, hashable v = true := by
  induction vs with
  | nil => simp [allHashable]
  | cons v vs ih => rw [allHashable,Bool.and_eq_true,ih,List.forall_mem_cons]

theorem hashable_seq (hv : seqOf v = some vs) : hashable v = allHashable vs := by
  cases v with
  | tuple us =>
    cases hv
    rw [hashable]
  | namedtuple cls us =>
    cases hv
    rw [hashable]
  | _ => cases hv

theorem forall₂_same {P : Value → Prop} {vs' ws' : List Value} (hP : ∀ v ∈ vs, P v)
    (hv : List.Forall₂ (Same kept) vs vs') (hw : List.Forall₂ (Same kept) ws ws')
    (h : List.Forall₂ (fun v w => pyEq v w = some true) vs' ws')
    (hback : ∀ v v' w w', P v → Same kept v v' → Same kept w w' → pyEq v' w' = some true →
      pyEq v w = some true) : List.Forall₂ (fun v w => pyEq v w = some true) vs ws := by
  induction hv generalizing ws ws' with
  | nil =>
    cases h
    cases hw
    exact .nil
  | cons hsame _ ih =>
    cases h with
    | cons heq hrest =>
      cases hw with
      | cons hsame' hw =>
        obtain ⟨hhead,htail⟩ := List.forall_mem_cons.mp hP
        exact .cons (hback _ _ _ _ hhead hsame hsame' heq) (ih htail hw hrest)

theorem same_leaf_right (hw : w.Leaf) (h : Same kept v w) : v = w := by
  cases v with
  | list vs | tuple vs | set vs | frozenset vs | dict items | enum cls name u | namedtuple cls vs =>
    rw [Same] at h
    obtain ⟨_,rfl,-⟩ := h
    exact absurd hw id
  | _ =>
    simp only [Same] at h
    exact h

theorem seq_same_left (h : Same kept v w) (hv : seqOf v = some vs) :
    ∃ ws, seqOf w = some ws ∧ List.Forall₂ (Same kept) vs ws := by
  cases v with
  | tuple us | namedtuple cls us =>
    cases hv
    rw [Same] at h
    obtain ⟨ws,rfl,hall⟩ := h
    exact ⟨ws,rfl,sameAll_iff.mp hall⟩
  | _ => cases hv

theorem bag_same_left (h : Same kept v w) (hv : bagOf v = some vs) :
    ∃ ws, bagOf w = some ws ∧ ∃ us, us.Perm ws ∧ List.Forall₂ (Same kept) vs us := by
  cases v with
  | set us | frozenset us =>
    cases hv
    rw [Same] at h
    obtain ⟨ws,rfl,hall⟩ := h
    exact ⟨ws,rfl,sameBag_iff.mp hall⟩
  | _ => cases hv

/-- Equality of values that are the same carries over to the value. -/
def Reflects (kept : List (Key × Value) → Prop) (v : Value) : Prop :=
  ∀ v' w w', hashable v = true → Same kept v v' → Same kept w w' → pyEq v' w' = some true →
    pyEq v w = some true

theorem reflects_leaf (hleaf : v.Leaf) : Reflects kept v := by
  intro v' w w' _ hv hw h
  rw [same_leaf hleaf] at hv
  subst hv
  rw [same_leaf_right (pyEq_leaf hleaf h) hw]
  exact h

theorem reflects_seq (hvs : seqOf v = some vs) (ih : ∀ u ∈ vs, Reflects kept u) :
    Reflects kept v := by
  intro v' w w' hhash hv hw h
  rw [hashable_seq hvs] at hhash
  have hhashed := allHashable_iff.mp hhash
  obtain ⟨vs',hvs',hsame⟩ := seq_same_left hv hvs
  obtain ⟨ws',hws',heq⟩ := (pyEq_seq hvs').mp h
  obtain ⟨ws,hws,hsame'⟩ := seq_same hw hws'
  refine (pyEq_seq hvs).mpr ⟨ws,hws,?_⟩
  apply forall₂_same (P := fun u => u ∈ vs) (fun _ hu => hu) hsame hsame' heq
  intro u u' x x' hu hsu hsx hux
  exact ih u hu u' x x' (hhashed u hu) hsu hsx hux

theorem reflects_frozenset (hhashed : ∀ u ∈ vs, hashable u = true) (ih : ∀ u ∈ vs, Reflects kept u) :
    Reflects kept (.frozenset vs) := by
  intro v' w w' _ hv hw h
  obtain ⟨vs',hvs',us,hperm,hsame⟩ := bag_same_left hv (show bagOf (.frozenset vs) = some vs from rfl)
  obtain ⟨ws',hws',hlength,hall⟩ := (pyEq_bag hvs').mp h
  obtain ⟨ws,hws,us',hperm',hsame'⟩ := bag_same hw hws'
  refine (pyEq_bag (show bagOf (.frozenset vs) = some vs from rfl)).mpr ⟨ws,hws,?_,?_⟩
  · rw [hsame.length_eq,hperm.length_eq,hlength,hsame'.length_eq,hperm'.length_eq]
  · intro u hu
    obtain ⟨u',hu',hsu⟩ := forall₂_left hsame hu
    obtain ⟨x',hx',heq⟩ := hall u' (hperm.subset hu')
    obtain ⟨x,hx,hsx⟩ := forall₂_right hsame' (hperm'.symm.subset hx')
    exact ⟨x,hx,ih u hu u' x x' (hhashed u hu) hsu hsx heq⟩

theorem reflects_enum (cls : ClassRef) (name : Option String) (v : Value) :
    Reflects kept (.enum cls name v) := by
  intro v' w w' _ hv hw h
  rw [Same] at hv
  obtain ⟨u,rfl,hu⟩ := hv
  cases w with
  | enum cls' name' x =>
    rw [Same] at hw
    obtain ⟨x',rfl,hx⟩ := hw
    simp only [pyEq,Option.some.injEq,decide_eq_true_eq,flagValue_same hu,flagValue_same hx] at h ⊢
    exact h
  | list vs | tuple vs | set vs | frozenset vs | dict items | namedtuple cls' vs =>
    rw [Same] at hw
    obtain ⟨_,rfl,-⟩ := hw
    simp [pyEq] at h
  | _ =>
    simp only [Same] at hw
    subst hw
    simp [pyEq] at h

theorem pyEq_str {s : String} : pyEq (.str s) w = some true ↔ w = .str s := by
  constructor
  · intro h
    cases w <;> simp_all [pyEq]
  · rintro rfl
    simp [pyEq]

theorem seq_of_eq {a b : Value} (hb : seqOf b = some vs) (h : pyEq a b = some true) :
    ∃ us, seqOf a = some us ∧ List.Forall₂ (fun u v => pyEq u v = some true) us vs := by
  have hseq : ∃ us, seqOf a = some us := by
    cases a with
    | tuple us | namedtuple cls us => exact ⟨us,rfl⟩
    | _ => cases b <;> first | cases hb; done | simp [pyEq,Value.num] at h
  obtain ⟨us,hus⟩ := hseq
  obtain ⟨vs',hvs',hall⟩ := (pyEq_seq hus).mp h
  cases hb.symm.trans hvs'
  exact ⟨us,hus,hall⟩

end Equality

section Valid

/-- Elements that one set can hold. -/
structure Distinct (vs : List Value) : Prop where
  hashed : ∀ v ∈ vs, hashable v = true
  apart : vs.Pairwise fun v w => pyEq v w ≠ some true ∧ pyEq w v ≠ some true

/-- A member of an enumeration: when the class looks a member up by its name, it
is this one. -/
def MemberOf (loaded : Loaded) (cls : ClassRef) (name : Option String) (v : Value) : Prop :=
  ∃ members, loaded.definition cls = .enum members ∧
    ∀ n, name = some n → ∀ m, members.lookup n = some m → m = (n,v)

mutual

/-- A value that exists. -/
def Valid (loaded : Loaded) : Value → Prop
  | .list vs => ValidAll loaded vs
  | .tuple vs => ValidAll loaded vs
  | .set vs => ValidAll loaded vs ∧ Distinct vs
  | .frozenset vs => ValidAll loaded vs ∧ Distinct vs
  | .dict items => ValidItems loaded items ∧ (items.map Prod.fst).Nodup
  | .enum cls name v => Valid loaded v ∧ MemberOf loaded cls name v
  | .namedtuple cls vs => ValidAll loaded vs ∧
      ∃ fields, loaded.definition cls = .namedtuple fields ∧ fields.length = vs.length
  | _ => True

def ValidAll (loaded : Loaded) : List Value → Prop
  | [] => True
  | v::vs => Valid loaded v ∧ ValidAll loaded vs

def ValidItems (loaded : Loaded) : List (Key × Value) → Prop
  | [] => True
  | (_,v)::items => Valid loaded v ∧ ValidItems loaded items

end

section Equations
attribute [local simp] Valid
end Equations

variable {loaded : Loaded} {kept : List (Key × Value) → Prop} {vs : List Value} {ws : List Value}

theorem validAll_iff : ValidAll loaded vs ↔ ∀ v ∈ vs, Valid loaded v := by
  induction vs with
  | nil => simp [ValidAll]
  | cons v vs ih => rw [ValidAll,ih,List.forall_mem_cons]

theorem validItems_iff {items : List (Key × Value)} :
    ValidItems loaded items ↔ ∀ item ∈ items, Valid loaded item.2 := by
  induction items with
  | nil => simp [ValidItems]
  | cons item items ih =>
    obtain ⟨k,v⟩ := item
    rw [ValidItems,ih,List.forall_mem_cons]

theorem reflects_cases (loaded : Loaded) : Cases fun v => Valid loaded v → Reflects kept v where
  leaf v hleaf _ := reflects_leaf hleaf
  list vs _ _ := by
    intro v' w w' hhash
    simp [hashable] at hhash
  tuple vs ih hvalid := by
    rw [Valid] at hvalid
    apply reflects_seq (show seqOf (.tuple vs) = some vs from rfl)
    intro u hu
    exact ih u hu (validAll_iff.mp hvalid u hu)
  set vs _ _ := by
    intro v' w w' hhash
    simp [hashable] at hhash
  frozenset vs ih hvalid := by
    rw [Valid] at hvalid
    apply reflects_frozenset hvalid.2.hashed
    intro u hu
    exact ih u hu (validAll_iff.mp hvalid.1 u hu)
  dict items _ _ := by
    intro v' w w' hhash
    simp [hashable] at hhash
  enum cls name v _ _ := reflects_enum cls name v
  namedtuple cls vs ih hvalid := by
    rw [Valid] at hvalid
    apply reflects_seq (show seqOf (.namedtuple cls vs) = some vs from rfl)
    intro u hu
    exact ih u hu (validAll_iff.mp hvalid.1 u hu)

/-- Values that can be hashed are equal when values that are the same are. -/
theorem pyEq_of_same {v v' w w' : Value} (hvalid : Valid loaded v) (hhash : hashable v = true)
    (hv : Same kept v v') (hw : Same kept w w') (h : pyEq v' w' = some true) : pyEq v w = some true :=
  (reflects_cases loaded).all v hvalid v' w w' hhash hv hw h

theorem allHashable_same (h : List.Forall₂ (Same kept) vs ws)
    (ih : ∀ v ∈ vs, ∀ w, Same kept v w → hashable v = hashable w) :
    allHashable vs = allHashable ws := by
  induction h with
  | nil => rfl
  | cons hsame _ hrest =>
    obtain ⟨hhead,htail⟩ := List.forall_mem_cons.mp ih
    rw [allHashable,allHashable,hhead _ hsame,hrest htail]

theorem hashable_cases : Cases fun v => ∀ w, Same kept v w → hashable v = hashable w where
  leaf v hleaf w h := by rw [(same_leaf hleaf).mp h]
  list vs _ w h := by
    rw [Same] at h
    obtain ⟨ws,rfl,-⟩ := h
    rw [hashable,hashable]
  set vs _ w h := by
    rw [Same] at h
    obtain ⟨ws,rfl,-⟩ := h
    rw [hashable,hashable]
  frozenset vs _ w h := by
    rw [Same] at h
    obtain ⟨ws,rfl,-⟩ := h
    simp [hashable]
  dict items _ w h := by
    rw [Same] at h
    obtain ⟨ws,rfl,-⟩ := h
    rw [hashable,hashable]
  enum cls name v _ w h := by
    rw [Same] at h
    obtain ⟨ws,rfl,-⟩ := h
    simp [hashable]
  tuple vs ih w h := by
    rw [Same] at h
    obtain ⟨ws,rfl,hall⟩ := h
    rw [hashable,hashable]
    exact allHashable_same (sameAll_iff.mp hall) ih
  namedtuple cls vs ih w h := by
    rw [Same] at h
    obtain ⟨ws,rfl,hall⟩ := h
    rw [hashable,hashable]
    exact allHashable_same (sameAll_iff.mp hall) ih

theorem Distinct.same (h : Distinct vs) (hvalid : ∀ v ∈ vs, Valid loaded v)
    (hsame : List.Forall₂ (Same kept) vs ws) : Distinct ws := by
  constructor
  · intro w hw
    obtain ⟨v,hv,hvw⟩ := forall₂_right hsame hw
    rw [← hashable_cases.all v w hvw]
    exact h.hashed v hv
  · obtain ⟨hhashed,hapart⟩ := h
    induction hsame with
    | nil => exact .nil
    | cons hhead htail ih =>
      obtain ⟨hfirst,hrest⟩ := List.pairwise_cons.mp hapart
      obtain ⟨hvalidHead,hvalidTail⟩ := List.forall_mem_cons.mp hvalid
      obtain ⟨hhashHead,hhashTail⟩ := List.forall_mem_cons.mp hhashed
      apply List.Pairwise.cons
      · intro w hw
        obtain ⟨v,hv,hvw⟩ := forall₂_right htail hw
        obtain ⟨hone,htwo⟩ := hfirst v hv
        constructor
        · intro heq
          exact hone (pyEq_of_same hvalidHead hhashHead hhead hvw heq)
        · intro heq
          exact htwo (pyEq_of_same (hvalidTail v hv) (hhashTail v hv) hvw hhead heq)
      · exact ih hvalidTail hhashTail hrest

theorem Distinct.perm (h : Distinct vs) (hperm : vs.Perm ws) : Distinct ws where
  hashed w hw := h.hashed w (hperm.symm.subset hw)
  apart := by
    apply (hperm.pairwise_iff ?_).mp h.apart
    intro v w hvw
    exact ⟨hvw.2,hvw.1⟩

theorem makeSet_distinct (h : Distinct vs) : makeSet vs = some vs := by
  have hadd : ∀ added rest : List Value,
      (added++rest).Pairwise (fun v w => pyEq v w ≠ some true ∧ pyEq w v ≠ some true) →
        rest.foldl (fun added v =>
          if added.any fun w => pyEq w v == some true then added else added++[v]) added =
            added++rest := by
    intro added rest
    induction rest generalizing added with
    | nil => simp
    | cons v rest ih =>
      intro hapart
      have hnone : (added.any fun w => pyEq w v == some true) = false := by
        apply List.any_eq_false.mpr
        intro w hw heq
        have hne := (List.pairwise_append.mp hapart).2.2 w hw v List.mem_cons_self
        exact hne.1 (by simpa using heq)
      rw [List.foldl_cons,hnone,if_neg Bool.false_ne_true,ih]
      · rw [List.append_assoc,List.singleton_append]
      · rw [List.append_assoc,List.singleton_append]
        exact hapart
  unfold makeSet addAll
  rw [if_pos (allHashable_iff.mpr h.hashed),hadd [] vs h.apart,List.nil_append]

theorem valid_bag {a : Value} (hvalid : Valid loaded a) (h : bagOf a = some vs) :
    (∀ v ∈ vs, Valid loaded v) ∧ Distinct vs := by
  cases a with
  | set us | frozenset us =>
    cases h
    rw [Valid] at hvalid
    exact ⟨validAll_iff.mp hvalid.1,hvalid.2⟩
  | _ => cases h

end Valid

section Comparable
variable {kept : List (Key × Value) → Prop}

mutual

/-- A value that equals itself: it is not opaque, and holds no NaN outside of the
members of enumerations. -/
def comparable : Value → Bool
  | .float x => decide (doubleNum x ≠ .nan)
  | .decimal (.nan _ _ _) => false
  | .list vs => allComparable vs
  | .tuple vs => allComparable vs
  | .set vs => allComparable vs
  | .frozenset vs => allComparable vs
  | .dict items => itemsComparable items
  | .namedtuple _ vs => allComparable vs
  | .other _ => false
  | _ => true

def allComparable : List Value → Bool
  | [] => true
  | v::vs => comparable v && allComparable vs

def itemsComparable : List (Key × Value) → Bool
  | [] => true
  | (_,v)::items => comparable v && itemsComparable items

end

section Equations
attribute [local simp] comparable
end Equations

theorem allComparable_iff {vs : List Value} :
    allComparable vs = true ↔ ∀ v ∈ vs, comparable v = true := by
  induction vs with
  | nil => simp [allComparable]
  | cons v vs ih => rw [allComparable,Bool.and_eq_true,ih,List.forall_mem_cons]

theorem itemsComparable_iff {items : List (Key × Value)} :
    itemsComparable items = true ↔ ∀ item ∈ items, comparable item.2 = true := by
  induction items with
  | nil => simp [itemsComparable]
  | cons item items ih =>
    obtain ⟨k,v⟩ := item
    rw [itemsComparable,Bool.and_eq_true,ih,List.forall_mem_cons]

theorem comparable_cases : Cases fun v => ∀ w, pyEq v w = some true → comparable v = true where
  leaf v hleaf w h := by
    cases v with
    | float x =>
      rw [comparable]
      apply decide_eq_true
      intro hnan
      rw [pyEq,hnan] at h
      cases hw : w.num with
      | none => simp [hw] at h
      | some n => cases n <;> simp [hw,numEq] at h
    | decimal d =>
      cases d with
      | nan negative signaling payload =>
        rw [pyEq] at h
        cases hw : w.num with
        | none => simp [hw] at h
        | some n => cases signaling <;> cases n <;> simp [hw,decimalNum,numEq] at h
      | finite negative coefficient exponent => simp [comparable]
      | infinity negative => simp [comparable]
    | other t => simp [pyEq] at h
    | list vs | tuple vs | set vs | frozenset vs | dict items | enum cls name u | namedtuple cls vs =>
      exact absurd hleaf id
    | _ => simp [comparable]
  list vs ih w h := by
    rw [comparable]
    cases w with
    | list ws =>
      rw [pyEq] at h
      apply allComparable_iff.mpr
      intro v hv
      obtain ⟨w,-,heq⟩ := forall₂_left (listEq_iff.mp h) hv
      exact ih v hv w heq
    | _ => simp [pyEq] at h
  tuple vs ih w h := by
    rw [comparable]
    obtain ⟨ws,-,hall⟩ := (pyEq_seq (show seqOf (.tuple vs) = some vs from rfl)).mp h
    apply allComparable_iff.mpr
    intro v hv
    obtain ⟨w,-,heq⟩ := forall₂_left hall hv
    exact ih v hv w heq
  namedtuple cls vs ih w h := by
    rw [comparable]
    obtain ⟨ws,-,hall⟩ := (pyEq_seq (show seqOf (.namedtuple cls vs) = some vs from rfl)).mp h
    apply allComparable_iff.mpr
    intro v hv
    obtain ⟨w,-,heq⟩ := forall₂_left hall hv
    exact ih v hv w heq
  set vs ih w h := by
    rw [comparable]
    obtain ⟨ws,-,-,hall⟩ := (pyEq_bag (show bagOf (.set vs) = some vs from rfl)).mp h
    apply allComparable_iff.mpr
    intro v hv
    obtain ⟨w,-,heq⟩ := hall v hv
    exact ih v hv w heq
  frozenset vs ih w h := by
    rw [comparable]
    obtain ⟨ws,-,-,hall⟩ := (pyEq_bag (show bagOf (.frozenset vs) = some vs from rfl)).mp h
    apply allComparable_iff.mpr
    intro v hv
    obtain ⟨w,-,heq⟩ := hall v hv
    exact ih v hv w heq
  dict items ih w h := by
    rw [comparable]
    cases w with
    | dict others =>
      rw [pyEq] at h
      split at h
      · apply itemsComparable_iff.mpr
        intro item hitem
        obtain ⟨w,-,heq⟩ := itemsEq_iff.mp h item hitem
        exact ih item hitem w heq
      · cases h
    | _ => simp [pyEq] at h
  enum cls name v _ w h := by simp [comparable]

theorem numEq_self {n : PythonValues.Num} (hnan : n ≠ .nan) (hsnan : n ≠ .snan) : numEq n n = some true := by
  cases n with
  | rat q => simp [numEq]
  | infinity negative => simp [numEq]
  | nan => exact absurd rfl hnan
  | snan => exact absurd rfl hsnan

theorem equals_self (d : DateTime) : d.equals d = true := by
  unfold DateTime.equals
  split
  · simp
  · simp
  · next hnone hsome =>
      cases hoffset : d.offset with
      | none => exact absurd hoffset (fun h => hnone h h)
      | some o => exact absurd hoffset (fun h => hsome o o h h)

theorem pyEq_leaf_self {v : Value} (hleaf : v.Leaf) (h : comparable v = true) :
    pyEq v v = some true := by
  cases v with
  | float x =>
    rw [comparable,decide_eq_true_eq] at h
    rw [pyEq]
    simp only [Value.num,Option.elim_some]
    apply numEq_self h
    intro hsnan
    unfold doubleNum at hsnan
    dsimp only at hsnan
    split at hsnan
    · split at hsnan <;> cases hsnan
    · cases hsnan
  | decimal d =>
    cases d with
    | nan negative signaling payload => simp [comparable] at h
    | finite negative coefficient exponent =>
      rw [pyEq]
      simp only [Value.num,Option.elim_some]
      exact numEq_self (by simp [decimalNum]) (by simp [decimalNum])
    | infinity negative =>
      rw [pyEq]
      simp only [Value.num,Option.elim_some]
      exact numEq_self (by simp [decimalNum]) (by simp [decimalNum])
  | datetime d => simp [pyEq,equals_self]
  | other t => simp [comparable] at h
  | list vs | tuple vs | set vs | frozenset vs | dict items | enum cls name u | namedtuple cls vs =>
    exact absurd hleaf id
  | _ => simp [pyEq,Value.num,numEq]

theorem forall₂_self {loaded : Loaded} {vs ws : List Value} (hsame : List.Forall₂ (Same kept) vs ws)
    (ih : ∀ v ∈ vs, Valid loaded v → comparable v = true → ∀ w, Same kept v w → pyEq v w = some true)
    (hvalid : ∀ v ∈ vs, Valid loaded v) (hcomparable : ∀ v ∈ vs, comparable v = true) :
    List.Forall₂ (fun v w => pyEq v w = some true) vs ws := by
  induction hsame with
  | nil => exact .nil
  | cons hhead _ hrest =>
    rw [List.forall_mem_cons] at ih hvalid hcomparable
    exact .cons (ih.1 hvalid.1 hcomparable.1 _ hhead) (hrest ih.2 hvalid.2 hcomparable.2)

theorem keys_same {items us : List (Key × Value)} (h : List.Forall₂ (SameItem kept) items us) :
    items.map Prod.fst = us.map Prod.fst := by
  induction h with
  | nil => rfl
  | cons hitem _ ih => rw [List.map_cons,List.map_cons,hitem.1,ih]

theorem self_cases (loaded : Loaded) : Cases fun v => Valid loaded v → comparable v = true →
    ∀ w, Same kept v w → pyEq v w = some true where
  leaf v hleaf _ hcomparable w h := by
    rw [← (same_leaf hleaf).mp h]
    exact pyEq_leaf_self hleaf hcomparable
  list vs ih hvalid hcomparable w h := by
    rw [Valid] at hvalid
    rw [comparable] at hcomparable
    rw [Same] at h
    obtain ⟨ws,rfl,hall⟩ := h
    rw [pyEq]
    exact listEq_iff.mpr (forall₂_self (sameAll_iff.mp hall) ih (validAll_iff.mp hvalid)
      (allComparable_iff.mp hcomparable))
  tuple vs ih hvalid hcomparable w h := by
    rw [Valid] at hvalid
    rw [comparable] at hcomparable
    obtain ⟨ws,hws,hall⟩ := seq_same_left h (show seqOf (.tuple vs) = some vs from rfl)
    exact (pyEq_seq (show seqOf (.tuple vs) = some vs from rfl)).mpr ⟨ws,hws,forall₂_self hall ih
      (validAll_iff.mp hvalid) (allComparable_iff.mp hcomparable)⟩
  namedtuple cls vs ih hvalid hcomparable w h := by
    rw [Valid] at hvalid
    rw [comparable] at hcomparable
    obtain ⟨ws,hws,hall⟩ := seq_same_left h (show seqOf (.namedtuple cls vs) = some vs from rfl)
    exact (pyEq_seq (show seqOf (.namedtuple cls vs) = some vs from rfl)).mpr ⟨ws,hws,
      forall₂_self hall ih (validAll_iff.mp hvalid.1) (allComparable_iff.mp hcomparable)⟩
  set vs ih hvalid hcomparable w h := by
    rw [Valid] at hvalid
    rw [comparable] at hcomparable
    obtain ⟨ws,hws,us,hperm,hall⟩ := bag_same_left h (show bagOf (.set vs) = some vs from rfl)
    refine (pyEq_bag (show bagOf (.set vs) = some vs from rfl)).mpr ⟨ws,hws,?_,?_⟩
    · rw [hall.length_eq,hperm.length_eq]
    · intro v hv
      obtain ⟨u,hu,hsame⟩ := forall₂_left hall hv
      exact ⟨u,hperm.subset hu,ih v hv (validAll_iff.mp hvalid.1 v hv)
        (allComparable_iff.mp hcomparable v hv) u hsame⟩
  frozenset vs ih hvalid hcomparable w h := by
    rw [Valid] at hvalid
    rw [comparable] at hcomparable
    obtain ⟨ws,hws,us,hperm,hall⟩ := bag_same_left h (show bagOf (.frozenset vs) = some vs from rfl)
    refine (pyEq_bag (show bagOf (.frozenset vs) = some vs from rfl)).mpr ⟨ws,hws,?_,?_⟩
    · rw [hall.length_eq,hperm.length_eq]
    · intro v hv
      obtain ⟨u,hu,hsame⟩ := forall₂_left hall hv
      exact ⟨u,hperm.subset hu,ih v hv (validAll_iff.mp hvalid.1 v hv)
        (allComparable_iff.mp hcomparable v hv) u hsame⟩
  dict items ih hvalid hcomparable w h := by
    rw [Valid] at hvalid
    rw [comparable] at hcomparable
    rw [Same] at h
    obtain ⟨others,rfl,hall,-⟩ := h
    obtain ⟨us,hperm,hitems⟩ := sameItems_iff.mp hall
    have hnodup : (others.map Prod.fst).Nodup := by
      rw [← (hperm.map Prod.fst).nodup_iff,← keys_same hitems]
      exact hvalid.2
    rw [pyEq,if_pos (hitems.length_eq.trans hperm.length_eq)]
    apply itemsEq_iff.mpr
    intro item hitem
    obtain ⟨other,hother,hkey,hsame⟩ := forall₂_left hitems hitem
    refine ⟨other.2,?_,ih item hitem (validItems_iff.mp hvalid.1 item hitem)
      (itemsComparable_iff.mp hcomparable item hitem) other.2 hsame⟩
    rw [hkey]
    exact lookup_of_mem hnodup (hperm.subset hother)
  enum cls name v _ _ _ w h := by
    rw [Same] at h
    obtain ⟨u,rfl,hu⟩ := h
    simp [pyEq,flagValue_same hu]

/-- A value equals the values that are the same exactly when it is comparable. -/
theorem pyEq_same_iff {loaded : Loaded} {v w : Value} (hvalid : Valid loaded v) (h : Same kept v w) :
    pyEq v w = some true ↔ comparable v = true :=
  ⟨comparable_cases.all v w,fun hcomparable => (self_cases loaded).all v hvalid hcomparable w h⟩

end Comparable

end OneStep.ValueEquality
