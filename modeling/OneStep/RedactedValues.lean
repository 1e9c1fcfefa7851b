import OneStep.CaptureRedaction
import OneStep.ValueEquality
import Std.Data.String.ToNat

/-!
# What redaction leaves

Pointers one after another act on a container as the pointers below each part act on
that part, and a pointer that ends replaces the whole. Nothing under a secret name is
left, and nothing that can be an element of a set is changed.
-/
namespace OneStep.RedactedValues
open CaptureRedaction ItemLists PythonValues ValueEquality

section Pointers

/-- What pointers say of the part under a token. -/
def below (token : String) (ps : List (List String)) : List (List String) :=
  ps.filterMap fun p =>
    match p with
    | [] => none
    | t::rest => if t = token then some rest else none

def belowKey : Key → List (List String) → List (List String)
  | .str name,ps => below name ps
  | .other _ _,_ => []

/-- The pointers one after another. -/
def replaceAll (ps : List (List String)) (v : Value) : Value :=
  ps.foldl (fun v tokens => (replaceTokens redacted tokens v).1) v

variable {ps : List (List String)} {t : String} {rest : List String} {f : Value → Value × Bool}

/-- What is not changed is given back. -/
def Honest (f : Value → Value × Bool) : Prop := ∀ v, (f v).2 = false → (f v).1 = v

theorem replaceTokens_honest (r : Value) (tokens : List String) :
    Honest (replaceTokens r tokens) := by
  intro v h
  cases tokens with
  | nil => exact absurd h (by simp [replaceTokens])
  | cons t rest =>
    cases v with
    | dict items =>
      cases hitem : replaceItem (replaceTokens r rest) t items with
      | none => simp [replaceTokens,hitem]
      | some others => simp [replaceTokens,hitem] at h
    | list vs | namedtuple cls vs | tuple vs =>
      cases helement : replaceElement (replaceTokens r rest) t vs with
      | none => simp [replaceTokens,helement]
      | some ws => simp [replaceTokens,helement] at h
    | _ => simp [replaceTokens]

theorem indexOf_some {n i : ℕ} (h : indexOf t n = some i) : i < n ∧ toString i = t := by
  have hmem := List.mem_of_find?_eq_some h
  have heq := List.find?_some h
  exact ⟨List.mem_range.mp hmem,by simpa using heq⟩

theorem indexOf_none {n i : ℕ} (h : indexOf t n = none) (hi : i < n) : toString i ≠ t := by
  have hnone := List.find?_eq_none.mp h i (List.mem_range.mpr hi)
  simpa using hnone

theorem replaceElement_getD (hf : Honest f) (vs : List Value) :
    (replaceElement f t vs).getD vs =
      vs.mapIdx fun i v => if toString i = t then (f v).1 else v := by
  unfold replaceElement
  apply List.ext_getElem?
  intro j
  rw [List.getElem?_mapIdx]
  cases hindex : indexOf t vs.length with
  | none =>
    rw [Option.bind_none,Option.getD_none]
    cases hj : vs[j]? with
    | none => rfl
    | some v =>
      have hlt := (List.getElem?_eq_some_iff.mp hj).1
      rw [Option.map_some,if_neg (indexOf_none hindex hlt)]
  | some i =>
    obtain ⟨hi,rfl⟩ := indexOf_some hindex
    rw [Option.bind_some,List.getElem?_eq_getElem hi,Option.bind_some]
    by_cases hij : j = i
    · subst hij
      cases hchanged : (f vs[j]).2 with
      | true => simp [hi]
      | false => simp [hi,hf _ hchanged]
    · cases hchanged : (f vs[i]).2 with
      | true => simp [hij,List.getElem?_set_ne (Ne.symm hij)]
      | false => simp [hij]

theorem replaceItem_getD (hf : Honest f) {items : List (Key × Value)}
    (hnodup : (items.map Prod.fst).Nodup) :
    (replaceItem f t items).getD items =
      items.map fun item => if item.1 = .str t then (item.1,(f item.2).1) else item := by
  unfold replaceItem
  cases hlookup : items.lookup (.str t) with
  | none =>
    rw [Option.bind_none,Option.getD_none]
    refine (List.map_id items).symm.trans (List.map_congr_left fun item hitem => ?_)
    have hne : item.1 ≠ .str t := by
      intro heq
      have hbne := List.lookup_eq_none_iff.mp hlookup item hitem
      exact (bne_iff_ne.mp hbne) heq.symm
    rw [if_neg hne]
    rfl
  | some v =>
    have hitem : ∀ item ∈ items, item.1 = .str t → item.2 = v := by
      intro item hitem heq
      obtain ⟨k,u⟩ := item
      cases heq
      have hu := lookup_of_mem hnodup hitem
      rw [hlookup] at hu
      exact (Option.some.inj hu).symm
    rw [Option.bind_some]
    cases hchanged : (f v).2 with
    | true =>
      rw [if_pos rfl,Option.getD_some]
      refine List.map_congr_left fun item hmem => ?_
      by_cases hkey : item.1 = .str t
      · rw [if_pos hkey,if_pos hkey,hitem item hmem hkey]
      · rw [if_neg hkey,if_neg hkey]
    | false =>
      rw [if_neg Bool.false_ne_true,Option.getD_none]
      refine (List.map_id items).symm.trans (List.map_congr_left fun item hmem => ?_)
      by_cases hkey : item.1 = .str t
      · obtain ⟨k,u⟩ := item
        cases hitem (k,u) hmem hkey
        rw [if_pos hkey]
        change (k,u) = (k,(f u).1)
        rw [hf u hchanged]
      · rw [if_neg hkey]
        rfl

theorem elim_fst {α : Type} (found : Option α) (v : Value) (build : α → Value) (given : α)
    (hv : v = build given) :
    (found.elim (v,false) fun a => (build a,true)).1 = build (found.getD given) := by
  cases found with
  | none => exact hv
  | some a => rfl

theorem below_cons (token : String) :
    below token ((t::rest)::ps) = if t = token then rest::below token ps else below token ps := by
  unfold below
  by_cases h : t = token
  · simp [h]
  · simp [h]

theorem replaceAll_cons (p : List String) (v : Value) :
    replaceAll (p::ps) v = replaceAll ps (replaceTokens redacted p v).1 := rfl

theorem replaceAll_redacted : replaceAll ps redacted = redacted := by
  induction ps with
  | nil => rfl
  | cons p ps ih =>
    rw [replaceAll_cons]
    cases p with
    | nil => exact ih
    | cons t rest => exact ih

theorem replaceAll_erased (h : [] ∈ ps) (v : Value) : replaceAll ps v = redacted := by
  induction ps generalizing v with
  | nil => cases h
  | cons p ps ih =>
    rw [replaceAll_cons]
    rcases List.mem_cons.mp h with rfl | h
    · exact replaceAll_redacted
    · exact ih h _

theorem replaceAll_step (ps : List (List String)) (t : String) (rest : List String)
    (token : String) (v : Value) :
    replaceAll (below token ps) (if token = t then (replaceTokens redacted rest v).1 else v) =
      replaceAll (below token ((t::rest)::ps)) v := by
  rw [below_cons]
  by_cases h : token = t
  · rw [if_pos h,if_pos h.symm]
    rfl
  · rw [if_neg h,if_neg fun heq => h heq.symm]

theorem not_erased {p : List String} (h : [] ∉ p::ps) :
    (∃ t rest, p = t::rest) ∧ [] ∉ ps := by
  rw [List.mem_cons,not_or] at h
  cases p with
  | nil => exact absurd rfl h.1
  | cons t rest => exact ⟨⟨t,rest,rfl⟩,h.2⟩

theorem replaceAll_dict (h : [] ∉ ps) {items : List (Key × Value)}
    (hnodup : (items.map Prod.fst).Nodup) :
    replaceAll ps (.dict items) =
      .dict (items.map fun item => (item.1,replaceAll (belowKey item.1 ps) item.2)) := by
  induction ps generalizing items with
  | nil =>
    have hitems : items.map (fun item => (item.1,replaceAll (belowKey item.1 []) item.2)) =
        items := by
      refine (List.map_congr_left fun item _ => ?_).trans (List.map_id items)
      obtain ⟨k,v⟩ := item
      cases k with
      | str name => rfl
      | other typeName text => rfl
    rw [hitems]
    rfl
  | cons p ps ih =>
    obtain ⟨⟨t,rest,rfl⟩,hps⟩ := not_erased h
    rw [replaceAll_cons,replaceTokens,elim_fst _ _ Value.dict items rfl,
      replaceItem_getD (replaceTokens_honest _ _) hnodup]
    have hkeys : (items.map fun item => if item.1 = .str t then
        (item.1,(replaceTokens redacted rest item.2).1) else item).map Prod.fst =
          items.map Prod.fst := by
      rw [List.map_map]
      refine List.map_congr_left fun item _ => ?_
      by_cases hkey : item.1 = .str t
      · simp [hkey]
      · simp [hkey]
    rw [ih hps (hkeys ▸ hnodup),List.map_map]
    congr 1
    refine List.map_congr_left fun item _ => ?_
    obtain ⟨k,v⟩ := item
    cases k with
    | str name =>
      have hstep := replaceAll_step ps t rest name v
      rw [belowKey,← hstep]
      by_cases hname : name = t
      · simp [hname,belowKey]
      · simp [hname,belowKey]
    | other typeName text =>
      simp [belowKey]

theorem replaceAll_elements (h : [] ∉ ps) (build : List Value → Value)
    (hstep : ∀ t rest vs, (replaceTokens redacted (t::rest) (build vs)).1 =
      build ((replaceElement (replaceTokens redacted rest) t vs).getD vs)) (vs : List Value) :
    replaceAll ps (build vs) =
      build (vs.mapIdx fun i v => replaceAll (below (toString i) ps) v) := by
  induction ps generalizing vs with
  | nil =>
    have hvs : vs.mapIdx (fun i v => replaceAll (below (toString i) []) v) = vs := by
      apply List.ext_getElem?
      intro i
      rw [List.getElem?_mapIdx]
      exact Option.map_id'
    rw [hvs]
    rfl
  | cons p ps ih =>
    obtain ⟨⟨t,rest,rfl⟩,hps⟩ := not_erased h
    rw [replaceAll_cons,hstep,replaceElement_getD (replaceTokens_honest _ _),ih hps,
      List.mapIdx_mapIdx]
    congr 1
    apply List.ext_getElem?
    intro i
    rw [List.getElem?_mapIdx,List.getElem?_mapIdx]
    congr 1
    funext v
    exact replaceAll_step ps t rest (toString i) v

theorem replaceAll_list (h : [] ∉ ps) (vs : List Value) : replaceAll ps (.list vs) =
    .list (vs.mapIdx fun i v => replaceAll (below (toString i) ps) v) :=
  replaceAll_elements h .list (fun _ _ _ => elim_fst _ _ Value.list _ rfl) vs

theorem replaceAll_tuple (h : [] ∉ ps) (vs : List Value) : replaceAll ps (.tuple vs) =
    .tuple (vs.mapIdx fun i v => replaceAll (below (toString i) ps) v) :=
  replaceAll_elements h .tuple (fun _ _ _ => elim_fst _ _ Value.tuple _ rfl) vs

theorem replaceAll_namedtuple (h : [] ∉ ps) (cls : ClassRef) (vs : List Value) :
    replaceAll ps (.namedtuple cls vs) =
      .namedtuple cls (vs.mapIdx fun i v => replaceAll (below (toString i) ps) v) :=
  replaceAll_elements h (.namedtuple cls) (fun _ _ _ => elim_fst _ _ (Value.namedtuple cls) _ rfl) vs

/-- Pointers lead through dictionaries, lists and tuples. -/
def Open : Value → Prop
  | .dict _ | .list _ | .tuple _ | .namedtuple _ _ => True
  | _ => False

theorem replaceAll_closed (h : [] ∉ ps) {v : Value} (hclosed : ¬Open v) : replaceAll ps v = v := by
  induction ps with
  | nil => rfl
  | cons p ps ih =>
    obtain ⟨⟨t,rest,rfl⟩,hps⟩ := not_erased h
    rw [replaceAll_cons]
    have hstep : (replaceTokens redacted (t::rest) v).1 = v := by
      cases v <;> first | exact absurd trivial hclosed | rfl
    rw [hstep]
    exact ih hps

end Pointers

section Redactor
variable {loaded : Loaded} {vs : List Value}

theorem redactAll_eq (vs : List Value) : redactAll vs = vs.map redactSecretKeys := by
  induction vs with
  | nil => rw [redactAll,List.map_nil]
  | cons v vs ih => rw [redactAll,ih,List.map_cons]

def redactItem (item : Key × Value) : Key × Value :=
  (item.1,if secretKey item.1 then redacted else redactSecretKeys item.2)

theorem redactItems_eq (items : List (Key × Value)) : redactItems items = items.map redactItem := by
  induction items with
  | nil => rw [redactItems,List.map_nil]
  | cons item items ih =>
    obtain ⟨k,v⟩ := item
    rw [redactItems,ih,List.map_cons]
    rfl

theorem redactItems_keys (items : List (Key × Value)) :
    (redactItems items).map Prod.fst = items.map Prod.fst := by
  rw [redactItems_eq,List.map_map]
  rfl

theorem redact_members (ih : ∀ v ∈ vs, redactSecretKeys v = v) : redactAll vs = vs := by
  rw [redactAll_eq]
  exact (List.map_congr_left ih).trans (List.map_id vs)

theorem elementPaths_nil (ih : ∀ v ∈ vs, ∀ path, secretPaths path v = []) (path : String) (i : ℕ) :
    elementPaths path i vs = [] := by
  induction vs generalizing i with
  | nil => rw [elementPaths]
  | cons v vs hrest =>
    rw [List.forall_mem_cons] at ih
    rw [elementPaths,ih.1,hrest ih.2]
    rfl

theorem memberPaths_nil (ih : ∀ v ∈ vs, ∀ path, secretPaths path v = []) (path : String) :
    memberPaths path vs = [] := by
  induction vs with
  | nil => rw [memberPaths]
  | cons v vs hrest =>
    rw [List.forall_mem_cons] at ih
    rw [memberPaths,ih.1,hrest ih.2]
    rfl

theorem addAll_distinct (h : Distinct vs) : addAll vs = vs := by
  have hset := makeSet_distinct h
  unfold makeSet at hset
  rw [if_pos (allHashable_iff.mpr h.hashed)] at hset
  exact Option.some.inj hset

/-- Nothing in a value that can be hashed is redacted. -/
def Untouched (v : Value) : Prop := redactSecretKeys v = v ∧ ∀ path, secretPaths path v = []

theorem untouched_leaf {v : Value} (hleaf : v.Leaf) : Untouched v := by
  cases v with
  | list vs | tuple vs | set vs | frozenset vs | dict items | enum cls name u | namedtuple cls vs =>
    exact absurd hleaf id
  | _ => exact ⟨by rw [redactSecretKeys] <;> nofun,fun path => by rw [secretPaths] <;> nofun⟩

theorem untouched_bag (hvs : ∀ v ∈ vs, Untouched v) (hdistinct : Distinct vs) :
    Untouched (.set vs) ∧ Untouched (.frozenset vs) := by
  constructor
  · refine ⟨?_,fun path => by rw [secretPaths,memberPaths_nil fun v hv => (hvs v hv).2]⟩
    rw [redactSecretKeys,redact_members fun v hv => (hvs v hv).1,addAll_distinct hdistinct]
  · refine ⟨?_,fun path => by rw [secretPaths,memberPaths_nil fun v hv => (hvs v hv).2]⟩
    rw [redactSecretKeys,redact_members fun v hv => (hvs v hv).1,addAll_distinct hdistinct]

theorem untouched_cases : Cases fun v => Valid loaded v → hashable v = true → Untouched v where
  leaf v hleaf _ _ := untouched_leaf hleaf
  list vs _ _ hhash := absurd hhash (by simp [hashable])
  set vs _ _ hhash := absurd hhash (by simp [hashable])
  dict items _ _ hhash := absurd hhash (by simp [hashable])
  tuple vs ih hvalid hhash := by
    rw [Valid,validAll_iff] at hvalid
    rw [hashable,allHashable_iff] at hhash
    have hvs : ∀ v ∈ vs, Untouched v := fun v hv => ih v hv (hvalid v hv) (hhash v hv)
    constructor
    · rw [redactSecretKeys,redact_members fun v hv => (hvs v hv).1]
    · intro path
      rw [secretPaths,elementPaths_nil fun v hv => (hvs v hv).2]
  frozenset vs ih hvalid _ := by
    rw [Valid,validAll_iff] at hvalid
    have hvs : ∀ v ∈ vs, Untouched v := fun v hv =>
      ih v hv (hvalid.1 v hv) (hvalid.2.hashed v hv)
    exact (untouched_bag hvs hvalid.2).2
  enum cls name v _ _ _ := by
    constructor
    · rw [redactSecretKeys] <;> nofun
    · intro path
      rw [secretPaths] <;> nofun
  namedtuple cls vs ih hvalid hhash := by
    rw [Valid,validAll_iff] at hvalid
    rw [hashable,allHashable_iff] at hhash
    have hvs : ∀ v ∈ vs, Untouched v := fun v hv => ih v hv (hvalid.1 v hv) (hhash v hv)
    constructor
    · rw [redactSecretKeys,redact_members fun v hv => (hvs v hv).1]
    · intro path
      rw [secretPaths,elementPaths_nil fun v hv => (hvs v hv).2]

/-- Sets, members of enumerations and values that are not made of others. -/
theorem untouched_closed {v : Value} (hvalid : Valid loaded v) (hclosed : ¬Open v) :
    Untouched v := by
  have hmembers : ∀ {vs : List Value}, ValidAll loaded vs → Distinct vs → ∀ u ∈ vs, Untouched u :=
    fun hall hdistinct u hu => untouched_cases.all u (validAll_iff.mp hall u hu)
      (hdistinct.hashed u hu)
  cases v with
  | list vs | tuple vs | dict items | namedtuple cls vs => exact absurd trivial hclosed
  | set vs =>
    rw [Valid] at hvalid
    exact (untouched_bag (hmembers hvalid.1 hvalid.2) hvalid.2).1
  | frozenset vs =>
    rw [Valid] at hvalid
    exact (untouched_bag (hmembers hvalid.1 hvalid.2) hvalid.2).2
  | enum cls name u =>
    constructor
    · rw [redactSecretKeys] <;> nofun
    · intro path
      rw [secretPaths] <;> nofun
  | _ => exact untouched_leaf trivial

end Redactor

section Remaining
variable {loaded : Loaded} {ps : List (List String)}

/-- What the redaction leaves of a value, of which the pointers speak from here. -/
def remaining (ps : List (List String)) (v : Value) : Value := replaceAll ps (redactSecretKeys v)

theorem remaining_erased (h : [] ∈ ps) (v : Value) : remaining ps v = redacted :=
  replaceAll_erased h _

def remainingItem (ps : List (List String)) (item : Key × Value) : Key × Value :=
  (item.1,if secretKey item.1 then redacted else remaining (belowKey item.1 ps) item.2)

theorem remaining_dict (h : [] ∉ ps) {items : List (Key × Value)}
    (hnodup : (items.map Prod.fst).Nodup) :
    remaining ps (.dict items) = .dict (items.map (remainingItem ps)) := by
  unfold remaining
  rw [redactSecretKeys,replaceAll_dict h (redactItems_keys items ▸ hnodup),redactItems_eq,
    List.map_map]
  congr 1
  refine List.map_congr_left fun item _ => ?_
  unfold remainingItem
  simp only [Function.comp,redactItem]
  cases secretKey item.1 with
  | true => simp [replaceAll_redacted]
  | false => simp [remaining]

/-- What is left of the elements of a sequence. -/
def remainingAll (ps : List (List String)) (vs : List Value) : List Value :=
  vs.mapIdx fun i v => remaining (below (toString i) ps) v

theorem remainingAll_eq (ps : List (List String)) (vs : List Value) :
    (redactAll vs).mapIdx (fun i v => replaceAll (below (toString i) ps) v) = remainingAll ps vs := by
  apply List.ext_getElem?
  intro i
  unfold remainingAll
  rw [List.getElem?_mapIdx,List.getElem?_mapIdx,redactAll_eq,List.getElem?_map,Option.map_map]
  rfl

theorem remaining_list (h : [] ∉ ps) (vs : List Value) :
    remaining ps (.list vs) = .list (remainingAll ps vs) := by
  unfold remaining
  rw [redactSecretKeys,replaceAll_list h,remainingAll_eq]

theorem remaining_tuple (h : [] ∉ ps) (vs : List Value) :
    remaining ps (.tuple vs) = .tuple (remainingAll ps vs) := by
  unfold remaining
  rw [redactSecretKeys,replaceAll_tuple h,remainingAll_eq]

theorem remaining_namedtuple (h : [] ∉ ps) (cls : ClassRef) (vs : List Value) :
    remaining ps (.namedtuple cls vs) = .namedtuple cls (remainingAll ps vs) := by
  unfold remaining
  rw [redactSecretKeys,replaceAll_namedtuple h,remainingAll_eq]

theorem remaining_closed (h : [] ∉ ps) {v : Value} (hvalid : Valid loaded v) (hclosed : ¬Open v) :
    remaining ps v = v := by
  unfold remaining
  rw [(untouched_closed hvalid hclosed).1,replaceAll_closed h hclosed]

theorem remainingItem_keys (items : List (Key × Value)) :
    (items.map (remainingItem ps)).map Prod.fst = items.map Prod.fst := by
  rw [List.map_map]
  rfl

theorem mem_remainingAll {vs : List Value} {w : Value} (h : w ∈ remainingAll ps vs) :
    ∃ (i : ℕ) (v : Value), vs[i]? = some v ∧ w = remaining (below (toString i) ps) v := by
  obtain ⟨i,hi,rfl⟩ := List.mem_mapIdx.mp h
  exact ⟨i,vs[i],List.getElem?_eq_getElem hi,rfl⟩

theorem remaining_mem {vs : List Value} {i : ℕ} {v : Value} (h : vs[i]? = some v) :
    remaining (below (toString i) ps) v ∈ remainingAll ps vs := by
  obtain ⟨hi,rfl⟩ := List.getElem?_eq_some_iff.mp h
  exact List.mem_mapIdx.mpr ⟨i,hi,rfl⟩

theorem valid_remaining : Cases fun v => Valid loaded v → ∀ ps, Valid loaded (remaining ps v) := by
  have hredacted : Valid loaded redacted := trivial
  have hall : ∀ {vs : List Value}, (∀ v ∈ vs, Valid loaded v → ∀ ps, Valid loaded (remaining ps v)) →
      ValidAll loaded vs → ∀ ps, ValidAll loaded (remainingAll ps vs) := by
    intro vs ih hvalid ps
    apply validAll_iff.mpr
    intro w hw
    obtain ⟨i,v,hv,rfl⟩ := mem_remainingAll hw
    have hmem := List.mem_of_getElem? hv
    exact ih v hmem (validAll_iff.mp hvalid v hmem) _
  refine ⟨?leaf,?list,?tuple,?set,?frozenset,?dict,?enum,?namedtuple⟩
  case leaf =>
    intro v hleaf hvalid ps
    by_cases h : [] ∈ ps
    · rwa [remaining_erased h]
    · have hclosed : ¬Open v := by
        cases v <;> first | exact absurd hleaf id | exact id
      rwa [remaining_closed h hvalid hclosed]
  case set =>
    intro vs _ hvalid ps
    by_cases h : [] ∈ ps
    · rwa [remaining_erased h]
    · rwa [remaining_closed h hvalid id]
  case frozenset =>
    intro vs _ hvalid ps
    by_cases h : [] ∈ ps
    · rwa [remaining_erased h]
    · rwa [remaining_closed h hvalid id]
  case enum =>
    intro cls name v _ hvalid ps
    by_cases h : [] ∈ ps
    · rwa [remaining_erased h]
    · rwa [remaining_closed h hvalid id]
  case list =>
    intro vs ih hvalid ps
    by_cases h : [] ∈ ps
    · rwa [remaining_erased h]
    · rw [Valid] at hvalid
      rw [remaining_list h,Valid]
      exact hall ih hvalid ps
  case tuple =>
    intro vs ih hvalid ps
    by_cases h : [] ∈ ps
    · rwa [remaining_erased h]
    · rw [Valid] at hvalid
      rw [remaining_tuple h,Valid]
      exact hall ih hvalid ps
  case namedtuple =>
    intro cls vs ih hvalid ps
    by_cases h : [] ∈ ps
    · rwa [remaining_erased h]
    · rw [Valid] at hvalid
      obtain ⟨hvalid,fields,hfields,hlength⟩ := hvalid
      rw [remaining_namedtuple h,Valid]
      refine ⟨hall ih hvalid ps,fields,hfields,?_⟩
      rw [hlength,remainingAll,List.length_mapIdx]
  case dict =>
    intro items ih hvalid ps
    by_cases h : [] ∈ ps
    · rwa [remaining_erased h]
    · rw [Valid,validItems_iff] at hvalid
      rw [remaining_dict h hvalid.2,Valid,validItems_iff,remainingItem_keys]
      refine ⟨?_,hvalid.2⟩
      intro item hitem
      obtain ⟨given,hgiven,rfl⟩ := List.mem_map.mp hitem
      unfold remainingItem
      cases secretKey given.1 with
      | true => exact hredacted
      | false => exact ih given hgiven (hvalid.1 given hgiven) _

end Remaining

section Nodes

def elementsOf : Value → Option (List Value)
  | .list vs => some vs
  | .tuple vs => some vs
  | .namedtuple _ vs => some vs
  | _ => none

end Nodes

section Envelopes

theorem mapM_cons {α β : Type} {f : α → Option β} {a : α} {as : List α} {bs : List β}
    (h : (a::as).mapM f = some bs) : ∃ b rest, f a = some b ∧ as.mapM f = some rest ∧ bs = b::rest := by
  rw [List.mapM_cons] at h
  cases ha : f a with
  | none => simp [ha] at h
  | some b =>
    cases has : as.mapM f with
    | none => simp [ha,has] at h
    | some rest =>
      refine ⟨b,rest,rfl,rfl,?_⟩
      simpa [ha,has] using h.symm

theorem decodePointer_ne_nil {pointer : String} {tokens : List String}
    (h : decodePointer pointer = some tokens) : tokens ≠ [] := by
  unfold decodePointer at h
  split at h
  · next cs _ =>
      intro hnil
      subst hnil
      cases hsplit : cs.splitOn '/' with
      | nil => exact List.splitOn_ne_nil _ _ hsplit
      | cons raw raws =>
        rw [hsplit] at h
        obtain ⟨_,_,-,-,hcons⟩ := mapM_cons h
        cases hcons
  · cases h

theorem redactPointers_ok {pointers : List String} {logical : Value} {paths : List String}
    {r : Value × List String} (h : redactPointers pointers logical paths = some r) :
    ∃ ps, pointers.mapM decodePointer = some ps ∧ [] ∉ ps ∧ r.1 = replaceAll ps logical ∧
      ∀ path ∈ r.2, path ∈ paths ∨ path ∈ pointers := by
  induction pointers generalizing logical paths with
  | nil =>
    cases h
    exact ⟨[],rfl,List.not_mem_nil,rfl,fun path hpath => .inl hpath⟩
  | cons pointer pointers ih =>
    unfold redactPointers at h
    obtain ⟨tokens,htokens,h⟩ := Option.bind_eq_some_iff.mp h
    obtain ⟨ps,hps,hnil,hvalue,hpaths⟩ := ih h
    refine ⟨tokens::ps,?_,?_,hvalue,?_⟩
    · rw [List.mapM_cons,htokens,hps]
      rfl
    · rw [List.mem_cons,not_or]
      exact ⟨fun heq => decodePointer_ne_nil htokens heq.symm,hnil⟩
    · intro path hpath
      rw [List.mem_cons]
      rcases hpaths path hpath with hold | hrest
      · split at hold
        · rcases List.mem_append.mp hold with hold | hnew
          · exact .inl hold
          · exact .inr (.inl (List.mem_singleton.mp hnew))
        · exact .inl hold
      · exact .inr (.inr hrest)

theorem redactEnvelope_ok {envelope e : Envelope} {pointers paths : List String}
    (h : redactEnvelope envelope pointers = some (e,paths)) :
    ∃ ps, pointers.mapM decodePointer = some ps ∧
      e = ⟨remaining (below "body" ps) envelope.body,remaining (below "meta" ps) envelope.metadata,
        envelope.attempts⟩ ∧
      ∀ path ∈ paths, path ∈ secretPaths "" (logicalOf envelope) ∨ path ∈ pointers := by
  unfold redactEnvelope at h
  obtain ⟨r,hr,heq⟩ := Option.map_eq_some_iff.mp h
  obtain ⟨ps,hps,hnil,hvalue,hpaths⟩ := redactPointers_ok hr
  have hlogical : r.1 = .dict ((([(.str "body",envelope.body),(.str "meta",envelope.metadata)] :
      List (Key × Value)).map (remainingItem ps))) :=
    hvalue.trans (remaining_dict hnil (by simp))
  have hbody : secretKey (.str "body") = false := by decide
  have hmeta : secretKey (.str "meta") = false := by decide
  have hapart : (Key.str "meta" == Key.str "body") = false := by decide
  cases heq
  refine ⟨ps,hps,?_,?_⟩
  · rw [hlogical]
    simp [partOf,remainingItem,hbody,hmeta,hapart,belowKey,List.lookup_cons]
  · intro path hpath
    have hmem : path ∈ r.2 := by
      have hsorted := (List.perm_insertionSort _ _).subset hpath
      exact List.mem_dedup.mp hsorted
    exact hpaths path hmem

end Envelopes

end OneStep.RedactedValues
