import OneStep.WritableValues

/-!
# Values that differ in what is secret

A value is secret when it stands under a secret key of a dictionary or in a field of a
named tuple with a secret name. Two values differ only in what is secret when they are
the same with `None` in the place of it, where the elements of sets have no order.
Redaction reports the same paths for both when no named tuple it reaches has a secret
field, and leaves the same of both when no set and no member of an enumeration that it
leaves holds a secret.
-/
namespace OneStep.SecretValues
open CaptureCodec CaptureRedaction EncodedValues ItemLists PythonValues RedactedValues
open ValueEquality WritableValues

section Parts

theorem forall₂_iff_getElem? {α β : Type} {R : α → β → Prop} {as : List α} {bs : List β} :
    List.Forall₂ R as bs ↔ as.length = bs.length ∧
      ∀ (i : ℕ) a b, as[i]? = some a → bs[i]? = some b → R a b := by
  induction as generalizing bs with
  | nil =>
    cases bs with
    | nil => simp
    | cons b bs => simp
  | cons a as ih =>
    cases bs with
    | nil => simp
    | cons b bs =>
      rw [List.forall₂_cons,ih]
      constructor
      · rintro ⟨hhead,hlength,hrest⟩
        refine ⟨by simp [hlength],fun i x y hx hy => ?_⟩
        cases i with
        | zero =>
          cases hx
          cases hy
          exact hhead
        | succ i => exact hrest i x y (by simpa using hx) (by simpa using hy)
      · rintro ⟨hlength,hall⟩
        refine ⟨hall 0 a b rfl rfl,by simpa using hlength,fun i x y hx hy => ?_⟩
        exact hall (i+1) x y (by simpa using hx) (by simpa using hy)

def withElements : Value → List Value → Value
  | .list _,ws => .list ws
  | .tuple _,ws => .tuple ws
  | .namedtuple cls _,ws => .namedtuple cls ws
  | v,_ => v

variable {v w : Value} {vs ws : List Value}

theorem sequence (h : elementsOf v = some vs) :
    v = .list vs ∨ v = .tuple vs ∨ ∃ cls, v = .namedtuple cls vs := by
  cases v with
  | list us =>
    cases h
    exact .inl rfl
  | tuple us =>
    cases h
    exact .inr (.inl rfl)
  | namedtuple cls us =>
    cases h
    exact .inr (.inr ⟨cls,rfl⟩)
  | _ => cases h

theorem elements_with (h : elementsOf v = some vs) : elementsOf (withElements v ws) = some ws := by
  rcases sequence h with rfl | rfl | ⟨cls,rfl⟩ <;> rfl

theorem with_self (h : elementsOf v = some vs) : withElements v vs = v := by
  rcases sequence h with rfl | rfl | ⟨cls,rfl⟩ <;> rfl

theorem with_with (us : List Value) : withElements (withElements v us) ws = withElements v ws := by
  cases v <;> rfl

/-- The cases of an induction over what pointers lead through. -/
structure Walk (P : Value → Prop) : Prop where
  closed : ∀ v, ¬Open v → P v
  elements : ∀ v vs, elementsOf v = some vs → (∀ u ∈ vs, P u) → P v
  dict : ∀ items, (∀ item ∈ items, P item.2) → P (.dict items)

variable {P : Value → Prop}

theorem Walk.cases (h : Walk P) : Cases P where
  leaf v hleaf := h.closed v fun hopen => by cases v <;> first | exact hleaf | exact hopen
  list vs := h.elements _ vs rfl
  tuple vs := h.elements _ vs rfl
  namedtuple cls vs := h.elements _ vs rfl
  dict := h.dict
  set vs _ := h.closed _ id
  frozenset vs _ := h.closed _ id
  enum _ _ _ _ := h.closed _ id

theorem Walk.all (h : Walk P) : ∀ v, P v := h.cases.all

/-- The cases of an induction over all parts. -/
structure Parts (P : Value → Prop) : Prop where
  leaf : ∀ v, v.Leaf → P v
  elements : ∀ v vs, elementsOf v = some vs → (∀ u ∈ vs, P u) → P v
  members : ∀ v vs, bagOf v = some vs → (∀ u ∈ vs, P u) → P v
  dict : ∀ items, (∀ item ∈ items, P item.2) → P (.dict items)
  enum : ∀ cls name v, P v → P (.enum cls name v)

theorem Parts.cases (h : Parts P) : Cases P where
  leaf := h.leaf
  list vs := h.elements _ vs rfl
  tuple vs := h.elements _ vs rfl
  namedtuple _ vs := h.elements _ vs rfl
  set vs := h.members _ vs rfl
  frozenset vs := h.members _ vs rfl
  dict := h.dict
  enum := h.enum

theorem Parts.all (h : Parts P) : ∀ v, P v := h.cases.all

theorem bag (h : bagOf v = some vs) : v = .set vs ∨ v = .frozenset vs := by
  cases v with
  | set us =>
    cases h
    exact .inl rfl
  | frozenset us =>
    cases h
    exact .inr rfl
  | _ => cases h

variable {loaded : Loaded} {kept : List (Key × Value) → Prop}

theorem same_elements (h : elementsOf v = some vs) :
    Same kept v w ↔ ∃ ws, w = withElements v ws ∧ List.Forall₂ (Same kept) vs ws := by
  rcases sequence h with rfl | rfl | ⟨cls,rfl⟩ <;> rw [Same] <;> simp only [sameAll_iff] <;> rfl

theorem valid_elements (h : elementsOf v = some vs) (hvalid : Valid loaded v) :
    ∀ u ∈ vs, Valid loaded u := by
  rcases sequence h with rfl | rfl | ⟨cls,rfl⟩
  · rw [Valid] at hvalid
    exact validAll_iff.mp hvalid
  · rw [Valid] at hvalid
    exact validAll_iff.mp hvalid
  · rw [Valid] at hvalid
    exact validAll_iff.mp hvalid.1

theorem remaining_elements {ps : List (List String)} (hps : [] ∉ ps) (h : elementsOf v = some vs) :
    remaining ps v = withElements v (remainingAll ps vs) := by
  rcases sequence h with rfl | rfl | ⟨cls,rfl⟩
  · exact remaining_list hps vs
  · exact remaining_tuple hps vs
  · exact remaining_namedtuple hps cls vs

theorem redact_elements (h : elementsOf v = some vs) :
    redactSecretKeys v = withElements v (vs.map redactSecretKeys) := by
  rcases sequence h with rfl | rfl | ⟨cls,rfl⟩ <;> rw [redactSecretKeys,redactAll_eq] <;> rfl

theorem paths_elements (h : elementsOf v = some vs) (path : String) :
    secretPaths path v = elementPaths path 0 vs := by
  rcases sequence h with rfl | rfl | ⟨cls,rfl⟩ <;> rw [secretPaths]

end Parts

section Secrets
variable (loaded : Loaded)

def secretField (cls : ClassRef) (i : ℕ) : Bool := ((fieldsOf loaded cls)[i]?).any isSecret

/-- The element under an index stands in a field with a secret name. -/
def fieldSecret : Value → ℕ → Bool
  | .namedtuple cls _,i => secretField loaded cls i
  | _,_ => false

mutual

/-- A value with another one in the place of each secret value. -/
def veil (r : Value → Value) : Value → Value
  | .list vs => .list (veilAll r (fun _ => false) vs)
  | .tuple vs => .tuple (veilAll r (fun _ => false) vs)
  | .set vs => .set (veilAll r (fun _ => false) vs)
  | .frozenset vs => .frozenset (veilAll r (fun _ => false) vs)
  | .dict items => .dict (veilItems r items)
  | .enum cls name v => .enum cls name (veil r v)
  | .namedtuple cls vs => .namedtuple cls (veilAll r (secretField loaded cls) vs)
  | v => v

def veilAll (r : Value → Value) (secret : ℕ → Bool) : List Value → List Value
  | [] => []
  | v::vs => (if secret 0 then r v else veil r v)::veilAll r (fun i => secret (i+1)) vs

def veilItems (r : Value → Value) : List (Key × Value) → List (Key × Value)
  | [] => []
  | (k,v)::items => (k,if secretKey k then r v else veil r v)::veilItems r items

end

section Equations
attribute [local simp] veil
end Equations

/-- A value without its secret values. -/
def mask : Value → Value := veil loaded fun _ => .none

/-- The values differ in secret values only. -/
def Alike (v w : Value) : Prop := Same ordered (mask loaded v) (mask loaded w)

/-- A secret value is in the value. -/
inductive HoldsSecret : Value → Prop
  | key {items : List (Key × Value)} {k : Key} {u : Value} :
      (k,u) ∈ items → secretKey k = true → HoldsSecret (.dict items)
  | item {items : List (Key × Value)} {k : Key} {u : Value} :
      (k,u) ∈ items → HoldsSecret u → HoldsSecret (.dict items)
  | field {v u : Value} {vs : List Value} {i : ℕ} :
      elementsOf v = some vs → vs[i]? = some u → fieldSecret loaded v i = true → HoldsSecret v
  | element {v u : Value} {vs : List Value} :
      elementsOf v = some vs → u ∈ vs → HoldsSecret u → HoldsSecret v
  | member {v u : Value} {vs : List Value} :
      bagOf v = some vs → u ∈ vs → HoldsSecret u → HoldsSecret v
  | value {cls : ClassRef} {name : Option String} {u : Value} :
      HoldsSecret u → HoldsSecret (.enum cls name u)

/-- The walk of the redaction comes to a named tuple that has a field with a secret name. -/
inductive Exposes : Value → Prop
  | field {v u : Value} {vs : List Value} {i : ℕ} :
      elementsOf v = some vs → vs[i]? = some u → fieldSecret loaded v i = true → Exposes v
  | item {items : List (Key × Value)} {k : Key} {u : Value} :
      (k,u) ∈ items → secretKey k = false → Exposes u → Exposes (.dict items)
  | element {v u : Value} {vs : List Value} :
      elementsOf v = some vs → u ∈ vs → Exposes u → Exposes v

/-- What no pointer leads into is left as it is, with a secret in it. -/
inductive Leaks : List (List String) → Value → Prop
  | closed {ps : List (List String)} {v : Value} :
      [] ∉ ps → ¬Open v → HoldsSecret loaded v → Leaks ps v
  | item {ps : List (List String)} {items : List (Key × Value)} {k : Key} {u : Value} :
      [] ∉ ps → (k,u) ∈ items → secretKey k = false → Leaks (belowKey k ps) u →
      Leaks ps (.dict items)
  | element {ps : List (List String)} {v u : Value} {vs : List Value} {i : ℕ} :
      [] ∉ ps → elementsOf v = some vs → vs[i]? = some u → Leaks (below (toString i) ps) u →
      Leaks ps v

end Secrets

section Veils
variable {loaded : Loaded} {r : Value → Value} {v w : Value} {vs ws : List Value}

theorem veilAll_eq (secret : ℕ → Bool) (vs : List Value) : veilAll loaded r secret vs =
    vs.mapIdx fun i v => if secret i then r v else veil loaded r v := by
  induction vs generalizing secret with
  | nil => rw [veilAll,List.mapIdx_nil]
  | cons v vs ih => rw [veilAll,ih,List.mapIdx_cons]

theorem veilAll_plain (vs : List Value) :
    veilAll loaded r (fun _ => false) vs = vs.map (veil loaded r) := by
  induction vs with
  | nil => rw [veilAll,List.map_nil]
  | cons v vs ih =>
    rw [veilAll,ih,List.map_cons]
    rfl

/-- An item with another value in the place of what is secret in it. -/
def veilItem (loaded : Loaded) (r : Value → Value) (item : Key × Value) : Key × Value :=
  (item.1,if secretKey item.1 then r item.2 else veil loaded r item.2)

variable (items : List (Key × Value))

theorem veilItems_eq : veilItems loaded r items = items.map (veilItem loaded r) := by
  induction items with
  | nil => rw [veilItems,List.map_nil]
  | cons item items ih =>
    obtain ⟨k,v⟩ := item
    rw [veilItems,ih,List.map_cons]
    rfl

theorem veil_elements (h : elementsOf v = some vs) : veil loaded r v = withElements v
    (vs.mapIdx fun i u => if fieldSecret loaded v i then r u else veil loaded r u) := by
  rcases sequence h with rfl | rfl | ⟨cls,rfl⟩ <;> rw [veil,veilAll_eq] <;> rfl

theorem veil_dict : veil loaded r (.dict items) = .dict (items.map (veilItem loaded r)) := by
  rw [veil,veilItems_eq]

theorem veil_members (h : bagOf v = some vs) :
    bagOf (veil loaded r v) = some (vs.map (veil loaded r)) := by
  rcases bag h with rfl | rfl <;> rw [veil,veilAll_plain] <;> rfl

theorem veil_leaf (hleaf : v.Leaf) : veil loaded r v = v := by
  cases v <;> first | exact absurd hleaf id | rw [veil] <;> nofun

theorem veilItem_keys : (items.map (veilItem loaded r)).map Prod.fst = items.map Prod.fst := by
  rw [List.map_map]
  rfl

theorem sequence_of_veil (h : elementsOf v = some vs) (heq : veil loaded r w = withElements v ws) :
    ∃ us, w = withElements v us ∧
      ws = us.mapIdx fun i u => if fieldSecret loaded v i then r u else veil loaded r u := by
  have helements : elementsOf (veil loaded r w) = some ws := by rw [heq,elements_with h]
  cases w with
  | list us | tuple us | namedtuple cls us =>
    rw [veil_elements rfl] at heq
    rcases sequence h with rfl | rfl | ⟨cls',rfl⟩ <;> cases heq
    exact ⟨us,rfl,rfl⟩
  | set us | frozenset us | dict items | enum cls name u =>
    rw [veil] at helements
    cases helements
  | _ => simp [veil,elementsOf] at helements

theorem dict_of_veil {others : List (Key × Value)} (heq : veil loaded r w = .dict others) :
    ∃ items, w = .dict items ∧ others = items.map (veilItem loaded r) := by
  cases w with
  | dict items =>
    rw [veil_dict] at heq
    cases heq
    exact ⟨items,rfl,rfl⟩
  | list us | tuple us | set us | frozenset us | enum cls name u | namedtuple cls us =>
    rw [veil] at heq
    cases heq
  | _ => simp [veil] at heq

theorem open_veil : Open (veil loaded r v) ↔ Open v := by
  cases v with
  | list us | tuple us | set us | frozenset us | dict items | enum cls name u | namedtuple cls us =>
    rw [veil]
    rfl
  | _ => simp [veil]

end Veils

section Likeness
variable {loaded : Loaded} {v w : Value} {vs : List Value}

theorem alike_elements (h : elementsOf v = some vs) (halike : Alike loaded v w) :
    ∃ ws, w = withElements v ws ∧ vs.length = ws.length ∧
      ∀ (i : ℕ) u x, vs[i]? = some u → ws[i]? = some x → fieldSecret loaded v i = false →
        Alike loaded u x := by
  unfold Alike mask at halike
  rw [veil_elements h,same_elements (elements_with h)] at halike
  obtain ⟨ws,hw,hall⟩ := halike
  rw [with_with] at hw
  obtain ⟨us,rfl,rfl⟩ := sequence_of_veil h hw
  obtain ⟨hlength,hpart⟩ := forall₂_iff_getElem?.mp hall
  refine ⟨us,rfl,by simpa using hlength,fun i u x hu hx hfield => ?_⟩
  have hsame := hpart i (mask loaded u) (mask loaded x)
    (by rw [List.getElem?_mapIdx,hu,Option.map_some,hfield]; rfl)
    (by rw [List.getElem?_mapIdx,hx,Option.map_some,hfield]; rfl)
  exact hsame

/-- Items with one key whose values differ in secret values only, or are secret. -/
def AlikeItem (loaded : Loaded) (a b : Key × Value) : Prop :=
  a.1 = b.1 ∧ (secretKey a.1 = false → Alike loaded a.2 b.2)

theorem alike_dict {items : List (Key × Value)} (hnodup : (items.map Prod.fst).Nodup)
    (halike : Alike loaded (.dict items) w) :
    ∃ others, w = .dict others ∧ List.Forall₂ (AlikeItem loaded) items others := by
  unfold Alike mask at halike
  rw [veil_dict,Same] at halike
  obtain ⟨others,hw,hsame,hkeys⟩ := halike
  obtain ⟨given,rfl,rfl⟩ := dict_of_veil hw
  obtain ⟨us,hperm,hall⟩ := sameItems_iff.mp hsame
  have hkept := hkeys trivial
  have horder : us.map Prod.fst = (given.map (veilItem loaded fun _ => .none)).map Prod.fst :=
    (keys_same hall).symm.trans hkept
  have hnodup' : (us.map Prod.fst).Nodup := by
    rw [← keys_same hall,veilItem_keys]
    exact hnodup
  rw [perm_eq_of_keys hperm hnodup' horder,List.forall₂_map_left_iff,
    List.forall₂_map_right_iff] at hall
  refine ⟨given,rfl,hall.imp ?_⟩
  rintro ⟨k,u⟩ ⟨k',x⟩ ⟨hkey,hvalue⟩
  refine ⟨hkey,fun hsecret => ?_⟩
  cases (hkey : k = k')
  have hpublic : secretKey k = false := hsecret
  simp only [veilItem,hpublic,Bool.false_eq_true,if_false] at hvalue
  exact hvalue

theorem alike_open (halike : Alike loaded v w) (hclosed : ¬Open v) : ¬Open w := by
  have hmasked : ¬Open (mask loaded v) := fun h => hclosed (open_veil.mp h)
  intro hopen
  have hmasked' : Open (mask loaded w) := open_veil.mpr hopen
  unfold Alike at halike
  revert halike hmasked hmasked'
  generalize mask loaded v = a
  generalize mask loaded w = b
  intro halike hclosed hopen
  cases a with
  | list us | tuple us | dict items | namedtuple cls us => exact hclosed trivial
  | set us | frozenset us | enum cls name u =>
    rw [Same] at halike
    obtain ⟨_,rfl,-⟩ := halike
    exact hopen
  | _ =>
    simp only [Same] at halike
    subst halike
    exact hopen

end Likeness

section Sketches

mutual

/-- What pointers find of a value: dictionaries and sequences. -/
def sketch : Value → Value
  | .dict items => .dict (sketchItems items)
  | .list vs => .list (sketchAll vs)
  | .tuple vs => .tuple (sketchAll vs)
  | .namedtuple cls vs => .namedtuple cls (sketchAll vs)
  | _ => .none

def sketchAll : List Value → List Value
  | [] => []
  | v::vs => sketch v::sketchAll vs

def sketchItems : List (Key × Value) → List (Key × Value)
  | [] => []
  | (k,v)::items => (k,sketch v)::sketchItems items

end

section Equations
attribute [local simp] sketch
end Equations

variable {v w : Value} {vs : List Value} {t : String} {rest : List String}

theorem sketchAll_eq (vs : List Value) : sketchAll vs = vs.map sketch := by
  induction vs with
  | nil => rw [sketchAll,List.map_nil]
  | cons v vs ih => rw [sketchAll,ih,List.map_cons]

def sketchItem (item : Key × Value) : Key × Value := (item.1,sketch item.2)

theorem sketchItems_eq (items : List (Key × Value)) : sketchItems items = items.map sketchItem := by
  induction items with
  | nil => rw [sketchItems,List.map_nil]
  | cons item items ih =>
    obtain ⟨k,v⟩ := item
    rw [sketchItems,ih,List.map_cons]
    rfl

theorem sketch_elements (h : elementsOf v = some vs) :
    sketch v = withElements v (vs.map sketch) := by
  rcases sequence h with rfl | rfl | ⟨cls,rfl⟩ <;> rw [sketch,sketchAll_eq] <;> rfl

theorem sketch_closed (h : ¬Open v) : sketch v = .none := by
  cases v with
  | list us | tuple us | dict items | namedtuple cls us => exact absurd trivial h
  | _ => simp [sketch]

theorem lookup_sketch (k : Key) (items : List (Key × Value)) :
    (items.map sketchItem).lookup k = (items.lookup k).map sketch := by
  induction items with
  | nil => rfl
  | cons item items ih =>
    obtain ⟨k',v⟩ := item
    rw [List.map_cons,sketchItem,List.lookup_cons,List.lookup_cons,ih]
    cases k == k' <;> rfl

variable {f f' : Value → Value × Bool}

theorem replaceElement_sketch (hf : ∀ u, f' (sketch u) = (sketch (f u).1,(f u).2)) :
    replaceElement f' t (vs.map sketch) = (replaceElement f t vs).map (List.map sketch) := by
  unfold replaceElement
  rw [List.length_map]
  cases indexOf t vs.length with
  | none => rfl
  | some i =>
    rw [Option.bind_some,Option.bind_some,List.getElem?_map]
    cases vs[i]? with
    | none => rfl
    | some u =>
      rw [Option.map_some,Option.bind_some,Option.bind_some,hf]
      cases (f u).2 with
      | true => simp [List.map_set]
      | false => rfl

theorem replaceItem_sketch (hf : ∀ u, f' (sketch u) = (sketch (f u).1,(f u).2))
    (items : List (Key × Value)) :
    replaceItem f' t (items.map sketchItem) = (replaceItem f t items).map (List.map sketchItem) := by
  unfold replaceItem
  rw [lookup_sketch]
  cases items.lookup (.str t) with
  | none => rfl
  | some u =>
    rw [Option.map_some,Option.bind_some,Option.bind_some,hf]
    cases (f u).2 with
    | false => rfl
    | true =>
      rw [if_pos rfl,if_pos rfl,Option.map_some,List.map_map,List.map_map]
      congr 1
      refine List.map_congr_left fun item _ => ?_
      by_cases hkey : item.1 = .str t
      · simp [sketchItem,hkey]
      · simp [sketchItem,hkey]

theorem replaceTokens_elements (h : elementsOf v = some vs) (r : Value) :
    replaceTokens r (t::rest) v = (replaceElement (replaceTokens r rest) t vs).elim (v,false)
      fun ws => (withElements v ws,true) := by
  rcases sequence h with rfl | rfl | ⟨cls,rfl⟩ <;> rw [replaceTokens] <;> rfl

/-- Where a pointer leads and what it leaves is told by the sketch. -/
theorem replaceTokens_sketch (tokens : List String) (v : Value) :
    replaceTokens .none tokens (sketch v) =
      (sketch (replaceTokens redacted tokens v).1,(replaceTokens redacted tokens v).2) := by
  induction tokens generalizing v with
  | nil => simp [replaceTokens,redacted,sketch]
  | cons t rest ih =>
    cases v with
    | dict items =>
      rw [sketch,sketchItems_eq,replaceTokens,replaceTokens,replaceItem_sketch ih]
      cases replaceItem (replaceTokens redacted rest) t items with
      | none =>
        simp only [Option.map_none,Option.elim_none]
        rw [sketch,sketchItems_eq]
      | some others =>
        simp only [Option.map_some,Option.elim_some]
        rw [sketch,sketchItems_eq]
    | list vs | tuple vs | namedtuple cls vs =>
      rw [sketch_elements rfl,replaceTokens_elements (elements_with rfl),
        replaceTokens_elements rfl,replaceElement_sketch ih]
      cases replaceElement (replaceTokens redacted rest) t vs with
      | none =>
        simp only [Option.map_none,Option.elim_none]
        rw [sketch_elements rfl]
      | some ws =>
        simp only [Option.map_some,Option.elim_some]
        rw [with_with,sketch_elements (elements_with rfl),with_with]
    | _ => simp [sketch,replaceTokens]

theorem redactPointers_sketch {pointers paths : List String} {r r' : Value × List String}
    (heq : sketch v = sketch w) (h : redactPointers pointers v paths = some r)
    (h' : redactPointers pointers w paths = some r') : r.2 = r'.2 := by
  induction pointers generalizing v w paths with
  | nil =>
    cases h
    cases h'
    rfl
  | cons pointer pointers ih =>
    unfold redactPointers at h h'
    obtain ⟨tokens,htokens,h⟩ := Option.bind_eq_some_iff.mp h
    obtain ⟨tokens',htokens',h'⟩ := Option.bind_eq_some_iff.mp h'
    cases htokens.symm.trans htokens'
    have hleft := replaceTokens_sketch tokens v
    rw [heq,replaceTokens_sketch tokens w,Prod.mk.injEq] at hleft
    simp only [hleft.2] at h'
    exact ih hleft.1.symm h h'

end Sketches

section Reports
variable {loaded other : Loaded}

/-- Redaction reports the same of both values. -/
def SameReport (v w : Value) : Prop :=
  (∀ path, secretPaths path v = secretPaths path w) ∧
    sketch (redactSecretKeys v) = sketch (redactSecretKeys w)

theorem elementPaths_congr {vs ws : List Value} (h : List.Forall₂ SameReport vs ws) (path : String)
    (i : ℕ) : elementPaths path i vs = elementPaths path i ws := by
  induction h generalizing i with
  | nil => rfl
  | cons hhead _ ih => rw [elementPaths,elementPaths,hhead.1,ih]

theorem sketches_congr {vs ws : List Value} (h : List.Forall₂ SameReport vs ws) :
    (vs.map redactSecretKeys).map sketch = (ws.map redactSecretKeys).map sketch := by
  induction h with
  | nil => rfl
  | cons hhead _ ih =>
    rw [List.map_cons,List.map_cons,List.map_cons,List.map_cons,hhead.2,ih]

/-- Items with one key that redaction reports the same of, if it goes into them. -/
def SameItemReport (a b : Key × Value) : Prop :=
  a.1 = b.1 ∧ (secretKey a.1 = false → SameReport a.2 b.2)

theorem itemPaths_congr {items others : List (Key × Value)}
    (h : List.Forall₂ SameItemReport items others) (path : String) :
    itemPaths path items = itemPaths path others := by
  induction h with
  | nil => rfl
  | @cons item other items others hhead _ ih =>
    obtain ⟨k,v⟩ := item
    obtain ⟨k',w⟩ := other
    obtain ⟨hkey,hreport⟩ := hhead
    cases (hkey : k = k')
    rw [itemPaths,itemPaths,ih]
    cases hsecret : secretKey k with
    | true => rfl
    | false => rw [(hreport hsecret).1]

theorem sketchItems_congr {items others : List (Key × Value)}
    (h : List.Forall₂ SameItemReport items others) :
    (items.map redactItem).map sketchItem = (others.map redactItem).map sketchItem := by
  induction h with
  | nil => rfl
  | @cons item other items others hhead _ ih =>
    obtain ⟨k,v⟩ := item
    obtain ⟨k',w⟩ := other
    obtain ⟨hkey,hreport⟩ := hhead
    cases (hkey : k = k')
    rw [List.map_cons,List.map_cons,List.map_cons,List.map_cons,ih]
    cases hsecret : secretKey k with
    | true => simp [redactItem,hsecret]
    | false =>
      have hvalue : sketch (redactSecretKeys v) = sketch (redactSecretKeys w) :=
        (hreport hsecret).2
      simp [redactItem,sketchItem,hsecret,hvalue]

theorem report_walk : Walk fun v => Valid loaded v → ¬Exposes loaded v →
    ∀ w, Valid other w → Alike loaded v w → SameReport v w where
  closed v hclosed hvalid _ w hvalid' halike := by
    have hclosed' := alike_open halike hclosed
    have hleft := untouched_closed hvalid hclosed
    have hright := untouched_closed hvalid' hclosed'
    constructor
    · intro path
      rw [hleft.2,hright.2]
    · rw [hleft.1,hright.1,sketch_closed hclosed,sketch_closed hclosed']
  elements v vs hvs ih hvalid hexposes w hvalid' halike := by
    obtain ⟨ws,rfl,hlength,hpart⟩ := alike_elements hvs halike
    have hwalk : List.Forall₂ SameReport vs ws := by
      apply forall₂_iff_getElem?.mpr
      refine ⟨hlength,fun i u x hu hx => ?_⟩
      have hmem := List.mem_of_getElem? hu
      have hfield : fieldSecret loaded v i = false := by
        rw [Bool.eq_false_iff]
        exact fun hsecret => hexposes (.field hvs hu hsecret)
      exact ih u hmem (valid_elements hvs hvalid u hmem)
        (fun h => hexposes (.element hvs hmem h)) x
        (valid_elements (elements_with hvs) hvalid' x (List.mem_of_getElem? hx))
        (hpart i u x hu hx hfield)
    constructor
    · intro path
      rw [paths_elements hvs,paths_elements (elements_with hvs),elementPaths_congr hwalk]
    · rw [redact_elements hvs,redact_elements (elements_with hvs),with_with,
        sketch_elements (elements_with hvs),sketch_elements (elements_with hvs),with_with,with_with,
        sketches_congr hwalk]
  dict items ih hvalid hexposes w hvalid' halike := by
    rw [Valid,validItems_iff] at hvalid
    obtain ⟨others,rfl,hitems⟩ := alike_dict hvalid.2 halike
    rw [Valid,validItems_iff] at hvalid'
    have hwalk : List.Forall₂ SameItemReport items others := by
      obtain ⟨hlength,hall⟩ := forall₂_iff_getElem?.mp hitems
      apply forall₂_iff_getElem?.mpr
      refine ⟨hlength,fun i a b ha hb => ⟨(hall i a b ha hb).1,fun hsecret => ?_⟩⟩
      have hmem := List.mem_of_getElem? ha
      exact ih a hmem (hvalid.1 a hmem) (fun h => hexposes (.item hmem hsecret h)) b.2
        (hvalid'.1 b (List.mem_of_getElem? hb)) ((hall i a b ha hb).2 hsecret)
    constructor
    · intro path
      rw [secretPaths,secretPaths,itemPaths_congr hwalk]
    · rw [redactSecretKeys,redactSecretKeys,sketch,sketch,redactItems_eq,redactItems_eq,
        sketchItems_eq,sketchItems_eq,sketchItems_congr hwalk]

end Reports

section Plain
variable {loaded other : Loaded} {kept : List (Key × Value) → Prop} {v w : Value} {vs : List Value}

/-- A set with other elements. -/
def withMembers : Value → List Value → Value
  | .set _,ws => .set ws
  | .frozenset _,ws => .frozenset ws
  | v,_ => v

theorem same_members (h : bagOf v = some vs) : Same kept v w ↔
    ∃ ws, w = withMembers v ws ∧ ∃ us, us.Perm ws ∧ List.Forall₂ (Same kept) vs us := by
  rcases bag h with rfl | rfl <;> rw [Same] <;> simp only [sameBag_iff] <;> rfl

theorem members_with (h : bagOf v = some vs) (ws : List Value) :
    bagOf (withMembers v ws) = some ws := by
  rcases bag h with rfl | rfl <;> rfl

theorem members_self (h : bagOf v = some vs) (ws : List Value) :
    withMembers (withMembers v ws) vs = v := by
  rcases bag h with rfl | rfl <;> rfl

theorem same_symm : Parts fun v => ∀ w, Same kept v w → Same unordered w v where
  leaf v hleaf w h := by
    rw [same_leaf hleaf] at h
    subst h
    exact same_refl v
  elements v vs hvs ih w h := by
    obtain ⟨ws,rfl,hall⟩ := (same_elements hvs).mp h
    refine (same_elements (elements_with hvs)).mpr ⟨vs,?_,?_⟩
    · rw [with_with,with_self hvs]
    · obtain ⟨hlength,hpart⟩ := forall₂_iff_getElem?.mp hall
      apply forall₂_iff_getElem?.mpr
      refine ⟨hlength.symm,fun i x u hx hu => ?_⟩
      exact ih u (List.mem_of_getElem? hu) x (hpart i u x hu hx)
  members v vs hvs ih w h := by
    obtain ⟨ws,rfl,us,hperm,hall⟩ := (same_members hvs).mp h
    have hback : List.Forall₂ (Same unordered) us vs := by
      obtain ⟨hlength,hpart⟩ := forall₂_iff_getElem?.mp hall
      apply forall₂_iff_getElem?.mpr
      refine ⟨hlength.symm,fun i x u hx hu => ?_⟩
      exact ih u (List.mem_of_getElem? hu) x (hpart i u x hu hx)
    obtain ⟨others,hothers,hperm'⟩ := List.perm_comp_forall₂ hperm.symm hback
    exact (same_members (members_with hvs ws)).mpr
      ⟨vs,(members_self hvs ws).symm,others,hperm',hothers⟩
  dict items ih w h := by
    rw [Same] at h
    obtain ⟨others,rfl,hsame,-⟩ := h
    obtain ⟨us,hperm,hall⟩ := sameItems_iff.mp hsame
    have hback : List.Forall₂ (SameItem unordered) us items := by
      obtain ⟨hlength,hpart⟩ := forall₂_iff_getElem?.mp hall
      apply forall₂_iff_getElem?.mpr
      refine ⟨hlength.symm,fun i x u hx hu => ?_⟩
      obtain ⟨hkey,hvalue⟩ := hpart i u x hu hx
      exact ⟨hkey.symm,ih u (List.mem_of_getElem? hu) x.2 hvalue⟩
    obtain ⟨given,hgiven,hperm'⟩ := List.perm_comp_forall₂ hperm.symm hback
    rw [Same]
    exact ⟨items,rfl,sameItems_iff.mpr ⟨given,hperm',hgiven⟩,fun h => absurd h id⟩
  enum cls name v ih w h := by
    rw [Same] at h
    obtain ⟨u,rfl,hu⟩ := h
    rw [Same]
    exact ⟨v,rfl,ih u hu⟩

theorem fieldSecret_with (ws : List Value) (i : ℕ) :
    fieldSecret loaded (withElements v ws) i = fieldSecret loaded v i := by
  cases v <;> rfl

theorem HoldsSecret.same (h : HoldsSecret loaded v) (hsame : Same kept v w) :
    HoldsSecret loaded w := by
  induction h generalizing w with
  | @key items k u hmem hsecret =>
    rw [Same] at hsame
    obtain ⟨others,rfl,hitems,-⟩ := hsame
    obtain ⟨us,hperm,hall⟩ := sameItems_iff.mp hitems
    obtain ⟨⟨k',x⟩,hx,hkey,-⟩ := forall₂_left hall hmem
    cases (hkey : k = k')
    exact .key (hperm.subset hx) hsecret
  | @item items k u hmem _ ih =>
    rw [Same] at hsame
    obtain ⟨others,rfl,hitems,-⟩ := hsame
    obtain ⟨us,hperm,hall⟩ := sameItems_iff.mp hitems
    obtain ⟨⟨k',x⟩,hx,-,hvalue⟩ := forall₂_left hall hmem
    exact .item (hperm.subset hx) (ih hvalue)
  | @field v u vs i hvs hu hsecret =>
    obtain ⟨ws,rfl,hall⟩ := (same_elements hvs).mp hsame
    have hi := (List.getElem?_eq_some_iff.mp hu).1
    have hi' : i < ws.length := hall.length_eq ▸ hi
    refine .field (elements_with hvs) (List.getElem?_eq_getElem hi') ?_
    rw [fieldSecret_with]
    exact hsecret
  | @element v u vs hvs hu _ ih =>
    obtain ⟨ws,rfl,hall⟩ := (same_elements hvs).mp hsame
    obtain ⟨x,hx,hux⟩ := forall₂_left hall hu
    exact .element (elements_with hvs) hx (ih hux)
  | @member v u vs hvs hu _ ih =>
    obtain ⟨ws,rfl,us,hperm,hall⟩ := (same_members hvs).mp hsame
    obtain ⟨x,hx,hux⟩ := forall₂_left hall hu
    exact .member (members_with hvs ws) (hperm.subset hx) (ih hux)
  | value _ ih =>
    rw [Same] at hsame
    obtain ⟨u,rfl,hu⟩ := hsame
    exact .value (ih hu)

theorem mask_elements (h : elementsOf v = some vs) : mask loaded v = withElements v
    (vs.mapIdx fun i u => if fieldSecret loaded v i then .none else mask loaded u) :=
  veil_elements h

/-- A value has the property when a part of it has. -/
structure Upward (P : Value → Prop) : Prop where
  item {items : List (Key × Value)} {k : Key} {u : Value} : (k,u) ∈ items → P u → P (.dict items)
  element {v u : Value} {vs : List Value} : elementsOf v = some vs → u ∈ vs → P u → P v
  member {v u : Value} {vs : List Value} : bagOf v = some vs → u ∈ vs → P u → P v
  value {cls : ClassRef} {name : Option String} {u : Value} : P u → P (.enum cls name u)

/-- What stands in the place of a secret value gives the property to the whole. -/
theorem HoldsSecret.veiled {P : Value → Prop} {r : Value → Value} (hup : Upward P)
    (hkey : ∀ {items : List (Key × Value)} {k : Key} {u : Value}, (k,r u) ∈ items →
      secretKey k = true → P (.dict items))
    (hfield : ∀ {v u : Value} {vs : List Value} {i : ℕ}, elementsOf v = some vs →
      vs[i]? = some (r u) → fieldSecret loaded v i = true → P v)
    (h : HoldsSecret loaded v) : P (veil loaded r v) := by
  have hitem : ∀ {items : List (Key × Value)} {item : Key × Value}, item ∈ items →
      veilItem loaded r item ∈ items.map (veilItem loaded r) := fun hmem => List.mem_map_of_mem hmem
  have hsecretField : ∀ {v u : Value} {vs : List Value} {i : ℕ}, elementsOf v = some vs →
      vs[i]? = some u → fieldSecret loaded v i = true → P (veil loaded r v) := by
    intro v u vs i hvs hu hsecret
    rw [veil_elements hvs]
    refine hfield (i := i) (u := u) (elements_with hvs) ?_ ?_
    · rw [List.getElem?_mapIdx,hu,Option.map_some,if_pos hsecret]
    · rwa [fieldSecret_with]
  induction h with
  | @key items k u hmem hsecret =>
    rw [veil_dict]
    have hmem' := hitem hmem
    simp only [veilItem,hsecret,if_true] at hmem'
    exact hkey hmem' hsecret
  | @item items k u hmem _ ih =>
    rw [veil_dict]
    have hmem' := hitem hmem
    unfold veilItem at hmem'
    cases hsecret : secretKey k with
    | true =>
      simp only [hsecret,if_true] at hmem'
      exact hkey hmem' hsecret
    | false =>
      simp only [hsecret,Bool.false_eq_true,if_false] at hmem'
      exact hup.item hmem' ih
  | @field v u vs i hvs hu hsecret => exact hsecretField hvs hu hsecret
  | @element v u vs hvs hu _ ih =>
    obtain ⟨i,hi⟩ := List.mem_iff_getElem?.mp hu
    cases hsecret : fieldSecret loaded v i with
    | true => exact hsecretField hvs hi hsecret
    | false =>
      rw [veil_elements hvs]
      refine hup.element (elements_with hvs) (List.mem_iff_getElem?.mpr ⟨i,?_⟩) ih
      rw [List.getElem?_mapIdx,hi,Option.map_some,hsecret]
      rfl
  | @member v u vs hvs hu _ ih => exact hup.member (veil_members hvs) (List.mem_map_of_mem hu) ih
  | value _ ih =>
    rw [veil]
    exact hup.value ih

theorem HoldsSecret.mask (h : HoldsSecret loaded v) : HoldsSecret loaded (mask loaded v) :=
  h.veiled ⟨.item,.element,.member,.value⟩ .key .field

theorem mask_plain : Parts fun v => ¬HoldsSecret loaded v → mask loaded v = v where
  leaf v hleaf _ := veil_leaf hleaf
  elements v vs hvs ih h := by
    have hvs' : (vs.mapIdx fun i u => if fieldSecret loaded v i then .none else mask loaded u) =
        vs := by
      apply List.ext_getElem?
      intro i
      rw [List.getElem?_mapIdx]
      cases hu : vs[i]? with
      | none => rfl
      | some u =>
        have hfield : fieldSecret loaded v i = false := by
          rw [Bool.eq_false_iff]
          exact fun hsecret => h (.field hvs hu hsecret)
        have hmem := List.mem_of_getElem? hu
        rw [Option.map_some,hfield,if_neg Bool.false_ne_true,
          ih u hmem fun hholds => h (.element hvs hmem hholds)]
    rw [mask_elements hvs,hvs',with_self hvs]
  members v vs hvs ih h := by
    have hvs' : vs.map (mask loaded) = vs := by
      refine (List.map_congr_left fun u hu => ?_).trans (List.map_id vs)
      exact ih u hu fun hholds => h (.member hvs hu hholds)
    unfold mask at hvs' ⊢
    rcases bag hvs with rfl | rfl <;> rw [veil,veilAll_plain,hvs']
  dict items ih h := by
    unfold mask at ih ⊢
    have hitems : items.map (veilItem loaded fun _ => .none) = items := by
      refine (List.map_congr_left fun item hmem => ?_).trans (List.map_id items)
      obtain ⟨k,u⟩ := item
      have hpublic : secretKey k = false := by
        rw [Bool.eq_false_iff]
        exact fun hsecret => h (.key hmem hsecret)
      have hvalue := ih (k,u) hmem fun hholds => h (.item hmem hholds)
      simp only [veilItem,hpublic,Bool.false_eq_true,if_false,hvalue,id]
    rw [veil_dict,hitems]
  enum cls name v ih h := by
    unfold mask at ih ⊢
    rw [veil,ih fun hholds => h (.value hholds)]

theorem same_of_alike (h : ¬HoldsSecret loaded v) (halike : Alike loaded v w) :
    Same ordered v w := by
  unfold Alike at halike
  rw [mask_plain.all v h] at halike
  have hother : ¬HoldsSecret loaded w := fun hholds =>
    h (HoldsSecret.same hholds.mask (same_symm.all v _ halike))
  rwa [mask_plain.all w hother] at halike

/-- Redaction leaves the same of values that differ in secrets only. -/
theorem remaining_walk : Walk fun v => Valid loaded v → ¬Exposes loaded v →
    ∀ ps, ¬Leaks loaded ps v → ∀ w, Valid other w → Alike loaded v w →
      Same ordered (remaining ps v) (remaining ps w) where
  closed v hclosed hvalid _ ps hleaks w hvalid' halike := by
    by_cases hps : [] ∈ ps
    · rw [remaining_erased hps,remaining_erased hps]
      exact same_refl _
    · rw [remaining_closed hps hvalid hclosed,
        remaining_closed hps hvalid' (alike_open halike hclosed)]
      exact same_of_alike (fun hholds => hleaks (.closed hps hclosed hholds)) halike
  elements v vs hvs ih hvalid hexposes ps hleaks w hvalid' halike := by
    by_cases hps : [] ∈ ps
    · rw [remaining_erased hps,remaining_erased hps]
      exact same_refl _
    · obtain ⟨ws,rfl,hlength,hpart⟩ := alike_elements hvs halike
      rw [remaining_elements hps hvs,remaining_elements hps (elements_with hvs),with_with]
      refine (same_elements (elements_with hvs)).mpr ⟨remainingAll ps ws,(with_with _).symm,?_⟩
      apply forall₂_iff_getElem?.mpr
      unfold remainingAll
      refine ⟨by rw [List.length_mapIdx,List.length_mapIdx,hlength],fun i a b ha hb => ?_⟩
      rw [List.getElem?_mapIdx] at ha hb
      obtain ⟨u,hu,rfl⟩ := Option.map_eq_some_iff.mp ha
      obtain ⟨x,hx,rfl⟩ := Option.map_eq_some_iff.mp hb
      have hmem := List.mem_of_getElem? hu
      have hfield : fieldSecret loaded v i = false := by
        rw [Bool.eq_false_iff]
        exact fun hsecret => hexposes (.field hvs hu hsecret)
      exact ih u hmem (valid_elements hvs hvalid u hmem) (fun h => hexposes (.element hvs hmem h))
        _ (fun h => hleaks (.element hps hvs hu h)) x
        (valid_elements (elements_with hvs) hvalid' x (List.mem_of_getElem? hx))
        (hpart i u x hu hx hfield)
  dict items ih hvalid hexposes ps hleaks w hvalid' halike := by
    by_cases hps : [] ∈ ps
    · rw [remaining_erased hps,remaining_erased hps]
      exact same_refl _
    · rw [Valid,validItems_iff] at hvalid
      obtain ⟨others,rfl,hitems⟩ := alike_dict hvalid.2 halike
      rw [Valid,validItems_iff] at hvalid'
      obtain ⟨hlength,hall⟩ := forall₂_iff_getElem?.mp hitems
      have hsame : List.Forall₂ (SameItem ordered) (items.map (remainingItem ps))
          (others.map (remainingItem ps)) := by
        rw [List.forall₂_map_left_iff,List.forall₂_map_right_iff]
        apply forall₂_iff_getElem?.mpr
        refine ⟨hlength,fun i a b ha hb => ?_⟩
        obtain ⟨k,u⟩ := a
        obtain ⟨k',x⟩ := b
        obtain ⟨hkey,hvalue⟩ := hall i _ _ ha hb
        cases (hkey : k = k')
        refine ⟨rfl,?_⟩
        have hmem := List.mem_of_getElem? ha
        cases hsecret : secretKey k with
        | true =>
          simp only [remainingItem,hsecret,if_true]
          exact same_refl _
        | false =>
          simp only [remainingItem,hsecret,Bool.false_eq_true,if_false]
          exact ih (k,u) hmem (hvalid.1 _ hmem) (fun h => hexposes (.item hmem hsecret h)) _
            (fun h => hleaks (.item hps hmem hsecret h)) x
            (hvalid'.1 (k,x) (List.mem_of_getElem? hb)) (hvalue hsecret)
      rw [remaining_dict hps hvalid.2,remaining_dict hps hvalid'.2,Same]
      exact ⟨_,rfl,sameItems_iff.mpr ⟨_,.refl _,hsame⟩,fun _ => keys_same hsame⟩

end Plain

end OneStep.SecretValues
