import OneStep.CaptureCodec
import OneStep.ValueEquality

/-!
# What the codec writes

The shape of what `encode_value` writes for each kind of value. All of it has
finite floats only, and no object in it has a key twice, so that a JSON text
carries it unchanged.
-/
namespace OneStep.EncodedValues
open DateTimeText ItemLists JsonText JsonValues PythonValues ScalarTexts ValueEquality CaptureCodec

section Encoding
variable (floatText : Double → List Char) (loaded : Loaded)

/-- Encoded somewhere. -/
def Encodes (v : Value) (j : Json) : Prop := ∃ path, encode floatText loaded path v = .ok j

/-- An item and the field that is written for it. -/
def EncodesItem (item : Key × Value) (field : String × Json) : Prop :=
  keyText item.1 = field.1 ∧ Encodes floatText loaded item.2 field.2

variable {floatText loaded} {path : String} {vs : List Value} {js : List Json}

theorem bind_ok {α β : Type} {x : Except EncodingError α} {f : α → Except EncodingError β} {b : β}
    (h : (x >>= f) = .ok b) : ∃ a, x = .ok a ∧ f a = .ok b := by
  cases x with
  | error e => cases h
  | ok a => exact ⟨a,rfl,h⟩

theorem encodeAll_ok {i : ℕ} (h : encodeAll floatText loaded path i vs = .ok js) :
    List.Forall₂ (Encodes floatText loaded) vs js := by
  induction vs generalizing i js with
  | nil =>
    rw [encodeAll] at h
    cases h
    exact .nil
  | cons v vs ih =>
    rw [encodeAll] at h
    obtain ⟨j,hj,h⟩ := bind_ok h
    obtain ⟨rest,hrest,h⟩ := bind_ok h
    cases h
    exact .cons ⟨_,hj⟩ (ih hrest)

theorem encodeSet_ok (h : encodeSet floatText loaded path vs = .ok js) :
    List.Forall₂ (Encodes floatText loaded) vs js := by
  induction vs generalizing js with
  | nil =>
    rw [encodeSet] at h
    cases h
    exact .nil
  | cons v vs ih =>
    rw [encodeSet] at h
    obtain ⟨j,hj,h⟩ := bind_ok h
    obtain ⟨rest,hrest,h⟩ := bind_ok h
    cases h
    exact .cons ⟨_,hj⟩ (ih hrest)

theorem encodeFields_ok {fields : List String} (hlength : fields.length = vs.length)
    (h : encodeFields floatText loaded path fields vs = .ok js) :
    List.Forall₂ (Encodes floatText loaded) vs js := by
  induction vs generalizing fields js with
  | nil =>
    rw [encodeFields] at h
    cases h
    exact .nil
  | cons v vs ih =>
    cases fields with
    | nil => cases hlength
    | cons name fields =>
      rw [encodeFields] at h
      obtain ⟨j,hj,h⟩ := bind_ok h
      obtain ⟨rest,hrest,h⟩ := bind_ok h
      cases h
      exact .cons ⟨_,hj⟩ (ih (Nat.succ.inj hlength) hrest)

variable {items : List (Key × Value)}

theorem encodeItems_ok {fields : List (String × Json)}
    (h : encodeItems floatText loaded path items = .ok fields) :
    List.Forall₂ (EncodesItem floatText loaded) items fields := by
  induction items generalizing fields with
  | nil =>
    rw [encodeItems] at h
    cases h
    exact .nil
  | cons item items ih =>
    obtain ⟨key,v⟩ := item
    rw [encodeItems] at h
    obtain ⟨j,hj,h⟩ := bind_ok h
    obtain ⟨rest,hrest,h⟩ := bind_ok h
    cases h
    exact .cons ⟨rfl,_,hj⟩ (ih hrest)

variable {j : Json} {cls : ClassRef}

theorem encodes_list (h : Encodes floatText loaded (.list vs) j) :
    ∃ js, j = .arr js ∧ List.Forall₂ (Encodes floatText loaded) vs js := by
  obtain ⟨path,h⟩ := h
  rw [encode] at h
  obtain ⟨js,hjs,h⟩ := bind_ok h
  cases h
  exact ⟨js,rfl,encodeAll_ok hjs⟩

theorem encodes_tuple (h : Encodes floatText loaded (.tuple vs) j) :
    ∃ js, j = tagged "tuple" [("values",.arr js)] ∧
      List.Forall₂ (Encodes floatText loaded) vs js := by
  obtain ⟨path,h⟩ := h
  rw [encode] at h
  obtain ⟨js,hjs,h⟩ := bind_ok h
  cases h
  exact ⟨js,rfl,encodeAll_ok hjs⟩

theorem sortTexts_perm (items : List Json) : (sortTexts floatText items).Perm items :=
  List.perm_insertionSort _ _

/-- The text that elements of a set are sorted by. -/
def sortKey (floatText : Double → List Char) (j : Json) : String := String.ofList (dumps floatText j)

/-- Elements in the order of their texts. -/
def Sorted (floatText : Double → List Char) (js : List Json) : Prop :=
  js.Pairwise fun a b => sortKey floatText a ≤ sortKey floatText b

theorem encodes_sorted (h : List.Forall₂ (Encodes floatText loaded) vs js) :
    ∃ us, vs.Perm us ∧ List.Forall₂ (Encodes floatText loaded) us (sortTexts floatText js) ∧
      Sorted floatText (sortTexts floatText js) := by
  obtain ⟨us,hus,hperm⟩ := List.perm_comp_forall₂ (sortTexts_perm js) h.flip
  exact ⟨us,hperm.symm,hus.flip,pairwise_sorted (sortKey floatText) js⟩

theorem encodes_set (h : Encodes floatText loaded (.set vs) j) :
    ∃ us js, j = tagged "set" [("values",.arr js)] ∧ vs.Perm us ∧
      List.Forall₂ (Encodes floatText loaded) us js ∧ Sorted floatText js := by
  obtain ⟨path,h⟩ := h
  rw [encode] at h
  obtain ⟨js,hjs,h⟩ := bind_ok h
  cases h
  obtain ⟨us,hperm,hus,hsorted⟩ := encodes_sorted (encodeSet_ok hjs)
  exact ⟨us,_,rfl,hperm,hus,hsorted⟩

theorem encodes_frozenset (h : Encodes floatText loaded (.frozenset vs) j) :
    ∃ us js, j = tagged "frozenset" [("values",.arr js)] ∧ vs.Perm us ∧
      List.Forall₂ (Encodes floatText loaded) us js ∧ Sorted floatText js := by
  obtain ⟨path,h⟩ := h
  rw [encode] at h
  obtain ⟨js,hjs,h⟩ := bind_ok h
  cases h
  obtain ⟨us,hperm,hus,hsorted⟩ := encodes_sorted (encodeSet_ok hjs)
  exact ⟨us,_,rfl,hperm,hus,hsorted⟩

theorem strangeKey_none (h : strangeKey items = none) :
    ∀ item ∈ items, item.1 = .str (keyText item.1) := by
  intro item hitem
  have hnone := List.findSome?_eq_none_iff.mp h item hitem
  cases hkey : item.1 with
  | str s => rfl
  | other typeName text => simp [hkey] at hnone

/-- The tag is a key of the dictionary. -/
def Escaped (items : List (Key × Value)) : Prop := Key.str tag ∈ items.map Prod.fst

/-- An item of a mapping as it is written. -/
def pairJson (field : String × Json) : Json := .arr [.str field.1,field.2]

theorem encodes_dict (h : Encodes floatText loaded (.dict items) j) :
    ∃ fields, (∀ item ∈ items, item.1 = .str (keyText item.1)) ∧
      List.Forall₂ (EncodesItem floatText loaded) items fields ∧
        ((Escaped items ∧ j = tagged "mapping" [("items",.arr (fields.map pairJson))]) ∨
          (¬Escaped items ∧ j = .obj fields)) := by
  obtain ⟨path,h⟩ := h
  rw [encode] at h
  cases hkeys : strangeKey items with
  | some typeName => simp [hkeys] at h
  | none =>
    simp only [hkeys] at h
    obtain ⟨fields,hfields,h⟩ := bind_ok h
    refine ⟨fields,strangeKey_none hkeys,encodeItems_ok hfields,?_⟩
    split at h
    · next htag =>
        cases h
        exact .inl ⟨List.contains_iff_mem.mp htag,rfl⟩
    · next htag =>
        cases h
        exact .inr ⟨fun hmem => htag (List.contains_iff_mem.mpr hmem),rfl⟩

/-- What the encoder knows of a class that is recorded. -/
structure Importable (loaded : Loaded) (cls : ClassRef) : Prop where
  global : isLocal cls.qualname = false
  resolved : loaded.resolve cls.moduleName cls.qualname = .type cls

theorem ensureReplayableType_ok (h : ensureReplayableType loaded cls path = .ok ()) :
    Importable loaded cls := by
  unfold ensureReplayableType at h
  split at h
  · cases h
  · next hlocal =>
      split at h
      · next hresolve => exact ⟨Bool.eq_false_iff.mpr hlocal,hresolve⟩
      · cases h

def enumFields (cls : ClassRef) (name : Option String) (value : Json) : List (String × Json) :=
  [("module",.str cls.moduleName),("qualname",.str cls.qualname),("name",name.elim .null .str),
    ("value",value)]

theorem encodes_enum {name : Option String} {v : Value}
    (h : Encodes floatText loaded (.enum cls name v) j) :
    ∃ value, j = tagged "enum" (enumFields cls name value) ∧ Importable loaded cls ∧
      Encodes floatText loaded v value := by
  obtain ⟨path,h⟩ := h
  rw [encode] at h
  obtain ⟨⟨⟩,hcls,h⟩ := bind_ok h
  obtain ⟨value,hvalue,h⟩ := bind_ok h
  cases h
  exact ⟨value,rfl,ensureReplayableType_ok hcls,_,hvalue⟩

def namedtupleFields (cls : ClassRef) (fields : List String) (values : List Json) :
    List (String × Json) :=
  [("module",.str cls.moduleName),("qualname",.str cls.qualname),("fields",.arr (fields.map .str)),
    ("values",.arr values)]

theorem encodes_namedtuple {fields : List String}
    (hfields : loaded.definition cls = .namedtuple fields) (hlength : fields.length = vs.length)
    (h : Encodes floatText loaded (.namedtuple cls vs) j) :
    ∃ values, j = tagged "namedtuple" (namedtupleFields cls fields values) ∧
      Importable loaded cls ∧ List.Forall₂ (Encodes floatText loaded) vs values := by
  have hof : fieldsOf loaded cls = fields := by
    unfold fieldsOf
    rw [hfields]
  obtain ⟨path,h⟩ := h
  rw [encode] at h
  obtain ⟨⟨⟩,hcls,h⟩ := bind_ok h
  obtain ⟨values,hvalues,h⟩ := bind_ok h
  cases h
  rw [hof] at hvalues ⊢
  exact ⟨values,rfl,ensureReplayableType_ok hcls,encodeFields_ok hlength hvalues⟩

end Encoding

section Portability
variable {floatText : Double → List Char} {loaded : Loaded} {fields : List (String × Json)}

theorem portable_tagged {typeName : String} (hfields : PortableFields fields)
    (hkeys : ("type"::fields.map Prod.fst).Nodup) : Portable (tagged typeName fields) := by
  simp only [tagged,Portable,PortableFields,List.map_cons,List.map_nil,List.nodup_singleton]
  exact ⟨⟨⟨⟨trivial,hfields⟩,hkeys⟩,trivial⟩,trivial⟩

theorem portable_values {typeName : String} {values : List Json}
    (h : ∀ value ∈ values, Portable value) : Portable (tagged typeName [("values",.arr values)]) := by
  apply portable_tagged
  · exact ⟨portableAll_iff.mpr h,trivial⟩
  · simp

theorem portable_encoded {vs : List Value} {js : List Json}
    (h : List.Forall₂ (Encodes floatText loaded) vs js)
    (ih : ∀ v ∈ vs, ∀ j, Encodes floatText loaded v j → Portable j) : ∀ j ∈ js, Portable j := by
  intro j hj
  obtain ⟨v,hv,hencodes⟩ := forall₂_right h hj
  exact ih v hv j hencodes

variable {items : List (Key × Value)}

theorem portable_encodedItems (h : List.Forall₂ (EncodesItem floatText loaded) items fields)
    (ih : ∀ item ∈ items, ∀ j, Encodes floatText loaded item.2 j → Portable j) :
    ∀ field ∈ fields, Portable field.2 := by
  intro field hfield
  obtain ⟨item,hitem,-,hencodes⟩ := forall₂_right h hfield
  exact ih item hitem field.2 hencodes

theorem encodedKeys (h : List.Forall₂ (EncodesItem floatText loaded) items fields) :
    fields.map Prod.fst = items.map fun item => keyText item.1 := by
  induction h with
  | nil => rfl
  | cons hitem _ ih => rw [List.map_cons,List.map_cons,hitem.1,ih]

theorem keyTexts_nodup (hkeys : ∀ item ∈ items, item.1 = .str (keyText item.1))
    (hnodup : (items.map Prod.fst).Nodup) : (items.map fun item => keyText item.1).Nodup := by
  have htexts : (items.map fun item => keyText item.1).map Key.str = items.map Prod.fst := by
    rw [List.map_map]
    apply List.map_congr_left
    intro item hitem
    exact (hkeys item hitem).symm
  rw [← htexts] at hnodup
  exact hnodup.of_map _

theorem portable_leaf {v : Value} {j : Json} (hleaf : v.Leaf) (h : Encodes floatText loaded v j) :
    Portable j := by
  obtain ⟨path,h⟩ := h
  cases v with
  | list vs | tuple vs | set vs | frozenset vs | dict items | enum cls name u | namedtuple cls vs =>
    exact absurd hleaf id
  | float x =>
    rw [encode] at h
    split at h
    · next hfinite =>
        cases h
        exact hfinite
    · cases h
  | none | bool b | int n | str s =>
    rw [encode] at h
    cases h
    trivial
  | datetime d =>
    rw [encode] at h
    cases h
    apply portable_tagged
    · exact ⟨trivial,trivial,trivial⟩
    · simp
  | uuid u | bytes bs | decimal d =>
    rw [encode] at h
    cases h
    apply portable_tagged
    · exact ⟨trivial,trivial⟩
    · simp
  | other typeName =>
    rw [encode] at h
    cases h

theorem portable_cases : Cases fun v => Valid loaded v → ∀ j, Encodes floatText loaded v j →
    Portable j where
  leaf v hleaf _ j h := portable_leaf hleaf h
  list vs ih hvalid j h := by
    rw [Valid,validAll_iff] at hvalid
    obtain ⟨js,rfl,hjs⟩ := encodes_list h
    rw [Portable]
    exact portableAll_iff.mpr (portable_encoded hjs fun v hv => ih v hv (hvalid v hv))
  tuple vs ih hvalid j h := by
    rw [Valid,validAll_iff] at hvalid
    obtain ⟨js,rfl,hjs⟩ := encodes_tuple h
    exact portable_values (portable_encoded hjs fun v hv => ih v hv (hvalid v hv))
  set vs ih hvalid j h := by
    rw [Valid,validAll_iff] at hvalid
    obtain ⟨us,js,rfl,hperm,hjs,-⟩ := encodes_set h
    apply portable_values
    apply portable_encoded hjs
    intro v hv
    exact ih v (hperm.symm.subset hv) (hvalid.1 v (hperm.symm.subset hv))
  frozenset vs ih hvalid j h := by
    rw [Valid,validAll_iff] at hvalid
    obtain ⟨us,js,rfl,hperm,hjs,-⟩ := encodes_frozenset h
    apply portable_values
    apply portable_encoded hjs
    intro v hv
    exact ih v (hperm.symm.subset hv) (hvalid.1 v (hperm.symm.subset hv))
  dict items ih hvalid j h := by
    rw [Valid,validItems_iff] at hvalid
    obtain ⟨fields,hkeys,hfields,hj⟩ := encodes_dict h
    have hportable := portable_encodedItems hfields fun item hitem =>
      ih item hitem (hvalid.1 item hitem)
    rcases hj with ⟨-,rfl⟩ | ⟨-,rfl⟩
    · apply portable_tagged
      · refine ⟨portableAll_iff.mpr ?_,trivial⟩
        intro pair hpair
        obtain ⟨field,hfield,rfl⟩ := List.mem_map.mp hpair
        exact ⟨trivial,hportable field hfield,trivial⟩
      · simp
    · rw [Portable,encodedKeys hfields]
      exact ⟨portableFields_iff.mpr hportable,keyTexts_nodup hkeys hvalid.2⟩
  enum cls name v ih hvalid j h := by
    rw [Valid] at hvalid
    obtain ⟨value,rfl,-,hvalue⟩ := encodes_enum h
    apply portable_tagged
    · have hname : Portable (name.elim .null .str) := by
        cases name with
        | none => trivial
        | some n => trivial
      exact ⟨trivial,trivial,hname,ih hvalid.1 value hvalue,trivial⟩
    · simp [enumFields]
  namedtuple cls vs ih hvalid j h := by
    rw [Valid,validAll_iff] at hvalid
    obtain ⟨hvalid,fields,hfields,hlength⟩ := hvalid
    obtain ⟨values,rfl,-,hvalues⟩ := encodes_namedtuple hfields hlength h
    apply portable_tagged
    · have hnames : PortableAll (fields.map .str) := by
        apply portableAll_iff.mpr
        intro name hname
        obtain ⟨s,-,rfl⟩ := List.mem_map.mp hname
        trivial
      exact ⟨trivial,trivial,hnames,
        portableAll_iff.mpr (portable_encoded hvalues fun v hv => ih v hv (hvalid v hv)),trivial⟩
    · simp [namedtupleFields]

end Portability

end OneStep.EncodedValues
