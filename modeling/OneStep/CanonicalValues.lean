import OneStep.CanonicalJson
import OneStep.EncodedValues

/-!
# Values told by their canonical form

The canonical form of what `encode_value` writes tells values apart up to the
order of sets and dictionaries, except that a dictionary with the tag as a key is
written as a list and keeps its order.
-/
namespace OneStep.CanonicalValues
open DateTimeText ItemLists JsonText JsonValues PythonValues ScalarTexts ValueEquality CaptureCodec
open EncodedValues CanonicalJson

section Forms
variable (floatText : Double → List Char) (loaded : Loaded)

/-- The canonical form of what is written for a value. -/
def Canonical (v : Value) (c : Json) : Prop := ∃ j, Encodes floatText loaded v j ∧ canon j = c

/-- An item and the field of its canonical form. -/
def CanonicalItem (item : Key × Value) (field : String × Json) : Prop :=
  item.1 = .str field.1 ∧ Canonical floatText loaded item.2 field.2

/-- The canonical form of a tag. -/
def canonTagged (typeName : String) (fields : List (String × Json)) : Json :=
  .obj [(tag,.obj (sortFields (("type",.str typeName)::fields)))]

variable {floatText loaded} {vs : List Value}

theorem canon_tagged (typeName : String) (fields : List (String × Json)) :
    canon (tagged typeName fields) = canonTagged typeName (canonFields fields) := by
  simp [tagged,canonTagged,canon,canonFields,sortFields]

theorem canonical_all {js : List Json} (h : List.Forall₂ (Encodes floatText loaded) vs js) :
    List.Forall₂ (Canonical floatText loaded) vs (canonAll js) := by
  rw [canonAll_eq,List.forall₂_map_right_iff]
  exact h.imp fun _ j hj => ⟨j,hj,rfl⟩

theorem canonical_items {items : List (Key × Value)} {fields : List (String × Json)}
    (h : List.Forall₂ (EncodesItem floatText loaded) items fields)
    (hkeys : ∀ item ∈ items, item.1 = .str (keyText item.1)) :
    List.Forall₂ (CanonicalItem floatText loaded) items (canonFields fields) := by
  rw [canonFields_eq,List.forall₂_map_right_iff]
  induction h with
  | nil => exact .nil
  | @cons item field _ _ hitem _ ih =>
    rw [List.forall_mem_cons] at hkeys
    refine .cons ⟨?_,field.2,hitem.2,rfl⟩ (ih hkeys.2)
    rw [hkeys.1,hitem.1]
    rfl

variable {c : Json}

theorem canonical_list (h : Canonical floatText loaded (.list vs) c) :
    ∃ cs, c = .arr cs ∧ List.Forall₂ (Canonical floatText loaded) vs cs := by
  obtain ⟨j,hj,rfl⟩ := h
  obtain ⟨js,rfl,hjs⟩ := encodes_list hj
  exact ⟨_,by rw [canon],canonical_all hjs⟩

theorem canonical_tuple (h : Canonical floatText loaded (.tuple vs) c) :
    ∃ cs, c = canonTagged "tuple" [("values",.arr cs)] ∧
      List.Forall₂ (Canonical floatText loaded) vs cs := by
  obtain ⟨j,hj,rfl⟩ := h
  obtain ⟨js,rfl,hjs⟩ := encodes_tuple hj
  refine ⟨_,?_,canonical_all hjs⟩
  rw [canon_tagged,canonFields,canonFields,canon]

/-- Canonical forms in the order of their texts. -/
def PlainSorted (floatText : Double → List Char) (cs : List Json) : Prop :=
  cs.Pairwise fun a b => String.ofList (plain floatText a) ≤ String.ofList (plain floatText b)

theorem plainSorted {js : List Json} (h : Sorted floatText js) :
    PlainSorted floatText (canonAll js) := by
  rw [canonAll_eq,PlainSorted,List.pairwise_map]
  apply h.imp
  intro a b hab
  rw [← dumps_cases.all a,← dumps_cases.all b]
  exact hab

theorem canonical_set (h : Canonical floatText loaded (.set vs) c) :
    ∃ us cs, c = canonTagged "set" [("values",.arr cs)] ∧ vs.Perm us ∧
      List.Forall₂ (Canonical floatText loaded) us cs ∧ PlainSorted floatText cs := by
  obtain ⟨j,hj,rfl⟩ := h
  obtain ⟨us,js,rfl,hperm,hjs,hsorted⟩ := encodes_set hj
  refine ⟨us,_,?_,hperm,canonical_all hjs,plainSorted hsorted⟩
  rw [canon_tagged,canonFields,canonFields,canon]

theorem canonical_frozenset (h : Canonical floatText loaded (.frozenset vs) c) :
    ∃ us cs, c = canonTagged "frozenset" [("values",.arr cs)] ∧ vs.Perm us ∧
      List.Forall₂ (Canonical floatText loaded) us cs ∧ PlainSorted floatText cs := by
  obtain ⟨j,hj,rfl⟩ := h
  obtain ⟨us,js,rfl,hperm,hjs,hsorted⟩ := encodes_frozenset hj
  refine ⟨us,_,?_,hperm,canonical_all hjs,plainSorted hsorted⟩
  rw [canon_tagged,canonFields,canonFields,canon]

theorem canonical_dict {items : List (Key × Value)}
    (h : Canonical floatText loaded (.dict items) c) :
    ∃ fields, List.Forall₂ (CanonicalItem floatText loaded) items fields ∧
      ((Escaped items ∧ c = canonTagged "mapping" [("items",.arr (fields.map pairJson))]) ∨
        (¬Escaped items ∧ c = .obj (sortFields fields))) := by
  obtain ⟨j,hj,rfl⟩ := h
  obtain ⟨fields,hkeys,hfields,hj⟩ := encodes_dict hj
  refine ⟨_,canonical_items hfields hkeys,?_⟩
  rcases hj with ⟨htag,rfl⟩ | ⟨htag,rfl⟩
  · have hpairs : canonAll (fields.map pairJson) = (canonFields fields).map pairJson := by
      rw [canonAll_eq,canonFields_eq,List.map_map,List.map_map]
      apply List.map_congr_left
      intro field _
      simp [pairJson,mapValue,canon,canonAll]
    refine .inl ⟨htag,?_⟩
    rw [canon_tagged,canonFields,canonFields,canon,hpairs]
  · refine .inr ⟨htag,?_⟩
    rw [canon]

theorem canonical_enum {cls : ClassRef} {name : Option String} {v : Value}
    (h : Canonical floatText loaded (.enum cls name v) c) :
    ∃ d, c = canonTagged "enum" (enumFields cls name d) ∧ Importable loaded cls ∧
      Canonical floatText loaded v d := by
  obtain ⟨j,hj,rfl⟩ := h
  obtain ⟨value,rfl,hcls,hvalue⟩ := encodes_enum hj
  refine ⟨canon value,?_,hcls,value,hvalue,rfl⟩
  have hname : canon (name.elim .null .str) = name.elim .null .str := by
    cases name with
    | none => simp [canon]
    | some n => simp [canon]
  rw [canon_tagged]
  simp [enumFields,canonFields,canon,hname]

theorem canonical_namedtuple {cls : ClassRef} {fields : List String}
    (hfields : loaded.definition cls = .namedtuple fields) (hlength : fields.length = vs.length)
    (h : Canonical floatText loaded (.namedtuple cls vs) c) :
    ∃ cs, c = canonTagged "namedtuple" (namedtupleFields cls fields cs) ∧ Importable loaded cls ∧
      List.Forall₂ (Canonical floatText loaded) vs cs := by
  obtain ⟨j,hj,rfl⟩ := h
  obtain ⟨values,rfl,hcls,hvalues⟩ := encodes_namedtuple hfields hlength hj
  refine ⟨canonAll values,?_,hcls,canonical_all hvalues⟩
  have hnames : canonAll (fields.map .str) = fields.map .str := by
    rw [canonAll_eq,List.map_map]
    apply List.map_congr_left
    intro name _
    simp [canon]
  rw [canon_tagged]
  simp [namedtupleFields,canonFields,canon,hnames]

end Forms

section Kinds

/-- The kind of value that a canonical form is of. -/
def kindOf : Json → String
  | .null => "none"
  | .bool _ => "bool"
  | .int _ => "int"
  | .float _ => "float"
  | .str _ => "str"
  | .arr _ => "list"
  | .obj fields =>
    match fields.lookup tag with
    | some (.obj payload) =>
      match payload.lookup "type" with
      | some (.str typeName) => if typeName = "mapping" then "dict" else typeName
      | _ => "dict"
    | _ => "dict"

def valueKind : Value → String
  | .none => "none"
  | .bool _ => "bool"
  | .int _ => "int"
  | .float _ => "float"
  | .str _ => "str"
  | .datetime _ => "datetime"
  | .uuid _ => "uuid"
  | .bytes _ => "bytes"
  | .decimal _ => "decimal"
  | .list _ => "list"
  | .tuple _ => "tuple"
  | .set _ => "set"
  | .frozenset _ => "frozenset"
  | .dict _ => "dict"
  | .enum _ _ _ => "enum"
  | .namedtuple _ _ => "namedtuple"
  | .other _ => "other"

/-- The keys of a tag are distinct. -/
def TagKeys (fields : List (String × Json)) : Prop := ("type"::fields.map Prod.fst).Nodup

variable {fields : List (String × Json)}

theorem lookup_sorted (typeName : String) (hkeys : TagKeys fields) (key : String) :
    (sortFields (("type",Json.str typeName)::fields)).lookup key =
      (("type",Json.str typeName)::fields).lookup key := by
  have hperm := sortFields_perm (("type",Json.str typeName)::fields)
  apply lookup_perm hperm
  rw [(hperm.map Prod.fst).nodup_iff]
  exact hkeys

variable {typeName : String} {key : String}

theorem kind_tagged (hkeys : TagKeys fields) :
    kindOf (canonTagged typeName fields) = if typeName = "mapping" then "dict" else typeName := by
  simp only [kindOf,canonTagged,List.lookup_cons_self,lookup_sorted typeName hkeys]

theorem canonTagged_inj {others : List (String × Json)} (hkeys : TagKeys fields)
    (hkeys' : TagKeys others) (h : canonTagged typeName fields = canonTagged typeName others)
    (hne : key ≠ "type") : fields.lookup key = others.lookup key := by
  unfold canonTagged at h
  have hsorted : sortFields (("type",Json.str typeName)::fields) =
      sortFields (("type",Json.str typeName)::others) := by
    simpa using h
  have hleft := lookup_sorted typeName hkeys key
  rw [hsorted,lookup_sorted typeName hkeys' key] at hleft
  have hbeq : (key == "type") = false := beq_eq_false_iff_ne.mpr hne
  rw [List.lookup_cons,List.lookup_cons,hbeq] at hleft
  exact hleft.symm

theorem tagKeys_one (hkey : key ≠ "type") (j : Json) : TagKeys [(key,j)] := by
  simp [TagKeys,hkey.symm]

theorem tagKeys_enum (cls : ClassRef) (name : Option String) (j : Json) :
    TagKeys (enumFields cls name j) := by
  simp [TagKeys,enumFields]

theorem tagKeys_namedtuple (cls : ClassRef) (fields : List String) (js : List Json) :
    TagKeys (namedtupleFields cls fields js) := by
  simp [TagKeys,namedtupleFields]

def datetimeFields (d : DateTime) : List (String × Json) :=
  [("value",.str (String.ofList (isoformat d))),("fold",.int (if d.fold then 1 else 0))]

theorem tagKeys_datetime (d : DateTime) : TagKeys (datetimeFields d) := by
  simp [TagKeys,datetimeFields]

theorem canonTagged_one (hkey : key ≠ "type") {j k : Json}
    (h : canonTagged typeName [(key,j)] = canonTagged typeName [(key,k)]) : j = k := by
  have hlookup := canonTagged_inj (tagKeys_one hkey j) (tagKeys_one hkey k) h hkey
  simpa using hlookup

end Kinds

section Leaves
variable {floatText : Double → List Char} {loaded : Loaded}

/-- The canonical form of a value that is not made of others. -/
def leafForm : Value → Json
  | .bool b => .bool b
  | .int n => .int n
  | .float x => .float x
  | .str s => .str s
  | .datetime d => canonTagged "datetime" (datetimeFields d)
  | .uuid u => canonTagged "uuid" [("value",.str (String.ofList (uuidText u)))]
  | .bytes bytes => canonTagged "bytes" [("value",.str (String.ofList (b64encode bytes)))]
  | .decimal d => canonTagged "decimal" [("value",.str (String.ofList (decimalText d)))]
  | _ => .null

theorem canonical_leaf {v : Value} {c : Json} (hleaf : v.Leaf)
    (h : Canonical floatText loaded v c) : c = leafForm v ∧ ∀ typeName, v ≠ .other typeName := by
  obtain ⟨j,⟨path,hj⟩,rfl⟩ := h
  cases v with
  | list vs | tuple vs | set vs | frozenset vs | dict items | enum cls name u | namedtuple cls vs =>
    exact absurd hleaf id
  | float x =>
    rw [encode] at hj
    split at hj
    · cases hj
      simp [canon,leafForm]
    · cases hj
  | none | bool b | int n | str s =>
    rw [encode] at hj
    cases hj
    simp [canon,leafForm]
  | datetime d =>
    rw [encode] at hj
    cases hj
    rw [canon_tagged]
    simp [canonFields,canon,leafForm,datetimeFields]
  | uuid u | bytes bs | decimal d =>
    rw [encode] at hj
    cases hj
    rw [canon_tagged]
    simp [canonFields,canon,leafForm]
  | other typeName =>
    rw [encode] at hj
    cases hj

theorem kind_leaf {v : Value} (hleaf : v.Leaf) (hother : ∀ typeName, v ≠ .other typeName) :
    kindOf (leafForm v) = valueKind v := by
  cases v with
  | list vs | tuple vs | set vs | frozenset vs | dict items | enum cls name u | namedtuple cls vs =>
    exact absurd hleaf id
  | none | bool b | int n | float x | str s => rfl
  | datetime d => simp [leafForm,kind_tagged (tagKeys_datetime d),valueKind]
  | uuid u | bytes bs | decimal d =>
    simp [leafForm,kind_tagged (tagKeys_one (show "value" ≠ "type" by decide) _),valueKind]
  | other typeName => exact absurd rfl (hother typeName)

theorem isoformat_inj {d e : DateTime} (htext : isoformat d = isoformat e)
    (hfold : d.fold = e.fold) : d = e := by
  have hread := fromisoformat_isoformat d
  rw [htext,fromisoformat_isoformat] at hread
  have hsame : {e with fold := d.fold} = d := by
    have heq := Option.some.inj hread
    calc ({e with fold := d.fold} : DateTime)
        = {({e with fold := false} : DateTime) with fold := d.fold} := rfl
      _ = {({d with fold := false} : DateTime) with fold := d.fold} := by rw [heq]
      _ = d := rfl
  rw [← hsame,hfold]

theorem text_inj {α : Type} {write : α → List Char} {read : List Char → Option α}
    (h : ∀ a, read (write a) = some a) {a b : α}
    (heq : Json.str (String.ofList (write a)) = .str (String.ofList (write b))) : a = b := by
  have htext : write a = write b := String.ofList_inj.mp (Json.str.inj heq)
  have hread := h a
  rw [htext,h] at hread
  exact (Option.some.inj hread).symm

theorem leafForm_inj {v w : Value} (hleaf : v.Leaf) (hkind : valueKind v = valueKind w)
    (hother : ∀ typeName, v ≠ .other typeName) (h : leafForm v = leafForm w) : v = w := by
  cases v with
  | list vs | tuple vs | set vs | frozenset vs | dict items | enum cls name u | namedtuple cls vs =>
    exact absurd hleaf id
  | none =>
    cases w with
    | none => rfl
    | _ => simp [valueKind] at hkind
  | bool b =>
    cases w with
    | bool b' => rw [Json.bool.inj h]
    | _ => simp [valueKind] at hkind
  | int n =>
    cases w with
    | int n' => rw [Json.int.inj h]
    | _ => simp [valueKind] at hkind
  | float x =>
    cases w with
    | float x' => rw [Json.float.inj h]
    | _ => simp [valueKind] at hkind
  | str s =>
    cases w with
    | str s' => rw [Json.str.inj h]
    | _ => simp [valueKind] at hkind
  | datetime d =>
    cases w with
    | datetime e =>
      have hkeys := tagKeys_datetime d
      have hkeys' := tagKeys_datetime e
      have hvalue := canonTagged_inj hkeys hkeys' h (show "value" ≠ "type" by decide)
      have hfold := canonTagged_inj hkeys hkeys' h (show "fold" ≠ "type" by decide)
      simp only [datetimeFields,List.lookup_cons_self,Option.some.injEq] at hvalue
      have hfolds : d.fold = e.fold := by
        cases hd : d.fold <;> cases he : e.fold <;>
          simp [datetimeFields,List.lookup_cons,hd,he] at hfold ⊢
      exact congrArg Value.datetime (isoformat_inj (String.ofList_inj.mp (Json.str.inj hvalue)) hfolds)
    | _ => simp [valueKind] at hkind
  | uuid u =>
    cases w with
    | uuid u' =>
      exact congrArg Value.uuid (text_inj readUuid_uuidText (canonTagged_one (by decide) h))
    | _ => simp [valueKind] at hkind
  | bytes bs =>
    cases w with
    | bytes bs' =>
      exact congrArg Value.bytes (text_inj b64decode_b64encode (canonTagged_one (by decide) h))
    | _ => simp [valueKind] at hkind
  | decimal d =>
    cases w with
    | decimal d' =>
      exact congrArg Value.decimal (text_inj readDecimal_decimalText (canonTagged_one (by decide) h))
    | _ => simp [valueKind] at hkind
  | other typeName => exact absurd rfl (hother typeName)

end Leaves

section Told
variable {floatText : Double → List Char} {loaded : Loaded} {fields : List (String × Json)}

theorem kind_obj (htag : tag ∉ fields.map Prod.fst) :
    kindOf (.obj (sortFields fields)) = "dict" := by
  have hlookup : (sortFields fields).lookup tag = none := by
    apply List.lookup_eq_none_iff.mpr
    intro field hfield
    apply bne_iff_ne.mpr
    intro heq
    exact htag (heq ▸ List.mem_map.mpr ⟨field,(sortFields_perm fields).subset hfield,rfl⟩)
  rw [kindOf,hlookup]

variable {items : List (Key × Value)}

theorem tag_notMem (h : List.Forall₂ (CanonicalItem floatText loaded) items fields)
    (htag : ¬Escaped items) : tag ∉ fields.map Prod.fst := by
  intro hmem
  obtain ⟨field,hfield,hkey⟩ := List.mem_map.mp hmem
  obtain ⟨item,hitem,hkeys,-⟩ := forall₂_right h hfield
  apply htag
  rw [Escaped,← hkey]
  exact List.mem_map.mpr ⟨item,hitem,hkeys⟩

theorem canonical_kind {v : Value} (hvalid : Valid loaded v) {c : Json}
    (h : Canonical floatText loaded v c) : kindOf c = valueKind v := by
  cases v with
  | list vs =>
    obtain ⟨cs,rfl,-⟩ := canonical_list h
    rfl
  | tuple vs =>
    obtain ⟨cs,rfl,-⟩ := canonical_tuple h
    simp [kind_tagged (tagKeys_one (show "values" ≠ "type" by decide) _),valueKind]
  | set vs =>
    obtain ⟨us,cs,rfl,-⟩ := canonical_set h
    simp [kind_tagged (tagKeys_one (show "values" ≠ "type" by decide) _),valueKind]
  | frozenset vs =>
    obtain ⟨us,cs,rfl,-⟩ := canonical_frozenset h
    simp [kind_tagged (tagKeys_one (show "values" ≠ "type" by decide) _),valueKind]
  | dict items =>
    obtain ⟨fields,hfields,hform⟩ := canonical_dict h
    rcases hform with ⟨-,rfl⟩ | ⟨htag,rfl⟩
    · simp [kind_tagged (tagKeys_one (show "items" ≠ "type" by decide) _),valueKind]
    · exact kind_obj (tag_notMem hfields htag)
  | enum cls name u =>
    obtain ⟨d,rfl,-⟩ := canonical_enum h
    simp [kind_tagged (tagKeys_enum cls name d),valueKind]
  | namedtuple cls vs =>
    rw [Valid] at hvalid
    obtain ⟨-,fields,hfields,hlength⟩ := hvalid
    obtain ⟨cs,rfl,-⟩ := canonical_namedtuple hfields hlength h
    simp [kind_tagged (tagKeys_namedtuple cls fields cs),valueKind]
  | none | bool b | int n | float x | str t | datetime d | uuid u | bytes bs | decimal d | other t =>
    obtain ⟨rfl,hother⟩ := canonical_leaf (by exact trivial) h
    exact kind_leaf (by exact trivial) hother

theorem importable_unique {cls cls' : ClassRef} (h : Importable loaded cls)
    (h' : Importable loaded cls') (hmodule : cls.moduleName = cls'.moduleName)
    (hqualname : cls.qualname = cls'.qualname) : cls = cls' := by
  have hresolved := h.resolved
  rw [hmodule,hqualname,h'.resolved] at hresolved
  exact (Resolved.type.inj hresolved).symm

/-- Values with one canonical form are the same. -/
def Told (floatText : Double → List Char) (loaded : Loaded) (v : Value) : Prop :=
  ∀ w c, Valid loaded w → Canonical floatText loaded v c → Canonical floatText loaded w c →
    Same Escaped v w

theorem told_all {vs ws : List Value} {cs : List Json}
    (ih : ∀ v ∈ vs, Valid loaded v → Told floatText loaded v)
    (hvs : ∀ v ∈ vs, Valid loaded v) (hws : ∀ w ∈ ws, Valid loaded w)
    (hleft : List.Forall₂ (Canonical floatText loaded) vs cs)
    (hright : List.Forall₂ (Canonical floatText loaded) ws cs) :
    List.Forall₂ (Same Escaped) vs ws := by
  apply forall₂_join hleft hright
  intro v hv w hw c hc hd
  exact ih v hv (hvs v hv) w c (hws w hw) hc hd

theorem told_bag {vs us ws us' : List Value} {cs : List Json}
    (ih : ∀ v ∈ vs, Valid loaded v → Told floatText loaded v)
    (hvs : ∀ v ∈ vs, Valid loaded v) (hws : ∀ w ∈ ws, Valid loaded w) (hperm : vs.Perm us)
    (hperm' : ws.Perm us') (hleft : List.Forall₂ (Canonical floatText loaded) us cs)
    (hright : List.Forall₂ (Canonical floatText loaded) us' cs) : SameBag Escaped vs ws := by
  have hsame : List.Forall₂ (Same Escaped) us us' := by
    apply told_all _ _ _ hleft hright
    · intro v hv
      exact ih v (hperm.symm.subset hv)
    · intro v hv
      exact hvs v (hperm.symm.subset hv)
    · intro w hw
      exact hws w (hperm'.symm.subset hw)
  obtain ⟨xs,hxs,hback⟩ := List.perm_comp_forall₂ hperm hsame
  exact sameBag_iff.mpr ⟨xs,hback.trans hperm'.symm,hxs⟩

theorem told_items {others : List (Key × Value)}
    (ih : ∀ item ∈ items, Valid loaded item.2 → Told floatText loaded item.2)
    (hitems : ∀ item ∈ items, Valid loaded item.2) (hothers : ∀ item ∈ others, Valid loaded item.2)
    (hleft : List.Forall₂ (CanonicalItem floatText loaded) items fields)
    (hright : List.Forall₂ (CanonicalItem floatText loaded) others fields) :
    List.Forall₂ (SameItem Escaped) items others := by
  apply forall₂_join hleft hright
  intro item hitem other hother field hfield hfield'
  exact ⟨hfield.1.trans hfield'.1.symm,
    ih item hitem (hitems item hitem) other.2 field.2 (hothers other hother) hfield.2 hfield'.2⟩

theorem pairJson_inj {others : List (String × Json)} (h : fields.map pairJson = others.map pairJson) :
    fields = others := by
  apply List.map_injective_iff.mpr _ h
  intro a b hab
  simp only [pairJson,Json.arr.injEq,List.cons.injEq,Json.str.injEq,and_true] at hab
  exact Prod.ext hab.1 hab.2

theorem mapping_ne_obj {others : List (String × Json)} (htag : tag ∉ others.map Prod.fst) :
    canonTagged "mapping" [("items",.arr (fields.map pairJson))] ≠ .obj (sortFields others) := by
  intro h
  have hfields := Json.obj.inj h
  apply htag
  have hmem : tag ∈ (sortFields others).map Prod.fst := by
    rw [← hfields]
    exact List.mem_cons_self
  exact ((sortFields_perm others).map Prod.fst).subset hmem

theorem told_dict {others : List (Key × Value)} {c : Json}
    (ih : ∀ item ∈ items, Valid loaded item.2 → Told floatText loaded item.2)
    (hvalid : Valid loaded (.dict items)) (hvalid' : Valid loaded (.dict others))
    (hleft : Canonical floatText loaded (.dict items) c)
    (hright : Canonical floatText loaded (.dict others) c) :
    Same Escaped (.dict items) (.dict others) := by
  rw [Valid,validItems_iff] at hvalid hvalid'
  obtain ⟨fields,hfields,hform⟩ := canonical_dict hleft
  obtain ⟨fields',hfields',hform'⟩ := canonical_dict hright
  rw [Same]
  refine ⟨others,rfl,?_⟩
  rcases hform with ⟨-,rfl⟩ | ⟨htag,rfl⟩
  · rcases hform' with ⟨-,heq⟩ | ⟨htag',heq⟩
    · have hpairs := canonTagged_one (by decide) heq
      cases pairJson_inj (Json.arr.inj hpairs)
      have hsame := told_items ih hvalid.1 hvalid'.1 hfields hfields'
      exact ⟨sameItems_iff.mpr ⟨others,.refl _,hsame⟩,fun _ => keys_same hsame⟩
    · exact absurd heq (mapping_ne_obj (tag_notMem hfields' htag'))
  · rcases hform' with ⟨-,heq⟩ | ⟨htag',heq⟩
    · exact absurd heq.symm (mapping_ne_obj (tag_notMem hfields htag))
    · have hperm : fields.Perm fields' := by
        have hsorted := Json.obj.inj heq
        exact (sortFields_perm fields).symm.trans (hsorted ▸ sortFields_perm fields')
      obtain ⟨us,hus,hback⟩ := List.perm_comp_forall₂ hperm hfields'.flip
      have hvalidUs : ∀ item ∈ us, Valid loaded item.2 := fun item hitem =>
        hvalid'.1 item (hback.subset hitem)
      have hsame := told_items ih hvalid.1 hvalidUs hfields hus.flip
      exact ⟨sameItems_iff.mpr ⟨us,hback,hsame⟩,fun hescaped => absurd hescaped htag⟩

theorem told_cases : Cases fun v => Valid loaded v → Told floatText loaded v where
  leaf v hleaf hvalid w c hvalid' hv hw := by
    have hkind := (canonical_kind hvalid hv).symm.trans (canonical_kind hvalid' hw)
    obtain ⟨hform,hother⟩ := canonical_leaf hleaf hv
    have hleaf' : w.Leaf := by
      cases w with
      | list vs | tuple vs | set vs | frozenset vs | dict items | enum cls name u
        | namedtuple cls vs => cases v <;> first | exact absurd hleaf id | simp [valueKind] at hkind
      | _ => trivial
    obtain ⟨hform',-⟩ := canonical_leaf hleaf' hw
    exact (same_leaf hleaf).mpr (leafForm_inj hleaf hkind hother (hform.symm.trans hform'))
  list vs ih hvalid w c hvalid' hv hw := by
    have hkind := (canonical_kind hvalid hv).symm.trans (canonical_kind hvalid' hw)
    cases w with
    | list ws =>
      rw [Valid,validAll_iff] at hvalid hvalid'
      obtain ⟨cs,rfl,hcs⟩ := canonical_list hv
      obtain ⟨ds,heq,hds⟩ := canonical_list hw
      cases heq
      rw [Same]
      exact ⟨ws,rfl,sameAll_iff.mpr (told_all ih hvalid hvalid' hcs hds)⟩
    | _ => simp [valueKind] at hkind
  tuple vs ih hvalid w c hvalid' hv hw := by
    have hkind := (canonical_kind hvalid hv).symm.trans (canonical_kind hvalid' hw)
    cases w with
    | tuple ws =>
      rw [Valid,validAll_iff] at hvalid hvalid'
      obtain ⟨cs,rfl,hcs⟩ := canonical_tuple hv
      obtain ⟨ds,heq,hds⟩ := canonical_tuple hw
      cases Json.arr.inj (canonTagged_one (by decide) heq)
      rw [Same]
      exact ⟨ws,rfl,sameAll_iff.mpr (told_all ih hvalid hvalid' hcs hds)⟩
    | _ => simp [valueKind] at hkind
  set vs ih hvalid w c hvalid' hv hw := by
    have hkind := (canonical_kind hvalid hv).symm.trans (canonical_kind hvalid' hw)
    cases w with
    | set ws =>
      rw [Valid,validAll_iff] at hvalid hvalid'
      obtain ⟨us,cs,rfl,hperm,hcs,-⟩ := canonical_set hv
      obtain ⟨us',ds,heq,hperm',hds,-⟩ := canonical_set hw
      cases Json.arr.inj (canonTagged_one (by decide) heq)
      rw [Same]
      exact ⟨ws,rfl,told_bag ih hvalid.1 hvalid'.1 hperm hperm' hcs hds⟩
    | _ => simp [valueKind] at hkind
  frozenset vs ih hvalid w c hvalid' hv hw := by
    have hkind := (canonical_kind hvalid hv).symm.trans (canonical_kind hvalid' hw)
    cases w with
    | frozenset ws =>
      rw [Valid,validAll_iff] at hvalid hvalid'
      obtain ⟨us,cs,rfl,hperm,hcs,-⟩ := canonical_frozenset hv
      obtain ⟨us',ds,heq,hperm',hds,-⟩ := canonical_frozenset hw
      cases Json.arr.inj (canonTagged_one (by decide) heq)
      rw [Same]
      exact ⟨ws,rfl,told_bag ih hvalid.1 hvalid'.1 hperm hperm' hcs hds⟩
    | _ => simp [valueKind] at hkind
  dict items ih hvalid w c hvalid' hv hw := by
    have hkind := (canonical_kind hvalid hv).symm.trans (canonical_kind hvalid' hw)
    cases w with
    | dict others => exact told_dict ih hvalid hvalid' hv hw
    | _ => simp [valueKind] at hkind
  enum cls name v ih hvalid w c hvalid' hv hw := by
    have hkind := (canonical_kind hvalid hv).symm.trans (canonical_kind hvalid' hw)
    cases w with
    | enum cls' name' u =>
      rw [Valid] at hvalid hvalid'
      obtain ⟨d,rfl,hcls,hd⟩ := canonical_enum hv
      obtain ⟨d',heq,hcls',hd'⟩ := canonical_enum hw
      have hlookup := fun {key : String} (hne : key ≠ "type") =>
        canonTagged_inj (tagKeys_enum cls name d) (tagKeys_enum cls' name' d') heq hne
      have hmodule := hlookup (show "module" ≠ "type" by decide)
      have hqualname := hlookup (show "qualname" ≠ "type" by decide)
      have hname := hlookup (show "name" ≠ "type" by decide)
      have hvalue := hlookup (show "value" ≠ "type" by decide)
      simp [enumFields,List.lookup_cons] at hmodule hqualname hname hvalue
      cases importable_unique hcls hcls' hmodule hqualname
      subst hvalue
      have hnames : name = name' := by
        cases name <;> cases name' <;> simp_all
      rw [Same,hnames]
      exact ⟨u,rfl,ih hvalid.1 u d hvalid'.1 hd hd'⟩
    | _ => simp [valueKind] at hkind
  namedtuple cls vs ih hvalid w c hvalid' hv hw := by
    have hkind := (canonical_kind hvalid hv).symm.trans (canonical_kind hvalid' hw)
    cases w with
    | namedtuple cls' ws =>
      rw [Valid,validAll_iff] at hvalid hvalid'
      obtain ⟨hvalid,fields,hfields,hlength⟩ := hvalid
      obtain ⟨hvalid',fields',hfields',hlength'⟩ := hvalid'
      obtain ⟨cs,rfl,hcls,hcs⟩ := canonical_namedtuple hfields hlength hv
      obtain ⟨ds,heq,hcls',hds⟩ := canonical_namedtuple hfields' hlength' hw
      have hlookup := fun {key : String} (hne : key ≠ "type") =>
        canonTagged_inj (tagKeys_namedtuple cls fields cs) (tagKeys_namedtuple cls' fields' ds)
          heq hne
      have hmodule := hlookup (show "module" ≠ "type" by decide)
      have hqualname := hlookup (show "qualname" ≠ "type" by decide)
      have hvalues := hlookup (show "values" ≠ "type" by decide)
      simp [namedtupleFields,List.lookup_cons] at hmodule hqualname hvalues
      cases importable_unique hcls hcls' hmodule hqualname
      subst hvalues
      rw [Same]
      exact ⟨ws,rfl,sameAll_iff.mpr (told_all ih hvalid hvalid' hcs hds)⟩
    | _ => simp [valueKind] at hkind

end Told

section Determined
variable {floatText : Double → List Char} {loaded : Loaded} {items others : List (Key × Value)}

/-- Values that are the same have one canonical form. -/
def Determined (floatText : Double → List Char) (loaded : Loaded) (v : Value) : Prop :=
  ∀ w c d, Valid loaded w → Same Escaped v w → Canonical floatText loaded v c →
    Canonical floatText loaded w d → c = d

theorem determined_all {vs ws : List Value} {cs ds : List Json}
    (ih : ∀ v ∈ vs, Valid loaded v → Determined floatText loaded v)
    (hvs : ∀ v ∈ vs, Valid loaded v) (hws : ∀ w ∈ ws, Valid loaded w)
    (hsame : List.Forall₂ (Same Escaped) vs ws)
    (hleft : List.Forall₂ (Canonical floatText loaded) vs cs)
    (hright : List.Forall₂ (Canonical floatText loaded) ws ds) : cs = ds := by
  apply forall₂_determined hsame hleft hright
  intro v hv w hw c d hvw hc hd
  exact ih v hv (hvs v hv) w c d (hws w hw) hvw hc hd

theorem determined_items {fields fields' : List (String × Json)}
    (ih : ∀ item ∈ items, Valid loaded item.2 → Determined floatText loaded item.2)
    (hitems : ∀ item ∈ items, Valid loaded item.2) (hothers : ∀ item ∈ others, Valid loaded item.2)
    (hsame : List.Forall₂ (SameItem Escaped) items others)
    (hleft : List.Forall₂ (CanonicalItem floatText loaded) items fields)
    (hright : List.Forall₂ (CanonicalItem floatText loaded) others fields') : fields = fields' := by
  apply forall₂_determined hsame hleft hright
  intro item hitem other hother field field' hsame hfield hfield'
  have hkey : Key.str field.1 = .str field'.1 := by
    rw [← hfield.1,← hfield'.1]
    exact hsame.1
  have hvalue := ih item hitem (hitems item hitem) other.2 field.2 field'.2 (hothers other hother)
    hsame.2 hfield.2 hfield'.2
  exact Prod.ext (Key.str.inj hkey) hvalue

theorem canonical_portable {v : Value} (hvalid : Valid loaded v) {c : Json}
    (h : Canonical floatText loaded v c) : Portable c := by
  obtain ⟨j,hj,rfl⟩ := h
  exact portable_canon.all j (portable_cases.all v hvalid j hj)

theorem determined_bag (htexts : FloatTexts floatText) {vs us ws us' : List Value}
    {cs ds : List Json} (ih : ∀ v ∈ vs, Valid loaded v → Determined floatText loaded v)
    (hvs : ∀ v ∈ vs, Valid loaded v) (hws : ∀ w ∈ ws, Valid loaded w)
    (hsame : SameBag Escaped vs ws) (hperm : vs.Perm us) (hperm' : ws.Perm us')
    (hleft : List.Forall₂ (Canonical floatText loaded) us cs)
    (hright : List.Forall₂ (Canonical floatText loaded) us' ds)
    (hsorted : PlainSorted floatText cs) (hsorted' : PlainSorted floatText ds) : cs = ds := by
  obtain ⟨xs,hxs,hmatch⟩ := sameBag_iff.mp hsame
  obtain ⟨cs',hcs',hcs⟩ := List.perm_comp_forall₂ hperm hleft
  obtain ⟨ds',hds',hds⟩ := List.perm_comp_forall₂ (hxs.trans hperm') hright
  have hvalid : ∀ x ∈ xs, Valid loaded x := fun x hx => hws x (hxs.subset hx)
  cases determined_all ih hvs hvalid hmatch hcs' hds'
  have hportable : ∀ c ∈ cs', Portable c := by
    intro c hc
    obtain ⟨v,hv,hform⟩ := forall₂_right hcs' hc
    exact canonical_portable (hvs v hv) hform
  apply sorted_unique (fun c => String.ofList (plain floatText c)) (hcs.symm.trans hds) hsorted hsorted'
  intro c hc d hd heq
  exact plain_inj htexts (hportable c (hcs.symm.subset hc)) (hportable d (hds.symm.subset hd))
    (String.ofList_inj.mp heq)

theorem escaped_same {us : List (Key × Value)} (hperm : us.Perm others)
    (h : List.Forall₂ (SameItem Escaped) items us) : Escaped items ↔ Escaped others := by
  rw [Escaped,Escaped,keys_same h]
  exact (hperm.map Prod.fst).mem_iff

theorem fields_nodup {fields : List (String × Json)}
    (h : List.Forall₂ (CanonicalItem floatText loaded) items fields)
    (hnodup : (items.map Prod.fst).Nodup) : (fields.map Prod.fst).Nodup := by
  have hkeys : items.map Prod.fst = (fields.map Prod.fst).map Key.str := by
    clear hnodup
    induction h with
    | nil => rfl
    | cons hitem _ ih => rw [List.map_cons,List.map_cons,List.map_cons,hitem.1,ih]
  rw [hkeys] at hnodup
  exact hnodup.of_map _

theorem determined_dict {c d : Json}
    (ih : ∀ item ∈ items, Valid loaded item.2 → Determined floatText loaded item.2)
    (hvalid : Valid loaded (.dict items)) (hvalid' : Valid loaded (.dict others))
    (h : Same Escaped (.dict items) (.dict others))
    (hleft : Canonical floatText loaded (.dict items) c)
    (hright : Canonical floatText loaded (.dict others) d) : c = d := by
  rw [Valid,validItems_iff] at hvalid hvalid'
  rw [Same] at h
  obtain ⟨_,heq,hsame,horder⟩ := h
  cases heq
  obtain ⟨us,hperm,hmatch⟩ := sameItems_iff.mp hsame
  obtain ⟨fields,hfields,hform⟩ := canonical_dict hleft
  obtain ⟨fields',hfields',hform'⟩ := canonical_dict hright
  have hescaped := escaped_same hperm hmatch
  rcases hform with ⟨htag,rfl⟩ | ⟨htag,rfl⟩
  · have hkeys : us.map Prod.fst = others.map Prod.fst := (keys_same hmatch).symm.trans (horder htag)
    have hnodup : (us.map Prod.fst).Nodup := keys_same hmatch ▸ hvalid.2
    cases perm_eq_of_keys hperm hnodup hkeys
    cases determined_items ih hvalid.1 hvalid'.1 hmatch hfields hfields'
    rcases hform' with ⟨-,rfl⟩ | ⟨htag',-⟩
    · rfl
    · exact absurd (hescaped.mp htag) htag'
  · obtain ⟨fields'',hfields'',hback⟩ := List.perm_comp_forall₂ hperm hfields'
    have hvalidUs : ∀ item ∈ us, Valid loaded item.2 := fun item hitem =>
      hvalid'.1 item (hperm.subset hitem)
    cases determined_items ih hvalid.1 hvalidUs hmatch hfields hfields''
    rcases hform' with ⟨htag',-⟩ | ⟨-,rfl⟩
    · exact absurd (hescaped.mpr htag') htag
    · rw [sortFields_unique hback (fields_nodup hfields hvalid.2)]

theorem determined_cases (htexts : FloatTexts floatText) :
    Cases fun v => Valid loaded v → Determined floatText loaded v where
  leaf v hleaf _ w c d _ hsame hv hw := by
    cases (same_leaf hleaf).mp hsame
    exact (canonical_leaf hleaf hv).1.trans (canonical_leaf hleaf hw).1.symm
  list vs ih hvalid w c d hvalid' hsame hv hw := by
    rw [Same] at hsame
    obtain ⟨ws,rfl,hall⟩ := hsame
    rw [Valid,validAll_iff] at hvalid hvalid'
    obtain ⟨cs,rfl,hcs⟩ := canonical_list hv
    obtain ⟨ds,rfl,hds⟩ := canonical_list hw
    rw [determined_all ih hvalid hvalid' (sameAll_iff.mp hall) hcs hds]
  tuple vs ih hvalid w c d hvalid' hsame hv hw := by
    rw [Same] at hsame
    obtain ⟨ws,rfl,hall⟩ := hsame
    rw [Valid,validAll_iff] at hvalid hvalid'
    obtain ⟨cs,rfl,hcs⟩ := canonical_tuple hv
    obtain ⟨ds,rfl,hds⟩ := canonical_tuple hw
    rw [determined_all ih hvalid hvalid' (sameAll_iff.mp hall) hcs hds]
  set vs ih hvalid w c d hvalid' hsame hv hw := by
    rw [Same] at hsame
    obtain ⟨ws,rfl,hbag⟩ := hsame
    rw [Valid,validAll_iff] at hvalid hvalid'
    obtain ⟨us,cs,rfl,hperm,hcs,hsorted⟩ := canonical_set hv
    obtain ⟨us',ds,rfl,hperm',hds,hsorted'⟩ := canonical_set hw
    rw [determined_bag htexts ih hvalid.1 hvalid'.1 hbag hperm hperm' hcs hds hsorted hsorted']
  frozenset vs ih hvalid w c d hvalid' hsame hv hw := by
    rw [Same] at hsame
    obtain ⟨ws,rfl,hbag⟩ := hsame
    rw [Valid,validAll_iff] at hvalid hvalid'
    obtain ⟨us,cs,rfl,hperm,hcs,hsorted⟩ := canonical_frozenset hv
    obtain ⟨us',ds,rfl,hperm',hds,hsorted'⟩ := canonical_frozenset hw
    rw [determined_bag htexts ih hvalid.1 hvalid'.1 hbag hperm hperm' hcs hds hsorted hsorted']
  dict items ih hvalid w c d hvalid' hsame hv hw := by
    obtain ⟨others,rfl⟩ : ∃ others, w = .dict others := by
      rw [Same] at hsame
      obtain ⟨others,rfl,-⟩ := hsame
      exact ⟨others,rfl⟩
    exact determined_dict ih hvalid hvalid' hsame hv hw
  enum cls name v ih hvalid w c d hvalid' hsame hv hw := by
    rw [Same] at hsame
    obtain ⟨u,rfl,hu⟩ := hsame
    rw [Valid] at hvalid hvalid'
    obtain ⟨cv,rfl,-,hcv⟩ := canonical_enum hv
    obtain ⟨cu,rfl,-,hcu⟩ := canonical_enum hw
    rw [ih hvalid.1 u cv cu hvalid'.1 hu hcv hcu]
  namedtuple cls vs ih hvalid w c d hvalid' hsame hv hw := by
    rw [Same] at hsame
    obtain ⟨ws,rfl,hall⟩ := hsame
    rw [Valid,validAll_iff] at hvalid hvalid'
    obtain ⟨hvalid,fields,hfields,hlength⟩ := hvalid
    obtain ⟨hvalid',fields',hfields',hlength'⟩ := hvalid'
    obtain ⟨cs,rfl,-,hcs⟩ := canonical_namedtuple hfields hlength hv
    obtain ⟨ds,rfl,-,hds⟩ := canonical_namedtuple hfields' hlength' hw
    cases hfields.symm.trans hfields'
    rw [determined_all ih hvalid hvalid' (sameAll_iff.mp hall) hcs hds]

end Determined

end OneStep.CanonicalValues
