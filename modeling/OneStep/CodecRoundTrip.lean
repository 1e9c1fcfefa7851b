import OneStep.DecodedValues

/-!
# Captured values read back

What `encode_value` writes is read back as the same value when every member of an
enumeration in it is found by its name and has a value that equals itself, and is
refused otherwise.
-/
namespace OneStep.CodecRoundTrip
open DateTimeText ItemLists JsonText JsonValues PythonValues ScalarTexts ValueEquality CaptureCodec
open EncodedValues DecodedValues

section Outcomes
variable {kept : List (Key × Value) → Prop} {loaded : Loaded} {items : List (Key × Value)}

/-- The class finds a member under this name. -/
def Named (loaded : Loaded) (cls : ClassRef) (name : Option String) : Prop :=
  ∃ n, name = some n ∧ ∃ members, loaded.definition cls = .enum members ∧ members.lookup n ≠ none

mutual

/-- Every member of an enumeration is found by its name and has a value that is
comparable. -/
def Replayable (loaded : Loaded) : Value → Prop
  | .list vs => ReplayableAll loaded vs
  | .tuple vs => ReplayableAll loaded vs
  | .set vs => ReplayableAll loaded vs
  | .frozenset vs => ReplayableAll loaded vs
  | .dict items => ReplayableItems loaded items
  | .enum cls name v => Named loaded cls name ∧ comparable v = true ∧ Replayable loaded v
  | .namedtuple _ vs => ReplayableAll loaded vs
  | _ => True

def ReplayableAll (loaded : Loaded) : List Value → Prop
  | [] => True
  | v::vs => Replayable loaded v ∧ ReplayableAll loaded vs

def ReplayableItems (loaded : Loaded) : List (Key × Value) → Prop
  | [] => True
  | (_,v)::items => Replayable loaded v ∧ ReplayableItems loaded items

end

section Equations
attribute [local simp] Replayable
end Equations

variable {vs : List Value}

theorem replayableAll_iff : ReplayableAll loaded vs ↔ ∀ v ∈ vs, Replayable loaded v := by
  induction vs with
  | nil => simp [ReplayableAll]
  | cons v vs ih => rw [ReplayableAll,ih,List.forall_mem_cons]

theorem replayableItems_iff :
    ReplayableItems loaded items ↔ ∀ item ∈ items, Replayable loaded item.2 := by
  induction items with
  | nil => simp [ReplayableItems]
  | cons item items ih =>
    obtain ⟨k,v⟩ := item
    rw [ReplayableItems,ih,List.forall_mem_cons]

/-- What becomes of a value whose document is read. -/
structure Outcome (kept : List (Key × Value) → Prop) (loaded : Loaded) (v : Value) (j : Json) :
    Prop where
  read : Replayable loaded v → ∃ w, Decodes loaded j w ∧ Same kept v w
  refused : ¬Replayable loaded v → Rejects loaded j

/-- An item and the field that is written for it. -/
structure ItemOutcome (kept : List (Key × Value) → Prop) (loaded : Loaded) (item : Key × Value)
    (field : String × Json) : Prop where
  key : item.1 = .str field.1
  value : Outcome kept loaded item.2 field.2

theorem outcomes_read {js : List Json} (h : List.Forall₂ (Outcome kept loaded) vs js)
    (hall : ∀ v ∈ vs, Replayable loaded v) :
    ∃ ws, List.Forall₂ (Decodes loaded) js ws ∧ List.Forall₂ (Same kept) vs ws := by
  induction h with
  | nil => exact ⟨[],.nil,.nil⟩
  | cons hv _ ih =>
    rw [List.forall_mem_cons] at hall
    obtain ⟨w,hw,hsame⟩ := hv.read hall.1
    obtain ⟨ws,hws,hsames⟩ := ih hall.2
    exact ⟨w::ws,.cons hw hws,.cons hsame hsames⟩

theorem outcomes_refused {js : List Json} (h : List.Forall₂ (Outcome kept loaded) vs js)
    (hnot : ¬∀ v ∈ vs, Replayable loaded v) : ∃ j ∈ js, Rejects loaded j := by
  obtain ⟨v,hv⟩ := not_forall.mp hnot
  obtain ⟨hmem,hv⟩ := Classical.not_imp.mp hv
  obtain ⟨j,hj,houtcome⟩ := forall₂_left h hmem
  exact ⟨j,hj,houtcome.refused hv⟩

theorem itemOutcomes_read {fields : List (String × Json)}
    (h : List.Forall₂ (ItemOutcome kept loaded) items fields)
    (hall : ∀ item ∈ items, Replayable loaded item.2) :
    ∃ others, List.Forall₂ (DecodesItem loaded) fields others ∧
      List.Forall₂ (SameItem kept) items others := by
  induction h with
  | nil => exact ⟨[],.nil,.nil⟩
  | @cons item field _ _ hv _ ih =>
    rw [List.forall_mem_cons] at hall
    obtain ⟨w,hw,hsame⟩ := hv.value.read hall.1
    obtain ⟨others,hothers,hsames⟩ := ih hall.2
    exact ⟨(.str field.1,w)::others,.cons ⟨rfl,hw⟩ hothers,.cons ⟨hv.key,hsame⟩ hsames⟩

theorem itemOutcomes_refused {fields : List (String × Json)}
    (h : List.Forall₂ (ItemOutcome kept loaded) items fields)
    (hnot : ¬∀ item ∈ items, Replayable loaded item.2) :
    ∃ field ∈ fields, Rejects loaded field.2 := by
  obtain ⟨item,hitem⟩ := not_forall.mp hnot
  obtain ⟨hmem,hitem⟩ := Classical.not_imp.mp hitem
  obtain ⟨field,hfield,houtcome⟩ := forall₂_left h hmem
  exact ⟨field,hfield,houtcome.value.refused hitem⟩

end Outcomes

section RoundTrip
variable {kept : List (Key × Value) → Prop} {floatText : Double → List Char} {loaded : Loaded}

theorem outcome_leaf {v : Value} {j : Json} (hleaf : v.Leaf) (h : Encodes floatText loaded v j) :
    Outcome kept loaded v j := by
  have hread : Decodes loaded j v → Outcome kept loaded v j := by
    intro hdecodes
    refine ⟨fun _ => ⟨v,hdecodes,(same_leaf hleaf).mpr rfl⟩,fun hnot => absurd ?_ hnot⟩
    cases v <;> first | exact absurd hleaf id | trivial
  obtain ⟨path,h⟩ := h
  apply hread
  cases v with
  | list vs | tuple vs | set vs | frozenset vs | dict items | enum cls name u | namedtuple cls vs =>
    exact absurd hleaf id
  | float x =>
    rw [encode] at h
    split at h
    · next hfinite =>
        cases h
        intro path
        simp only [decode,reader,if_pos hfinite]
    · cases h
  | none | bool b | int n | str s =>
    rw [encode] at h
    cases h
    intro path
    simp only [decode,reader]
  | datetime d =>
    rw [encode] at h
    cases h
    exact decode_datetime d
  | uuid u =>
    rw [encode] at h
    cases h
    exact decode_uuid u
  | bytes bs =>
    rw [encode] at h
    cases h
    exact decode_bytes bs
  | decimal d =>
    rw [encode] at h
    cases h
    exact decode_decimal d
  | other typeName =>
    rw [encode] at h
    cases h

variable {vs : List Value} {js : List Json}

theorem outcomes (h : List.Forall₂ (Encodes floatText loaded) vs js)
    (ih : ∀ v ∈ vs, ∀ j, Encodes floatText loaded v j → Outcome kept loaded v j) :
    List.Forall₂ (Outcome kept loaded) vs js := by
  induction h with
  | nil => exact .nil
  | cons hv _ hrest =>
    rw [List.forall_mem_cons] at ih
    exact .cons (ih.1 _ hv) (hrest ih.2)

variable {items : List (Key × Value)} {fields : List (String × Json)}

theorem itemOutcomes (h : List.Forall₂ (EncodesItem floatText loaded) items fields)
    (hkeys : ∀ item ∈ items, item.1 = .str (keyText item.1))
    (ih : ∀ item ∈ items, ∀ j, Encodes floatText loaded item.2 j → Outcome kept loaded item.2 j) :
    List.Forall₂ (ItemOutcome kept loaded) items fields := by
  induction h with
  | nil => exact .nil
  | cons hitem _ hrest =>
    rw [List.forall_mem_cons] at ih hkeys
    refine .cons ⟨?_,ih.1 _ hitem.2⟩ (hrest hkeys.2 ih.2)
    rw [hkeys.1,hitem.1]

variable {us : List Value}

theorem outcomes_bag (hperm : vs.Perm us) (h : List.Forall₂ (Outcome kept loaded) us js)
    (hvalid : ∀ v ∈ vs, Valid loaded v) (hdistinct : Distinct vs)
    (hall : ∀ v ∈ vs, Replayable loaded v) :
    ∃ ws, List.Forall₂ (Decodes loaded) js ws ∧ makeSet ws = some ws ∧ SameBag kept vs ws := by
  obtain ⟨ws,hws,hsame⟩ := outcomes_read h fun v hv => hall v (hperm.symm.subset hv)
  have hvalid' : ∀ v ∈ us, Valid loaded v := fun v hv => hvalid v (hperm.symm.subset hv)
  obtain ⟨others,hothers,hback⟩ := List.perm_comp_forall₂ hperm hsame
  exact ⟨ws,hws,makeSet_distinct ((hdistinct.perm hperm).same hvalid' hsame),
    sameBag_iff.mpr ⟨others,hback,hothers⟩⟩

theorem outcomes_bag_refused (hperm : vs.Perm us) (h : List.Forall₂ (Outcome kept loaded) us js)
    (hnot : ¬∀ v ∈ vs, Replayable loaded v) : ∃ j ∈ js, Rejects loaded j := by
  apply outcomes_refused h
  intro hall
  exact hnot fun v hv => hall v (hperm.subset hv)

theorem decode_elements (typeName path : String) (js : List Json) (hkind : typeName = "tuple" ∨
    typeName = "set" ∨ typeName = "frozenset") :
    decode loaded path (tagged typeName [("values",.arr js)]) =
      decodeElements typeName (listPayload loaded typeName "values" js) path := by
  rw [decode_tagged]
  rcases hkind with rfl | rfl | rfl <;> rfl

theorem outcome_list (h : List.Forall₂ (Outcome kept loaded) vs js) :
    Outcome kept loaded (.list vs) (.arr js) := by
  have hdecode : ∀ path, decode loaded path (.arr js) =
      (decodeItems path (readers loaded js)).map .list := by
    intro path
    rw [decode,reader]
  constructor
  · intro hreplay
    rw [Replayable,replayableAll_iff] at hreplay
    obtain ⟨ws,hws,hsame⟩ := outcomes_read h hreplay
    refine ⟨.list ws,fun path => ?_,?_⟩
    · rw [hdecode,decodeItems_ok hws]
      rfl
    · rw [Same]
      exact ⟨ws,rfl,sameAll_iff.mpr hsame⟩
  · intro hnot path
    rw [Replayable,replayableAll_iff] at hnot
    obtain ⟨e,he⟩ := decodeItems_error (outcomes_refused h hnot) path
    refine ⟨e,?_⟩
    rw [hdecode,he]
    rfl

theorem outcome_tuple (h : List.Forall₂ (Outcome kept loaded) vs js) :
    Outcome kept loaded (.tuple vs) (tagged "tuple" [("values",.arr js)]) := by
  constructor
  · intro hreplay
    rw [Replayable,replayableAll_iff] at hreplay
    obtain ⟨ws,hws,hsame⟩ := outcomes_read h hreplay
    refine ⟨.tuple ws,fun path => ?_,?_⟩
    · rw [decode_elements _ _ _ (.inl rfl),decodeElements_ok hws,if_pos rfl]
    · rw [Same]
      exact ⟨ws,rfl,sameAll_iff.mpr hsame⟩
  · intro hnot path
    rw [Replayable,replayableAll_iff] at hnot
    rw [decode_elements _ _ _ (.inl rfl)]
    exact decodeElements_error (outcomes_refused h hnot) _ _

theorem outcome_set (hperm : vs.Perm us) (h : List.Forall₂ (Outcome kept loaded) us js)
    (hvalid : ∀ v ∈ vs, Valid loaded v) (hdistinct : Distinct vs) :
    Outcome kept loaded (.set vs) (tagged "set" [("values",.arr js)]) := by
  constructor
  · intro hreplay
    rw [Replayable,replayableAll_iff] at hreplay
    obtain ⟨ws,hws,hset,hsame⟩ := outcomes_bag hperm h hvalid hdistinct hreplay
    refine ⟨.set ws,fun path => ?_,?_⟩
    · rw [decode_elements _ _ _ (.inr (.inl rfl)),decodeElements_ok hws,hset]
      rfl
    · rw [Same]
      exact ⟨ws,rfl,hsame⟩
  · intro hnot path
    rw [Replayable,replayableAll_iff] at hnot
    rw [decode_elements _ _ _ (.inr (.inl rfl))]
    exact decodeElements_error (outcomes_bag_refused hperm h hnot) _ _

theorem outcome_frozenset (hperm : vs.Perm us) (h : List.Forall₂ (Outcome kept loaded) us js)
    (hvalid : ∀ v ∈ vs, Valid loaded v) (hdistinct : Distinct vs) :
    Outcome kept loaded (.frozenset vs) (tagged "frozenset" [("values",.arr js)]) := by
  constructor
  · intro hreplay
    rw [Replayable,replayableAll_iff] at hreplay
    obtain ⟨ws,hws,hset,hsame⟩ := outcomes_bag hperm h hvalid hdistinct hreplay
    refine ⟨.frozenset ws,fun path => ?_,?_⟩
    · rw [decode_elements _ _ _ (.inr (.inr rfl)),decodeElements_ok hws,hset]
      rfl
    · rw [Same]
      exact ⟨ws,rfl,hsame⟩
  · intro hnot path
    rw [Replayable,replayableAll_iff] at hnot
    rw [decode_elements _ _ _ (.inr (.inr rfl))]
    exact decodeElements_error (outcomes_bag_refused hperm h hnot) _ _

theorem sameItems_of {others : List (Key × Value)} (h : List.Forall₂ (SameItem kept) items others) :
    Same kept (.dict items) (.dict others) := by
  rw [Same]
  exact ⟨others,rfl,sameItems_iff.mpr ⟨others,.refl _,h⟩,fun _ => keys_same h⟩

theorem outcome_mapping (h : List.Forall₂ (ItemOutcome kept loaded) items fields)
    (hnodup : (items.map Prod.fst).Nodup) :
    Outcome kept loaded (.dict items) (tagged "mapping" [("items",.arr (fields.map pairJson))]) := by
  constructor
  · intro hreplay
    rw [Replayable,replayableItems_iff] at hreplay
    obtain ⟨others,hothers,hsame⟩ := itemOutcomes_read h hreplay
    rw [keys_same hsame] at hnodup
    exact ⟨.dict others,decode_mapping hothers hnodup,sameItems_of hsame⟩
  · intro hnot
    rw [Replayable,replayableItems_iff] at hnot
    exact reject_mapping (itemOutcomes_refused h hnot)

theorem outcome_obj (h : List.Forall₂ (ItemOutcome kept loaded) items fields)
    (htag : ¬Escaped items) : Outcome kept loaded (.dict items) (.obj fields) := by
  have hfresh : tag ∉ fields.map Prod.fst := by
    intro hmem
    obtain ⟨field,hfield,hkey⟩ := List.mem_map.mp hmem
    obtain ⟨item,hitem,houtcome⟩ := forall₂_right h hfield
    apply htag
    rw [Escaped,← hkey]
    exact List.mem_map.mpr ⟨item,hitem,houtcome.key⟩
  constructor
  · intro hreplay
    rw [Replayable,replayableItems_iff] at hreplay
    obtain ⟨others,hothers,hsame⟩ := itemOutcomes_read h hreplay
    refine ⟨.dict others,fun path => ?_,sameItems_of hsame⟩
    rw [decode_obj hfresh,decodeFields_ok hothers]
    rfl
  · intro hnot path
    rw [Replayable,replayableItems_iff] at hnot
    obtain ⟨e,he⟩ := decodeFields_error (itemOutcomes_refused h hnot) path
    refine ⟨e,?_⟩
    rw [decode_obj hfresh,he]
    rfl

theorem outcome_namedtuple {cls : ClassRef} {fields : List String} {values : List Json}
    (hcls : Importable loaded cls) (hfields : loaded.definition cls = .namedtuple fields)
    (hlength : fields.length = vs.length) (h : List.Forall₂ (Outcome kept loaded) vs values) :
    Outcome kept loaded (.namedtuple cls vs) (tagged "namedtuple" (namedtupleFields cls fields values)) := by
  have hvalues : fields.length = values.length := hlength.trans h.length_eq
  constructor
  · intro hreplay
    rw [Replayable,replayableAll_iff] at hreplay
    obtain ⟨ws,hws,hsame⟩ := outcomes_read h hreplay
    refine ⟨.namedtuple cls ws,fun path => ?_,?_⟩
    · rw [decode_namedtuple hcls hfields hvalues,decodeEach_ok (zip_snd hvalues) hws]
      rfl
    · rw [Same]
      exact ⟨ws,rfl,sameAll_iff.mpr hsame⟩
  · intro hnot path
    rw [Replayable,replayableAll_iff] at hnot
    obtain ⟨e,he⟩ := decodeEach_error (zip_snd hvalues) (outcomes_refused h hnot) path
    refine ⟨e,?_⟩
    rw [decode_namedtuple hcls hfields hvalues,he]
    rfl

theorem outcome_enum {cls : ClassRef} {name : Option String} {v : Value} {value : Json}
    (hcls : Importable loaded cls) (hmember : MemberOf loaded cls name v)
    (hvalid : Valid loaded v) (h : Outcome kept loaded v value) :
    Outcome kept loaded (.enum cls name v) (tagged "enum" (enumFields cls name value)) := by
  obtain ⟨members,hmembers,hlooked⟩ := hmember
  constructor
  · intro hreplay
    rw [Replayable] at hreplay
    obtain ⟨⟨n,hname,members',hmembers',hfound⟩,hcomparable,hreplay⟩ := hreplay
    cases hmembers.symm.trans hmembers'
    obtain ⟨m,hm⟩ := Option.ne_none_iff_exists'.mp hfound
    have hm' := hlooked n hname m hm
    obtain ⟨w,hw,hsame⟩ := h.read hreplay
    refine ⟨.enum cls name v,fun path => ?_,?_⟩
    · rw [decode_enum hcls hmembers,hname]
      simp only [hm,hm',hw _,Except.bind,(pyEq_same_iff hvalid hsame).mpr hcomparable,if_true]
    · rw [Same]
      exact ⟨v,rfl,same_refl v⟩
  · intro hnot path
    rw [decode_enum hcls hmembers]
    cases name with
    | none => exact ⟨_,rfl⟩
    | some n =>
      simp only
      cases hm : members.lookup n with
      | none => exact ⟨_,rfl⟩
      | some m =>
        have hm' := hlooked n rfl m hm
        by_cases hreplay : Replayable loaded v
        · obtain ⟨w,hw,hsame⟩ := h.read hreplay
          have hdiffers : pyEq v w ≠ some true := by
            intro heq
            apply hnot
            rw [Replayable]
            have hfound : members.lookup n ≠ none := by simp [hm]
            exact ⟨⟨n,rfl,members,hmembers,hfound⟩,(pyEq_same_iff hvalid hsame).mp heq,hreplay⟩
          simp only [hw _,Except.bind,hm']
          cases heq : pyEq v w with
          | none => exact ⟨_,rfl⟩
          | some equal =>
            cases equal with
            | true => exact absurd heq hdiffers
            | false => exact ⟨_,rfl⟩
        · obtain ⟨e,he⟩ := h.refused hreplay (pointer path "value")
          simp only [he,Except.bind]
          exact ⟨_,rfl⟩

theorem outcome_cases : Cases fun v => Valid loaded v → ∀ j, Encodes floatText loaded v j →
    Outcome kept loaded v j where
  leaf v hleaf _ j h := outcome_leaf hleaf h
  list vs ih hvalid j h := by
    rw [Valid,validAll_iff] at hvalid
    obtain ⟨js,rfl,hjs⟩ := encodes_list h
    exact outcome_list (outcomes hjs fun v hv => ih v hv (hvalid v hv))
  tuple vs ih hvalid j h := by
    rw [Valid,validAll_iff] at hvalid
    obtain ⟨js,rfl,hjs⟩ := encodes_tuple h
    exact outcome_tuple (outcomes hjs fun v hv => ih v hv (hvalid v hv))
  set vs ih hvalid j h := by
    rw [Valid,validAll_iff] at hvalid
    obtain ⟨us,js,rfl,hperm,hjs,-⟩ := encodes_set h
    apply outcome_set hperm _ hvalid.1 hvalid.2
    apply outcomes hjs
    intro v hv
    exact ih v (hperm.symm.subset hv) (hvalid.1 v (hperm.symm.subset hv))
  frozenset vs ih hvalid j h := by
    rw [Valid,validAll_iff] at hvalid
    obtain ⟨us,js,rfl,hperm,hjs,-⟩ := encodes_frozenset h
    apply outcome_frozenset hperm _ hvalid.1 hvalid.2
    apply outcomes hjs
    intro v hv
    exact ih v (hperm.symm.subset hv) (hvalid.1 v (hperm.symm.subset hv))
  dict items ih hvalid j h := by
    rw [Valid,validItems_iff] at hvalid
    obtain ⟨fields,hkeys,hfields,hj⟩ := encodes_dict h
    have houtcomes := itemOutcomes hfields hkeys fun item hitem =>
      ih item hitem (hvalid.1 item hitem)
    rcases hj with ⟨-,rfl⟩ | ⟨htag,rfl⟩
    · exact outcome_mapping houtcomes hvalid.2
    · exact outcome_obj houtcomes htag
  enum cls name v ih hvalid j h := by
    rw [Valid] at hvalid
    obtain ⟨value,rfl,hcls,hvalue⟩ := encodes_enum h
    exact outcome_enum hcls hvalid.2 hvalid.1 (ih hvalid.1 value hvalue)
  namedtuple cls vs ih hvalid j h := by
    rw [Valid,validAll_iff] at hvalid
    obtain ⟨hvalid,fields,hfields,hlength⟩ := hvalid
    obtain ⟨values,rfl,hcls,hvalues⟩ := encodes_namedtuple hfields hlength h
    exact outcome_namedtuple hcls hfields hlength (outcomes hvalues fun v hv => ih v hv (hvalid v hv))

end RoundTrip

section Flags

def permission : ClassRef := ⟨"app","Permission",0⟩

/-- A module with a flag. -/
def flags : Loaded where
  resolve moduleName qualname :=
    if moduleName = "app" then
      if qualname = "Permission" then .type permission else .noAttribute
    else .noModule
  definition cls :=
    if cls = permission then .enum [("READ","READ",.int 1),("WRITE","WRITE",.int 2)] else .other
  call _ := .error .typeError

/-- A dictionary with the tag as a key, a member of the flag and a set. -/
def request : Value :=
  .dict [(.str tag,.tuple [.enum permission (some "READ") (.int 1),.none]),
    (.str "ids",.set [.int 2,.str "2"])]

/-- `READ | WRITE`. -/
def readWrite : Value := .enum permission (some "READ|WRITE") (.int 3)

end Flags

end OneStep.CodecRoundTrip
