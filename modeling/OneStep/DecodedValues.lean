import OneStep.EncodedValues

/-!
# What the codec reads

`decode_value` on the documents that `encode_value` writes: the parts of a
document are read one after another, and a tag is read by its kind.
-/
namespace OneStep.DecodedValues
open DateTimeText ItemLists JsonText JsonValues PythonValues ScalarTexts ValueEquality CaptureCodec
open EncodedValues

section Reading
variable {loaded : Loaded} {js : List Json}

/-- Read as a value, wherever it stands. -/
def Decodes (loaded : Loaded) (j : Json) (w : Value) : Prop := ∀ path, decode loaded path j = .ok w

/-- Refused, wherever it stands. -/
def Rejects (loaded : Loaded) (j : Json) : Prop := ∀ path, ∃ e, decode loaded path j = .error e

theorem readers_eq (js : List Json) : readers loaded js = js.map (reader loaded) := by
  induction js with
  | nil => rw [readers,List.map_nil]
  | cons j js ih => rw [readers,ih,List.map_cons]

theorem fieldReaders_eq (fields : List (String × Json)) :
    fieldReaders loaded fields = fields.map fun field => (field.1,reader loaded field.2) := by
  induction fields with
  | nil => rw [fieldReaders,List.map_nil]
  | cons field fields ih =>
    obtain ⟨key,j⟩ := field
    rw [fieldReaders,ih,List.map_cons]

theorem decodeEach_ok {items : List (String × Reader)} {ws : List Value}
    (hitems : items.map Prod.snd = js.map (reader loaded)) (h : List.Forall₂ (Decodes loaded) js ws)
    (path : String) : decodeEach path items = .ok ws := by
  induction h generalizing items with
  | nil =>
    rw [List.map_nil,List.map_eq_nil_iff] at hitems
    rw [hitems,decodeEach]
  | @cons j w js ws hj _ ih =>
    cases items with
    | nil => cases hitems
    | cons item items =>
      obtain ⟨token,item⟩ := item
      rw [List.map_cons,List.map_cons,List.cons.injEq] at hitems
      have hitem : item.decode (pointer path token) = .ok w := by
        rw [show item = reader loaded j from hitems.1]
        exact hj _
      rw [decodeEach,hitem,ih hitems.2]
      rfl

theorem decodeEach_error {items : List (String × Reader)}
    (hitems : items.map Prod.snd = js.map (reader loaded)) (h : ∃ j ∈ js, Rejects loaded j)
    (path : String) : ∃ e, decodeEach path items = .error e := by
  induction items generalizing js with
  | nil =>
    obtain ⟨j,hj,-⟩ := h
    rw [List.map_nil,eq_comm,List.map_eq_nil_iff] at hitems
    rw [hitems] at hj
    cases hj
  | cons item items ih =>
    obtain ⟨token,item⟩ := item
    cases js with
    | nil => cases hitems
    | cons j js =>
      rw [List.map_cons,List.map_cons,List.cons.injEq] at hitems
      rw [decodeEach]
      cases hitem : item.decode (pointer path token) with
      | error e => exact ⟨e,rfl⟩
      | ok w =>
        have hrest : ∃ j ∈ js, Rejects loaded j := by
          obtain ⟨j',hj',hrejects⟩ := h
          rcases List.mem_cons.mp hj' with rfl | hj'
          · obtain ⟨e,he⟩ := hrejects (pointer path token)
            rw [show item = reader loaded j' from hitems.1] at hitem
            rw [decode,hitem] at he
            cases he
          · exact ⟨j',hj',hrejects⟩
        obtain ⟨e,he⟩ := ih hitems.2 hrest
        rw [he]
        exact ⟨e,rfl⟩

theorem numbered_snd (items : List Reader) : (numbered items).map Prod.snd = items := by
  unfold numbered
  rw [List.map_map]
  exact List.zipIdx_map_fst 0 items

theorem decodeItems_ok {ws : List Value} (h : List.Forall₂ (Decodes loaded) js ws) (path : String) :
    decodeItems path (readers loaded js) = .ok ws := by
  apply decodeEach_ok _ h
  rw [numbered_snd,readers_eq]

theorem decodeItems_error (h : ∃ j ∈ js, Rejects loaded j) (path : String) :
    ∃ e, decodeItems path (readers loaded js) = .error e := by
  apply decodeEach_error _ h
  rw [numbered_snd,readers_eq]

theorem zip_snd {fields : List String} (hlength : fields.length = js.length) :
    (fields.zip (readers loaded js)).map Prod.snd = js.map (reader loaded) := by
  rw [readers_eq]
  apply List.map_snd_zip
  rw [List.length_map,hlength]

/-- A field and the item it is read as. -/
def DecodesItem (loaded : Loaded) (field : String × Json) (item : Key × Value) : Prop :=
  item.1 = .str field.1 ∧ Decodes loaded field.2 item.2

variable {fields : List (String × Json)} {items : List (Key × Value)}

theorem decodesItem_zip (h : List.Forall₂ (DecodesItem loaded) fields items) :
    (fields.map fun field => Key.str field.1).zip (items.map Prod.snd) = items := by
  induction h with
  | nil => rfl
  | cons hitem _ ih =>
    rw [List.map_cons,List.map_cons,List.zip_cons_cons,ih,← hitem.1]

theorem decodesItem_values (h : List.Forall₂ (DecodesItem loaded) fields items) :
    List.Forall₂ (Decodes loaded) (fields.map Prod.snd) (items.map Prod.snd) := by
  induction h with
  | nil => exact .nil
  | cons hitem _ ih => exact .cons hitem.2 ih

theorem fieldReaders_snd (fields : List (String × Json)) :
    (fieldReaders loaded fields).map Prod.snd = (fields.map Prod.snd).map (reader loaded) := by
  rw [fieldReaders_eq,List.map_map,List.map_map]
  rfl

theorem decodeFields_ok (h : List.Forall₂ (DecodesItem loaded) fields items) (path : String) :
    decodeFields path (fieldReaders loaded fields) = .ok items := by
  unfold decodeFields
  rw [decodeEach_ok (fieldReaders_snd fields) (decodesItem_values h),fieldReaders_eq,List.map_map]
  exact congrArg Except.ok (decodesItem_zip h)

theorem decodeFields_error (h : ∃ field ∈ fields, Rejects loaded field.2) (path : String) :
    ∃ e, decodeFields path (fieldReaders loaded fields) = .error e := by
  obtain ⟨field,hfield,hrejects⟩ := h
  have hsnd : (fieldReaders loaded fields).map Prod.snd = _ := fieldReaders_snd fields
  obtain ⟨e,he⟩ := decodeEach_error hsnd
    ⟨field.2,List.mem_map.mpr ⟨field,hfield,rfl⟩,hrejects⟩ path
  refine ⟨e,?_⟩
  unfold decodeFields
  rw [he]
  rfl

theorem decodePairs_ok {result : List (Key × Value)}
    (h : List.Forall₂ (DecodesItem loaded) fields items)
    (hnodup : ((result++items).map Prod.fst).Nodup) (path : String) (i : ℕ) :
    decodePairs path i result (readers loaded (fields.map pairJson)) = .ok (result++items) := by
  induction h generalizing result i with
  | nil => rw [List.map_nil,readers,decodePairs,List.append_nil]
  | @cons field item fields items hitem _ ih =>
    obtain ⟨k,j⟩ := field
    obtain ⟨key,v⟩ := item
    obtain ⟨hkey,hj⟩ := hitem
    cases hkey
    have hfresh : (result.map Prod.fst).contains (Key.str k) = false := by
      rw [List.map_append,List.map_cons,List.nodup_append] at hnodup
      apply Bool.eq_false_iff.mpr
      intro hmem
      exact hnodup.2.2 _ (List.contains_iff_mem.mp hmem) _ List.mem_cons_self rfl
    have hdecode : (reader loaded j).decode (pointer path k) = .ok v := hj _
    have hrest : decodePairs path (i+1) (result++[(.str k,v)])
        (readers loaded (fields.map pairJson)) = .ok (result++[(.str k,v)]++items) := by
      apply ih
      rwa [← List.append_cons]
    rw [← List.append_cons] at hrest
    rw [← hrest,List.map_cons]
    simp only [pairJson,readers,reader,decodePairs,hfresh,hdecode,Bool.false_eq_true,if_false]
    rfl

theorem decodePairs_error (h : ∃ field ∈ fields, Rejects loaded field.2) (path : String) (i : ℕ)
    (result : List (Key × Value)) :
    ∃ e, decodePairs path i result (readers loaded (fields.map pairJson)) = .error e := by
  induction fields generalizing result i with
  | nil =>
    obtain ⟨field,hfield,-⟩ := h
    cases hfield
  | cons field fields ih =>
    obtain ⟨k,j⟩ := field
    rw [List.map_cons]
    simp only [pairJson,readers,reader,decodePairs]
    split
    · exact ⟨_,rfl⟩
    · cases hdecode : (reader loaded j).decode (pointer path k) with
      | error e => exact ⟨e,rfl⟩
      | ok v =>
        have hrest : ∃ field ∈ fields, Rejects loaded field.2 := by
          obtain ⟨field,hfield,hrejects⟩ := h
          rcases List.mem_cons.mp hfield with rfl | hfield
          · obtain ⟨e,he⟩ := hrejects (pointer path k)
            rw [decode,hdecode] at he
            cases he
          · exact ⟨field,hfield,hrejects⟩
        exact ih hrest (i+1) (result++[(.str k,v)])

end Reading

section Tags
variable {loaded : Loaded} {fields : List (String × Json)}

theorem decode_tagged (typeName path : String) (fields : List (String × Json)) :
    decode loaded path (tagged typeName fields) = decodePayload loaded
      (("type",reader loaded (.str typeName))::fieldReaders loaded fields) path := by
  simp [decode,tagged,reader,fieldReaders,decodeObject]

theorem requireFields_ok {typeName path : String} {expected : List String}
    {payload : List (String × Reader)} (h : hasKeys ("type"::expected) payload = true) :
    requireFields payload typeName expected path = .ok () := by
  unfold requireFields
  rw [if_pos h]

def textPayload (loaded : Loaded) (typeName : String) (cs : List Char) : List (String × Reader) :=
  ("type",reader loaded (.str typeName))::
    fieldReaders loaded [("value",.str (String.ofList cs))]

theorem textPayload_value (typeName : String) (cs : List Char) :
    (field (textPayload loaded typeName cs) "value").json = .str (String.ofList cs) := by
  simp [field,textPayload,fieldReaders,reader,List.lookup_cons]

theorem textPayload_text (typeName message path : String) (cs : List Char) :
    text (field (textPayload loaded typeName cs) "value").json message path = .ok cs := by
  rw [textPayload_value,text,String.toList_ofList]

theorem textPayload_keys (typeName kind path : String) (cs : List Char) :
    requireFields (textPayload loaded typeName cs) kind ["value"] path = .ok () := by
  apply requireFields_ok
  simp [hasKeys,textPayload,fieldReaders]

theorem decode_uuid (u : UUID) : Decodes loaded
    (tagged "uuid" [("value",.str (String.ofList (uuidText u)))]) (.uuid u) := by
  intro path
  rw [decode_tagged]
  change decodeUuid (textPayload loaded "uuid" (uuidText u)) path = _
  unfold decodeUuid
  rw [textPayload_keys,textPayload_text]
  simp only [bind,Except.bind,readUuid_uuidText]

theorem decode_bytes (bytes : List UInt8) : Decodes loaded
    (tagged "bytes" [("value",.str (String.ofList (b64encode bytes)))]) (.bytes bytes) := by
  intro path
  rw [decode_tagged]
  change decodeBytes (textPayload loaded "bytes" (b64encode bytes)) path = _
  unfold decodeBytes
  rw [textPayload_keys,textPayload_text]
  simp only [bind,Except.bind,b64decode_b64encode]

theorem decode_decimal (d : Decimal) : Decodes loaded
    (tagged "decimal" [("value",.str (String.ofList (decimalText d)))]) (.decimal d) := by
  intro path
  rw [decode_tagged]
  change decodeDecimal (textPayload loaded "decimal" (decimalText d)) path = _
  unfold decodeDecimal
  rw [textPayload_keys,textPayload_text]
  simp only [bind,Except.bind,readDecimal_decimalText]

def datetimePayload (loaded : Loaded) (d : DateTime) : List (String × Reader) :=
  ("type",reader loaded (.str "datetime"))::
    fieldReaders loaded [("value",.str (String.ofList (isoformat d))),
      ("fold",.int (if d.fold then 1 else 0))]

theorem datetimePayload_fold (d : DateTime) (path : String) :
    readFold (field (datetimePayload loaded d) "fold").json path = .ok d.fold := by
  have hjson : (field (datetimePayload loaded d) "fold").json = .int (if d.fold then 1 else 0) := by
    simp [field,datetimePayload,fieldReaders,reader,List.lookup_cons]
  rw [hjson]
  cases d.fold with
  | true => rfl
  | false => rfl

theorem decode_datetime (d : DateTime) : Decodes loaded
    (tagged "datetime" [("value",.str (String.ofList (isoformat d))),
      ("fold",.int (if d.fold then 1 else 0))]) (.datetime d) := by
  intro path
  have hkeys : requireFields (datetimePayload loaded d) "datetime" ["value","fold"] path = .ok () := by
    apply requireFields_ok
    simp [hasKeys,datetimePayload,fieldReaders]
  have hvalue : (field (datetimePayload loaded d) "value").json =
      .str (String.ofList (isoformat d)) := by
    simp [field,datetimePayload,fieldReaders,reader,List.lookup_cons]
  rw [decode_tagged]
  change decodeDatetime (datetimePayload loaded d) path = _
  unfold decodeDatetime
  rw [hkeys,hvalue,text,String.toList_ofList,datetimePayload_fold]
  simp only [bind,Except.bind,fromisoformat_isoformat]

def listPayload (loaded : Loaded) (typeName key : String) (js : List Json) :
    List (String × Reader) :=
  ("type",reader loaded (.str typeName))::fieldReaders loaded [(key,.arr js)]

theorem listPayload_list {typeName key : String} (hkey : key ≠ "type") (message path : String)
    (js : List Json) :
    list (field (listPayload loaded typeName key js) key) message path =
      .ok (readers loaded js) := by
  have hbeq : (key == "type") = false := beq_eq_false_iff_ne.mpr hkey
  simp [field,listPayload,fieldReaders,reader,List.lookup_cons,hbeq,list]

theorem listPayload_keys (typeName kind key path : String) (js : List Json) :
    requireFields (listPayload loaded typeName key js) kind [key] path = .ok () := by
  apply requireFields_ok
  simp [hasKeys,listPayload,fieldReaders]

theorem decodeElements_ok {js : List Json} {ws : List Value}
    (h : List.Forall₂ (Decodes loaded) js ws) (typeName path : String) :
    decodeElements typeName (listPayload loaded typeName "values" js) path =
      if typeName = "tuple" then .ok (.tuple ws)
      else
        match makeSet ws with
        | none => fail ("unhashable "++typeName++" member") path
        | some vs => .ok (if typeName = "frozenset" then .frozenset vs else .set vs) := by
  unfold decodeElements
  rw [listPayload_keys,listPayload_list (by decide)]
  have hitems := decodeItems_ok h path
  change (decodeItems path _ >>= _) = _
  rw [hitems]
  rfl

theorem decodeElements_error {js : List Json} (h : ∃ j ∈ js, Rejects loaded j)
    (typeName path : String) :
    ∃ e, decodeElements typeName (listPayload loaded typeName "values" js) path = .error e := by
  obtain ⟨e,he⟩ := decodeItems_error h path
  refine ⟨e,?_⟩
  unfold decodeElements
  rw [listPayload_keys,listPayload_list (by decide)]
  simp only [bind,Except.bind,he]

theorem decode_mapping {items : List (Key × Value)}
    (h : List.Forall₂ (DecodesItem loaded) fields items) (hnodup : (items.map Prod.fst).Nodup) :
    Decodes loaded (tagged "mapping" [("items",.arr (fields.map pairJson))]) (.dict items) := by
  intro path
  rw [decode_tagged]
  change decodeMapping (listPayload loaded "mapping" "items" (fields.map pairJson)) path = _
  unfold decodeMapping
  rw [listPayload_keys,listPayload_list (by decide)]
  have hpairs : decodePairs path 0 [] (readers loaded (fields.map pairJson)) = .ok ([]++items) :=
    decodePairs_ok h (by rwa [List.nil_append]) path 0
  simp only [bind,Except.bind,hpairs,List.nil_append]

theorem reject_mapping (h : ∃ field ∈ fields, Rejects loaded field.2) :
    Rejects loaded (tagged "mapping" [("items",.arr (fields.map pairJson))]) := by
  intro path
  obtain ⟨e,he⟩ := decodePairs_error h path 0 []
  refine ⟨e,?_⟩
  rw [decode_tagged]
  change decodeMapping (listPayload loaded "mapping" "items" (fields.map pairJson)) path = _
  unfold decodeMapping
  rw [listPayload_keys,listPayload_list (by decide)]
  simp only [bind,Except.bind,he]

theorem decode_obj (htag : tag ∉ fields.map Prod.fst) (path : String) :
    decode loaded path (.obj fields) =
      (decodeFields path (fieldReaders loaded fields)).map .dict := by
  have hlookup : (fieldReaders loaded fields).lookup tag = none := by
    apply List.lookup_eq_none_iff.mpr
    intro item hitem
    rw [fieldReaders_eq] at hitem
    obtain ⟨field,hfield,rfl⟩ := List.mem_map.mp hitem
    apply bne_iff_ne.mpr
    intro heq
    exact htag (heq ▸ List.mem_map.mpr ⟨field,hfield,rfl⟩)
  rw [decode,reader]
  change decodeObject loaded (fieldReaders loaded fields) path = _
  unfold decodeObject
  rw [hlookup]

variable {cls : ClassRef}

theorem resolve_importable (h : Importable loaded cls) (path : String) :
    resolveLoadedType loaded (.str cls.moduleName) (.str cls.qualname) path = .ok cls := by
  unfold resolveLoadedType
  simp only [h.global,h.resolved,Bool.false_eq_true,if_false]

def enumPayload (loaded : Loaded) (cls : ClassRef) (name : Option String) (value : Json) :
    List (String × Reader) :=
  ("type",reader loaded (.str "enum"))::fieldReaders loaded (enumFields cls name value)

theorem enumPayload_keys (cls : ClassRef) (name : Option String) (value : Json) (path : String) :
    requireFields (enumPayload loaded cls name value) "enum" ["module","qualname","name","value"]
      path = .ok () := by
  apply requireFields_ok
  simp [hasKeys,enumPayload,enumFields,fieldReaders]

theorem enumPayload_cls (h : Importable loaded cls) (name : Option String) (value : Json)
    (path : String) :
    resolveLoadedType loaded (field (enumPayload loaded cls name value) "module").json
      (field (enumPayload loaded cls name value) "qualname").json path = .ok cls := by
  rw [← resolve_importable h path]
  simp [field,enumPayload,enumFields,fieldReaders,reader,List.lookup_cons]

theorem enumPayload_name (cls : ClassRef) (name : Option String) (value : Json) :
    (field (enumPayload loaded cls name value) "name").json = name.elim .null .str := by
  cases name with
  | none => simp [field,enumPayload,enumFields,fieldReaders,reader,List.lookup_cons]
  | some n => simp [field,enumPayload,enumFields,fieldReaders,reader,List.lookup_cons]

theorem enumPayload_value (cls : ClassRef) (name : Option String) (value : Json) :
    field (enumPayload loaded cls name value) "value" = reader loaded value := by
  simp [field,enumPayload,enumFields,fieldReaders,List.lookup_cons]

theorem decode_enum (h : Importable loaded cls) {members : List (String × String × Value)}
    (hcls : loaded.definition cls = .enum members) (name : Option String) (value : Json)
    (path : String) :
    decode loaded path (tagged "enum" (enumFields cls name value)) =
      match name with
      | none => fail "recorded type is not an enum" path
      | some n =>
        match members.lookup n with
        | none => fail "enum member changed" path
        | some member =>
          (decode loaded (pointer path "value") value).bind fun recorded =>
            match pyEq member.2 recorded with
            | none => .error .invalidOperation
            | some equal =>
              if equal then .ok (.enum cls (some member.1) member.2)
              else fail "enum value changed" path := by
  rw [decode_tagged]
  change decodeEnum loaded (enumPayload loaded cls name value) path = _
  unfold decodeEnum
  rw [enumPayload_keys,enumPayload_cls h,enumPayload_name,enumPayload_value]
  simp only [bind,Except.bind,hcls]
  cases name with
  | none => rfl
  | some n =>
    simp only [Option.elim_some]
    cases members.lookup n with
    | none => rfl
    | some member => rfl

def namedtuplePayload (loaded : Loaded) (cls : ClassRef) (fields : List String)
    (values : List Json) : List (String × Reader) :=
  ("type",reader loaded (.str "namedtuple"))::
    fieldReaders loaded (namedtupleFields cls fields values)

theorem strings_readers (fields : List String) :
    strings (readers loaded (fields.map .str)) = some fields := by
  induction fields with
  | nil => rw [List.map_nil,readers,strings]
  | cons name fields ih => simp [readers,reader,strings,ih]

theorem decode_namedtuple (h : Importable loaded cls) {fields : List String}
    (hcls : loaded.definition cls = .namedtuple fields) {values : List Json}
    (hlength : fields.length = values.length) (path : String) :
    decode loaded path (tagged "namedtuple" (namedtupleFields cls fields values)) =
      (decodeEach path (fields.zip (readers loaded values))).map (.namedtuple cls) := by
  have hkeys : requireFields (namedtuplePayload loaded cls fields values) "namedtuple"
      ["module","qualname","fields","values"] path = .ok () := by
    apply requireFields_ok
    simp [hasKeys,namedtuplePayload,namedtupleFields,fieldReaders]
  have hresolve : resolveLoadedType loaded
      (field (namedtuplePayload loaded cls fields values) "module").json
        (field (namedtuplePayload loaded cls fields values) "qualname").json path = .ok cls := by
    rw [← resolve_importable h path]
    simp [field,namedtuplePayload,namedtupleFields,fieldReaders,reader,List.lookup_cons]
  have hfields : list (field (namedtuplePayload loaded cls fields values) "fields")
      "namedtuple definition changed" path = .ok (readers loaded (fields.map .str)) := by
    simp [field,namedtuplePayload,namedtupleFields,fieldReaders,reader,List.lookup_cons,list]
  have hvalues : list (field (namedtuplePayload loaded cls fields values) "values")
      "namedtuple definition changed" path = .ok (readers loaded values) := by
    simp [field,namedtuplePayload,namedtupleFields,fieldReaders,reader,List.lookup_cons,list]
  have hsame : fields.length = (readers loaded values).length ∧ fieldsOf loaded cls = fields := by
    constructor
    · rw [readers_eq,List.length_map,hlength]
    · unfold fieldsOf
      rw [hcls]
  rw [decode_tagged]
  change decodeNamedtuple loaded (namedtuplePayload loaded cls fields values) path = _
  unfold decodeNamedtuple
  rw [hkeys,hresolve,hfields,hvalues]
  simp only [bind,Except.bind,strings_readers,if_pos hsame,hcls]
  rfl

end Tags

end OneStep.DecodedValues
