import OneStep.EncodedValues
import OneStep.RedactedValues

/-!
# Values that can be written

What is written for a value depends neither on its path nor on the members of the
enumerations that are loaded. A value can be written when each of its parts can, its
classes are found and its keys are strings.
-/
namespace OneStep.WritableValues
open CaptureCodec CaptureRedaction EncodedValues ItemLists JsonValues PythonValues RedactedValues
open ValueEquality

section Classes

/-- The loaded classes, without the members of their enumerations. -/
def outline (loaded : Loaded) : Loaded where
  resolve := loaded.resolve
  definition cls :=
    match loaded.definition cls with
    | .enum _ => .enum []
    | definition => definition
  call _ := .error .other

variable {loaded other : Loaded}

theorem outline_resolve (h : outline other = outline loaded) : other.resolve = loaded.resolve := by
  have hresolve : (outline other).resolve = (outline loaded).resolve := by rw [h]
  exact hresolve

theorem outline_fields (cls : ClassRef) : fieldsOf (outline loaded) cls = fieldsOf loaded cls := by
  unfold fieldsOf outline
  cases hdef : loaded.definition cls <;> simp [hdef]

theorem fields_of_outline (h : outline other = outline loaded) (cls : ClassRef) :
    fieldsOf other cls = fieldsOf loaded cls := by
  rw [← outline_fields,h,outline_fields]

theorem outline_outline (loaded : Loaded) : outline (outline loaded) = outline loaded := by
  unfold outline
  congr 1
  funext cls
  cases hdef : loaded.definition cls <;> simp only [hdef]

end Classes

section Anywhere
variable {floatText : Double → List Char} {loaded other : Loaded} {path path' : String}

/-- Written alike at every path, also with other members of the enumerations. -/
def Anywhere (floatText : Double → List Char) (loaded other : Loaded) (v : Value) : Prop :=
  ∀ path path' j, encode floatText loaded path v = .ok j → encode floatText other path' v = .ok j

variable {vs : List Value} {js : List Json}

theorem encodeAll_anywhere (ih : ∀ v ∈ vs, Anywhere floatText loaded other v) {i : ℕ}
    (h : encodeAll floatText loaded path i vs = .ok js) :
    encodeAll floatText other path' i vs = .ok js := by
  induction vs generalizing i js with
  | nil => rwa [encodeAll] at h ⊢
  | cons v vs hrest =>
    rw [List.forall_mem_cons] at ih
    rw [encodeAll] at h ⊢
    obtain ⟨j,hj,h⟩ := bind_ok h
    obtain ⟨rest,hjs,h⟩ := bind_ok h
    rw [ih.1 _ _ j hj,hrest ih.2 hjs]
    exact h

theorem encodeSet_anywhere (ih : ∀ v ∈ vs, Anywhere floatText loaded other v)
    (h : encodeSet floatText loaded path vs = .ok js) :
    encodeSet floatText other path' vs = .ok js := by
  induction vs generalizing js with
  | nil => rwa [encodeSet] at h ⊢
  | cons v vs hrest =>
    rw [List.forall_mem_cons] at ih
    rw [encodeSet] at h ⊢
    obtain ⟨j,hj,h⟩ := bind_ok h
    obtain ⟨rest,hjs,h⟩ := bind_ok h
    rw [ih.1 _ _ j hj,hrest ih.2 hjs]
    exact h

theorem encodeFields_anywhere (ih : ∀ v ∈ vs, Anywhere floatText loaded other v)
    {fields : List String} (h : encodeFields floatText loaded path fields vs = .ok js) :
    encodeFields floatText other path' fields vs = .ok js := by
  induction vs generalizing fields js with
  | nil => rwa [encodeFields] at h ⊢
  | cons v vs hrest =>
    rw [List.forall_mem_cons] at ih
    cases fields with
    | nil => rwa [encodeFields] at h ⊢
    | cons field fields =>
      rw [encodeFields] at h ⊢
      obtain ⟨j,hj,h⟩ := bind_ok h
      obtain ⟨rest,hjs,h⟩ := bind_ok h
      rw [ih.1 _ _ j hj,hrest ih.2 hjs]
      exact h

theorem encodeItems_anywhere {items : List (Key × Value)}
    (ih : ∀ item ∈ items, Anywhere floatText loaded other item.2) {fields : List (String × Json)}
    (h : encodeItems floatText loaded path items = .ok fields) :
    encodeItems floatText other path' items = .ok fields := by
  induction items generalizing fields with
  | nil => rwa [encodeItems] at h ⊢
  | cons item items hrest =>
    obtain ⟨k,v⟩ := item
    rw [List.forall_mem_cons] at ih
    rw [encodeItems] at h ⊢
    obtain ⟨j,hj,h⟩ := bind_ok h
    obtain ⟨rest,hjs,h⟩ := bind_ok h
    rw [ih.1 _ _ j hj,hrest ih.2 hjs]
    exact h

theorem ensureReplayableType_anywhere (hresolve : other.resolve = loaded.resolve) {cls : ClassRef}
    (h : ensureReplayableType loaded cls path = .ok ()) :
    ensureReplayableType other cls path' = .ok () := by
  have himport := ensureReplayableType_ok h
  unfold ensureReplayableType
  rw [himport.global,hresolve,if_pos himport.resolved]
  rfl

theorem anywhere_cases (hresolve : other.resolve = loaded.resolve)
    (hfields : ∀ cls, fieldsOf other cls = fieldsOf loaded cls) :
    Cases (Anywhere floatText loaded other) where
  leaf v hleaf path path' j h := by
    cases v with
    | list vs | tuple vs | set vs | frozenset vs | dict items | enum cls name u
      | namedtuple cls vs => exact absurd hleaf id
    | float x =>
      rw [encode] at h ⊢
      split at h
      · next hfinite => rwa [if_pos hfinite]
      · cases h
    | other typeName =>
      rw [encode] at h
      cases h
    | _ => rwa [encode] at h ⊢
  list vs ih path path' j h := by
    rw [encode] at h ⊢
    obtain ⟨js,hjs,h⟩ := bind_ok h
    rw [encodeAll_anywhere ih hjs]
    exact h
  tuple vs ih path path' j h := by
    rw [encode] at h ⊢
    obtain ⟨js,hjs,h⟩ := bind_ok h
    rw [encodeAll_anywhere ih hjs]
    exact h
  set vs ih path path' j h := by
    rw [encode] at h ⊢
    obtain ⟨js,hjs,h⟩ := bind_ok h
    rw [encodeSet_anywhere ih hjs]
    exact h
  frozenset vs ih path path' j h := by
    rw [encode] at h ⊢
    obtain ⟨js,hjs,h⟩ := bind_ok h
    rw [encodeSet_anywhere ih hjs]
    exact h
  dict items ih path path' j h := by
    rw [encode] at h ⊢
    cases hkeys : strangeKey items with
    | some typeName => simp [hkeys] at h
    | none =>
      simp only [hkeys] at h ⊢
      obtain ⟨fields,hitems,h⟩ := bind_ok h
      rw [encodeItems_anywhere ih hitems]
      exact h
  enum cls name v ih path path' j h := by
    rw [encode] at h ⊢
    obtain ⟨⟨⟩,hcls,h⟩ := bind_ok h
    obtain ⟨value,hvalue,h⟩ := bind_ok h
    rw [ensureReplayableType_anywhere hresolve hcls,ih _ _ value hvalue]
    exact h
  namedtuple cls vs ih path path' j h := by
    rw [encode] at h ⊢
    obtain ⟨⟨⟩,hcls,h⟩ := bind_ok h
    obtain ⟨values,hvalues,h⟩ := bind_ok h
    rw [ensureReplayableType_anywhere hresolve hcls,hfields,encodeFields_anywhere ih hvalues]
    exact h

theorem encode_outline (h : outline other = outline loaded) {v : Value} {j : Json}
    (hencode : encode floatText loaded path v = .ok j) (path' : String) :
    encode floatText other path' v = .ok j :=
  (anywhere_cases (outline_resolve h) (fields_of_outline h)).all v path path' j hencode

end Anywhere

section Writable
variable (floatText : Double → List Char) (loaded : Loaded)

/-- Can be written. -/
def Writable (v : Value) : Prop := ∀ path, ∃ j, encode floatText loaded path v = .ok j

variable {floatText loaded} {vs : List Value}

theorem writable_of_encode {path : String} {v : Value} {j : Json}
    (h : encode floatText loaded path v = .ok j) : Writable floatText loaded v :=
  fun path' => ⟨j,encode_outline rfl h path'⟩

theorem Encodes.writable {v : Value} {j : Json} (h : Encodes floatText loaded v j) :
    Writable floatText loaded v := by
  obtain ⟨path,h⟩ := h
  exact writable_of_encode h

theorem writable_parts {js : List Json} (h : List.Forall₂ (Encodes floatText loaded) vs js) :
    ∀ v ∈ vs, Writable floatText loaded v := by
  intro v hv
  obtain ⟨j,-,hj⟩ := forall₂_left h hv
  exact Encodes.writable hj

theorem encodeAll_writable (h : ∀ v ∈ vs, Writable floatText loaded v) (path : String) (i : ℕ) :
    ∃ js, encodeAll floatText loaded path i vs = .ok js := by
  induction vs generalizing i with
  | nil => exact ⟨[],by rw [encodeAll]⟩
  | cons v vs ih =>
    rw [List.forall_mem_cons] at h
    obtain ⟨j,hj⟩ := h.1 (pointer path (toString i))
    obtain ⟨js,hjs⟩ := ih h.2 (i+1)
    exact ⟨j::js,by rw [encodeAll,hj,hjs]; rfl⟩

theorem encodeSet_writable (h : ∀ v ∈ vs, Writable floatText loaded v) (path : String) :
    ∃ js, encodeSet floatText loaded path vs = .ok js := by
  induction vs with
  | nil => exact ⟨[],by rw [encodeSet]⟩
  | cons v vs ih =>
    rw [List.forall_mem_cons] at h
    obtain ⟨j,hj⟩ := h.1 (pointer path "set")
    obtain ⟨js,hjs⟩ := ih h.2
    exact ⟨j::js,by rw [encodeSet,hj,hjs]; rfl⟩

theorem encodeFields_writable (h : ∀ v ∈ vs, Writable floatText loaded v) (path : String)
    (fields : List String) : ∃ js, encodeFields floatText loaded path fields vs = .ok js := by
  induction vs generalizing fields with
  | nil => exact ⟨[],by rw [encodeFields]⟩
  | cons v vs ih =>
    cases fields with
    | nil => exact ⟨[],by rw [encodeFields]⟩
    | cons field fields =>
      rw [List.forall_mem_cons] at h
      obtain ⟨j,hj⟩ := h.1 (pointer path field)
      obtain ⟨js,hjs⟩ := ih h.2 fields
      exact ⟨j::js,by rw [encodeFields,hj,hjs]; rfl⟩

variable {items : List (Key × Value)} {cls : ClassRef}

theorem encodeItems_writable (h : ∀ item ∈ items, Writable floatText loaded item.2)
    (path : String) : ∃ fields, encodeItems floatText loaded path items = .ok fields := by
  induction items with
  | nil => exact ⟨[],by rw [encodeItems]⟩
  | cons item items ih =>
    obtain ⟨k,v⟩ := item
    rw [List.forall_mem_cons] at h
    obtain ⟨j,hj⟩ := h.1 (pointer path (keyText k))
    obtain ⟨fields,hfields⟩ := ih h.2
    exact ⟨(keyText k,j)::fields,by rw [encodeItems,hj,hfields]; rfl⟩

theorem writable_list :
    Writable floatText loaded (.list vs) ↔ ∀ v ∈ vs, Writable floatText loaded v := by
  constructor
  · intro h
    obtain ⟨j,hj⟩ := h ""
    obtain ⟨js,-,hjs⟩ := encodes_list ⟨"",hj⟩
    exact writable_parts hjs
  · intro h path
    obtain ⟨js,hjs⟩ := encodeAll_writable h path 0
    exact ⟨_,by rw [encode,hjs]; rfl⟩

theorem writable_tuple :
    Writable floatText loaded (.tuple vs) ↔ ∀ v ∈ vs, Writable floatText loaded v := by
  constructor
  · intro h
    obtain ⟨j,hj⟩ := h ""
    obtain ⟨js,-,hjs⟩ := encodes_tuple ⟨"",hj⟩
    exact writable_parts hjs
  · intro h path
    obtain ⟨js,hjs⟩ := encodeAll_writable h path 0
    exact ⟨_,by rw [encode,hjs]; rfl⟩

theorem writable_set :
    Writable floatText loaded (.set vs) ↔ ∀ v ∈ vs, Writable floatText loaded v := by
  constructor
  · intro h
    obtain ⟨j,hj⟩ := h ""
    obtain ⟨us,js,-,hperm,hjs,-⟩ := encodes_set ⟨"",hj⟩
    intro v hv
    exact writable_parts hjs v (hperm.subset hv)
  · intro h path
    obtain ⟨js,hjs⟩ := encodeSet_writable h path
    exact ⟨_,by rw [encode,hjs]; rfl⟩

theorem writable_frozenset :
    Writable floatText loaded (.frozenset vs) ↔ ∀ v ∈ vs, Writable floatText loaded v := by
  constructor
  · intro h
    obtain ⟨j,hj⟩ := h ""
    obtain ⟨us,js,-,hperm,hjs,-⟩ := encodes_frozenset ⟨"",hj⟩
    intro v hv
    exact writable_parts hjs v (hperm.subset hv)
  · intro h path
    obtain ⟨js,hjs⟩ := encodeSet_writable h path
    exact ⟨_,by rw [encode,hjs]; rfl⟩

theorem strangeKey_map {others : List (Key × Value)} (h : items.map Prod.fst = others.map Prod.fst) :
    strangeKey items = strangeKey others := by
  induction items generalizing others with
  | nil =>
    cases others with
    | nil => rfl
    | cons other others => cases h
  | cons item items ih =>
    cases others with
    | nil => cases h
    | cons other others =>
      rw [List.map_cons,List.map_cons,List.cons.injEq] at h
      have hrest := ih h.2
      unfold strangeKey at hrest ⊢
      rw [List.findSome?_cons,List.findSome?_cons,h.1,hrest]

theorem writable_dict : Writable floatText loaded (.dict items) ↔
    strangeKey items = none ∧ ∀ item ∈ items, Writable floatText loaded item.2 := by
  constructor
  · intro h
    obtain ⟨j,hj⟩ := h ""
    have hkeys : strangeKey items = none := by
      cases hkeys : strangeKey items with
      | none => rfl
      | some typeName =>
        rw [encode] at hj
        simp [hkeys] at hj
    obtain ⟨fields,-,hfields,-⟩ := encodes_dict ⟨"",hj⟩
    refine ⟨hkeys,fun item hitem => ?_⟩
    obtain ⟨field,-,hfield⟩ := forall₂_left hfields hitem
    exact Encodes.writable hfield.2
  · rintro ⟨hkeys,h⟩ path
    obtain ⟨fields,hfields⟩ := encodeItems_writable h path
    have hbound : ∀ j : Json, (if (items.map Prod.fst).contains (.str tag) then
        (pure (tagged "mapping" [("items",.arr (fields.map fun item => .arr [.str item.1,item.2]))]) :
          Except EncodingError Json) else pure (.obj fields)) = .ok j →
        encode floatText loaded path (.dict items) = .ok j := by
      intro j hj
      rw [encode]
      simp only [hkeys]
      rw [hfields]
      exact hj
    by_cases htag : (items.map Prod.fst).contains (.str tag) = true
    · exact ⟨_,hbound _ (if_pos htag)⟩
    · exact ⟨_,hbound _ (if_neg htag)⟩

theorem ensureReplayableType_importable (h : Importable loaded cls) (path : String) :
    ensureReplayableType loaded cls path = .ok () := by
  unfold ensureReplayableType
  rw [h.global,if_pos h.resolved]
  rfl

theorem writable_enum {name : Option String} {v : Value} :
    Writable floatText loaded (.enum cls name v) ↔
      Importable loaded cls ∧ Writable floatText loaded v := by
  constructor
  · intro h
    obtain ⟨j,hj⟩ := h ""
    obtain ⟨value,-,hcls,hvalue⟩ := encodes_enum ⟨"",hj⟩
    exact ⟨hcls,Encodes.writable hvalue⟩
  · rintro ⟨hcls,h⟩ path
    obtain ⟨value,hvalue⟩ := h (pointer path "value")
    exact ⟨_,by rw [encode,ensureReplayableType_importable hcls,hvalue]; rfl⟩

theorem writable_namedtuple {fields : List String}
    (hfields : loaded.definition cls = .namedtuple fields) (hlength : fields.length = vs.length) :
    Writable floatText loaded (.namedtuple cls vs) ↔
      Importable loaded cls ∧ ∀ v ∈ vs, Writable floatText loaded v := by
  constructor
  · intro h
    obtain ⟨j,hj⟩ := h ""
    obtain ⟨values,-,hcls,hvalues⟩ := encodes_namedtuple hfields hlength ⟨"",hj⟩
    exact ⟨hcls,writable_parts hvalues⟩
  · rintro ⟨hcls,h⟩ path
    obtain ⟨values,hvalues⟩ := encodeFields_writable h path (fieldsOf loaded cls)
    exact ⟨_,by rw [encode,ensureReplayableType_importable hcls,hvalues]; rfl⟩

theorem writable_str (s : String) : Writable floatText loaded (.str s) :=
  fun _ => ⟨_,by rw [encode]⟩

theorem writable_none : Writable floatText loaded .none := fun _ => ⟨_,by rw [encode]⟩

end Writable

end OneStep.WritableValues
