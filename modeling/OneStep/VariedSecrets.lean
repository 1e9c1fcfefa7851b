import OneStep.SecretValues

/-!
# Varied secrets

Other secret values in the place of the given ones. Marked with a text that is not in
the value they leave distinct what was distinct, so that a set stays one of the same
size; a mapping with a key of that text adds a path to what redaction reports.
-/
namespace OneStep.VariedSecrets
open CaptureCodec CaptureRedaction ItemLists JsonValues PythonValues RedactedValues
open SecretValues ValueEquality WritableValues

section Mentions
variable {s : String} {v w : Value} {vs : List Value} {kept : List (Key × Value) → Prop}

/-- The text is in the value. -/
inductive Mentions (s : String) : Value → Prop
  | here : Mentions s (.str s)
  | item {items : List (Key × Value)} {k : Key} {u : Value} :
      (k,u) ∈ items → Mentions s u → Mentions s (.dict items)
  | element {v u : Value} {vs : List Value} :
      elementsOf v = some vs → u ∈ vs → Mentions s u → Mentions s v
  | member {v u : Value} {vs : List Value} :
      bagOf v = some vs → u ∈ vs → Mentions s u → Mentions s v
  | value {cls : ClassRef} {name : Option String} {u : Value} :
      Mentions s u → Mentions s (.enum cls name u)

theorem Mentions.same (h : Mentions s v) (hsame : Same kept v w) : Mentions s w := by
  induction h generalizing w with
  | here =>
    simp only [Same] at hsame
    subst hsame
    exact .here
  | @item items k u hmem _ ih =>
    rw [Same] at hsame
    obtain ⟨others,rfl,hitems,-⟩ := hsame
    obtain ⟨us,hperm,hall⟩ := sameItems_iff.mp hitems
    obtain ⟨⟨k',x⟩,hx,-,hvalue⟩ := forall₂_left hall hmem
    exact .item (hperm.subset hx) (ih hvalue)
  | @element v u vs hvs hu _ ih =>
    obtain ⟨ws,rfl,hall⟩ := (same_elements hvs).mp hsame
    obtain ⟨x,hx,hux⟩ := forall₂_left hall hu
    exact .element (elements_with hvs) hx (ih hux)
  | @member v u vs hvs hu _ ih =>
    obtain ⟨ws,rfl,us,hperm,hall⟩ := (same_members hvs).mp hsame
    obtain ⟨x,hx,hux⟩ := forall₂_left hall hu
    exact .member (members_with hvs ws) (hperm.subset hx) (ih hux)
  | value _ ih =>
    rw [Same] at hsame
    obtain ⟨u,rfl,hu⟩ := hsame
    exact .value (ih hu)

theorem common_bound {α : Type} (as : List α) {R : ℕ → α → Prop}
    (hmono : ∀ {m n a}, m ≤ n → R m a → R n a) (h : ∀ a ∈ as, ∃ n, R n a) :
    ∃ n, ∀ a ∈ as, R n a := by
  induction as with
  | nil => exact ⟨0,fun a ha => absurd ha List.not_mem_nil⟩
  | cons a as ih =>
    rw [List.forall_mem_cons] at h
    obtain ⟨m,hm⟩ := h.1
    obtain ⟨n,hn⟩ := ih h.2
    refine ⟨max m n,List.forall_mem_cons.mpr ⟨hmono (le_max_left m n) hm,fun b hb => ?_⟩⟩
    exact hmono (le_max_right m n) (hn b hb)

/-- The texts in the value have at most this length. -/
def Within (n : ℕ) (v : Value) : Prop := ∀ s, Mentions s v → s.length ≤ n

theorem Within.mono {m n : ℕ} (hmn : m ≤ n) (h : Within m v) : Within n v :=
  fun s hs => (h s hs).trans hmn

theorem within_parts : Parts fun v => ∃ n, Within n v where
  leaf v hleaf := by
    cases v with
    | list us | tuple us | set us | frozenset us | dict items | enum cls name u
      | namedtuple cls us => exact absurd hleaf id
    | str t =>
      refine ⟨t.length,fun s hs => ?_⟩
      cases hs with
      | here => exact le_refl _
      | element hvs | member hvs => cases hvs
    | _ =>
      refine ⟨0,fun s hs => ?_⟩
      cases hs with
      | element hvs | member hvs => cases hvs
  elements v vs hvs ih := by
    obtain ⟨n,hn⟩ := common_bound vs (R := Within) Within.mono ih
    refine ⟨n,fun s hs => ?_⟩
    cases hs with
    | here => cases hvs
    | item => cases hvs
    | value => cases hvs
    | element hvs' hu hs =>
      cases hvs.symm.trans hvs'
      exact hn _ hu s hs
    | member hbag => cases v <;> first | cases hvs; done | cases hbag
  members v vs hvs ih := by
    obtain ⟨n,hn⟩ := common_bound vs (R := Within) Within.mono ih
    refine ⟨n,fun s hs => ?_⟩
    cases hs with
    | here => cases hvs
    | item => cases hvs
    | value => cases hvs
    | element helements => cases v <;> first | cases hvs; done | cases helements
    | member hvs' hu hs =>
      cases hvs.symm.trans hvs'
      exact hn _ hu s hs
  dict items ih := by
    obtain ⟨n,hn⟩ := common_bound items (R := fun n (item : Key × Value) => Within n item.2)
      (fun hmn h => Within.mono hmn h) ih
    refine ⟨n,fun s hs => ?_⟩
    cases hs with
    | item hmem hs => exact hn _ hmem s hs
    | element hvs | member hvs => cases hvs
  enum cls name v ih := by
    obtain ⟨n,hn⟩ := ih
    refine ⟨n,fun s hs => ?_⟩
    cases hs with
    | value hs => exact hn s hs
    | element hvs | member hvs => cases hvs

end Mentions

section Marks
variable {loaded : Loaded} {s : String} {v w : Value} {vs : List Value}

/-- A secret with a text beside it. -/
def tagSecret (s : String) (v : Value) : Value := .tuple [.str s,v]

/-- A value with its secrets marked. -/
def mark (loaded : Loaded) (s : String) : Value → Value := veil loaded (tagSecret s)

theorem mark_elements (h : elementsOf v = some vs) : mark loaded s v = withElements v
    (vs.mapIdx fun i u => if fieldSecret loaded v i then tagSecret s u else mark loaded s u) :=
  veil_elements h

theorem mark_members (h : bagOf v = some vs) :
    mark loaded s v = withMembers v (vs.map (mark loaded s)) := by
  unfold mark
  rcases bag h with rfl | rfl <;> rw [veil,veilAll_plain] <;> rfl

theorem mask_veil {r : Value → Value} :
    Parts fun v => mask loaded (veil loaded r v) = mask loaded v where
  leaf v hleaf := by rw [veil_leaf hleaf]
  elements v vs hvs ih := by
    rw [veil_elements hvs,mask_elements (elements_with hvs),mask_elements hvs,with_with]
    congr 1
    apply List.ext_getElem?
    intro i
    rw [List.getElem?_mapIdx,List.getElem?_mapIdx,List.getElem?_mapIdx,fieldSecret_with]
    cases hu : vs[i]? with
    | none => rfl
    | some u =>
      rw [Option.map_some,Option.map_some,Option.map_some]
      cases hsecret : fieldSecret loaded v i with
      | true => rfl
      | false =>
        simp only [Bool.false_eq_true,if_false]
        rw [ih u (List.mem_of_getElem? hu)]
  members v vs hvs ih := by
    have hmap : (vs.map (veil loaded r)).map (veil loaded fun _ => .none) =
        vs.map (veil loaded fun _ => .none) := by
      rw [List.map_map]
      exact List.map_congr_left ih
    unfold mask
    rcases bag hvs with rfl | rfl <;>
      rw [veil,veil,veil,veilAll_plain,veilAll_plain,veilAll_plain,hmap]
  dict items ih := by
    unfold mask at ih ⊢
    rw [veil_dict,veil_dict,veil_dict,List.map_map]
    congr 1
    refine List.map_congr_left fun item hitem => ?_
    obtain ⟨k,u⟩ := item
    cases hsecret : secretKey k with
    | true => simp [veilItem,hsecret]
    | false => simp [veilItem,hsecret,ih (k,u) hitem]
  enum cls name v ih := by
    unfold mask at ih ⊢
    rw [veil,veil,veil,ih]

theorem mark_hashable : Parts fun v => hashable v = true → hashable (mark loaded s v) = true where
  leaf v hleaf h := by
    unfold mark
    rwa [veil_leaf hleaf]
  elements v vs hvs ih h := by
    have hall : ∀ u ∈ vs, hashable u = true → hashable (tagSecret s u) = true := by
      intro u _ hu
      simp [tagSecret,hashable,allHashable,hu]
    have hmarked : (∀ u ∈ vs, hashable u = true) → ∀ u ∈ (vs.mapIdx fun i u =>
        if fieldSecret loaded v i then tagSecret s u else mark loaded s u), hashable u = true := by
      intro hhash u hu
      obtain ⟨i,hi,rfl⟩ := List.mem_mapIdx.mp hu
      have hmem := List.getElem_mem hi
      cases fieldSecret loaded v i with
      | true => exact hall _ hmem (hhash _ hmem)
      | false => exact ih _ hmem (hhash _ hmem)
    rw [mark_elements hvs]
    rcases sequence hvs with rfl | rfl | ⟨cls,rfl⟩
    · simp [hashable] at h
    · rw [hashable,allHashable_iff] at h
      rw [withElements,hashable,allHashable_iff]
      exact hmarked h
    · rw [hashable,allHashable_iff] at h
      rw [withElements,hashable,allHashable_iff]
      exact hmarked h
  members v vs hvs _ h := by
    rw [mark_members hvs]
    rcases bag hvs with rfl | rfl
    · simp [hashable] at h
    · simp [withMembers,hashable]
  dict items _ h := by simp [hashable] at h
  enum cls name v _ _ := by
    unfold mark
    simp [veil,hashable]

theorem mark_leaf (loaded : Loaded) (h : (mark loaded s v).Leaf) : v.Leaf := by
  unfold mark at h
  cases v with
  | list us | tuple us | set us | frozenset us | dict items | enum cls name u | namedtuple cls us =>
    rw [veil] at h
    exact absurd h id
  | _ => trivial

theorem mark_str {t : String} (h : mark loaded s v = .str t) : v = .str t := by
  have hleaf : v.Leaf := mark_leaf loaded (s := s) (by rw [h]; trivial)
  unfold mark at h
  rwa [veil_leaf hleaf] at h

theorem seq_elements (h : seqOf v = some vs) : elementsOf v = some vs := by
  cases v with
  | tuple us | namedtuple cls us => exact h
  | _ => cases h

theorem seq_with (h : seqOf v = some vs) (ws : List Value) : seqOf (withElements v ws) = some ws := by
  cases v with
  | tuple us | namedtuple cls us => rfl
  | _ => cases h

variable {ws : List Value}

/-- A tuple behind a veil is a tuple. -/
theorem seq_of_mark (h : seqOf (mark loaded s w) = some ws) :
    ∃ us, seqOf w = some us ∧ ws = us.mapIdx fun i u =>
      if fieldSecret loaded w i then tagSecret s u else mark loaded s u := by
  cases w with
  | tuple us | namedtuple cls us =>
    rw [mark_elements rfl] at h
    cases h
    exact ⟨us,rfl,rfl⟩
  | list us | set us | frozenset us | dict items | enum cls name u =>
    unfold mark at h
    rw [veil] at h
    cases h
  | _ =>
    unfold mark at h
    simp [veil,seqOf] at h

theorem mark_head (h : seqOf (mark loaded s w) = some ws) (hnew : ¬Mentions s w) :
    ws[0]? ≠ some (.str s) := by
  obtain ⟨us,hus,rfl⟩ := seq_of_mark h
  rw [List.getElem?_mapIdx]
  intro hhead
  obtain ⟨u,hu,heq⟩ := Option.map_eq_some_iff.mp hhead
  cases hsecret : fieldSecret loaded w 0 with
  | true =>
    rw [hsecret,if_pos rfl] at heq
    cases heq
  | false =>
    rw [hsecret,if_neg Bool.false_ne_true] at heq
    cases mark_str heq
    exact hnew (.element (seq_elements hus) (List.mem_of_getElem? hu) .here)

theorem eq_str {t : String} (h : pyEq v (.str t) = some true) : v = .str t := by
  cases v <;> simp_all [pyEq,Value.num]

variable {u : Value}

variable {x : Value}

theorem tagged_left (hnew : ¬Mentions s x) :
    pyEq (tagSecret s u) (mark loaded s x) ≠ some true := by
  intro h
  obtain ⟨ws,hws,hall⟩ := (pyEq_seq (show seqOf (tagSecret s u) = some [.str s,u] from rfl)).mp h
  cases hall with
  | cons hhead _ => exact mark_head hws hnew (congrArg some (pyEq_str.mp hhead))

theorem tagged_right (hnew : ¬Mentions s x) :
    pyEq (mark loaded s x) (tagSecret s u) ≠ some true := by
  intro h
  obtain ⟨ws,hws,hall⟩ := seq_of_eq (show seqOf (tagSecret s u) = some [.str s,u] from rfl) h
  cases hall with
  | cons hhead _ => exact mark_head hws hnew (congrArg some (eq_str hhead))

theorem tagged_both (h : pyEq (tagSecret s u) (tagSecret s x) = some true) :
    pyEq u x = some true := by
  have hleft : seqOf (tagSecret s u) = some [.str s,u] := rfl
  have hright : seqOf (tagSecret s x) = some [.str s,x] := rfl
  obtain ⟨ws,hws,hall⟩ := (pyEq_seq hleft).mp h
  cases hright.symm.trans hws
  cases hall with
  | cons _ htail =>
    cases htail with
    | cons hsecond _ => exact hsecond

theorem flagValue_mark : flagValue (mark loaded s v) = flagValue v := by
  unfold mark
  cases v with
  | list us | tuple us | set us | frozenset us | dict items | enum cls name u | namedtuple cls us =>
    rw [veil]
    rfl
  | _ => simp [veil]

/-- What is equal after the secrets are marked was equal before. -/
def Told (loaded : Loaded) (s : String) (v : Value) : Prop :=
  Valid loaded v → hashable v = true → ¬Mentions s v → ∀ w, ¬Mentions s w →
    pyEq (mark loaded s v) (mark loaded s w) = some true → pyEq v w = some true

theorem told_seq (hvs : seqOf v = some vs) (ih : ∀ u ∈ vs, Told loaded s u)
    (hvalid : Valid loaded v) (hhash : ∀ u ∈ vs, hashable u = true) (hnew : ¬Mentions s v) (hnew' : ¬Mentions s w)
    (h : pyEq (mark loaded s v) (mark loaded s w) = some true) : pyEq v w = some true := by
  have helements := seq_elements hvs
  rw [mark_elements helements] at h
  obtain ⟨ws,hws,hall⟩ := (pyEq_seq (seq_with hvs _)).mp h
  obtain ⟨us,hus,rfl⟩ := seq_of_mark hws
  refine (pyEq_seq hvs).mpr ⟨us,hus,?_⟩
  obtain ⟨hlength,hpart⟩ := forall₂_iff_getElem?.mp hall
  rw [List.length_mapIdx,List.length_mapIdx] at hlength
  apply forall₂_iff_getElem?.mpr
  refine ⟨hlength,fun i u x hu hx => ?_⟩
  have hmem := List.mem_of_getElem? hu
  have hfresh : ¬Mentions s u := fun hs => hnew (.element helements hmem hs)
  have hfresh' : ¬Mentions s x := fun hs =>
    hnew' (.element (seq_elements hus) (List.mem_of_getElem? hx) hs)
  have heq := hpart i _ _ (by rw [List.getElem?_mapIdx,hu,Option.map_some])
    (by rw [List.getElem?_mapIdx,hx,Option.map_some])
  cases hleft : fieldSecret loaded v i with
  | true =>
    cases hright : fieldSecret loaded w i with
    | true =>
      rw [hleft,hright,if_pos rfl,if_pos rfl] at heq
      exact tagged_both heq
    | false =>
      rw [hleft,hright,if_pos rfl,if_neg Bool.false_ne_true] at heq
      exact absurd heq (tagged_left hfresh')
  | false =>
    cases hright : fieldSecret loaded w i with
    | true =>
      rw [hleft,hright,if_pos rfl,if_neg Bool.false_ne_true] at heq
      exact absurd heq (tagged_right hfresh)
    | false =>
      rw [hleft,hright,if_neg Bool.false_ne_true,if_neg Bool.false_ne_true] at heq
      exact ih u hmem (valid_elements helements hvalid u hmem) (hhash u hmem) hfresh x hfresh' heq

theorem bag_of_mark (h : bagOf (mark loaded s w) = some ws) :
    ∃ us, bagOf w = some us ∧ ws = us.map (mark loaded s) := by
  cases w with
  | set us | frozenset us =>
    rw [mark_members rfl] at h
    cases h
    exact ⟨us,rfl,rfl⟩
  | list us | tuple us | namedtuple cls us =>
    rw [mark_elements rfl] at h
    cases h
  | dict items | enum cls name u =>
    unfold mark at h
    rw [veil] at h
    cases h
  | _ =>
    unfold mark at h
    simp [veil,bagOf] at h

theorem told_parts : Parts (Told loaded s) where
  leaf v hleaf _ _ _ w _ h := by
    have hv : mark loaded s v = v := veil_leaf hleaf
    rw [hv] at h
    have hw : mark loaded s w = w := veil_leaf (mark_leaf loaded (pyEq_leaf hleaf h))
    rwa [hw] at h
  elements v vs hvs ih hvalid hhash hnew w hnew' h := by
    rcases sequence hvs with rfl | rfl | ⟨cls,rfl⟩
    · simp [hashable] at hhash
    · rw [hashable,allHashable_iff] at hhash
      exact told_seq rfl ih hvalid hhash hnew hnew' h
    · rw [hashable,allHashable_iff] at hhash
      exact told_seq rfl ih hvalid hhash hnew hnew' h
  members v vs hvs ih hvalid _ hnew w hnew' h := by
    obtain ⟨hall,hdistinct⟩ := valid_bag hvalid hvs
    rw [mark_members hvs] at h
    obtain ⟨ws,hws,hlength,hfound⟩ := (pyEq_bag (members_with hvs _)).mp h
    obtain ⟨us,hus,rfl⟩ := bag_of_mark hws
    rw [List.length_map,List.length_map] at hlength
    refine (pyEq_bag hvs).mpr ⟨us,hus,hlength,fun u hu => ?_⟩
    obtain ⟨_,hmem,heq⟩ := hfound _ (List.mem_map_of_mem hu)
    obtain ⟨x,hx,rfl⟩ := List.mem_map.mp hmem
    exact ⟨x,hx,ih u hu (hall u hu) (hdistinct.hashed u hu) (fun hs => hnew (.member hvs hu hs)) x
      (fun hs => hnew' (.member hus hx hs)) heq⟩
  dict items _ _ hhash := by simp [hashable] at hhash
  enum cls name v _ _ _ _ w _ h := by
    unfold mark at h
    rw [veil] at h
    cases w with
    | enum cls' name' u =>
      rw [veil] at h
      have hleft : flagValue (veil loaded (tagSecret s) v) = flagValue v := flagValue_mark
      have hright : flagValue (veil loaded (tagSecret s) u) = flagValue u := flagValue_mark
      rw [pyEq] at h ⊢
      rwa [hleft,hright] at h
    | list us | tuple us | namedtuple cls us | set us | frozenset us | dict items =>
      rw [veil] at h
      simp [pyEq] at h
    | _ => simp [veil,pyEq] at h

theorem distinct_mark (h : Distinct vs) (hvalid : ∀ v ∈ vs, Valid loaded v)
    (hnew : ∀ v ∈ vs, ¬Mentions s v) : Distinct (vs.map (mark loaded s)) where
  hashed w hw := by
    obtain ⟨v,hv,rfl⟩ := List.mem_map.mp hw
    exact mark_hashable.all v (h.hashed v hv)
  apart := by
    rw [List.pairwise_map]
    apply h.apart.imp_of_mem
    intro v w hv hw hne
    constructor
    · intro heq
      exact hne.1 (told_parts.all v (hvalid v hv) (h.hashed v hv) (hnew v hv) w (hnew w hw) heq)
    · intro heq
      exact hne.2 (told_parts.all w (hvalid w hw) (h.hashed w hw) (hnew w hw) v (hnew v hv) heq)

theorem memberOf_outline {cls : ClassRef} {name : Option String} (h : MemberOf loaded cls name u) :
    MemberOf (outline loaded) cls name x := by
  obtain ⟨members,hmembers,-⟩ := h
  refine ⟨[],by simp [outline,hmembers],fun n _ m hm => ?_⟩
  cases hm

theorem valid_with (h : elementsOf v = some vs) (hvalid : Valid loaded v)
    (hlength : ws.length = vs.length) (hall : ∀ w ∈ ws, Valid (outline loaded) w) :
    Valid (outline loaded) (withElements v ws) := by
  rcases sequence h with rfl | rfl | ⟨cls,rfl⟩
  · rw [withElements,Valid,validAll_iff]
    exact hall
  · rw [withElements,Valid,validAll_iff]
    exact hall
  · rw [Valid] at hvalid
    obtain ⟨-,fields,hfields,hcount⟩ := hvalid
    rw [withElements,Valid,validAll_iff]
    exact ⟨hall,fields,by simp [outline,hfields],hcount.trans hlength.symm⟩

theorem valid_withMembers (h : bagOf v = some vs) (hdistinct : Distinct ws)
    (hall : ∀ w ∈ ws, Valid (outline loaded) w) : Valid (outline loaded) (withMembers v ws) := by
  rcases bag h with rfl | rfl <;> rw [withMembers,Valid,validAll_iff] <;> exact ⟨hall,hdistinct⟩

theorem valid_outline : Parts fun v => Valid loaded v → Valid (outline loaded) v where
  leaf v hleaf _ := by cases v <;> first | exact absurd hleaf id | trivial
  elements v vs hvs ih hvalid := by
    have hall := valid_elements hvs hvalid
    have hwith := valid_with hvs hvalid rfl fun u hu => ih u hu (hall u hu)
    rwa [with_self hvs] at hwith
  members v vs hvs ih hvalid := by
    obtain ⟨hall,hdistinct⟩ := valid_bag hvalid hvs
    have hwith := valid_withMembers hvs hdistinct fun u hu => ih u hu (hall u hu)
    rcases bag hvs with rfl | rfl <;> exact hwith
  dict items ih hvalid := by
    rw [Valid,validItems_iff] at hvalid ⊢
    exact ⟨fun item hitem => ih item hitem (hvalid.1 item hitem),hvalid.2⟩
  enum cls name v ih hvalid := by
    rw [Valid] at hvalid ⊢
    exact ⟨ih hvalid.1,memberOf_outline hvalid.2⟩

theorem valid_tagged (h : Valid (outline loaded) u) : Valid (outline loaded) (tagSecret s u) := by
  rw [tagSecret,Valid,validAll_iff]
  intro x hx
  rw [List.mem_cons,List.mem_singleton] at hx
  rcases hx with rfl | rfl
  · trivial
  · exact h

theorem valid_mark : Parts fun v => Valid loaded v → ¬Mentions s v →
    Valid (outline loaded) (mark loaded s v) where
  leaf v hleaf hvalid _ := by
    have hv : mark loaded s v = v := veil_leaf hleaf
    rw [hv]
    exact valid_outline.all v hvalid
  elements v vs hvs ih hvalid hnew := by
    have hall := valid_elements hvs hvalid
    rw [mark_elements hvs]
    apply valid_with hvs hvalid (by rw [List.length_mapIdx])
    intro w hw
    obtain ⟨i,hi,rfl⟩ := List.mem_mapIdx.mp hw
    have hmem := List.getElem_mem hi
    cases fieldSecret loaded v i with
    | true => exact valid_tagged (valid_outline.all _ (hall _ hmem))
    | false => exact ih _ hmem (hall _ hmem) fun hs => hnew (.element hvs hmem hs)
  members v vs hvs ih hvalid hnew := by
    obtain ⟨hall,hdistinct⟩ := valid_bag hvalid hvs
    have hfresh : ∀ u ∈ vs, ¬Mentions s u := fun u hu hs => hnew (.member hvs hu hs)
    rw [mark_members hvs]
    apply valid_withMembers hvs (distinct_mark hdistinct hall hfresh)
    intro w hw
    obtain ⟨u,hu,rfl⟩ := List.mem_map.mp hw
    exact ih u hu (hall u hu) (hfresh u hu)
  dict items ih hvalid hnew := by
    unfold mark at ih ⊢
    rw [Valid,validItems_iff] at hvalid
    rw [veil_dict,Valid,validItems_iff,veilItem_keys]
    refine ⟨fun item hitem => ?_,hvalid.2⟩
    obtain ⟨⟨k,u⟩,hmem,rfl⟩ := List.mem_map.mp hitem
    cases hsecret : secretKey k with
    | true =>
      simp only [veilItem,hsecret,if_true]
      exact valid_tagged (valid_outline.all u (hvalid.1 _ hmem))
    | false =>
      simp only [veilItem,hsecret,Bool.false_eq_true,if_false]
      exact ih (k,u) hmem (hvalid.1 _ hmem) fun hs => hnew (.item hmem hs)
  enum cls name v ih hvalid hnew := by
    unfold mark at ih ⊢
    rw [Valid] at hvalid
    rw [veil,Valid]
    exact ⟨ih hvalid.1 fun hs => hnew (.value hs),memberOf_outline hvalid.2⟩

variable {floatText : Double → List Char}

theorem writable_with (h : elementsOf v = some vs) (hvalid : Valid loaded v)
    (hlength : ws.length = vs.length) (hwrite : Writable floatText loaded (withElements v ws)) :
    (∀ w ∈ ws, Writable floatText loaded w) ∧
      ∀ us : List Value, us.length = vs.length → (∀ u ∈ us, Writable floatText loaded u) →
        Writable floatText loaded (withElements v us) := by
  rcases sequence h with rfl | rfl | ⟨cls,rfl⟩
  · exact ⟨writable_list.mp hwrite,fun us _ hus => writable_list.mpr hus⟩
  · exact ⟨writable_tuple.mp hwrite,fun us _ hus => writable_tuple.mpr hus⟩
  · rw [Valid] at hvalid
    obtain ⟨-,fields,hfields,hcount⟩ := hvalid
    obtain ⟨hcls,hws⟩ := (writable_namedtuple hfields (hcount.trans hlength.symm)).mp hwrite
    exact ⟨hws,fun us hus hall =>
      (writable_namedtuple hfields (hcount.trans hus.symm)).mpr ⟨hcls,hall⟩⟩

theorem writable_members (h : bagOf v = some vs) :
    Writable floatText loaded v ↔ ∀ u ∈ vs, Writable floatText loaded u := by
  rcases bag h with rfl | rfl
  · exact writable_set
  · exact writable_frozenset

theorem writable_tagged (h : Writable floatText loaded u) :
    Writable floatText loaded (tagSecret s u) := by
  apply writable_tuple.mpr
  intro x hx
  rw [List.mem_cons,List.mem_singleton] at hx
  rcases hx with rfl | rfl
  · exact writable_str s
  · exact h

theorem writable_mark : Parts fun v => Valid loaded v → Writable floatText loaded v →
    Writable floatText loaded (mark loaded s v) where
  leaf v hleaf _ hwrite := by
    have hv : mark loaded s v = v := veil_leaf hleaf
    rwa [hv]
  elements v vs hvs ih hvalid hwrite := by
    have hall := valid_elements hvs hvalid
    rw [← with_self hvs] at hwrite
    obtain ⟨hus,hother⟩ := writable_with hvs hvalid rfl hwrite
    rw [mark_elements hvs]
    apply hother _ (by rw [List.length_mapIdx])
    intro w hw
    obtain ⟨i,hi,rfl⟩ := List.mem_mapIdx.mp hw
    have hmem := List.getElem_mem hi
    cases fieldSecret loaded v i with
    | true => exact writable_tagged (hus _ hmem)
    | false => exact ih _ hmem (hall _ hmem) (hus _ hmem)
  members v vs hvs ih hvalid hwrite := by
    obtain ⟨hall,-⟩ := valid_bag hvalid hvs
    rw [mark_members hvs]
    apply (writable_members (members_with hvs _)).mpr
    intro w hw
    obtain ⟨u,hu,rfl⟩ := List.mem_map.mp hw
    exact ih u hu (hall u hu) ((writable_members hvs).mp hwrite u hu)
  dict items ih hvalid hwrite := by
    unfold mark at ih ⊢
    rw [Valid,validItems_iff] at hvalid
    obtain ⟨hkeys,hitems⟩ := writable_dict.mp hwrite
    rw [veil_dict]
    refine writable_dict.mpr ⟨(strangeKey_map (veilItem_keys items)).trans hkeys,?_⟩
    intro item hitem
    obtain ⟨⟨k,u⟩,hmem,rfl⟩ := List.mem_map.mp hitem
    cases hsecret : secretKey k with
    | true =>
      simp only [veilItem,hsecret,if_true]
      exact writable_tagged (hitems _ hmem)
    | false =>
      simp only [veilItem,hsecret,Bool.false_eq_true,if_false]
      exact ih (k,u) hmem (hvalid.1 _ hmem) (hitems _ hmem)
  enum cls name v ih hvalid hwrite := by
    unfold mark at ih ⊢
    rw [Valid] at hvalid
    obtain ⟨hcls,hvalue⟩ := writable_enum.mp hwrite
    rw [veil]
    exact writable_enum.mpr ⟨hcls,ih hvalid.1 hvalue⟩

theorem mentions_tagged : Mentions s (tagSecret s u) :=
  .element rfl List.mem_cons_self .here

theorem mentions_mark (h : HoldsSecret loaded v) : Mentions s (mark loaded s v) :=
  h.veiled ⟨.item,.element,.member,.value⟩ (fun hmem _ => .item hmem mentions_tagged)
    fun hvs hu _ => .element hvs (List.mem_of_getElem? hu) mentions_tagged

end Marks

section Variations
variable (loaded : Loaded) (f g : Value → Value)

mutual

/-- A value with another one in the place of each part that the walk of the redaction
ends at, and of each secret field of a named tuple that it comes to. -/
def vary : Value → Value
  | .dict items => .dict (varyItems items)
  | .list vs => .list (varyAll (fun _ => false) vs)
  | .tuple vs => .tuple (varyAll (fun _ => false) vs)
  | .namedtuple cls vs => .namedtuple cls (varyAll (secretField loaded cls) vs)
  | v => f v

def varyAll (secret : ℕ → Bool) : List Value → List Value
  | [] => []
  | v::vs => (if secret 0 then g v else vary v)::varyAll (fun i => secret (i+1)) vs

def varyItems : List (Key × Value) → List (Key × Value)
  | [] => []
  | (k,v)::items => (k,if secretKey k then v else vary v)::varyItems items

end

variable {loaded f g} {s : String} {v w : Value} {vs : List Value} {ps : List (List String)}
variable {floatText : Double → List Char} (items : List (Key × Value))

theorem varyAll_eq (secret : ℕ → Bool) (vs : List Value) : varyAll loaded f g secret vs =
    vs.mapIdx fun i v => if secret i then g v else vary loaded f g v := by
  induction vs generalizing secret with
  | nil => rw [varyAll,List.mapIdx_nil]
  | cons v vs ih => rw [varyAll,ih,List.mapIdx_cons]

def variedElements (loaded : Loaded) (f g : Value → Value) (v : Value) (vs : List Value) :
    List Value :=
  vs.mapIdx fun i u => if fieldSecret loaded v i then g u else vary loaded f g u

theorem vary_elements (h : elementsOf v = some vs) :
    vary loaded f g v = withElements v (variedElements loaded f g v vs) := by
  rcases sequence h with rfl | rfl | ⟨cls,rfl⟩ <;> rw [vary,varyAll_eq] <;> rfl

def varyItem (loaded : Loaded) (f g : Value → Value) (item : Key × Value) : Key × Value :=
  (item.1,if secretKey item.1 then item.2 else vary loaded f g item.2)

theorem varyItems_eq : varyItems loaded f g items = items.map (varyItem loaded f g) := by
  induction items with
  | nil => rw [varyItems,List.map_nil]
  | cons item items ih =>
    obtain ⟨k,v⟩ := item
    rw [varyItems,ih,List.map_cons]
    rfl

theorem vary_dict : vary loaded f g (.dict items) = .dict (items.map (varyItem loaded f g)) := by
  rw [vary,varyItems_eq]

theorem vary_closed (h : ¬Open v) : vary loaded f g v = f v := by
  cases v with
  | list us | tuple us | dict items | namedtuple cls us => exact absurd trivial h
  | _ => simp [vary]

theorem varyItem_keys : (items.map (varyItem loaded f g)).map Prod.fst = items.map Prod.fst := by
  rw [List.map_map]
  rfl

theorem variedElements_length (v : Value) (vs : List Value) :
    (variedElements loaded f g v vs).length = vs.length := List.length_mapIdx

theorem variedElements_get (loaded : Loaded) {i : ℕ} {u : Value} (h : vs[i]? = some u) (v : Value) :
    (variedElements loaded f g v vs)[i]? =
      some (if fieldSecret loaded v i then g u else vary loaded f g u) := by
  unfold variedElements
  rw [List.getElem?_mapIdx,h,Option.map_some]

theorem mem_variedElements {u : Value} (h : u ∈ variedElements loaded f g v vs) :
    ∃ (i : ℕ) (x : Value), x ∈ vs ∧ vs[i]? = some x ∧
      u = if fieldSecret loaded v i then g x else vary loaded f g x := by
  obtain ⟨i,hi,rfl⟩ := List.mem_mapIdx.mp h
  exact ⟨i,vs[i],List.getElem_mem hi,List.getElem?_eq_getElem hi,rfl⟩

/-- What is put in the place of parts, for values that do not hold a text. -/
structure Variation (floatText : Double → List Char) (loaded : Loaded) (s : String)
    (f g : Value → Value) : Prop where
  closed : ∀ v, ¬Open v → ¬Open (f v)
  masked : ∀ v, mask loaded (f v) = mask loaded v
  valid : ∀ v, Valid loaded v → ¬Mentions s v → Valid (outline loaded) (f v)
  written : ∀ v, Valid loaded v → Writable floatText loaded v → Writable floatText loaded (f v)
  fieldValid : ∀ v, Valid loaded v → Valid (outline loaded) (g v)
  fieldWritten : ∀ ps v, Valid loaded v → Writable floatText loaded (remaining ps v) →
    Writable floatText loaded (remaining ps (g v))

theorem mask_vary (h : Variation floatText loaded s f g) :
    Walk fun v => mask loaded (vary loaded f g v) = mask loaded v where
  closed v hclosed := by rw [vary_closed hclosed,h.masked]
  elements v vs hvs ih := by
    rw [vary_elements hvs,mask_elements (elements_with hvs),mask_elements hvs,with_with]
    congr 1
    apply List.ext_getElem?
    intro i
    rw [List.getElem?_mapIdx,List.getElem?_mapIdx,fieldSecret_with]
    cases hu : vs[i]? with
    | none =>
      unfold variedElements
      rw [List.getElem?_mapIdx,hu]
      rfl
    | some u =>
      rw [variedElements_get loaded hu,Option.map_some,Option.map_some]
      cases hsecret : fieldSecret loaded v i with
      | true => rfl
      | false =>
        simp only [Bool.false_eq_true,if_false]
        rw [ih u (List.mem_of_getElem? hu)]
  dict items ih := by
    unfold mask at ih ⊢
    rw [vary_dict,veil_dict,veil_dict,List.map_map]
    congr 1
    refine List.map_congr_left fun item hitem => ?_
    obtain ⟨k,u⟩ := item
    cases hsecret : secretKey k with
    | true => simp [veilItem,varyItem,hsecret]
    | false => simp [veilItem,varyItem,hsecret,ih (k,u) hitem]

theorem valid_vary (h : Variation floatText loaded s f g) :
    Walk fun v => Valid loaded v → ¬Mentions s v → Valid (outline loaded) (vary loaded f g v) where
  closed v hclosed hvalid hnew := by
    rw [vary_closed hclosed]
    exact h.valid v hvalid hnew
  elements v vs hvs ih hvalid hnew := by
    have hall := valid_elements hvs hvalid
    rw [vary_elements hvs]
    apply valid_with hvs hvalid (variedElements_length v vs)
    intro w hw
    obtain ⟨i,u,hu,-,rfl⟩ := mem_variedElements hw
    cases fieldSecret loaded v i with
    | true => exact h.fieldValid u (hall u hu)
    | false => exact ih u hu (hall u hu) fun hs => hnew (.element hvs hu hs)
  dict items ih hvalid hnew := by
    rw [Valid,validItems_iff] at hvalid
    rw [vary_dict,Valid,validItems_iff,varyItem_keys]
    refine ⟨fun item hitem => ?_,hvalid.2⟩
    obtain ⟨⟨k,u⟩,hmem,rfl⟩ := List.mem_map.mp hitem
    cases hsecret : secretKey k with
    | true =>
      simp only [varyItem,hsecret,if_true]
      exact valid_outline.all u (hvalid.1 _ hmem)
    | false =>
      simp only [varyItem,hsecret,Bool.false_eq_true,if_false]
      exact ih (k,u) hmem (hvalid.1 _ hmem) fun hs => hnew (.item hmem hs)

theorem writable_vary (h : Variation floatText loaded s f g) : Walk fun v => Valid loaded v →
    ¬Mentions s v → ∀ ps, Writable floatText loaded (remaining ps v) →
      Writable floatText loaded (remaining ps (vary loaded f g v)) where
  closed v hclosed hvalid hnew ps hwrite := by
    rw [vary_closed hclosed]
    by_cases hps : [] ∈ ps
    · rwa [remaining_erased hps] at hwrite ⊢
    · rw [remaining_closed hps hvalid hclosed] at hwrite
      rw [remaining_closed hps (h.valid v hvalid hnew) (h.closed v hclosed)]
      exact h.written v hvalid hwrite
  elements v vs hvs ih hvalid hnew ps hwrite := by
    by_cases hps : [] ∈ ps
    · rwa [remaining_erased hps] at hwrite ⊢
    · have hall := valid_elements hvs hvalid
      rw [remaining_elements hps hvs] at hwrite
      have hlength : ∀ us : List Value, us.length = vs.length →
          (remainingAll ps us).length = vs.length := fun us hus => by
        rw [remainingAll,List.length_mapIdx,hus]
      obtain ⟨hus,hother⟩ := writable_with hvs hvalid (hlength vs rfl) hwrite
      rw [vary_elements hvs,remaining_elements hps (elements_with hvs),with_with]
      apply hother _ (hlength _ (variedElements_length v vs))
      intro w hw
      obtain ⟨i,u,hu,rfl⟩ := mem_remainingAll hw
      obtain ⟨hi,-⟩ := List.getElem?_eq_some_iff.mp hu
      rw [variedElements_length] at hi
      have hx := List.getElem?_eq_getElem hi
      rw [variedElements_get loaded hx] at hu
      cases hu
      have hmem := List.mem_of_getElem? hx
      have hgiven := hus _ (remaining_mem hx)
      cases fieldSecret loaded v i with
      | true => exact h.fieldWritten _ _ (hall _ hmem) hgiven
      | false => exact ih _ hmem (hall _ hmem) (fun hs => hnew (.element hvs hmem hs)) _ hgiven
  dict items ih hvalid hnew ps hwrite := by
    by_cases hps : [] ∈ ps
    · rwa [remaining_erased hps] at hwrite ⊢
    · rw [Valid,validItems_iff] at hvalid
      rw [remaining_dict hps hvalid.2] at hwrite
      obtain ⟨hkeys,hitems⟩ := writable_dict.mp hwrite
      rw [vary_dict,remaining_dict hps (by rw [varyItem_keys]; exact hvalid.2)]
      refine writable_dict.mpr ⟨?_,?_⟩
      · rw [← hkeys]
        apply strangeKey_map
        rw [remainingItem_keys,remainingItem_keys,varyItem_keys]
      · intro item hitem
        obtain ⟨_,hvaried,rfl⟩ := List.mem_map.mp hitem
        obtain ⟨⟨k,u⟩,hmem,rfl⟩ := List.mem_map.mp hvaried
        have hgiven := hitems _ (List.mem_map_of_mem hmem)
        cases hsecret : secretKey k with
        | true =>
          simp only [remainingItem,varyItem,hsecret,if_true] at hgiven ⊢
          exact hgiven
        | false =>
          simp only [remainingItem,varyItem,hsecret,Bool.false_eq_true,if_false] at hgiven ⊢
          exact ih (k,u) hmem (hvalid.1 _ hmem) (fun hs => hnew (.item hmem hs)) _ hgiven

theorem mark_variation : Variation floatText loaded s (mark loaded s) id where
  closed _ hclosed hopen := hclosed (open_veil.mp hopen)
  masked := mask_veil.all
  valid := valid_mark.all
  written := writable_mark.all
  fieldValid := valid_outline.all
  fieldWritten _ _ _ hwrite := hwrite

/-- What leaks is marked in what is left. -/
theorem mentions_leaked (hleaks : Leaks loaded ps v) (hvalid : Valid loaded v)
    (hexposes : ¬Exposes loaded v) (hnew : ¬Mentions s v) :
    Mentions s (remaining ps (vary loaded (mark loaded s) id v)) := by
  induction hleaks with
  | @closed ps v hps hclosed hholds =>
    have hmarked : ¬Open (mark loaded s v) := fun hopen => hclosed (open_veil.mp hopen)
    rw [vary_closed hclosed,remaining_closed hps (valid_mark.all v hvalid hnew) hmarked]
    exact mentions_mark hholds
  | @item ps items k u hps hmem hsecret _ ih =>
    rw [Valid,validItems_iff] at hvalid
    rw [vary_dict,remaining_dict hps (by rw [varyItem_keys]; exact hvalid.2)]
    have hrest := ih (hvalid.1 _ hmem) (fun h => hexposes (.item hmem hsecret h))
      fun hs => hnew (.item hmem hs)
    have hmem' : remainingItem ps (varyItem loaded (mark loaded s) id (k,u)) ∈
        (items.map (varyItem loaded (mark loaded s) id)).map (remainingItem ps) :=
      List.mem_map_of_mem (List.mem_map_of_mem hmem)
    simp only [remainingItem,varyItem,hsecret,Bool.false_eq_true,if_false] at hmem'
    exact .item hmem' hrest
  | @element ps v u vs i hps hvs hu _ ih =>
    have hmem := List.mem_of_getElem? hu
    rw [vary_elements hvs,remaining_elements hps (elements_with hvs),with_with]
    have hrest := ih (valid_elements hvs hvalid u hmem)
      (fun h => hexposes (.element hvs hmem h)) fun hs => hnew (.element hvs hmem hs)
    have hfield : fieldSecret loaded v i = false := by
      rw [Bool.eq_false_iff]
      exact fun hsecret => hexposes (.field hvs hu hsecret)
    have hvaried := variedElements_get loaded (f := mark loaded s) (g := id) hu v
    rw [hfield,if_neg Bool.false_ne_true] at hvaried
    exact .element (elements_with hvs) (remaining_mem hvaried) hrest

end Variations

section Paths
variable {loaded : Loaded} {floatText : Double → List Char} {s : String} {v : Value}
variable {vs : List Value}

/-- A mapping whose secret stands below a key of this text. -/
def pathed (s : String) : Value := .dict [(.str s,.dict [(.str "password",.none)])]

theorem pointer_length (path token : String) : token.length ≤ (pointer path token).length := by
  unfold pointer
  have hescaped : ∀ cs : List Char, cs.length ≤ (cs.flatMap fun c =>
      if c = '~' then ['~','0'] else if c = '/' then ['~','1'] else [c]).length := by
    intro cs
    induction cs with
    | nil => exact le_refl _
    | cons c cs ih =>
      rw [List.flatMap_cons,List.length_append,List.length_cons]
      have hone : 1 ≤ (if c = '~' then ['~','0'] else if c = '/' then ['~','1'] else [c]).length := by
        split
        · decide
        · split
          · decide
          · exact le_refl _
      omega
  have htoken := hescaped token.toList
  simp only [String.length_append,String.length_ofList]
  rw [String.length_toList] at htoken
  omega

theorem pointer_extends (path token : String) : path.length ≤ (pointer path token).length := by
  unfold pointer
  rw [String.length_append,String.length_append]
  omega

theorem paths_pathed (s path : String) : ∃ p ∈ secretPaths path (pathed s), s.length ≤ p.length := by
  have hpassword : secretKey (.str "password") = true := by decide
  unfold pathed
  rw [secretPaths,itemPaths,itemPaths,List.append_nil]
  cases hsecret : secretKey (.str s) with
  | true => exact ⟨_,List.mem_singleton_self _,pointer_length path s⟩
  | false =>
    rw [if_neg Bool.false_ne_true,secretPaths,itemPaths,itemPaths,List.append_nil,hpassword,
      if_pos rfl]
    exact ⟨_,List.mem_singleton_self _,(pointer_length path s).trans (pointer_extends _ _)⟩

theorem mem_elementPaths {i : ℕ} {u : Value} (h : vs[i]? = some u) {path p : String} (k : ℕ)
    (hp : p ∈ secretPaths (path++"/"++toString (k+i)) u) : p ∈ elementPaths path k vs := by
  induction vs generalizing i k with
  | nil => cases h
  | cons v vs ih =>
    rw [elementPaths,List.mem_append]
    cases i with
    | zero =>
      cases h
      exact .inl hp
    | succ i =>
      right
      apply ih (by simpa using h)
      rwa [show k+1+i = k+(i+1) by omega]

theorem mem_itemPaths {items : List (Key × Value)} {k : Key} {u : Value} (hmem : (k,u) ∈ items)
    (hsecret : secretKey k = false) {path p : String}
    (hp : p ∈ secretPaths (pointer path (keyText k)) u) : p ∈ itemPaths path items := by
  induction items with
  | nil => cases hmem
  | cons item items ih =>
    obtain ⟨k',x⟩ := item
    rw [itemPaths,List.mem_append]
    rcases List.mem_cons.mp hmem with heq | hmem
    · cases heq
      left
      rwa [hsecret,if_neg Bool.false_ne_true]
    · exact .inr (ih hmem)

theorem paths_exposed (h : Exposes loaded v) (s path : String) :
    ∃ p ∈ secretPaths path (vary loaded id (fun _ => pathed s) v), s.length ≤ p.length := by
  induction h generalizing path with
  | @field v u vs i hvs hu hsecret =>
    have hvaried := variedElements_get loaded (f := id) (g := fun _ => pathed s) hu v
    rw [hsecret,if_pos rfl] at hvaried
    obtain ⟨p,hp,hlength⟩ := paths_pathed s (path++"/"++toString (0+i))
    rw [vary_elements hvs,paths_elements (elements_with hvs)]
    exact ⟨p,mem_elementPaths hvaried 0 hp,hlength⟩
  | @item items k u hmem hsecret _ ih =>
    obtain ⟨p,hp,hlength⟩ := ih (pointer path (keyText k))
    have hmem' : varyItem loaded id (fun _ => pathed s) (k,u) ∈
        items.map (varyItem loaded id fun _ => pathed s) := List.mem_map_of_mem hmem
    simp only [varyItem,hsecret,Bool.false_eq_true,if_false] at hmem'
    rw [vary_dict,secretPaths]
    exact ⟨p,mem_itemPaths hmem' hsecret hp,hlength⟩
  | @element v u vs hvs hu _ ih =>
    obtain ⟨i,hi⟩ := List.mem_iff_getElem?.mp hu
    rw [vary_elements hvs,paths_elements (elements_with hvs)]
    have hvaried := variedElements_get loaded (f := id) (g := fun _ => pathed s) hi v
    cases hsecret : fieldSecret loaded v i with
    | true =>
      rw [hsecret,if_pos rfl] at hvaried
      obtain ⟨p,hp,hlength⟩ := paths_pathed s (path++"/"++toString (0+i))
      exact ⟨p,mem_elementPaths hvaried 0 hp,hlength⟩
    | false =>
      rw [hsecret,if_neg Bool.false_ne_true] at hvaried
      obtain ⟨p,hp,hlength⟩ := ih (path++"/"++toString (0+i))
      exact ⟨p,mem_elementPaths hvaried 0 hp,hlength⟩

theorem pathed_valid : Valid loaded (pathed s) := by simp [pathed,Valid,ValidItems]

theorem pathed_written (ps : List (List String)) :
    Writable floatText loaded (remaining ps (pathed s)) := by
  have hnone : ∀ ps, Writable floatText loaded (remaining ps .none) := by
    intro ps
    by_cases hps : [] ∈ ps
    · rw [remaining_erased hps]
      exact writable_str _
    · have hvalid : Valid loaded .none := trivial
      rw [remaining_closed hps hvalid id]
      exact writable_none
  have hitem : ∀ (ps : List (List String)) (k : String) (v : Value),
      (∀ ps, Writable floatText loaded (remaining ps v)) →
        Writable floatText loaded (remaining ps (.dict [(.str k,v)])) := by
    intro ps k v hv
    by_cases hps : [] ∈ ps
    · rw [remaining_erased hps]
      exact writable_str _
    · rw [remaining_dict hps (by simp)]
      refine writable_dict.mpr ⟨rfl,fun item hitem => ?_⟩
      obtain ⟨_,hmem,rfl⟩ := List.mem_map.mp hitem
      cases List.mem_singleton.mp hmem
      unfold remainingItem
      cases secretKey (.str k) with
      | true => exact writable_str _
      | false => exact hv _
  exact hitem ps s _ fun ps => hitem ps "password" _ hnone

theorem pathed_variation : Variation floatText loaded s id fun _ => pathed s where
  closed _ hclosed := hclosed
  masked _ := rfl
  valid v hvalid _ := valid_outline.all v hvalid
  written _ _ hwrite := hwrite
  fieldValid _ _ := pathed_valid
  fieldWritten ps _ _ _ := pathed_written ps

end Paths

end OneStep.VariedSecrets
