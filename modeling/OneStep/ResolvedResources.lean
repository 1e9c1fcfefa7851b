import Mathlib.Data.List.Nodup
import Mathlib.Data.List.Perm.Subperm
import Mathlib.Logic.Relation
import Mathlib.Tactic

/-!
# Resources that resolve each other

A builder of a resource may ask for other resources by name, in any order and any
number of times; what is built once is kept. The names whose construction is in
progress are a stack, and asking for one of them is an error. An exception of the
resolution leaves the builder that asked, and every one that waits for it.
-/
namespace OneStep.ResolvedResources
open Relation

section Sections
variable {S : Type} [DecidableEq S]

/-- A section: null, no mapping, or the specs by their names, which may be no mappings. -/
inductive Section (S : Type) where
  | null
  | other
  | mapping (specs : List (String × Option S))

/-- What `_collect_resource_specs` raises. -/
inductive SpecError where
  | notMapping (name : Option String)
  | definedTwice (name : String)
  deriving DecidableEq

def addSpec (specs : List (String × S)) (entry : String × Option S) :
    Except SpecError (List (String × S)) :=
  match entry.2 with
  | none => .error (.notMapping (some entry.1))
  | some spec =>
    match specs.lookup entry.1 with
    | none => .ok (specs++[(entry.1,spec)])
    | some known => if known = spec then .ok specs else .error (.definedTwice entry.1)

/-- The sections are resources, connectors, sources and sinks. -/
def collectResourceSpecs (sections : List (Section S)) : Except SpecError (List (String × S)) :=
  sections.foldlM (fun specs raw =>
    match raw with
    | .null => .ok specs
    | .other => .error (.notMapping none)
    | .mapping entries => entries.foldlM addSpec specs) []

end Sections

section Building
variable {S V E : Type}

/-- What the builder of a resource does: it returns an object, raises, or asks for a
name and goes on with its object. -/
inductive Builder (V E : Type) where
  | ret (v : V)
  | raise (e : E)
  | resolve (name : String) (next : V → Builder V E)

inductive Raised (E : Type) where
  | unknown (name : String)
  | cyclic (path : List String)
  | builder (e : E)
  /-- More names in progress than there are. -/
  | unfinished

/-- The resources that are built, the builders that were called, the names that were
asked for by a builder, and the objects it was given. -/
structure Resolution (V : Type) where
  resources : List (String × V) := []
  calls : List String := []
  asked : List (String × String) := []
  answers : List (String × V) := []

variable (specs : List (String × S)) (build : String → S → Builder V E)

/-- A builder, with what `resolve` does for it. -/
def perform (resolve : String → Resolution V → Except (Raised E) V × Resolution V)
    (owner : String) : Builder V E → Resolution V → Except (Raised E) V × Resolution V
  | .ret v,s => (.ok v,s)
  | .raise e,s => (.error (.builder e),s)
  | .resolve name next,s =>
    match resolve name {s with asked := s.asked++[(owner,name)]} with
    | (.ok v,s) => perform resolve owner (next v) {s with answers := s.answers++[(name,v)]}
    | (.error e,s) => (.error e,s)

/-- `resolve`; the fuel bounds the names in progress. -/
def resolve : ℕ → List String → String → Resolution V → Except (Raised E) V × Resolution V
  | 0,_,_,s => (.error .unfinished,s)
  | fuel+1,resolving,name,s =>
    match s.resources.lookup name with
    | some v => (.ok v,s)
    | none =>
      match specs.lookup name with
      | none => (.error (.unknown name),s)
      | some spec =>
        if name ∈ resolving then (.error (.cyclic (resolving++[name])),s)
        else
          match perform (resolve fuel (resolving++[name])) name (build name spec)
              {s with calls := s.calls++[name]} with
          | (.ok v,s) => (.ok v,{s with resources := s.resources++[(name,v)]})
          | (.error e,s) => (.error e,s)

def resolveAll (fuel : ℕ) : List String → Resolution V → Except (Raised E) Unit × Resolution V
  | [],s => (.ok (),s)
  | name::names,s =>
    match resolve specs build fuel [] name s with
    | (.ok _,s) => resolveAll fuel names s
    | (.error e,s) => (.error e,s)

/-- `_build_resources` of the collected specs; the resources are those of the state. -/
def buildResources : Except (Raised E) Unit × Resolution V :=
  resolveAll specs build (specs.length+1) (specs.map Prod.fst) {}

end Building

section Order

theorem idxOf_lt_of_sublist {l : List String} {a b : String} (hnodup : l.Nodup)
    (h : [a,b].Sublist l) : l.idxOf a < l.idxOf b := by
  induction l with
  | nil => cases h
  | cons x l ih =>
    rw [List.nodup_cons] at hnodup
    cases h with
    | cons _ h =>
      have ha : x ≠ a := fun heq => hnodup.1 (heq ▸ h.subset List.mem_cons_self)
      have hb : x ≠ b := fun heq => hnodup.1 (heq ▸ h.subset (by simp))
      rw [List.idxOf_cons_ne _ ha,List.idxOf_cons_ne _ hb]
      exact Nat.succ_lt_succ (ih hnodup.2 h)
    | cons_cons _ h =>
      have hb : a ≠ b := fun heq => hnodup.1 (heq ▸ h.subset List.mem_cons_self)
      rw [List.idxOf_cons_self,List.idxOf_cons_ne _ hb]
      exact Nat.succ_pos _

/-- Edges that all go back in a list without repetitions, but for those to a name from
which none starts, close no cycle. -/
theorem acyclic_of_ordered {l : List String} {asked : List (String × String)}
    {dead : String → Prop} (hnodup : l.Nodup) (hdead : ∀ e ∈ asked, ¬dead e.1)
    (h : ∀ e ∈ asked, dead e.2 ∨ [e.2,e.1].Sublist l) (n : String) :
    ¬TransGen (fun a b => (a,b) ∈ asked) n n := by
  have hless : ∀ a b, TransGen (fun a b => (a,b) ∈ asked) a b →
      dead b ∨ l.idxOf b < l.idxOf a := by
    intro a b hab
    induction hab with
    | single hedge => exact (h _ hedge).imp_right (idxOf_lt_of_sublist hnodup)
    | tail hpath hedge ih =>
      rcases ih with hstop | hlt
      · exact absurd hstop (hdead _ hedge)
      · exact (h _ hedge).imp_right fun hsub =>
          Nat.lt_trans (idxOf_lt_of_sublist hnodup hsub) hlt
  intro hn
  rcases hless n n hn with hstop | hlt
  · obtain ⟨b,hb,-⟩ := TransGen.head'_iff.mp hn
    exact hdead _ hb hstop
  · exact Nat.lt_irrefl _ hlt

theorem transGen_of_chain {R : String → String → Prop} {a b : String} {mid : List String}
    (h : (a::(mid++[b])).IsChain R) : TransGen R a b := by
  induction mid generalizing a with
  | nil => exact .single (List.isChain_cons_cons.mp h).1
  | cons c mid ih =>
    obtain ⟨hfirst,hrest⟩ := List.isChain_cons_cons.mp h
    exact .head hfirst (ih hrest)

end Order

section Invariant
variable {S V E : Type} {specs : List (String × S)} {build : String → S → Builder V E} {n : String}

def Resolution.keys (s : Resolution V) : List String := s.resources.map Prod.fst

/-- The names in the order in which they are finished, if nothing raises. -/
def line (resolving : List String) (s : Resolution V) : List String := s.keys++resolving.reverse

/-- What holds while names are in progress; of the names that were asked for, those that
are already answered. -/
structure Sound (specs : List (String × S)) (resolving : List String)
    (asked : List (String × String)) (s : Resolution V) : Prop where
  nodup : (line resolving s).Nodup
  known : ∀ n ∈ line resolving s, n ∈ specs.map Prod.fst
  ordered : ∀ e ∈ asked, [e.2,e.1].Sublist (line resolving s)
  called : s.calls.Perm (line resolving s)
  answered : ∀ a ∈ s.answers, s.resources.lookup a.1 = some a.2

/-- The names in progress ask for each other, one for the next. -/
def Chained (resolving : List String) (asked : List (String × String)) : Prop :=
  resolving.IsChain fun a b => (a,b) ∈ asked

/-- What an exception says about the names that were asked for. -/
def Blames (specs : List (String × S)) (asked : List (String × String)) : Raised E → Prop
  | .unknown n => n ∉ specs.map Prod.fst ∧ (∃ p, (p,n) ∈ asked) ∧
      ∃ l : List String, l.Nodup ∧ (∀ m ∈ l, m ∈ specs.map Prod.fst) ∧
        ∀ e ∈ asked, e.1 ∈ l ∧ (e.2 = n ∨ [e.2,e.1].Sublist l)
  | .cyclic path => ∃ lead n mid, path = lead++n::(mid++[n]) ∧ (lead++n::mid).Nodup ∧
      path.IsChain fun a b => (a,b) ∈ asked
  | .builder _ => ∃ l : List String, l.Nodup ∧ (∀ m ∈ l, m ∈ specs.map Prod.fst) ∧
      ∀ e ∈ asked, [e.2,e.1].Sublist l
  | .unfinished => False

/-- What has been built stays. -/
def Grown (s t : Resolution V) : Prop :=
  (∀ n v, s.resources.lookup n = some v → t.resources.lookup n = some v) ∧
    ∀ e ∈ s.asked, e ∈ t.asked

theorem Grown.trans {s t u : Resolution V} (h : Grown s t) (h' : Grown t u) : Grown s u :=
  ⟨fun n v hv => h'.1 n v (h.1 n v hv),fun e he => h'.2 e (h.2 e he)⟩

/-- How a resolution or a builder may end, with these names in progress. -/
def Ends (specs : List (String × S)) (resolving : List String) (s : Resolution V) :
    Except (Raised E) V × Resolution V → Prop
  | (.ok _,t) => Sound specs resolving t.asked t ∧ Grown s t
  | (.error e,t) => Blames specs t.asked e

/-- The name that is asked for, by the last one in progress. -/
def Pending (resolving : List String) (name : String) (done asked : List (String × String)) :
    Prop :=
  (resolving = [] ∧ asked = done) ∨
    ∃ owner, resolving.getLast? = some owner ∧ asked = done++[(owner,name)]

theorem mem_keys {s : Resolution V} {v : V} (h : s.resources.lookup n = some v) : n ∈ s.keys := by
  by_contra hnot
  have hnone : s.resources.lookup n = none := by
    rw [List.lookup_eq_none_iff]
    intro p hp
    rw [bne_iff_ne]
    exact fun heq => hnot (List.mem_map.mpr ⟨p,hp,heq.symm⟩)
  rw [hnone] at h
  cases h

theorem not_mem_keys {s : Resolution V} (h : s.resources.lookup n = none) : n ∉ s.keys := by
  intro hmem
  obtain ⟨p,hp,rfl⟩ := List.mem_map.mp hmem
  exact absurd (List.lookup_eq_none_iff.mp h p hp) (by simp)

theorem sublist_line {s : Resolution V} {resolving : List String} {owner : String} (hn : n ∈ s.keys)
    (ho : owner ∈ resolving) : [n,owner].Sublist (line resolving s) :=
  (List.singleton_sublist.mpr hn).append (List.singleton_sublist.mpr (List.mem_reverse.mpr ho))

variable {name : String} {done : List (String × String)}

theorem chained_snoc {resolving : List String} {asked : List (String × String)}
    (hchain : Chained resolving done) (hpending : Pending resolving name done asked) :
    Chained (resolving++[name]) asked := by
  rcases hpending with ⟨rfl,rfl⟩ | ⟨owner,hlast,rfl⟩
  · exact List.isChain_singleton _
  · refine List.IsChain.append (hchain.imp fun a b h => List.mem_append_left _ h)
      (List.isChain_singleton _) ?_
    intro a ha b hb
    rw [hlast] at ha
    cases ha
    cases hb
    simp

theorem ends_built {resolving : List String} {s : Resolution V} {v : V}
    (h : Sound specs resolving done s) (hpending : Pending resolving name done s.asked)
    (hv : s.resources.lookup name = some v) : Sound specs resolving s.asked s := by
  refine ⟨h.nodup,h.known,fun e he => ?_,h.called,h.answered⟩
  rcases hpending with ⟨-,heq⟩ | ⟨owner,hlast,heq⟩
  · exact h.ordered e (heq ▸ he)
  · rw [heq] at he
    rcases List.mem_append.mp he with he | he
    · exact h.ordered e he
    · rw [List.mem_singleton.mp he]
      exact sublist_line (mem_keys hv) (List.mem_of_getLast? hlast)

theorem blames_unknown {resolving : List String} {s : Resolution V}
    (h : Sound specs resolving done s) (hpending : Pending resolving name done s.asked)
    (hname : name ∉ specs.map Prod.fst) (htop : resolving ≠ []) :
    Blames (E := E) specs s.asked (.unknown name) := by
  rcases hpending with ⟨hnil,-⟩ | ⟨owner,hlast,heq⟩
  · exact absurd hnil htop
  · refine ⟨hname,⟨owner,by rw [heq]; simp⟩,line resolving s,h.nodup,h.known,fun e he => ?_⟩
    rw [heq] at he
    rcases List.mem_append.mp he with he | he
    · have hsub := h.ordered e he
      exact ⟨hsub.subset (by simp),.inr hsub⟩
    · rw [List.mem_singleton.mp he]
      exact ⟨List.mem_append_right _ (List.mem_reverse.mpr (List.mem_of_getLast? hlast)),.inl rfl⟩

theorem blames_cyclic {resolving : List String} {s : Resolution V}
    (h : Sound specs resolving done s) (hchain : Chained resolving done)
    (hpending : Pending resolving name done s.asked) (hname : name ∈ resolving) :
    Blames (E := E) specs s.asked (.cyclic (resolving++[name])) := by
  obtain ⟨lead,mid,hsplit⟩ := List.append_of_mem hname
  refine ⟨lead,name,mid,by rw [hsplit]; simp,?_,chained_snoc hchain hpending⟩
  rw [← hsplit]
  exact List.nodup_reverse.mp (List.nodup_append'.mp h.nodup).2.1

theorem sound_push {resolving : List String} {s : Resolution V} (h : Sound specs resolving done s)
    (hpending : Pending resolving name done s.asked) (hknown : name ∈ specs.map Prod.fst)
    (hbuilt : name ∉ s.keys) (hname : name ∉ resolving) :
    Sound specs (resolving++[name]) s.asked {s with calls := s.calls++[name]} := by
  have hline : line (resolving++[name]) {s with calls := s.calls++[name]} =
      s.keys++name::resolving.reverse := by
    simp [line,Resolution.keys]
  have hgrow : (line resolving s).Sublist (s.keys++name::resolving.reverse) :=
    (List.Sublist.refl _).append (List.sublist_cons_self _ _)
  have hperm : (s.keys++name::resolving.reverse).Perm (name::line resolving s) :=
    List.perm_middle
  constructor
  · rw [hline,hperm.nodup_iff,List.nodup_cons]
    refine ⟨fun hmem => ?_,h.nodup⟩
    rcases List.mem_append.mp hmem with hmem | hmem
    · exact hbuilt hmem
    · exact hname (List.mem_reverse.mp hmem)
  · rw [hline]
    intro n hn
    rcases List.mem_cons.mp (hperm.subset hn) with rfl | hn
    · exact hknown
    · exact h.known n hn
  · rw [hline]
    intro e he
    rcases hpending with ⟨-,heq⟩ | ⟨owner,hlast,heq⟩
    · exact (h.ordered e (heq ▸ he)).trans hgrow
    · rw [heq] at he
      rcases List.mem_append.mp he with he | he
      · exact (h.ordered e he).trans hgrow
      · rw [List.mem_singleton.mp he]
        have howner := List.mem_reverse.mpr (List.mem_of_getLast? hlast)
        exact ((List.singleton_sublist.mpr howner).cons_cons name).trans
          (List.sublist_append_right _ _)
  · rw [hline]
    exact (List.perm_append_singleton name s.calls).trans ((h.called.cons name).trans hperm.symm)
  · exact h.answered

theorem sound_built {resolving : List String} {s : Resolution V} {v : V}
    (h : Sound specs (resolving++[name]) s.asked s) :
    Sound specs resolving s.asked {s with resources := s.resources++[(name,v)]} := by
  have hline : line resolving {s with resources := s.resources++[(name,v)]} =
      line (resolving++[name]) s := by
    simp [line,Resolution.keys]
  refine ⟨hline ▸ h.nodup,hline ▸ h.known,hline ▸ h.ordered,hline ▸ h.called,fun a ha => ?_⟩
  dsimp only
  rw [List.lookup_append,h.answered a ha]
  rfl

/-- A resolution that ends as it should, whatever is asked for. -/
def Resolves (specs : List (String × S)) (resolving : List String)
    (resolve : String → Resolution V → Except (Raised E) V × Resolution V) : Prop :=
  ∀ name s done, Sound specs resolving done s → Chained resolving done →
    Pending resolving name done s.asked → (resolving = [] → name ∈ specs.map Prod.fst) →
    Ends specs resolving s (resolve name s) ∧
      ∀ v t, resolve name s = (.ok v,t) → t.resources.lookup name = some v

theorem perform_ends {resolving : List String} {owner : String}
    {resolve : String → Resolution V → Except (Raised E) V × Resolution V}
    (hresolve : Resolves specs (resolving++[owner]) resolve) (b : Builder V E)
    {s : Resolution V} (h : Sound specs (resolving++[owner]) s.asked s)
    (hchain : Chained (resolving++[owner]) s.asked) :
    Ends specs (resolving++[owner]) s (perform resolve owner b s) := by
  induction b generalizing s with
  | ret v => exact ⟨h,fun _ _ hv => hv,fun _ he => he⟩
  | raise e => exact ⟨_,h.nodup,h.known,h.ordered⟩
  | resolve name next ih =>
    have hpending : Pending (resolving++[owner]) name s.asked (s.asked++[(owner,name)]) :=
      .inr ⟨owner,by simp,rfl⟩
    obtain ⟨hends,hfound⟩ := hresolve name {s with asked := s.asked++[(owner,name)]} s.asked
      ⟨h.nodup,h.known,h.ordered,h.called,h.answered⟩ hchain hpending (by simp)
    rw [perform]
    cases hr : resolve name {s with asked := s.asked++[(owner,name)]} with
    | mk result t =>
      rw [hr] at hends
      cases result with
      | error e => exact hends
      | ok v =>
        obtain ⟨hsound,hgrown⟩ := hends
        have hlog : Sound specs (resolving++[owner]) t.asked
            {t with answers := t.answers++[(name,v)]} := by
          refine ⟨hsound.nodup,hsound.known,hsound.ordered,hsound.called,fun a ha => ?_⟩
          rcases List.mem_append.mp ha with ha | ha
          · exact hsound.answered a ha
          · rw [List.mem_singleton.mp ha]
            exact hfound v t hr
        have hkept : ∀ e ∈ s.asked, e ∈ t.asked := fun e he =>
          hgrown.2 e (List.mem_append_left _ he)
        have hnext := ih v (s := {t with answers := t.answers++[(name,v)]}) hlog
          (hchain.imp fun a b he => hkept _ he)
        dsimp only
        generalize perform resolve owner (next v) {t with answers := t.answers++[(name,v)]} =
          out at hnext ⊢
        obtain ⟨result,u⟩ := out
        cases result with
        | error e => exact hnext
        | ok w =>
          exact ⟨hnext.1,Grown.trans ⟨hgrown.1,hkept⟩ hnext.2⟩

/-- With more fuel than names that are not in progress, a resolution ends as it should. -/
theorem resolve_ends {fuel : ℕ} {resolving : List String}
    (hfuel : specs.length < fuel+resolving.length) :
    Resolves specs resolving (resolve specs build fuel resolving) := by
  induction fuel generalizing resolving with
  | zero =>
    intro name s done h
    have hnodup : resolving.Nodup := List.nodup_reverse.mp (List.nodup_append'.mp h.nodup).2.1
    have hsubset : resolving ⊆ specs.map Prod.fst := fun n hn =>
      h.known n (List.mem_append_right _ (List.mem_reverse.mpr hn))
    have hlength := (hnodup.subperm hsubset).length_le
    rw [List.length_map] at hlength
    omega
  | succ fuel ih =>
    intro name s done h hchain hpending htop
    rw [resolve]
    cases hbuilt : s.resources.lookup name with
    | some v =>
      refine ⟨⟨ends_built h hpending hbuilt,fun _ _ hv => hv,fun _ he => he⟩,fun w t ht => ?_⟩
      cases ht
      exact hbuilt
    | none =>
      dsimp only
      cases hspec : specs.lookup name with
      | none =>
        have hname : name ∉ specs.map Prod.fst := by
          intro hmem
          obtain ⟨p,hp,rfl⟩ := List.mem_map.mp hmem
          exact absurd (List.lookup_eq_none_iff.mp hspec p hp) (by simp)
        exact ⟨blames_unknown (E := E) h hpending hname fun hnil => hname (htop hnil),nofun⟩
      | some spec =>
        dsimp only
        have hknown : name ∈ specs.map Prod.fst := by
          by_contra hnot
          have hnone : specs.lookup name = none := by
            rw [List.lookup_eq_none_iff]
            intro p hp
            rw [bne_iff_ne]
            exact fun heq => hnot (List.mem_map.mpr ⟨p,hp,heq.symm⟩)
          rw [hnone] at hspec
          cases hspec
        by_cases hname : name ∈ resolving
        · rw [if_pos hname]
          exact ⟨blames_cyclic (E := E) h hchain hpending hname,nofun⟩
        · rw [if_neg hname]
          have hpush := sound_push h hpending hknown (not_mem_keys hbuilt) hname
          have hless : specs.length < fuel+(resolving++[name]).length := by
            rw [List.length_append,List.length_singleton]
            omega
          have hends := perform_ends (s := {s with calls := s.calls++[name]}) (ih hless)
            (build name spec) hpush (chained_snoc hchain hpending)
          generalize perform (resolve specs build fuel (resolving++[name])) name
            (build name spec) {s with calls := s.calls++[name]} = out at hends ⊢
          obtain ⟨result,t⟩ := out
          cases result with
          | error e => exact ⟨hends,nofun⟩
          | ok v =>
            obtain ⟨hsound,hgrown⟩ := hends
            have hnew : t.resources.lookup name = none := by
              rw [List.lookup_eq_none_iff]
              intro p hp
              rw [bne_iff_ne]
              rintro rfl
              have hdisjoint := (List.nodup_append'.mp hsound.nodup).2.2
              exact hdisjoint (List.mem_map_of_mem hp) (by simp)
            refine ⟨⟨sound_built hsound,fun n w hw => ?_,hgrown.2⟩,fun w u hu => ?_⟩
            · dsimp only
              rw [List.lookup_append,hgrown.1 n w hw]
              rfl
            · cases hu
              rw [List.lookup_append,hnew]
              simp

theorem resolveAll_ends {fuel : ℕ} (hfuel : specs.length < fuel) {names : List String}
    (hnames : ∀ n ∈ names, n ∈ specs.map Prod.fst) {s : Resolution V}
    (h : Sound specs [] s.asked s) :
    match resolveAll specs build fuel names s with
    | (.ok _,t) => Sound specs [] t.asked t ∧ Grown s t ∧ ∀ n ∈ names, n ∈ t.keys
    | (.error e,t) => Blames specs t.asked e := by
  induction names generalizing s with
  | nil => exact ⟨h,⟨fun _ _ hv => hv,fun _ he => he⟩,nofun⟩
  | cons name names ih =>
    rw [List.forall_mem_cons] at hnames
    obtain ⟨hends,hfound⟩ := @resolve_ends S V E specs build fuel [] hfuel name s s.asked h
      List.isChain_nil (.inl ⟨rfl,rfl⟩) fun _ => hnames.1
    rw [resolveAll]
    generalize resolve specs build fuel [] name s = out at hends hfound ⊢
    obtain ⟨result,t⟩ := out
    cases result with
    | error e => exact hends
    | ok v =>
      have hrest := ih hnames.2 hends.1
      dsimp only
      generalize resolveAll specs build fuel names t = out at hrest ⊢
      obtain ⟨result,u⟩ := out
      cases result with
      | error e => exact hrest
      | ok _ =>
        obtain ⟨hsound,hgrown,hkeys⟩ := hrest
        refine ⟨hsound,hends.2.trans hgrown,?_⟩
        rw [List.forall_mem_cons]
        exact ⟨mem_keys (hgrown.1 _ _ (hfound v t rfl)),hkeys⟩

end Invariant

section Collected
variable {S : Type} [DecidableEq S] {specs : List (String × S)}

theorem addSpec_nodup {known : List (String × S)} {entry : String × Option S}
    (h : (specs.map Prod.fst).Nodup) (hadd : addSpec specs entry = .ok known) :
    (known.map Prod.fst).Nodup := by
  unfold addSpec at hadd
  split at hadd
  · cases hadd
  · split at hadd
    · next hnone =>
        cases hadd
        rw [List.map_append,List.nodup_append']
        refine ⟨h,List.nodup_singleton _,fun n hn hn' => ?_⟩
        obtain ⟨p,hp,rfl⟩ := List.mem_map.mp hn
        exact absurd (List.lookup_eq_none_iff.mp hnone p hp) (by simpa using (List.mem_singleton.mp hn').symm)
    · split at hadd <;> cases hadd
      exact h

omit [DecidableEq S] in
theorem foldlM_nodup {α : Type} {f : List (String × S) → α → Except SpecError (List (String × S))}
    (hf : ∀ specs a known, (specs.map Prod.fst).Nodup → f specs a = .ok known →
      (known.map Prod.fst).Nodup) (as : List α) {known : List (String × S)}
    (h : (specs.map Prod.fst).Nodup) (hfold : as.foldlM f specs = .ok known) :
    (known.map Prod.fst).Nodup := by
  induction as generalizing specs with
  | nil =>
    cases hfold
    exact h
  | cons a as ih =>
    rw [List.foldlM_cons] at hfold
    cases hfirst : f specs a with
    | error e =>
      rw [hfirst] at hfold
      cases hfold
    | ok next =>
      rw [hfirst] at hfold
      exact ih (hf specs a next h hfirst) hfold

theorem collected_nodup {sections : List (Section S)}
    (h : collectResourceSpecs sections = .ok specs) : (specs.map Prod.fst).Nodup := by
  have hnil : (([] : List (String × S)).map Prod.fst).Nodup := List.nodup_nil
  refine foldlM_nodup (fun specs raw known hspecs hraw => ?_) sections hnil h
  cases raw with
  | null =>
    cases hraw
    exact hspecs
  | other => cases hraw
  | mapping entries => exact foldlM_nodup (fun _ _ _ => addSpec_nodup) entries hspecs hraw

end Collected

section Result
variable {S V E : Type} [DecidableEq S]

/-- Which builders asked for which names. -/
def Asks (s : Resolution V) (a b : String) : Prop := (a,b) ∈ s.asked

/-- The resolution ends; it succeeds if and only if no builder raises, every name that is
asked for has a spec and the names ask for each other in no cycle; then every builder was
called once, every name was answered by its object, and the resources are those of the
specs; a cycle is reported if and only if there is one, with the way to it in front. -/
theorem resources_resolved {sections : List (Section S)} {specs : List (String × S)}
    (hspecs : collectResourceSpecs sections = .ok specs) (build : String → S → Builder V E) :
    (buildResources specs build).1 ≠ .error .unfinished ∧
    ((buildResources specs build).1 = .ok () ↔
      (∀ e, (buildResources specs build).1 ≠ .error (.builder e)) ∧
      (∀ e ∈ (buildResources specs build).2.asked, e.2 ∈ specs.map Prod.fst) ∧
      ∀ n, ¬TransGen (Asks (buildResources specs build).2) n n) ∧
    ((buildResources specs build).1 = .ok () →
      (buildResources specs build).2.keys.Perm (specs.map Prod.fst) ∧
      (buildResources specs build).2.calls.Perm (specs.map Prod.fst) ∧
      ∀ a ∈ (buildResources specs build).2.answers,
        (buildResources specs build).2.resources.lookup a.1 = some a.2) ∧
    ((∃ path, (buildResources specs build).1 = .error (.cyclic path)) ↔
      ∃ n, TransGen (Asks (buildResources specs build).2) n n) ∧
    ∀ path, (buildResources specs build).1 = .error (.cyclic path) →
      path.IsChain (Asks (buildResources specs build).2) ∧
      ∃ lead n mid, path = lead++n::(mid++[n]) ∧ (lead++n::mid).Nodup := by
  have hstart : Sound specs [] ([] : List (String × String)) ({} : Resolution V) :=
    ⟨List.nodup_nil,nofun,nofun,.refl _,nofun⟩
  have hends := @resolveAll_ends S V E specs build (specs.length+1) (Nat.lt_succ_self _)
    (specs.map Prod.fst) (fun _ hn => hn) {} hstart
  have hrun : resolveAll specs build (specs.length+1) (specs.map Prod.fst) {} =
      buildResources specs build := rfl
  rw [hrun] at hends
  generalize buildResources specs build = out at hends ⊢
  obtain ⟨result,s⟩ := out
  cases result with
  | ok _ =>
    obtain ⟨hsound,-,hkeys⟩ := hends
    have hline : line [] s = s.keys := List.append_nil _
    have hperm : s.keys.Perm (specs.map Prod.fst) := by
      refine (List.perm_ext_iff_of_nodup (hline ▸ hsound.nodup) (collected_nodup hspecs)).mpr ?_
      exact fun n => ⟨fun hn => hsound.known n (hline.symm ▸ hn),hkeys n⟩
    have hcalls : s.calls.Perm (specs.map Prod.fst) := (hline ▸ hsound.called).trans hperm
    have hacyclic : ∀ n, ¬TransGen (Asks s) n n := @acyclic_of_ordered _ _ (fun _ => False)
      hsound.nodup (fun _ _ => id) fun e he => .inr (hsound.ordered e he)
    have hclosed : ∀ e ∈ s.asked, e.2 ∈ specs.map Prod.fst := fun e he =>
      hsound.known _ ((hsound.ordered e he).subset List.mem_cons_self)
    exact ⟨nofun,iff_of_true rfl ⟨nofun,hclosed,hacyclic⟩,
      fun _ => ⟨hperm,hcalls,hsound.answered⟩,
      iff_of_false (fun ⟨_,h⟩ => nomatch h) fun ⟨n,hn⟩ => hacyclic n hn,nofun⟩
  | error e =>
    cases e with
    | unfinished => exact hends.elim
    | unknown n =>
      obtain ⟨hname,⟨p,hp⟩,l,hnodup,hknown,hedges⟩ := hends
      have hacyclic : ∀ m, ¬TransGen (Asks s) m m := @acyclic_of_ordered _ _ (fun m => m = n)
        hnodup (fun e he heq => hname (heq ▸ hknown _ (hedges e he).1))
        fun e he => (hedges e he).2
      exact ⟨nofun,iff_of_false nofun fun h => hname (h.2.1 _ hp),nofun,
        iff_of_false (fun ⟨_,h⟩ => nomatch h) fun ⟨m,hm⟩ => hacyclic m hm,nofun⟩
    | builder e =>
      obtain ⟨l,hnodup,-,hedges⟩ := hends
      have hacyclic : ∀ m, ¬TransGen (Asks s) m m := @acyclic_of_ordered _ _ (fun _ => False)
        hnodup (fun _ _ => id) fun e he => .inr (hedges e he)
      exact ⟨nofun,iff_of_false nofun fun h => h.1 e rfl,nofun,
        iff_of_false (fun ⟨_,h⟩ => nomatch h) fun ⟨m,hm⟩ => hacyclic m hm,nofun⟩
    | cyclic path =>
      obtain ⟨lead,n,mid,rfl,hnodup,hchain⟩ := hends
      have hcycle : TransGen (Asks s) n n :=
        transGen_of_chain (List.IsChain.right_of_append hchain)
      refine ⟨nofun,iff_of_false nofun fun h => h.2.2 n hcycle,nofun,
        iff_of_true ⟨_,rfl⟩ ⟨n,hcycle⟩,fun path hpath => ?_⟩
      cases hpath
      exact ⟨hchain,lead,n,mid,rfl,hnodup⟩

end Result

section Samples

/-- Every spec is the list of the names that it asks for. -/
def asking (name : String) : List String → Builder String Empty
  | [] => .ret name
  | other::others => .resolve other fun _ => asking name others

/-- A sink that asks for its connector twice. -/
def shared : List (Section (List String)) :=
  [.null,.mapping [("db",some [])],.null,.mapping [("rows",some ["db","db"])]]

/-- The connector is resolved once. -/
theorem shared_resolved : (buildResources [("db",[]),("rows",["db","db"])] asking).2.calls.Perm
    ["db","rows"] :=
  ((@resources_resolved _ _ _ _ shared _ rfl asking).2.2.1 rfl).2.1

/-- What is reported starts in front of the cycle. -/
theorem lead_reported : ∃ path, (buildResources [("a",["b"]),("b",["b"])] asking).1 =
    .error (.cyclic path) ∧ path.head? ≠ path.getLast? :=
  ⟨["a","b","b"],rfl,by decide⟩

end Samples

end OneStep.ResolvedResources
