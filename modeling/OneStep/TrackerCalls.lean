import OneStep.MongoTracking
import OneStep.Transition

/-!
# Calls on the generation tracker

The tracker by itself: tokens are added, generations invalidated and tokens completed in
any order, a token as often as one likes. A completion holds the lock while it waits for
the store; tokens may be added meanwhile. Such a tracker is one at rest in which the
flags of a single token are set, and these are taken back when the store raises.

An invalidated generation is forgotten once all of its tokens are completed. One of them
may still be queued then, behind a token of an earlier generation, and completing it again
makes it advance.
-/
namespace OneStep.TrackerCalls
open GenerationTracker MongoTracking Transition

section Model
variable {τ : Type}

inductive Op (τ : Type) where
  | add (token : τ)
  | invalidate (generation : ℕ)
  | complete (sequence : ℕ) (advance : Bool)
  | saveReturns (ok : Bool)

/-- The tracker with the completion that waits for the store, what the store saved so far,
and the tokens on which `complete` was called after their generation was invalidated. -/
structure Book (τ : Type) where
  tracker : Tracker τ := {}
  save : Option Save := none
  saves : List ℕ := []
  late : List ℕ := []

namespace Book
variable (b : Book τ)

def invalidate (generation : ℕ) : Option (Book τ) :=
  match b.save with
  | none => some {b with tracker := b.tracker.invalidate generation}
  | some _ => none

/-- The tracker while `complete` looks at the prefix. -/
def flagged (i : ℕ) (advance : Bool) (x : TrackedToken τ) : Tracker τ :=
  b.tracker.setFlags i true (advance && decide (x.generation ∉ b.tracker.invalidated))

def noted (i : ℕ) (x : TrackedToken τ) : List ℕ :=
  if x.generation < b.tracker.generation then i::b.late else b.late

def complete (i : ℕ) (advance : Bool) : Option (Book τ) :=
  match b.tracker.tokens[i]?,b.save with
  | some x,none =>
    let t := b.flagged i advance x
    match t.saved with
    | none => some {b with
        tracker := t.finish x.generation x.completed t.completedPrefix.length
        late := b.noted i x}
    | some item => some {b with
        tracker := t
        save := some ⟨i,x.generation,x.completed,x.advances,t.completedPrefix.length,item⟩
        late := b.noted i x}
  | _,_ => none

def saveReturns (ok : Bool) : Option (Book τ) :=
  match b.save with
  | none => none
  | some s =>
    if ok then
      some {b with
        tracker := b.tracker.finish s.generation s.completed s.taken
        save := none
        saves := b.saves++[s.item]}
    else
      some {b with
        tracker := b.tracker.setFlags s.sequence s.completed s.advances
        save := none}

def perform (b : Book τ) : Op τ → Option (Book τ)
  | .add token => some {b with tracker := b.tracker.add token}
  | .invalidate generation => b.invalidate generation
  | .complete i advance => b.complete i advance
  | .saveReturns ok => b.saveReturns ok

/-- A token that a waiting completion has flagged is not yet completed. -/
def Completed (i : ℕ) : Prop :=
  match b.save with
  | some s => if s.sequence = i then s.completed = true else
      b.tracker.tokens[i]?.any (·.completed) = true
  | none => b.tracker.tokens[i]?.any (·.completed) = true

instance (i : ℕ) : Decidable (b.Completed i) := by
  unfold Completed
  split <;> infer_instance

/-- The tokens of a generation that are not yet completed. -/
def openTokens (g : ℕ) : Finset ℕ :=
  (Finset.range b.tracker.tokens.length).filter fun i =>
    b.tracker.tokens[i]?.map (·.generation) = some g ∧ ¬b.Completed i

end Book

/-- What holds in every state: the counters, and where the queue and the saves stand. -/
structure Kept (b : Book τ) : Prop where
  counted : ∀ g, (b.tracker.outstanding g).getD 0 = (b.openTokens g).card
  head : b.save = none → ∀ i ∈ b.tracker.pending.head?, ¬b.Completed i
  ascending : b.saves.Pairwise (· < ·)

/-- No token is saved on which `complete` was called after its generation was invalidated. -/
def NeverLate (b : Book τ) : Prop := ∀ s ∈ b.save, s.item ∉ b.late

/-- A token that is to advance is not a queued one of a generation that was invalidated and
is forgotten. -/
def Op.Remembered (b : Book τ) : Op τ → Prop
  | .complete i true => ∀ x ∈ b.tracker.tokens[i]?, i ∈ b.tracker.pending →
      x.generation < b.tracker.generation → x.generation ∈ b.tracker.invalidated
  | _ => True

instance (b : Book τ) (op : Op τ) : Decidable (op.Remembered b) :=
  match op with
  | .complete i true => inferInstanceAs (Decidable (∀ x ∈ b.tracker.tokens[i]?,
      i ∈ b.tracker.pending → x.generation < b.tracker.generation →
        x.generation ∈ b.tracker.invalidated))
  | .complete _ false | .add _ | .invalidate _ | .saveReturns _ => .isTrue trivial

end Model

section Rest
variable {τ : Type} {t r : Tracker τ} {i j : ℕ} {x y : TrackedToken τ}

/-- The tokens of a generation whose flag is not set. -/
def unflagged (t : Tracker τ) (g : ℕ) : Finset ℕ :=
  (Finset.range t.tokens.length).filter fun i =>
    t.tokens[i]?.map (·.generation) = some g ∧ t.tokens[i]?.any (·.completed) = false

theorem mem_unflagged {g : ℕ} : i ∈ unflagged t g ↔
    ∃ x, t.tokens[i]? = some x ∧ x.generation = g ∧ x.completed = false := by
  rw [unflagged,Finset.mem_filter,Finset.mem_range]
  constructor
  · rintro ⟨hlt,hgen,hdone⟩
    rw [List.getElem?_eq_getElem hlt] at hgen hdone
    exact ⟨_,List.getElem?_eq_getElem hlt,Option.some.inj hgen,hdone⟩
  · rintro ⟨x,hx,rfl,hdone⟩
    rw [hx]
    exact ⟨(List.getElem?_eq_some_iff.mp hx).1,rfl,hdone⟩

/-- A tracker that no completion holds. -/
structure Rest (t : Tracker τ) : Prop where
  sorted : t.pending.Pairwise (· < ·)
  bounded : ∀ i ∈ t.pending, i < t.tokens.length
  kept : ∀ (i : ℕ) (x : TrackedToken τ), t.tokens[i]? = some x → x.completed = false →
    i ∈ t.pending
  generation : ∀ (i : ℕ) (x : TrackedToken τ), t.tokens[i]? = some x →
    x.generation ≤ t.generation
  counted : ∀ g, (t.outstanding g).getD 0 = (unflagged t g).card
  stale : ∀ (i : ℕ) (x : TrackedToken τ), t.tokens[i]? = some x → x.completed = false →
    x.generation < t.generation → x.generation ∈ t.invalidated
  head : ∀ i ∈ t.pending.head?, t.tokens[i]?.any (·.completed) = false

/-- A queued token that advances is of the current generation. -/
def Fresh (t : Tracker τ) : Prop :=
  ∀ (i : ℕ) (x : TrackedToken τ), t.tokens[i]? = some x → i ∈ t.pending → x.advances = true →
    x.generation = t.generation

theorem rest_empty : Rest ({} : Tracker τ) := by
  constructor <;> simp [unflagged]

theorem add_token {token : τ} (hx : (t.add token).tokens[i]? = some x) :
    t.tokens[i]? = some x ∨ i = t.tokens.length ∧ x = ⟨t.generation,token,false,false⟩ := by
  rcases Nat.lt_trichotomy i t.tokens.length with hlt | rfl | hgt
  · rw [Tracker.add,List.getElem?_append_left hlt] at hx
    exact .inl hx
  · rw [Tracker.add,List.getElem?_concat_length] at hx
    exact .inr ⟨rfl,(Option.some.inj hx).symm⟩
  · rw [List.getElem?_eq_none (by simp [Tracker.add]; omega)] at hx
    cases hx

theorem add_old {token : τ} (hx : t.tokens[i]? = some x) : (t.add token).tokens[i]? = some x := by
  rw [Tracker.add,List.getElem?_append_left (List.getElem?_eq_some_iff.mp hx).1]
  exact hx

theorem add_new (t : Tracker τ) (token : τ) :
    (t.add token).tokens[t.tokens.length]? = some ⟨t.generation,token,false,false⟩ := by
  rw [Tracker.add,List.getElem?_concat_length]

theorem unflagged_add (t : Tracker τ) (token : τ) (g : ℕ) :
    unflagged (t.add token) g =
      if g = t.generation then insert t.tokens.length (unflagged t g) else unflagged t g := by
  ext i
  constructor
  · intro hi
    obtain ⟨x,hx,hg,hdone⟩ := mem_unflagged.mp hi
    rcases add_token hx with hx | ⟨rfl,rfl⟩
    · have hi := mem_unflagged.mpr ⟨x,hx,hg,hdone⟩
      split
      · exact Finset.mem_insert_of_mem hi
      · exact hi
    · rw [if_pos hg.symm]
      exact Finset.mem_insert_self _ _
  · intro hi
    have hold : ∀ i ∈ unflagged t g, i ∈ unflagged (t.add token) g := by
      intro i hi
      obtain ⟨x,hx,hg,hdone⟩ := mem_unflagged.mp hi
      exact mem_unflagged.mpr ⟨x,add_old hx,hg,hdone⟩
    split at hi
    · next hg =>
        rcases Finset.mem_insert.mp hi with rfl | hi
        · exact mem_unflagged.mpr ⟨_,add_new t token,hg.symm,rfl⟩
        · exact hold i hi
    · exact hold i hi

theorem pending_add (token : τ) (hsorted : t.pending.Pairwise (· < ·))
    (hbounded : ∀ i ∈ t.pending, i < t.tokens.length) :
    (t.add token).pending.Pairwise (· < ·) ∧
      ∀ i ∈ (t.add token).pending, i < (t.add token).tokens.length := by
  constructor
  · refine List.pairwise_append.mpr ⟨hsorted,List.pairwise_singleton _ _,?_⟩
    intro i hi j hj
    rw [List.mem_singleton.mp hj]
    exact hbounded i hi
  · intro i hi
    rw [Tracker.add,List.length_append,List.length_singleton]
    rcases List.mem_append.mp hi with hi | hi
    · exact Nat.lt_succ_of_lt (hbounded i hi)
    · rw [List.mem_singleton.mp hi]
      exact Nat.lt_succ_self _

theorem Rest.add (h : Rest t) (token : τ) : Rest (t.add token) := by
  constructor
  · exact (pending_add token h.sorted h.bounded).1
  · exact (pending_add token h.sorted h.bounded).2
  · intro i x hx hdone
    rcases add_token hx with hx | ⟨rfl,-⟩
    · exact List.mem_append_left _ (h.kept i x hx hdone)
    · exact List.mem_append_right _ List.mem_cons_self
  · intro i x hx
    rcases add_token hx with hx | ⟨-,rfl⟩
    · exact h.generation i x hx
    · exact le_refl _
  · intro g
    rw [unflagged_add]
    simp only [Tracker.add]
    by_cases hg : g = t.generation
    · subst hg
      have hnot : t.tokens.length ∉ unflagged t t.generation := by
        simp [unflagged]
      rw [if_pos rfl,Function.update_self,Option.getD_some,Finset.card_insert_of_notMem hnot,
        h.counted]
    · rw [if_neg hg,Function.update_of_ne hg,h.counted]
  · intro i x hx hdone hlt
    rcases add_token hx with hx | ⟨-,rfl⟩
    · exact h.stale i x hx hdone hlt
    · exact absurd hlt (lt_irrefl _)
  · intro i hi
    have hi : i ∈ (t.pending++[t.tokens.length]).head? := hi
    cases hp : t.pending with
    | nil =>
      rw [hp] at hi
      cases hi
      rw [add_new]
      rfl
    | cons k ks =>
      rw [hp] at hi
      cases hi
      have hlt := h.bounded i (by rw [hp]; exact List.mem_cons_self)
      have hhead := h.head i (by rw [hp]; rfl)
      rw [List.getElem?_eq_getElem hlt] at hhead
      rw [add_old (List.getElem?_eq_getElem hlt)]
      exact hhead

theorem Fresh.add (h : Fresh t) (token : τ) : Fresh (t.add token) := by
  intro i x hx hi hadv
  rcases add_token hx with hx | ⟨-,rfl⟩
  · have hlt := (List.getElem?_eq_some_iff.mp hx).1
    rcases List.mem_append.mp hi with hi | hi
    · exact h i x hx hi hadv
    · rw [List.mem_singleton.mp hi] at hlt
      exact absurd hlt (lt_irrefl _)
  · cases hadv

theorem unflagged_invalidate (t : Tracker τ) (k g : ℕ) :
    unflagged (t.invalidate k) g = unflagged t g := by
  obtain ⟨hlength,-⟩ := invalidate_generation t k
  unfold unflagged
  rw [hlength]
  refine Finset.filter_congr fun i hi => ?_
  rw [List.getElem?_eq_getElem (by rw [hlength]; exact Finset.mem_range.mp hi)]
  obtain ⟨z,hz,hgen,-,hdone,-⟩ :=
    invalidate_token (List.getElem?_eq_getElem (by rw [hlength]; exact Finset.mem_range.mp hi))
  rw [hz]
  simp only [Option.map_some,Option.any_some,hgen,hdone]

theorem Rest.invalidate (h : Rest t) (k : ℕ) : Rest (t.invalidate k) := by
  obtain ⟨hlength,hpending,hcount,hcase⟩ := invalidate_generation t k
  have hle : t.generation ≤ (t.invalidate k).generation := by
    rcases hcase with ⟨-,hgen,-⟩ | ⟨-,hsame⟩
    · omega
    · rw [hsame]
  constructor
  · rw [hpending]
    exact h.sorted
  · rw [hpending,hlength]
    exact h.bounded
  · intro i x hx hdone
    obtain ⟨z,hz,-,-,he,-⟩ := invalidate_token hx
    rw [hpending]
    exact h.kept i z hz (he ▸ hdone)
  · intro i x hx
    obtain ⟨z,hz,he,-⟩ := invalidate_token hx
    rw [he]
    exact (h.generation i z hz).trans hle
  · intro g
    rw [unflagged_invalidate,hcount]
    exact h.counted g
  · intro i x hx hdone hlt
    obtain ⟨z,hz,hgen,-,hcomp,-⟩ := invalidate_token hx
    rw [hcomp] at hdone
    rw [hgen] at hlt ⊢
    rcases hcase with ⟨rfl,hnext,hset⟩ | ⟨-,hsame⟩
    · rw [hset,Finset.mem_insert]
      by_cases hcur : z.generation = t.generation
      · exact .inl hcur
      · exact .inr (h.stale i z hz hdone (by omega))
    · rw [hsame] at hlt ⊢
      exact h.stale i z hz hdone hlt
  · intro i hi
    rw [hpending] at hi
    have hhead := h.head i hi
    have hlt := h.bounded i (List.mem_of_mem_head? hi)
    obtain ⟨z,hz,-,-,hdone,-⟩ :=
      invalidate_token (List.getElem?_eq_getElem (by rw [hlength]; exact hlt))
    rw [hz,Option.any_some] at hhead
    rw [List.getElem?_eq_getElem (by rw [hlength]; exact hlt),Option.any_some,hdone]
    exact hhead

theorem Fresh.invalidate (hf : Fresh t) (k : ℕ) : Fresh (t.invalidate k) := by
  intro i x hx hi hadv
  obtain ⟨-,hpending,-,hcase⟩ := invalidate_generation t k
  obtain ⟨z,hz,hgen,-,-,hback⟩ := invalidate_token hx
  rw [hpending] at hi
  obtain ⟨hadv',hnot⟩ := hback hadv
  have hcur := hf i z hz hi hadv'
  rcases hcase with ⟨rfl,-⟩ | ⟨-,hsame⟩
  · exact absurd ⟨rfl,hi,hcur⟩ hnot
  · rw [hsame,hgen]
    exact hcur

end Rest

section Holding
variable {τ : Type} {t r : Tracker τ} {s : Save} {i j : ℕ} {x y : TrackedToken τ}

/-- A completion that holds the lock: what the tracker was without it, the flags it set,
and the prefix it will take. -/
structure Holding (r t : Tracker τ) (s : Save) : Prop where
  token : ∃ x, r.tokens[s.sequence]? = some x ∧ s.generation = x.generation ∧
    s.completed = x.completed ∧ s.advances = x.advances
  flags : ∃ advances, t = r.setFlags s.sequence true advances
  within : s.taken ≤ t.pending.length
  taken : ∀ i ∈ t.pending.take s.taken, t.tokens[i]?.any (·.completed) = true
  next : ∀ i ∈ (t.pending.drop s.taken).head?, t.tokens[i]?.any (·.completed) = false

theorem setFlags_get (t : Tracker τ) (a b : Bool) (i j : ℕ) :
    (t.setFlags i a b).tokens[j]? = t.tokens[j]?.map fun x =>
      if i = j then {x with completed := a, advances := b} else x := by
  rw [Tracker.setFlags,List.getElem?_modify]
  split <;> simp

theorem setFlags_own (t : Tracker τ) (a b : Bool) (hx : t.tokens[i]? = some x) :
    (t.setFlags i a b).tokens[i]? = some {x with completed := a, advances := b} := by
  rw [setFlags_get,hx,Option.map_some,if_pos rfl]

theorem setFlags_other (t : Tracker τ) (a b : Bool) (hij : i ≠ j) :
    (t.setFlags i a b).tokens[j]? = t.tokens[j]? := by
  rw [setFlags_get]
  simp [hij]

theorem tracker_ext {u : Tracker τ} (hgen : t.generation = u.generation)
    (htokens : ∀ j : ℕ, t.tokens[j]? = u.tokens[j]?) (hpending : t.pending = u.pending)
    (hcount : t.outstanding = u.outstanding) (hset : t.invalidated = u.invalidated) : t = u := by
  cases t
  cases u
  cases hgen
  cases List.ext_getElem? htokens
  cases hpending
  cases hcount
  cases hset
  rfl

theorem setFlags_back (t : Tracker τ) (a b : Bool) (hx : t.tokens[i]? = some x) :
    (t.setFlags i a b).setFlags i x.completed x.advances = t := by
  refine tracker_ext rfl (fun j => ?_) rfl rfl rfl
  by_cases hij : i = j
  · subst hij
    rw [setFlags_own _ _ _ (setFlags_own t a b hx),hx]
  · rw [setFlags_other _ _ _ hij,setFlags_other _ _ _ hij]

theorem setFlags_add (t : Tracker τ) (a b : Bool) (token : τ) (hlt : i < t.tokens.length) :
    (t.setFlags i a b).add token = (t.add token).setFlags i a b := by
  have hlength : (t.setFlags i a b).tokens.length = t.tokens.length := by simp [Tracker.setFlags]
  refine tracker_ext rfl (fun j => ?_) ?_ rfl rfl
  · rw [setFlags_get]
    rcases Nat.lt_trichotomy j t.tokens.length with hj | rfl | hj
    · rw [Tracker.add,Tracker.add,List.getElem?_append_left (by omega),
        List.getElem?_append_left hj,setFlags_get]
    · rw [add_new]
      have hnew := add_new (t.setFlags i a b) token
      rw [hlength] at hnew
      rw [hnew,Option.map_some,if_neg (by omega)]
      rfl
    · rw [List.getElem?_eq_none (by simp [Tracker.add,hlength]; omega),
        List.getElem?_eq_none (by simp [Tracker.add]; omega)]
      rfl
  · simp only [Tracker.add,hlength]
    rfl

theorem holding_lt (h : Holding r t s) : s.sequence < r.tokens.length := by
  obtain ⟨x,hx,-⟩ := h.token
  exact (List.getElem?_eq_some_iff.mp hx).1

theorem Holding.back (h : Holding r t s) : t.setFlags s.sequence s.completed s.advances = r := by
  obtain ⟨x,hx,-,hdone,hadv⟩ := h.token
  obtain ⟨a,rfl⟩ := h.flags
  rw [hdone,hadv,setFlags_back r true a hx]

theorem Holding.same (h : Holding r t s) : t.pending = r.pending ∧
    t.generation = r.generation ∧ t.outstanding = r.outstanding ∧
    t.invalidated = r.invalidated ∧ t.tokens.length = r.tokens.length := by
  obtain ⟨a,rfl⟩ := h.flags
  simp [Tracker.setFlags]

theorem Holding.other (h : Holding r t s) (hj : j ≠ s.sequence) : t.tokens[j]? = r.tokens[j]? := by
  obtain ⟨a,rfl⟩ := h.flags
  exact setFlags_other r true a hj.symm

theorem Holding.unset (h : Holding r t s) (hx : t.tokens[j]? = some x)
    (hdone : x.completed = false) : j ≠ s.sequence ∧ r.tokens[j]? = some x := by
  have hne : j ≠ s.sequence := by
    rintro rfl
    obtain ⟨z,hz,-⟩ := h.token
    obtain ⟨a,rfl⟩ := h.flags
    rw [setFlags_own r true a hz] at hx
    cases hx
    cases hdone
  exact ⟨hne,h.other hne ▸ hx⟩

theorem head_of_drop (hj : j ∈ (t.pending.drop t.completedPrefix.length).head?) :
    t.tokens[j]?.any (·.completed) = false := by
  have hsplit := List.takeWhile_append_dropWhile
    (p := fun i => t.tokens[i]?.any TrackedToken.completed) (l := t.pending)
  have hdrop : t.pending.drop t.completedPrefix.length =
      t.pending.dropWhile fun i => t.tokens[i]?.any (·.completed) := by
    conv_lhs => rw [← hsplit]
    exact List.drop_left
  rw [hdrop] at hj
  have hhead := List.head?_dropWhile_not (fun i => t.tokens[i]?.any TrackedToken.completed) t.pending
  rw [Option.mem_def.mp hj] at hhead
  exact hhead

theorem Holding.begin (hx : r.tokens[i]? = some x) (advances : Bool) (item : ℕ) :
    Holding r (r.setFlags i true advances) ⟨i,x.generation,x.completed,x.advances,
      (r.setFlags i true advances).completedPrefix.length,item⟩ := by
  constructor
  · exact ⟨x,hx,rfl,rfl,rfl⟩
  · exact ⟨advances,rfl⟩
  · exact (List.takeWhile_prefix _).length_le
  · intro j hj
    simp only at hj
    rw [← completedPrefix_eq_take] at hj
    obtain ⟨-,z,hz,hdone⟩ := mem_completedPrefix hj
    rw [hz]
    exact hdone
  · intro j hj
    exact head_of_drop hj

theorem Holding.add (h : Holding r t s) (hbound : ∀ i ∈ t.pending, i < t.tokens.length)
    (token : τ) : Holding (r.add token) (t.add token) s := by
  obtain ⟨hpending,-,-,-,hlength⟩ := h.same
  have hlt := holding_lt h
  constructor
  · obtain ⟨x,hx,hrest⟩ := h.token
    exact ⟨x,add_old hx,hrest⟩
  · obtain ⟨a,rfl⟩ := h.flags
    exact ⟨a,setFlags_add r true a token hlt⟩
  · rw [Tracker.add,List.length_append]
    exact Nat.le_add_right_of_le h.within
  · intro i hi
    rw [Tracker.add,List.take_append_of_le_length h.within] at hi
    obtain ⟨x,hx,hdone⟩ := (Option.any_eq_true _ _).mp (h.taken i hi)
    rw [add_old hx]
    exact hdone
  · intro i hi
    rw [Tracker.add,List.drop_append_of_le_length h.within] at hi
    cases hd : t.pending.drop s.taken with
    | nil =>
      rw [hd] at hi
      cases hi
      rw [add_new]
      rfl
    | cons k ks =>
      rw [hd] at hi
      cases hi
      have hhead := h.next i (by rw [hd]; rfl)
      have hmem : i ∈ t.pending := List.mem_of_mem_drop (hd ▸ List.mem_cons_self)
      rw [Tracker.add,List.getElem?_append_left (hbound i hmem)]
      exact hhead

theorem Holding.fresh (h : Holding r t s) (hr : Rest r) (hf : Fresh r) {advance : Bool}
    (hx : r.tokens[s.sequence]? = some x)
    (ht : t = r.setFlags s.sequence true (advance && decide (x.generation ∉ r.invalidated)))
    (hremembered : advance = true → s.sequence ∈ r.pending → x.generation < r.generation →
      x.generation ∈ r.invalidated) : Fresh t := by
  obtain ⟨hpending,hgen,-⟩ := h.same
  intro j y hy hj hadv
  rw [hpending] at hj
  rw [hgen]
  by_cases hji : j = s.sequence
  · subst hji
    rw [ht,setFlags_own _ _ _ hx] at hy
    cases hy
    obtain ⟨hadv,hnot⟩ := Bool.and_eq_true_iff.mp hadv
    have hle := hr.generation _ x hx
    by_contra hne
    exact of_decide_eq_true hnot (hremembered hadv hj (lt_of_le_of_ne hle hne))
  · rw [h.other hji] at hy
    exact hf j y hy hj hadv

section Finish
variable (h : Holding r t s)
include h

theorem Holding.counted (hr : Rest r) (g : ℕ) :
    (t.uncount s.generation s.completed g).getD 0 = (unflagged t g).card := by
  obtain ⟨x,hx,hgen,hdone,-⟩ := h.token
  obtain ⟨-,-,hcount,-⟩ := h.same
  have hsub : unflagged t g = (unflagged r g).erase s.sequence := by
    ext j
    rw [Finset.mem_erase,mem_unflagged,mem_unflagged]
    constructor
    · rintro ⟨y,hy,hg,hy'⟩
      obtain ⟨hne,hold⟩ := h.unset hy hy'
      exact ⟨hne,y,hold,hg,hy'⟩
    · rintro ⟨hne,y,hy,hg,hy'⟩
      exact ⟨y,(h.other hne).trans hy,hg,hy'⟩
  have hr' := hr.counted g
  rw [hsub]
  cases hc : x.completed with
  | true =>
    have hnot : s.sequence ∉ unflagged r g := by
      intro hmem
      obtain ⟨y,hy,-,hopen⟩ := mem_unflagged.mp hmem
      cases hx.symm.trans hy
      rw [hc] at hopen
      cases hopen
    rw [Finset.erase_eq_of_notMem hnot,Tracker.uncount,hdone,hc,if_pos rfl,hcount]
    exact hr'
  | false =>
    rw [Tracker.uncount,hdone,hc,if_neg Bool.false_ne_true,hcount]
    by_cases hg : g = s.generation
    · subst hg
      have hmem : s.sequence ∈ unflagged r s.generation :=
        mem_unflagged.mpr ⟨x,hx,hgen.symm,hc⟩
      have hpos := Finset.card_pos.mpr ⟨_,hmem⟩
      rw [Function.update_self,Option.getD_some,Finset.card_erase_of_mem hmem,← hr']
      cases ho : r.outstanding s.generation with
      | none => rw [ho,Option.getD_none] at hr'; omega
      | some n => rfl
    · have hnot : s.sequence ∉ unflagged r g := by
        intro hmem
        obtain ⟨y,hy,hyg,-⟩ := mem_unflagged.mp hmem
        cases hx.symm.trans hy
        exact hg (hyg.symm.trans hgen.symm)
      rw [Function.update_of_ne hg,Finset.erase_eq_of_notMem hnot]
      exact hr'

theorem Holding.finish (hr : Rest r) : Rest (t.finish s.generation s.completed s.taken) := by
  obtain ⟨hpending,hgen,-,hset,hlength⟩ := h.same
  constructor
  · have hsorted := hr.sorted
    rw [← hpending] at hsorted
    exact hsorted.sublist (List.drop_sublist _ _)
  · intro i hi
    have hi := List.mem_of_mem_drop hi
    rw [hpending] at hi
    exact lt_of_lt_of_eq (hr.bounded i hi) hlength.symm
  · intro i x hx hdone
    obtain ⟨-,hold⟩ := h.unset hx hdone
    have hmem := hr.kept i x hold hdone
    rw [← hpending,← List.take_append_drop s.taken t.pending] at hmem
    rcases List.mem_append.mp hmem with hin | hin
    · have htaken := h.taken i hin
      have hx' : t.tokens[i]? = some x := hx
      rw [hx',Option.any_some,hdone] at htaken
      cases htaken
    · exact hin
  · intro i x hx
    by_cases hi : i = s.sequence
    · subst hi
      obtain ⟨z,hz,-⟩ := h.token
      obtain ⟨a,ht⟩ := h.flags
      have hx' : t.tokens[s.sequence]? = some x := hx
      rw [ht,setFlags_own r true a hz] at hx'
      cases hx'
      exact le_of_le_of_eq (hr.generation _ z hz) hgen.symm
    · have hx' : t.tokens[i]? = some x := hx
      rw [h.other hi] at hx'
      exact le_of_le_of_eq (hr.generation i x hx') hgen.symm
  · intro g
    have hcount := h.counted hr g
    have hsame : unflagged (t.finish s.generation s.completed s.taken) g = unflagged t g := rfl
    rw [hsame,← hcount]
    simp only [Tracker.finish,Tracker.discardSettledGenerations]
    split
    · next hzero => rw [hzero]; rfl
    · rfl
  · intro i x hx hdone hlt
    obtain ⟨-,hold⟩ := h.unset hx hdone
    have hlt : x.generation < t.generation := hlt
    have hmem := hr.stale i x hold hdone (hgen ▸ hlt)
    refine Finset.mem_filter.mpr ⟨hset ▸ hmem,fun hzero => ?_⟩
    have hzero : t.uncount s.generation s.completed x.generation = some 0 := hzero
    have hcount := h.counted hr x.generation
    rw [hzero,Option.getD_some] at hcount
    have hin : i ∈ unflagged t x.generation := mem_unflagged.mpr ⟨x,hx,rfl,hdone⟩
    have hpos := Finset.card_pos.mpr ⟨i,hin⟩
    omega
  · exact h.next

end Finish

theorem Fresh.finish (hf : Fresh t) (g taken : ℕ) (completed : Bool) :
    Fresh (t.finish g completed taken) :=
  fun i x hx hi hadv => hf i x hx (List.mem_of_mem_drop hi) hadv

end Holding

section Books
variable {τ : Type} {b c : Book τ} {op : Op τ} {advance : Bool}

/-- What holds of a book, whoever holds the lock: without the completion that waits, the
tracker would be at rest. -/
structure Sound (b : Book τ) : Prop where
  rest : match b.save with
    | none => Rest b.tracker
    | some s => ∃ r, Rest r ∧ Holding r b.tracker s ∧ s.item ∈ b.tracker.pending.take s.taken
  ascending : b.saves.Pairwise (· < ·)
  below : ∀ i ∈ b.saves, (∀ j ∈ b.tracker.pending, i < j) ∧ i < b.tracker.tokens.length
  sorted : b.tracker.pending.Pairwise (· < ·)
  bounded : ∀ i ∈ b.tracker.pending, i < b.tracker.tokens.length

theorem sound_empty : Sound ({} : Book τ) := by
  constructor
  · exact rest_empty
  · exact .nil
  · intro i hi
    cases hi
  · exact .nil
  · intro i hi
    cases hi

theorem Sound.kept (h : Sound b) : Kept b := by
  have hrest := h.rest
  constructor
  · intro g
    cases hs : b.save with
    | none =>
      rw [hs] at hrest
      rw [hrest.counted g]
      congr 1
      ext i
      simp only [unflagged,Book.openTokens,Book.Completed,hs,Bool.not_eq_true]
    | some s =>
      rw [hs] at hrest
      obtain ⟨r,hr,hh,-⟩ := hrest
      obtain ⟨-,-,hcount,-,hlength⟩ := hh.same
      rw [hcount,hr.counted g]
      congr 1
      unfold unflagged Book.openTokens
      rw [hlength]
      refine Finset.filter_congr fun i _ => ?_
      obtain ⟨x,hx,-,hdone,-⟩ := hh.token
      by_cases hi : s.sequence = i
      · subst hi
        obtain ⟨a,ht⟩ := hh.flags
        rw [ht,setFlags_own r true a hx]
        simp [Book.Completed,hs,hx,hdone]
      · rw [hh.other (Ne.symm hi)]
        simp [Book.Completed,hs,hi,hh.other (Ne.symm hi)]
  · intro hs i hi
    rw [hs] at hrest
    simp only [Book.Completed,hs,hrest.head i hi,Bool.false_eq_true,not_false_eq_true]
  · exact h.ascending

/-- The saved tokens stand before what is queued. -/
theorem Sound.saved (h : Sound b) {s : Save} (hs : b.save = some s)
    {t : Tracker τ} (ht : t.pending = b.tracker.pending.drop s.taken)
    (hlength : t.tokens.length = b.tracker.tokens.length) :
    (b.saves++[s.item]).Pairwise (· < ·) ∧ ∀ i ∈ b.saves++[s.item],
      (∀ j ∈ t.pending, i < j) ∧ i < t.tokens.length := by
  have hrest := h.rest
  rw [hs] at hrest
  obtain ⟨-,-,-,hitem⟩ := hrest
  have hmem := List.mem_of_mem_take hitem
  have hsplit := h.sorted
  rw [← List.take_append_drop s.taken b.tracker.pending] at hsplit
  constructor
  · refine List.pairwise_append.mpr ⟨h.ascending,List.pairwise_singleton _ _,?_⟩
    intro i hi j hj
    rw [List.mem_singleton.mp hj]
    exact (h.below i hi).1 _ hmem
  · intro i hi
    rw [ht,hlength]
    rcases List.mem_append.mp hi with hi | hi
    · exact ⟨fun j hj => (h.below i hi).1 j (List.mem_of_mem_drop hj),(h.below i hi).2⟩
    · rw [List.mem_singleton.mp hi]
      exact ⟨fun j hj => (List.pairwise_append.mp hsplit).2.2 _ hitem j hj,h.bounded _ hmem⟩

theorem item_taken {t : Tracker τ} {item : ℕ} (h : t.saved = some item) :
    item ∈ t.pending.take t.completedPrefix.length ∧
      ∃ x, t.tokens[item]? = some x ∧ x.advances = true := by
  obtain ⟨hmem,hadv⟩ := List.mem_filter.mp (List.mem_of_mem_getLast? (Option.mem_def.mpr h))
  rw [← completedPrefix_eq_take]
  exact ⟨hmem,(Option.any_eq_true _ _).mp hadv⟩

theorem Sound.add (h : Sound b) (token : τ) :
    Sound {b with tracker := b.tracker.add token} := by
  have hrest := h.rest
  constructor
  · cases hs : b.save with
    | none =>
      rw [hs] at hrest
      exact hrest.add token
    | some s =>
      rw [hs] at hrest
      obtain ⟨r,hr,hh,hitem⟩ := hrest
      refine ⟨_,hr.add token,hh.add h.bounded token,?_⟩
      rw [Tracker.add,List.take_append_of_le_length hh.within]
      exact hitem
  · exact h.ascending
  · intro i hi
    obtain ⟨hbelow,hlt⟩ := h.below i hi
    refine ⟨fun j hj => ?_,?_⟩
    · rcases List.mem_append.mp hj with hj | hj
      · exact hbelow j hj
      · rwa [List.mem_singleton.mp hj]
    · rw [Tracker.add,List.length_append]
      exact Nat.lt_add_right _ hlt
  · exact (pending_add token h.sorted h.bounded).1
  · exact (pending_add token h.sorted h.bounded).2

theorem Sound.invalidate {k : ℕ} (h : Sound b) (hc : b.invalidate k = some c) : Sound c := by
  unfold Book.invalidate at hc
  split at hc
  · next hs =>
      cases hc
      have hrest := h.rest
      rw [hs] at hrest
      obtain ⟨hlength,hpending,-⟩ := invalidate_generation b.tracker k
      constructor
      · simp only [hs]
        exact hrest.invalidate k
      · exact h.ascending
      · simpa only [hpending,hlength] using h.below
      · simpa only [hpending] using h.sorted
      · simpa only [hpending,hlength] using h.bounded
  · cases hc

theorem complete_cases {i : ℕ} (hc : b.complete i advance = some c) :
    ∃ x, b.tracker.tokens[i]? = some x ∧ b.save = none ∧
      c.late = b.noted i x ∧ c.saves = b.saves ∧ ∃ s, s.sequence = i ∧
        Holding b.tracker (b.flagged i advance x) s ∧
        s.taken = (b.flagged i advance x).completedPrefix.length ∧
        ((c.save = none ∧ (b.flagged i advance x).saved = none ∧
            c.tracker = (b.flagged i advance x).finish s.generation s.completed s.taken) ∨
          (c.save = some s ∧ (b.flagged i advance x).saved = some s.item ∧
            c.tracker = b.flagged i advance x)) := by
  unfold Book.complete at hc
  split at hc
  · next x hx hs =>
      have hbegin := Holding.begin hx (advance && decide (x.generation ∉ b.tracker.invalidated))
      cases hsaved : (b.flagged i advance x).saved with
      | none =>
        simp only [hsaved] at hc
        cases hc
        exact ⟨x,hx,hs,rfl,rfl,_,rfl,hbegin 0,rfl,.inl ⟨hs,hsaved,rfl⟩⟩
      | some item =>
        simp only [hsaved] at hc
        cases hc
        exact ⟨x,hx,hs,rfl,rfl,_,rfl,hbegin item,rfl,.inr ⟨rfl,hsaved,rfl⟩⟩
  · cases hc

theorem Sound.complete {i : ℕ} (h : Sound b) (hc : b.complete i advance = some c) : Sound c := by
  obtain ⟨x,-,hs,-,hsaves,s,-,hh,htaken,hcase⟩ := complete_cases hc
  have hrest := h.rest
  rw [hs] at hrest
  obtain ⟨hpending,-,-,-,hlength⟩ := hh.same
  rcases hcase with ⟨hnone,-,ht⟩ | ⟨hsome,hitem,ht⟩
  · have hdrop : c.tracker.pending = b.tracker.pending.drop s.taken := by
      rw [ht,← hpending]
      rfl
    have hsame : c.tracker.tokens.length = b.tracker.tokens.length := by
      rw [ht,← hlength]
      rfl
    have hfinish := hh.finish hrest
    rw [← ht] at hfinish
    constructor
    · rw [hnone]
      exact hfinish
    · rw [hsaves]
      exact h.ascending
    · rw [hsaves,hdrop,hsame]
      exact fun i hi => ⟨fun j hj => (h.below i hi).1 j (List.mem_of_mem_drop hj),(h.below i hi).2⟩
    · exact hfinish.sorted
    · exact hfinish.bounded
  · constructor
    · rw [hsome,ht]
      refine ⟨_,hrest,hh,?_⟩
      rw [htaken]
      exact (item_taken hitem).1
    · rw [hsaves]
      exact h.ascending
    · rw [hsaves,ht,hpending,hlength]
      exact h.below
    · rw [ht,hpending]
      exact h.sorted
    · rw [ht,hpending,hlength]
      exact h.bounded

theorem Sound.saveReturns {ok : Bool} (h : Sound b) (hc : b.saveReturns ok = some c) :
    Sound c := by
  have hrest := h.rest
  unfold Book.saveReturns at hc
  split at hc
  · cases hc
  · next s hs =>
      rw [hs] at hrest
      obtain ⟨r,hr,hh,-⟩ := hrest
      split at hc
      · cases hc
        have hfinish := hh.finish hr
        obtain ⟨hascending,hbelow⟩ := h.saved hs
          (t := b.tracker.finish s.generation s.completed s.taken) rfl rfl
        exact ⟨hfinish,hascending,hbelow,hfinish.sorted,hfinish.bounded⟩
      · cases hc
        rw [hh.back]
        obtain ⟨hpending,-,-,-,hlength⟩ := hh.same
        constructor
        · exact hr
        · exact h.ascending
        · simpa only [hpending,hlength] using h.below
        · exact hr.sorted
        · exact hr.bounded

theorem Sound.step (h : Sound b) (hc : b.perform op = some c) : Sound c := by
  cases op with
  | add token =>
    cases hc
    exact h.add token
  | invalidate k => exact h.invalidate hc
  | complete i advance => exact h.complete hc
  | saveReturns ok => exact h.saveReturns hc

/-- Nothing that is queued advances beyond its generation. -/
structure Punctual (b : Book τ) : Prop where
  fresh : Fresh b.tracker
  back : ∀ s ∈ b.save, Fresh (b.tracker.setFlags s.sequence s.completed s.advances)
  item : ∀ s ∈ b.save, ∃ x, b.tracker.tokens[s.item]? = some x ∧
    x.generation = b.tracker.generation
  late : ∀ i ∈ b.late, ∃ x, b.tracker.tokens[i]? = some x ∧ x.generation < b.tracker.generation

theorem Punctual.neverLate (h : Punctual b) : NeverLate b := by
  intro s hs hlate
  obtain ⟨x,hx,hcur⟩ := h.item s hs
  obtain ⟨y,hy,hlt⟩ := h.late s.item hlate
  cases hx.symm.trans hy
  omega

theorem punctual_empty : Punctual ({} : Book τ) := by
  constructor <;> simp [Fresh]

theorem Punctual.add (h : Punctual b) (hb : Sound b) (token : τ) :
    Punctual {b with tracker := b.tracker.add token} := by
  constructor
  · exact h.fresh.add token
  · intro s hs
    have hrest := hb.rest
    rw [Option.mem_def.mp hs] at hrest
    obtain ⟨r,-,hh,-⟩ := hrest
    have hlt := lt_of_lt_of_eq (holding_lt hh) hh.same.2.2.2.2.symm
    rw [← setFlags_add _ _ _ _ hlt]
    exact (h.back s hs).add token
  · intro s hs
    obtain ⟨x,hx,hgen⟩ := h.item s hs
    exact ⟨x,add_old hx,hgen⟩
  · intro i hi
    obtain ⟨x,hx,hlt⟩ := h.late i hi
    exact ⟨x,add_old hx,hlt⟩

theorem Punctual.invalidate {k : ℕ} (h : Punctual b) (hc : b.invalidate k = some c) :
    Punctual c := by
  unfold Book.invalidate at hc
  split at hc
  · next hs =>
      cases hc
      obtain ⟨hlength,-,-,hcase⟩ := invalidate_generation b.tracker k
      refine ⟨h.fresh.invalidate k,fun s hs' => ?_,fun s hs' => ?_,fun i hi => ?_⟩
      · rw [hs] at hs'
        cases hs'
      · rw [hs] at hs'
        cases hs'
      · obtain ⟨x,hx,hlt⟩ := h.late i hi
        have hi := (List.getElem?_eq_some_iff.mp hx).1
        rw [← hlength] at hi
        have hget := List.getElem?_eq_getElem hi
        obtain ⟨z,hz,hgen,-⟩ := invalidate_token hget
        cases hx.symm.trans hz
        refine ⟨_,hget,?_⟩
        rw [hgen]
        change x.generation < (b.tracker.invalidate k).generation
        rcases hcase with ⟨-,hnext,-⟩ | ⟨-,hsame⟩
        · omega
        · rwa [hsame]
  · cases hc

theorem Punctual.complete {i : ℕ} (h : Punctual b) (hb : Sound b)
    (hremembered : (Op.complete i advance).Remembered b) (hc : b.complete i advance = some c) :
    Punctual c := by
  obtain ⟨x,hx,hs,hlate,-,s,rfl,hh,htaken,hcase⟩ := complete_cases hc
  have hrest := hb.rest
  rw [hs] at hrest
  obtain ⟨hpending,hgen,-⟩ := hh.same
  have hfresh : Fresh (b.flagged s.sequence advance x) := by
    refine hh.fresh hrest h.fresh hx rfl fun hadv hi hlt => ?_
    subst hadv
    exact hremembered x hx hi hlt
  have hkept : ∀ j ∈ b.noted s.sequence x, ∃ y,
      (b.flagged s.sequence advance x).tokens[j]? = some y ∧ y.generation < b.tracker.generation := by
    have hflagged : ∀ (j : ℕ) (y : TrackedToken τ), b.tracker.tokens[j]? = some y →
        ∃ z, (b.flagged s.sequence advance x).tokens[j]? = some z ∧ z.generation = y.generation := by
      intro j y hy
      have hgen := setFlags_generation b.tracker true
        (advance && decide (x.generation ∉ b.tracker.invalidated)) j s.sequence
      rw [hy,Option.map_some] at hgen
      exact Option.map_eq_some_iff.mp hgen
    intro j hj
    unfold Book.noted at hj
    split at hj
    · next hlt =>
        rcases List.mem_cons.mp hj with rfl | hj
        · obtain ⟨z,hz,hzgen⟩ := hflagged _ x hx
          exact ⟨z,hz,hzgen ▸ hlt⟩
        · obtain ⟨y,hy,hylt⟩ := h.late j hj
          obtain ⟨z,hz,hzgen⟩ := hflagged j y hy
          exact ⟨z,hz,hzgen ▸ hylt⟩
    · obtain ⟨y,hy,hylt⟩ := h.late j hj
      obtain ⟨z,hz,hzgen⟩ := hflagged j y hy
      exact ⟨z,hz,hzgen ▸ hylt⟩
  have hsame : ∀ t, (t = b.flagged s.sequence advance x ∨
      t = (b.flagged s.sequence advance x).finish s.generation s.completed s.taken) →
      t.generation = b.tracker.generation ∧ t.tokens = (b.flagged s.sequence advance x).tokens := by
    rintro t (rfl | rfl)
    · exact ⟨hgen,rfl⟩
    · exact ⟨hgen,rfl⟩
  rcases hcase with ⟨hnone,-,ht⟩ | ⟨hsome,hitem,ht⟩
  · obtain ⟨hgen',htokens⟩ := hsame _ (.inr ht)
    refine ⟨ht ▸ hfresh.finish _ _ _,fun s' hs' => ?_,fun s' hs' => ?_,fun j hj => ?_⟩
    · rw [hnone] at hs'
      cases hs'
    · rw [hnone] at hs'
      cases hs'
    · rw [hlate] at hj
      rw [hgen',htokens]
      exact hkept j hj
  · obtain ⟨hgen',htokens⟩ := hsame _ (.inl ht)
    refine ⟨ht ▸ hfresh,fun s' hs' => ?_,fun s' hs' => ?_,fun j hj => ?_⟩
    · rw [hsome] at hs'
      cases hs'
      rw [ht,hh.back]
      exact h.fresh
    · rw [hsome] at hs'
      cases hs'
      obtain ⟨hin,y,hy,hadv⟩ := item_taken hitem
      rw [ht]
      exact ⟨y,hy,hfresh _ y hy (List.mem_of_mem_take hin) hadv⟩
    · rw [hlate] at hj
      rw [hgen',htokens]
      exact hkept j hj

theorem Punctual.saveReturns {ok : Bool} (h : Punctual b) (hc : b.saveReturns ok = some c) :
    Punctual c := by
  unfold Book.saveReturns at hc
  split at hc
  · cases hc
  · next s hs =>
      split at hc
      · cases hc
        exact ⟨h.fresh.finish _ _ _,fun s' hs' => (by cases hs'),fun s' hs' => (by cases hs'),h.late⟩
      · cases hc
        refine ⟨h.back s hs,fun s' hs' => (by cases hs'),fun s' hs' => (by cases hs'),fun i hi => ?_⟩
        obtain ⟨x,hx,hlt⟩ := h.late i hi
        have hgen := setFlags_generation b.tracker s.completed s.advances i s.sequence
        rw [hx,Option.map_some] at hgen
        obtain ⟨z,hz,hzgen⟩ := Option.map_eq_some_iff.mp hgen
        exact ⟨z,hz,hzgen ▸ hlt⟩

theorem Punctual.step (h : Punctual b) (hb : Sound b) (hop : op.Remembered b)
    (hc : b.perform op = some c) : Punctual c := by
  cases op with
  | add token =>
    cases hc
    exact h.add hb token
  | invalidate k => exact h.invalidate hc
  | complete i advance => exact h.complete hb hop hc
  | saveReturns ok => exact h.saveReturns hc

end Books

section Results
variable {τ : Type}

def Book.addAll (b : Book τ) (tokens : List τ) : Book τ :=
  {b with tracker := tokens.foldl Tracker.add b.tracker}

theorem addAll_old {t : Tracker τ} {i : ℕ} {x : TrackedToken τ} (hx : t.tokens[i]? = some x)
    (tokens : List τ) : (tokens.foldl Tracker.add t).tokens[i]? = some x := by
  induction tokens generalizing t with
  | nil => exact hx
  | cons token tokens ih => exact ih (add_old hx)

theorem setFlags_addAll {t : Tracker τ} {i : ℕ} (a b : Bool) (tokens : List τ)
    (hlt : i < t.tokens.length) :
    tokens.foldl Tracker.add (t.setFlags i a b) = (tokens.foldl Tracker.add t).setFlags i a b := by
  induction tokens generalizing t with
  | nil => rfl
  | cons token tokens ih =>
    have hlt' : i < (t.add token).tokens.length := by
      rw [Tracker.add,List.length_append]
      exact Nat.lt_add_right _ hlt
    rw [List.foldl_cons,setFlags_add t a b token hlt,ih hlt',List.foldl_cons]

/-- A completion that waits while tokens are added, and whose store raises, leaves the
tracker as the additions alone would have. -/
theorem raised_restores {b c : Book τ} {i : ℕ} {advance : Bool} {s : Save}
    (hc : b.complete i advance = some c) (hs : c.save = some s) (tokens : List τ) :
    ((c.addAll tokens).saveReturns false).map (fun d => (d.tracker,d.save,d.saves)) =
      some ((b.addAll tokens).tracker,b.save,b.saves) := by
  obtain ⟨x,hx,hnone,-,hsaves,s',rfl,hh,-,hcase⟩ := complete_cases hc
  rcases hcase with ⟨hnone',-⟩ | ⟨hsome,-,ht⟩
  · rw [hs] at hnone'
    cases hnone'
  · cases hsome.symm.trans hs
    obtain ⟨y,hy,-,hdone,hadv⟩ := hh.token
    have hlt := (List.getElem?_eq_some_iff.mp hy).1
    have hback := setFlags_back _ true
      (advance && decide (x.generation ∉ b.tracker.invalidated)) (addAll_old hy tokens)
    have hheld : (c.addAll tokens).save = some s := hs
    unfold Book.saveReturns
    rw [hheld]
    simp only [Bool.false_eq_true,if_false,Option.map_some,Option.some.injEq,Prod.mk.injEq]
    refine ⟨?_,hnone.symm,hsaves⟩
    change (tokens.foldl Tracker.add c.tracker).setFlags _ _ _ = tokens.foldl Tracker.add b.tracker
    rw [ht,Book.flagged,setFlags_addAll _ _ _ hlt,hdone,hadv,hback]

/-- Over any calls the counters, the queue and the saves are kept, and a store that raises
changes nothing. When moreover no token of a forgotten generation is made to advance, none
is saved that was completed too late. -/
theorem tracker_kept (ops : List (Op τ)) :
    Throughout Book.perform Kept {} ops ∧
      (∀ (b c : Book τ) i advance s tokens, b.complete i advance = some c → c.save = some s →
        ((c.addAll tokens).saveReturns false).map (fun d => (d.tracker,d.save,d.saves)) =
          some ((b.addAll tokens).tracker,b.save,b.saves)) ∧
      (EachStep Book.perform (fun b op => op.Remembered b) {} ops →
        Throughout Book.perform NeverLate {} ops) := by
  refine ⟨?_,fun b c i advance s tokens hc hs => raised_restores hc hs tokens,fun h => ?_⟩
  · exact throughout_of_invariant (J := Sound) (fun b op c hb hc => hb.step hc)
      (fun b hb => hb.kept) sound_empty ops
  · exact throughout_of_eachStep (J := fun b => Sound b ∧ Punctual b) h
      (fun b op c hb hc hop => ⟨hb.1.step hc,hb.2.step hb.1 hop hc⟩) (fun b hb => hb.2.neverLate)
      ⟨sound_empty,punctual_empty⟩

/-- The late acknowledgement of an invalidated token is ignored, and the store raises once
before it saves the next generation. -/
theorem tracker_kept_ignored :
    Throughout Book.perform NeverLate {} ([.add 0,.invalidate 0,.add 1,.complete 0 true,
      .complete 1 true,.saveReturns false,.complete 1 true,.saveReturns true] : List (Op ℕ)) := by
  refine (tracker_kept _).2.2 (eachStep_of_checks (p := fun b op => decide (op.Remembered b)) ?_ ?_)
  · exact fun b op h => of_decide_eq_true h
  · decide

/-- The second token is completed twice after its generation was invalidated, and saved. -/
theorem forgotten_saved :
    ¬∀ ops : List (Op ℕ), Throughout Book.perform NeverLate {} ops := by
  intro h
  have hsave : ((runs Book.perform (fun _ _ => true) ({} : Book ℕ) [.add 0,.invalidate 0,.add 1,
      .invalidate 1,.complete 1 true,.complete 1 true,.complete 0 true]).map fun b =>
        (b.save.map (·.item),b.late)) = some (some 1,[0,1,1]) := by
    decide
  obtain ⟨b,hb,he⟩ := Option.map_eq_some_iff.mp hsave
  obtain ⟨hitem,hlate⟩ := Prod.mk.inj he
  obtain ⟨s,hs,hs'⟩ := Option.map_eq_some_iff.mp hitem
  refine (h _).last hb s hs ?_
  rw [hs',hlate]
  decide

end Results

end OneStep.TrackerCalls
