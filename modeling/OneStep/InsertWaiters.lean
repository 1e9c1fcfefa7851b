import OneStep.FeishuInsert
import OneStep.WorkItems

/-!
# Every waiter of an indexed insert is settled

An entry is in order until a batch takes it, and the batch is with the holder of the
flush lock until the entry is settled. The count of waiters follows the entries, and a
waiter that waits is listed in one. All this is kept by every step but the cancellation
of a task that holds the flush lock: it leaves the batch without an owner.
-/
namespace OneStep.InsertWaiters
open FeishuInsert Transition

section Shape

/-- The keys that the holder of the flush lock still has to settle. -/
def writeKeys : Write → List String
  | .creating batch _ => batch
  | .looking unresolved _ _ => unresolved
  | .recreating missing lookupFailed _ _ => lookupFailed++missing

def laneKeys (s : Sink) : List String :=
  match s.lane with
  | none => []
  | some l => writeKeys l.write

/-- How the entries, the order and the batch fit together; the last part as long as
nothing was interrupted. -/
structure Shape (calm : Prop) (entries : List Pending) (order keys : List String) : Prop where
  unique : (entries.map Pending.key).Nodup
  claimed : (order++keys).Nodup
  pending : ∀ k ∈ order++keys, k ∈ entries.map Pending.key
  buffered : ∀ p ∈ entries, p.key ∈ order → p.state = .buffered
  covered : calm → ∀ p ∈ entries, p.key ∈ order++keys

variable {calm : Prop} {entries : List Pending} {order keys : List String}

theorem Shape.mono {still : Prop} (h : Shape calm entries order keys) (hstill : still → calm) :
    Shape still entries order keys :=
  ⟨h.unique,h.claimed,h.pending,h.buffered,fun hs => h.covered (hstill hs)⟩

theorem Shape.settle {gone rest : List String} (h : Shape calm entries order keys)
    (hrest : rest.Nodup) (hkeys : ∀ k, k ∈ keys ↔ k ∈ gone ∨ k ∈ rest) (hgone : ∀ k ∈ gone, k ∉ rest) :
    Shape calm (entries.filter fun p => p.key ∉ gone) order rest := by
  obtain ⟨horder,-,hcross⟩ := List.nodup_append.mp h.claimed
  have hout : ∀ k ∈ order, k ∉ keys := fun k hk hin => hcross k hk k hin rfl
  refine ⟨(List.filter_sublist.map _).nodup h.unique,List.nodup_append.mpr ⟨horder,hrest,?_⟩,?_,?_,?_⟩
  · intro k hk k' hk' heq
    rw [← heq] at hk'
    exact hout k hk ((hkeys k).mpr (.inr hk'))
  · intro k hk
    have hin : k ∈ order++keys ∧ k ∉ gone := by
      rcases List.mem_append.mp hk with hk | hk
      · exact ⟨List.mem_append_left _ hk,fun hg => hout k hk ((hkeys k).mpr (.inl hg))⟩
      · exact ⟨List.mem_append_right _ ((hkeys k).mpr (.inr hk)),fun hg => hgone k hg hk⟩
    obtain ⟨p,hp,rfl⟩ := List.mem_map.mp (h.pending k hin.1)
    exact List.mem_map_of_mem (List.mem_filter.mpr ⟨hp,by simpa using hin.2⟩)
  · intro p hp
    exact h.buffered p (List.mem_of_mem_filter hp)
  · intro hcalm p hp
    obtain ⟨hp,hnot⟩ := List.mem_filter.mp hp
    rcases List.mem_append.mp (h.covered hcalm p hp) with hin | hin
    · exact List.mem_append_left _ hin
    · apply List.mem_append_right
      exact ((hkeys _).mp hin).resolve_left (by simpa using hnot)

theorem Shape.settleAll (h : Shape calm entries order keys) :
    Shape calm (entries.filter fun p => p.key ∉ keys) order [] :=
  h.settle List.nodup_nil (fun k => by simp) (fun k _ => List.not_mem_nil)

theorem Shape.states {marked : List String} {state : InsertState} (h : Shape calm entries order keys)
    (hmarked : marked ⊆ keys) :
    Shape calm (entries.map fun p => if p.key ∈ marked then {p with state := state} else p) order keys := by
  have hkeys : (entries.map fun p => if p.key ∈ marked then {p with state := state} else p).map
      Pending.key = entries.map Pending.key := by
    rw [List.map_map]
    apply List.map_congr_left
    intro p _
    simp only [Function.comp_apply]
    split <;> rfl
  refine ⟨by rw [hkeys]; exact h.unique,h.claimed,by rw [hkeys]; exact h.pending,?_,?_⟩
  · intro p hp horder
    obtain ⟨p₀,hp₀,rfl⟩ := List.mem_map.mp hp
    by_cases hin : p₀.key ∈ marked
    · rw [if_pos hin] at horder
      exact absurd rfl ((List.nodup_append.mp h.claimed).2.2 _ horder _ (hmarked hin))
    · rw [if_neg hin] at horder ⊢
      exact h.buffered p₀ hp₀ horder
  · intro hcalm p hp
    obtain ⟨p₀,hp₀,rfl⟩ := List.mem_map.mp hp
    have hin := h.covered hcalm p₀ hp₀
    split <;> exact hin

theorem find_of_mem {k : String} (h : k ∈ entries.map Pending.key) :
    ∃ p, (entries.find? fun p => p.key = k) = some p ∧ p ∈ entries ∧ p.key = k := by
  obtain ⟨p,hp,hpk⟩ := List.mem_map.mp h
  have hsome : (entries.find? fun p => p.key = k).isSome := by
    rw [List.find?_isSome]
    exact ⟨p,hp,by simpa using hpk⟩
  obtain ⟨q,hq⟩ := Option.isSome_iff_exists.mp hsome
  exact ⟨q,hq,List.mem_of_find?_eq_some hq,by simpa using List.find?_some hq⟩

theorem Shape.seal (h : Shape calm entries order keys) (size : ℕ) :
    Shape calm (sealBatch size order entries).2.2 (sealBatch size order entries).2.1
        (keys++(sealBatch size order entries).1) ∧
      (sealBatch size order entries).1++(sealBatch size order entries).2.1 = order ∧
      (sealBatch size order entries).2.2.map Pending.waiters = entries.map Pending.waiters := by
  induction order generalizing size entries keys with
  | nil =>
    rw [sealBatch.eq_1]
    exact ⟨by rw [List.append_nil]; exact h,rfl,rfl⟩
  | cons key order ih =>
    cases size with
    | zero =>
      rw [sealBatch.eq_2 _ _ (List.cons_ne_nil key order)]
      exact ⟨by rw [List.append_nil]; exact h,rfl,rfl⟩
    | succ size =>
      obtain ⟨p,hfind,hp,hkey⟩ := find_of_mem (h.pending key (by simp))
      have hstate : p.state = .buffered := h.buffered p hp (by rw [hkey]; exact List.mem_cons_self)
      have hmark : (fun q : Pending => if q.key = key then {q with state := .writing} else q) =
          fun q => if q.key ∈ [key] then {q with state := .writing} else q := by
        funext q
        simp only [List.mem_singleton]
      have hclaimed : (order++(keys++[key])).Perm (key::order++keys) := by
        rw [← List.append_assoc]
        exact List.perm_append_singleton key (order++keys)
      have hmoved : Shape calm entries order (keys++[key]) := by
        refine ⟨h.unique,hclaimed.nodup_iff.mpr h.claimed,?_,?_,?_⟩
        · exact fun k hk => h.pending k (hclaimed.mem_iff.mp hk)
        · exact fun q hq hin => h.buffered q hq (List.mem_cons_of_mem _ hin)
        · exact fun hcalm q hq => hclaimed.mem_iff.mpr (h.covered hcalm q hq)
      have hsealed := @Shape.states calm entries order (keys++[key]) [key] .writing hmoved (by simp)
      obtain ⟨hshape,hsplit,hwaiters⟩ := ih hsealed size
      simp only [sealBatch,hfind,hstate,ne_eq,not_true_eq_false,if_false]
      rw [hmark]
      refine ⟨?_,?_,?_⟩
      · rw [List.append_assoc,List.singleton_append] at hshape
        exact hshape
      · rw [List.cons_append,hsplit]
      · rw [hwaiters,List.map_map]
        apply List.map_congr_left
        intro q _
        simp only [Function.comp_apply]
        split <;> rfl

end Shape

section Waiters

/-- The count follows the entries, and who waits is listed in one. -/
structure Waited (s : Sink) : Prop where
  counted : s.inflightWaiterCount = ((s.pendingByKey.map Pending.waiters).map List.length).sum
  waiting : ∀ i, (s.senders.map Sender.waiter)[i]? = some (some .waiting) →
    ∃ ws ∈ s.pendingByKey.map Pending.waiters, i ∈ ws

variable {s s' : Sink} {key : String}

theorem Waited.congr (h : Waited s) (hcount : s'.inflightWaiterCount = s.inflightWaiterCount)
    (hentries : s'.pendingByKey.map Pending.waiters = s.pendingByKey.map Pending.waiters)
    (hsenders : s'.senders.map Sender.waiter = s.senders.map Sender.waiter) : Waited s' := by
  refine ⟨?_,?_⟩
  · rw [hcount,hentries]
    exact h.counted
  · rw [hentries,hsenders]
    exact h.waiting

theorem Waited.setPhase (h : Waited s) (i : ℕ) (phase : Phase) : Waited (s.setPhase i phase) := by
  refine h.congr rfl rfl ?_
  rw [Sink.setPhase,WorkItems.map_modify]
  exact fun _ => rfl

theorem Waited.setStates (h : Waited s) (keys : List String) (state : InsertState) :
    Waited (s.setStates keys state) := by
  refine h.congr rfl ?_ rfl
  rw [Sink.setStates,List.map_map]
  apply List.map_congr_left
  intro p _
  simp only [Function.comp_apply]
  split <;> rfl

theorem sum_filter_add {α : Type} (p : α → Bool) (f : α → ℕ) (l : List α) :
    ((l.filter p).map f).sum+((l.filter fun a => !p a).map f).sum = (l.map f).sum := by
  induction l with
  | nil => rfl
  | cons a l ih =>
    by_cases h : p a = true
    · rw [List.filter_cons_of_pos h,List.filter_cons_of_neg (by simpa using h)]
      simp only [List.map_cons,List.sum_cons]
      omega
    · rw [List.filter_cons_of_neg h,List.filter_cons_of_pos (by simpa using h)]
      simp only [List.map_cons,List.sum_cons]
      omega

theorem settle_waiter (ok : Bool) (x : Sender) : (x.settle ok).waiter ≠ some .waiting := by
  unfold Sender.settle
  cases hwaiter : x.waiter with
  | none => simp
  | some w => cases w <;> simp

theorem Waited.settle (h : Waited s) (ok : Bool) (keys : List String) : Waited (s.settle ok keys) := by
  refine ⟨?_,?_⟩
  · have hsum := sum_filter_add (fun p : Pending => decide (p.key ∈ keys)) (fun p => p.waiters.length)
      s.pendingByKey
    have hcounted := h.counted
    simp only [Sink.settle,List.map_map] at hcounted ⊢
    rw [hcounted]
    simp only [Function.comp_def,decide_not] at hsum ⊢
    omega
  · intro i hi
    simp only [Sink.settle,List.getElem?_map,List.getElem?_mapIdx,Option.map_map] at hi
    rw [Option.map_eq_some_iff] at hi
    obtain ⟨x,hx,hwaiter⟩ := hi
    simp only [Function.comp_apply] at hwaiter
    by_cases hin : (s.pendingByKey.filter fun p => p.key ∈ keys).any fun p => i ∈ p.waiters
    · rw [if_pos hin] at hwaiter
      exact absurd hwaiter (settle_waiter ok x)
    · rw [if_neg hin] at hwaiter
      obtain ⟨ws,hws,hiws⟩ := h.waiting i (by rw [List.getElem?_map,hx,Option.map_some,hwaiter])
      obtain ⟨p,hp,rfl⟩ := List.mem_map.mp hws
      refine ⟨p.waiters,List.mem_map_of_mem (List.mem_filter.mpr ⟨hp,?_⟩),hiws⟩
      simp only [decide_eq_true_eq]
      intro hkey
      apply hin
      rw [List.any_eq_true]
      exact ⟨p,List.mem_filter.mpr ⟨hp,by simpa using hkey⟩,by simpa using hiws⟩

theorem Waited.confirm (h : Waited s) (keys : List String) : Waited (s.confirm keys) :=
  Waited.settle (s := {s with
    insertKeys := s.insertKeys ∪ keys.toFinset
    uncertainKeys := s.uncertainKeys \ keys.toFinset}) ⟨h.counted,h.waiting⟩ true keys

theorem Waited.release (h : Waited s) (owner : Owner) : Waited (s.release owner) := by
  cases owner with
  | sender i => exact Waited.setPhase (s := {s with lane := none}) ⟨h.counted,h.waiting⟩ i .waiting
  | timer => exact ⟨h.counted,h.waiting⟩
  | close => exact ⟨h.counted,h.waiting⟩

theorem Waited.nextRound {config : Config} (h : Waited s) (owner : Owner) (unresolved : List String)
    (round : ℕ) : Waited (s.nextRound config owner unresolved round) := by
  unfold Sink.nextRound
  split
  · exact h.release owner
  · split
    · exact ⟨h.counted,h.waiting⟩
    · exact (h.settle false unresolved).release owner

/-- An entry with one more waiter, where it has the key. -/
def join (key : String) (i : ℕ) (p : Pending) : Pending :=
  if p.key = key then {p with waiters := p.waiters++[i]} else p

theorem join_key (key : String) (i : ℕ) (p : Pending) : (join key i p).key = p.key := by
  unfold join
  split <;> rfl

theorem mem_join {i j : ℕ} {p : Pending} (h : j ∈ p.waiters) : j ∈ (join key i p).waiters := by
  unfold join
  split
  · exact List.mem_append_left _ h
  · exact h

theorem map_join_of_notMem {entries : List Pending} (h : key ∉ entries.map Pending.key) (i : ℕ) :
    entries.map (join key i) = entries := by
  conv_rhs => rw [← List.map_id entries]
  apply List.map_congr_left
  intro p hp
  have hne : p.key ≠ key := fun heq => h (heq ▸ List.mem_map_of_mem hp)
  exact if_neg hne

theorem sum_join {entries : List Pending} (hunique : (entries.map Pending.key).Nodup)
    (h : key ∈ entries.map Pending.key) (i : ℕ) :
    ((entries.map (join key i)).map fun p => p.waiters.length).sum =
      (entries.map fun p => p.waiters.length).sum+1 := by
  induction entries with
  | nil => cases h
  | cons p entries ih =>
    rw [List.map_cons,List.nodup_cons] at hunique
    simp only [List.map_cons,List.sum_cons]
    by_cases hkey : p.key = key
    · rw [map_join_of_notMem (by rw [← hkey]; exact hunique.1),join,if_pos hkey,List.length_append]
      simp only [List.length_singleton]
      omega
    · rw [join,if_neg hkey,ih hunique.2 ((List.mem_cons.mp h).resolve_left (Ne.symm hkey))]
      omega

theorem waiting_modify {senders : List Sender} {i j : ℕ} {phase : Phase} (hne : j ≠ i) :
    ((senders.modify i fun x => {x with phase := phase, waiter := some .waiting}).map
      Sender.waiter)[j]? = (senders.map Sender.waiter)[j]? := by
  rw [List.getElem?_map,List.getElem?_map,List.getElem?_modify_ne _ _ (Ne.symm hne)]

/-- What the last part of a send does: it joins the entry of its key or makes a new one. -/
structure Buffered (s : Sink) (i : ℕ) (key : String) (fields : FeishuInsert.Record) (phase : Phase)
    (s' : Sink) : Prop where
  senders : s'.senders = s.senders.modify i fun x =>
    {x with phase := phase, waiter := some .waiting}
  count : s'.inflightWaiterCount = s.inflightWaiterCount+1
  entries : key ∈ s.pendingByKey.map Pending.key ∧
      s'.pendingByKey = s.pendingByKey.map (join key i) ∧ s'.pendingOrder = s.pendingOrder ∨
    key ∉ s.pendingByKey.map Pending.key ∧
      s'.pendingByKey = s.pendingByKey++[⟨key,fields,[i],.buffered⟩] ∧
      s'.pendingOrder = s.pendingOrder++[key]
  lane : s'.lane = s.lane
  closing : s'.closing = s.closing
  timer : s.timer = some .flushing → s'.timer = some .flushing
  table : s'.table = s.table
  insertKeys : s'.insertKeys = s.insertKeys
  uncertainKeys : s'.uncertainKeys = s.uncertainKeys
  abandoned : s'.abandoned = s.abandoned
  phase : phase = .flushing ∨ phase = .waiting

theorem buffer_spec (config : Config) (s : Sink) (i : ℕ) (key : String) (fields : FeishuInsert.Record) :
    ∃ phase, Buffered s i key fields phase (s.buffer config i key fields) := by
  have hphase : ∀ b : Bool, (if b = true then Phase.flushing else .waiting) = .flushing ∨
      (if b = true then Phase.flushing else .waiting) = .waiting := by
    intro b
    cases b <;> simp
  have htimer : ∀ b : Bool, s.timer = some .flushing →
      (if !b && s.timer.isNone && !s.closed then some Timer.sleeping else s.timer) = some .flushing := by
    intro b htimer
    rw [htimer]
    simp
  cases hpending : s.pending? key with
  | some p =>
    have hmem : key ∈ s.pendingByKey.map Pending.key :=
      List.mem_map.mpr ⟨p,List.mem_of_find?_eq_some hpending,by simpa using List.find?_some hpending⟩
    refine ⟨if decide (config.batchSize ≤ s.pendingOrder.length) = true then .flushing else .waiting,
      ?_,?_,.inl ⟨hmem,?_,?_⟩,?_,?_,?_,?_,?_,?_,?_,hphase _⟩ <;>
      simp only [Sink.buffer,hpending]
    · rfl
    · exact htimer _
  | none =>
    have hmem : key ∉ s.pendingByKey.map Pending.key := by
      intro hin
      obtain ⟨p,hfind,-,-⟩ := find_of_mem hin
      rw [Sink.pending?,hfind] at hpending
      cases hpending
    refine ⟨if decide (config.batchSize ≤ (s.pendingOrder++[key]).length) = true then .flushing
      else .waiting,?_,?_,.inr ⟨hmem,?_,?_⟩,?_,?_,?_,?_,?_,?_,?_,hphase _⟩ <;>
      simp only [Sink.buffer,hpending]
    · exact htimer _

theorem Waited.buffered {i : ℕ} {fields : FeishuInsert.Record} {phase : Phase} (h : Waited s)
    (hunique : (s.pendingByKey.map Pending.key).Nodup) (hb : Buffered s i key fields phase s') :
    Waited s' := by
  have hcounted := h.counted
  have hothers : ∀ j, j ≠ i → (s'.senders.map Sender.waiter)[j]? = some (some .waiting) →
      ∃ ws ∈ s.pendingByKey.map Pending.waiters, j ∈ ws := by
    intro j hij hj
    rw [hb.senders,waiting_modify hij] at hj
    exact h.waiting j hj
  rcases hb.entries with ⟨hmem,hentries,-⟩ | ⟨-,hentries,-⟩
  · have hsum := sum_join hunique hmem i
    obtain ⟨p,-,hp,hkey⟩ := find_of_mem hmem
    refine ⟨?_,fun j hj => ?_⟩
    · rw [hb.count,hcounted,hentries]
      simp only [List.map_map,Function.comp_def] at hsum ⊢
      omega
    · rw [hentries]
      by_cases hij : j = i
      · refine ⟨_,List.mem_map_of_mem (List.mem_map_of_mem hp),?_⟩
        rw [join,if_pos hkey,hij]
        exact List.mem_append_right _ List.mem_cons_self
      · obtain ⟨ws,hws,hjws⟩ := hothers j hij hj
        obtain ⟨q,hq,rfl⟩ := List.mem_map.mp hws
        exact ⟨_,List.mem_map_of_mem (List.mem_map_of_mem hq),mem_join hjws⟩
  · refine ⟨?_,fun j hj => ?_⟩
    · rw [hb.count,hcounted,hentries]
      simp
    · rw [hentries,List.map_append]
      by_cases hij : j = i
      · exact ⟨[i],List.mem_append_right _ List.mem_cons_self,by rw [hij]; exact List.mem_cons_self⟩
      · obtain ⟨ws,hws,hjws⟩ := hothers j hij hj
        exact ⟨ws,List.mem_append_left _ hws,hjws⟩

end Waiters

section Steps
variable {calm : Prop} {s s' : Sink} {owner : Owner}

/-- The batch in work is with a live task. -/
structure Shaped (calm : Prop) (s : Sink) : Prop where
  shape : Shape calm s.pendingByKey s.pendingOrder (laneKeys s)
  live : ∀ l ∈ s.lane, s.wantsLane l.owner = true
  busy : ∀ l ∈ s.lane, writeKeys l.write ≠ []

theorem wantsLane_congr (hphases : s'.senders.map Sender.phase = s.senders.map Sender.phase)
    (htimer : s'.timer = s.timer) (hclosing : s'.closing = s.closing) (owner : Owner) :
    s'.wantsLane owner = s.wantsLane owner := by
  cases owner with
  | sender i =>
    have hphase := congrArg (fun l => l[i]?) hphases
    simp only [List.getElem?_map] at hphase
    have hany : ∀ o : Option Sender, (o.any fun x => x.phase = .flushing) =
        ((o.map Sender.phase).any fun phase => phase = .flushing) := by
      intro o
      cases o <;> rfl
    rw [Sink.wantsLane,Sink.wantsLane,hany,hany,hphase]
  | timer => rw [Sink.wantsLane,Sink.wantsLane,htimer]
  | close => rw [Sink.wantsLane,Sink.wantsLane,hclosing]

theorem settle_wantsLane (ok : Bool) (keys : List String) :
    (s.settle ok keys).wantsLane owner = s.wantsLane owner := by
  refine @wantsLane_congr s (s.settle ok keys) ?_ rfl rfl owner
  apply List.ext_getElem?
  intro i
  simp only [Sink.settle,List.getElem?_map,List.getElem?_mapIdx,Option.map_map]
  congr 1
  funext x
  simp only [Function.comp_apply]
  split <;> rfl

theorem confirm_wantsLane (keys : List String) :
    (s.confirm keys).wantsLane owner = s.wantsLane owner :=
  settle_wantsLane (s := {s with
    insertKeys := s.insertKeys ∪ keys.toFinset
    uncertainKeys := s.uncertainKeys \ keys.toFinset}) true keys

/-- Without a batch, the shape does not depend on who holds the lock. -/
theorem release_shaped (h : Shape calm s.pendingByKey s.pendingOrder []) (owner : Owner) :
    Shaped calm (s.release owner) := by
  cases owner <;> exact ⟨h,fun l hl => (by cases hl),fun l hl => (by cases hl)⟩

variable {unresolved : List String}

variable {round : ℕ}

theorem nextRound_shaped {config : Config} (h : Shape calm s.pendingByKey s.pendingOrder unresolved)
    (hlive : s.wantsLane owner = true) :
    Shaped calm (s.nextRound config owner unresolved round) := by
  unfold Sink.nextRound
  split
  · next hempty =>
      rw [List.isEmpty_iff] at hempty
      rw [hempty] at h
      exact release_shaped h owner
  · next hsome =>
      rw [List.isEmpty_iff] at hsome
      split
      · refine ⟨h,fun l hl => ?_,fun l hl => ?_⟩
        · cases hl
          rw [← hlive]
          exact wantsLane_congr rfl rfl rfl owner
        · cases hl
          exact hsome
      · exact release_shaped h.settleAll owner

variable {i : ℕ}

theorem modify_wantsLane {f : Sender → Sender} (hne : owner ≠ .sender i)
    (hsenders : s'.senders = s.senders.modify i f)
    (htimer : s.timer = some .flushing → s'.timer = some .flushing)
    (hclosing : s'.closing = s.closing) (h : s.wantsLane owner = true) :
    s'.wantsLane owner = true := by
  cases owner with
  | sender j =>
    have hij : i ≠ j := fun heq => hne (by rw [heq])
    rw [Sink.wantsLane,hsenders,List.getElem?_modify_ne _ _ hij]
    exact h
  | timer =>
    simp only [Sink.wantsLane,decide_eq_true_eq] at h ⊢
    exact htimer h
  | close =>
    rw [Sink.wantsLane,hclosing]
    exact h

theorem idle_owner (h : Shaped calm s) (hidle : s.wantsLane owner = false) :
    ∀ l ∈ s.lane, l.owner ≠ owner := by
  intro l hl heq
  have hlive := h.live l hl
  rw [heq,hidle] at hlive
  cases hlive

theorem modify_shaped (h : Shaped calm s) {f : Sender → Sender}
    (howner : ∀ l ∈ s.lane, l.owner ≠ .sender i) :
    Shaped calm {s with senders := s.senders.modify i f} :=
  ⟨h.shape,fun l hl => modify_wantsLane (howner l hl) rfl id rfl (h.live l hl),h.busy⟩

theorem buffered_shaped {key : String} {fields : FeishuInsert.Record} {phase : Phase}
    (h : Shaped calm s) (hidle : s.wantsLane (.sender i) = false)
    (hb : Buffered s i key fields phase s') : Shaped calm s' := by
  have hkeys : laneKeys s' = laneKeys s := by rw [laneKeys,hb.lane]; rfl
  refine ⟨?_,fun l hl => ?_,by rw [hb.lane]; exact h.busy⟩
  · rw [hkeys]
    have hshape := h.shape
    rcases hb.entries with ⟨-,hentries,horder⟩ | ⟨hnew,hentries,horder⟩
    · have hmap : (s.pendingByKey.map (join key i)).map Pending.key = s.pendingByKey.map Pending.key := by
        rw [List.map_map]
        exact List.map_congr_left fun p _ => join_key key i p
      rw [hentries,horder]
      refine ⟨by rw [hmap]; exact hshape.unique,hshape.claimed,by rw [hmap]; exact hshape.pending,?_,?_⟩
      · intro p hp hin
        obtain ⟨p₀,hp₀,rfl⟩ := List.mem_map.mp hp
        rw [join_key] at hin
        have hstate := hshape.buffered p₀ hp₀ hin
        unfold join
        split <;> exact hstate
      · intro hcalm p hp
        obtain ⟨p₀,hp₀,rfl⟩ := List.mem_map.mp hp
        rw [join_key]
        exact hshape.covered hcalm p₀ hp₀
    · have hfresh : key ∉ s.pendingOrder++laneKeys s := fun hin => hnew (hshape.pending key hin)
      have hperm : (s.pendingOrder++[key]++laneKeys s).Perm (key::(s.pendingOrder++laneKeys s)) := by
        rw [List.append_assoc,List.singleton_append]
        exact List.perm_middle
      rw [hentries,horder]
      refine ⟨?_,hperm.nodup_iff.mpr (List.nodup_cons.mpr ⟨hfresh,hshape.claimed⟩),?_,?_,?_⟩
      · rw [List.map_append,List.nodup_append]
        refine ⟨hshape.unique,by simp,fun k hk k' hk' heq => hnew ?_⟩
        have hkey : k' = key := by simpa using hk'
        rw [← hkey,← heq]
        exact hk
      · intro k hk
        rw [List.map_append]
        rcases List.mem_cons.mp (hperm.mem_iff.mp hk) with rfl | hk
        · exact List.mem_append_right _ (by simp)
        · exact List.mem_append_left _ (hshape.pending k hk)
      · intro p hp hin
        rcases List.mem_append.mp hp with hp | hp
        · rcases List.mem_append.mp hin with hin | hin
          · exact hshape.buffered p hp hin
          · rw [List.mem_singleton] at hin
            exact absurd (hin ▸ List.mem_map_of_mem hp) hnew
        · rw [List.mem_singleton.mp hp]
      · intro hcalm p hp
        rw [hperm.mem_iff]
        rcases List.mem_append.mp hp with hp | hp
        · exact List.mem_cons_of_mem _ (hshape.covered hcalm p hp)
        · rw [List.mem_singleton.mp hp]
          exact List.mem_cons_self
  · rw [hb.lane] at hl
    exact modify_wantsLane (idle_owner h hidle l hl) hb.senders hb.timer hb.closing (h.live l hl)

variable {x : Sender}

theorem phase_idle (hx : s.senders[i]? = some x) (hphase : x.phase ≠ .flushing) :
    s.wantsLane (.sender i) = false := by
  rw [Sink.wantsLane,hx]
  simpa using hphase

theorem joined_shaped (h : Shaped calm s) (x : Sender) :
    Shaped calm {s with senders := s.senders++[x]} := by
  refine ⟨h.shape,fun l hl => ?_,h.busy⟩
  have hlive := h.live l hl
  cases howner : l.owner with
  | sender i =>
    rw [howner] at hlive
    simp only [Sink.wantsLane] at hlive ⊢
    obtain ⟨y,hy⟩ : ∃ y, s.senders[i]? = some y := by
      cases hi : s.senders[i]? with
      | none =>
        rw [hi] at hlive
        cases hlive
      | some y => exact ⟨y,rfl⟩
    rw [List.getElem?_append_left (List.getElem?_eq_some_iff.mp hy).1]
    exact hlive
  | timer =>
    rw [howner] at hlive
    exact hlive
  | close =>
    rw [howner] at hlive
    exact hlive

theorem joined_waited (h : Waited s) (hx : x.waiter = none) :
    Waited {s with senders := s.senders++[x]} := by
  refine ⟨h.counted,fun i hi => ?_⟩
  rw [List.map_append,List.getElem?_append] at hi
  split at hi
  · exact h.waiting i hi
  · rw [List.map_cons,List.map_nil,List.getElem?_singleton,hx] at hi
    split at hi <;> cases hi

/-- The state stays sound. -/
structure Sound (calm : Prop) (s : Sink) : Prop where
  shaped : Shaped calm s
  waited : Waited s

variable {config : Config} {answers : List (String × Lookup)} (answer : Lookup)

theorem send_sound (h : Sound calm s) (fields : FeishuInsert.Record) : Sound calm (s.send config fields) := by
  unfold Sink.send
  split
  · exact h
  split
  · exact h
  · next key _ =>
      split
      · exact ⟨joined_shaped h.shaped _,joined_waited h.waited rfl⟩
      split
      · exact ⟨joined_shaped h.shaped _,joined_waited h.waited rfl⟩
      · have hjoined : Sound calm {s with senders := s.senders++[⟨key,fields,.waiting,none⟩]} :=
          ⟨joined_shaped h.shaped _,joined_waited h.waited rfl⟩
        obtain ⟨phase,hb⟩ := buffer_spec config
          {s with senders := s.senders++[⟨key,fields,.waiting,none⟩]} s.senders.length key fields
        refine ⟨buffered_shaped hjoined.shaped ?_ hb,hjoined.waited.buffered hjoined.shaped.shape.unique hb⟩
        exact phase_idle (x := ⟨key,fields,.waiting,none⟩) (by simp) (by simp)

theorem setPhase_sound (h : Sound calm s) (hidle : s.wantsLane (.sender i) = false) (phase : Phase) :
    Sound calm (s.setPhase i phase) :=
  ⟨modify_shaped h.shaped (idle_owner h.shaped hidle),h.waited.setPhase i phase⟩

theorem reconciled_sound (h : Sound calm s) (hidle : s.wantsLane (.sender i) = false) (x : Sender)
    (answer : Lookup) : Sound calm (s.reconciled config i x answer) := by
  cases answer with
  | faulty fault => exact setPhase_sound h hidle .raised
  | matched count =>
    have hlearnt : Sound calm (s.learn x.key count) :=
      ⟨⟨h.shaped.shape,h.shaped.live,h.shaped.busy⟩,⟨h.waited.counted,h.waited.waiting⟩⟩
    simp only [Sink.reconciled]
    split
    · exact setPhase_sound h hidle .raised
    · split
      · exact setPhase_sound hlearnt hidle .returned
      · obtain ⟨phase,hb⟩ := buffer_spec config (s.learn x.key count) i x.key x.fields
        exact ⟨buffered_shaped hlearnt.shaped hidle hb,
          hlearnt.waited.buffered h.shaped.shape.unique hb⟩

theorem acquire_sound (h : Sound calm s) (hfree : s.lane = none) (hwants : s.wantsLane owner = true) :
    Sound calm (s.acquire config owner) := by
  have hkeys : laneKeys s = [] := by rw [laneKeys,hfree]
  have hshape := h.shaped.shape
  rw [hkeys] at hshape
  obtain ⟨hsealed,-,hwaiters⟩ := hshape.seal config.batchSize
  rw [List.nil_append] at hsealed
  have hwaited : Waited {s with
      pendingOrder := (sealBatch config.batchSize s.pendingOrder s.pendingByKey).2.1
      pendingByKey := (sealBatch config.batchSize s.pendingOrder s.pendingByKey).2.2} :=
    h.waited.congr rfl hwaiters rfl
  unfold Sink.acquire
  dsimp only
  split
  · next hempty =>
      rw [List.isEmpty_iff] at hempty
      rw [hempty] at hsealed
      exact ⟨release_shaped hsealed owner,hwaited.release owner⟩
  · next hsome =>
      rw [List.isEmpty_iff] at hsome
      refine ⟨⟨hsealed,fun l hl => ?_,fun l hl => ?_⟩,⟨hwaited.counted,hwaited.waiting⟩⟩
      · cases hl
        rw [← hwants]
        exact wantsLane_congr rfl rfl rfl owner
      · cases hl
        exact hsome

theorem nextRound_sound (hwaited : Waited s)
    (h : Shape calm s.pendingByKey s.pendingOrder unresolved) (hlive : s.wantsLane owner = true) :
    Sound calm (s.nextRound config owner unresolved round) :=
  ⟨nextRound_shaped h hlive,hwaited.nextRound owner unresolved round⟩

theorem recover_sound {batch : List String} (hwaited : Waited s)
    (h : Shape calm s.pendingByKey s.pendingOrder batch) (hlive : s.wantsLane owner = true) :
    Sound calm (s.recover config owner batch) := by
  have hmarked := hwaited.setStates batch .recovering
  exact nextRound_sound ⟨hmarked.counted,hmarked.waiting⟩ (h.states (List.Subset.refl batch))
    (by rw [← hlive]; exact wantsLane_congr rfl rfl rfl owner)

theorem respond_sound (h : Sound calm s) {write : Write} (hlane : s.lane = some ⟨owner,write⟩)
    (hbusy : ∀ unresolved answers round, write ≠ .looking unresolved answers round) (reply : Reply) :
    Sound calm (s.respond config owner reply write) := by
  have hshape := h.shaped.shape
  have hlive : s.wantsLane owner = true := h.shaped.live ⟨owner,write⟩ (by rw [hlane]; rfl)
  simp only [laneKeys,hlane] at hshape
  cases write with
  | looking unresolved answers round => exact absurd rfl (hbusy unresolved answers round)
  | creating batch committed =>
    simp only [Sink.respond]
    split
    · exact ⟨release_shaped hshape.settleAll owner,(h.waited.confirm batch).release owner⟩
    · exact ⟨release_shaped hshape.settleAll owner,(h.waited.settle false batch).release owner⟩
    · exact recover_sound h.waited hshape hlive
  | recreating missing lookupFailed committed round =>
    have hnodup := (List.nodup_append.mp hshape.claimed).2.1
    obtain ⟨hfailed,-,hcross⟩ := List.nodup_append.mp hnodup
    have hsettled : Shape calm (s.pendingByKey.filter fun p => p.key ∉ missing) s.pendingOrder
        lookupFailed := by
      refine hshape.settle hfailed (fun k => ?_) (fun k hk hin => hcross k hin k hk rfl)
      rw [writeKeys,List.mem_append,or_comm]
    simp only [Sink.respond]
    split
    · exact nextRound_sound (h.waited.confirm missing) hsettled
        (by rw [confirm_wantsLane]; exact hlive)
    · exact nextRound_sound (h.waited.settle false missing) hsettled
        (by rw [settle_wantsLane]; exact hlive)
    · exact nextRound_sound h.waited hshape hlive

theorem answered_kinds (hall : ∀ k ∈ unresolved, (answers.lookup k).isSome = true) (k : String) :
    k ∈ unresolved ↔ k ∈ answered unresolved answers isBroken ∨ k ∈ answered unresolved answers isFound ∨
      k ∈ answered unresolved answers isMissing ∨ k ∈ answered unresolved answers isFailed := by
  simp only [answered,List.mem_filter,← and_or_left]
  refine ⟨fun hk => ⟨hk,?_⟩,And.left⟩
  obtain ⟨answer,hanswer⟩ := Option.isSome_iff_exists.mp (hall k hk)
  rw [hanswer]
  cases answer with
  | matched count =>
    simp only [Option.any_some,isBroken,isFound,isMissing,isFailed,decide_eq_true_eq]
    omega
  | faulty fault => cases fault <;> simp [isBroken,isFailed]

theorem mem_answered {p : Lookup → Bool} {k : String} : k ∈ answered unresolved answers p ↔
      k ∈ unresolved ∧ ∃ answer, answers.lookup k = some answer ∧ p answer = true := by
  rw [answered,List.mem_filter]
  cases answers.lookup k <;> simp

theorem answered_apart {p q : Lookup → Bool} (h : ∀ answer, p answer = true → q answer = false)
    {k : String} (hk : k ∈ answered unresolved answers p) : k ∉ answered unresolved answers q := by
  intro hin
  obtain ⟨-,answer,hanswer,hp⟩ := mem_answered.mp hk
  obtain ⟨-,other,hother,hq⟩ := mem_answered.mp hin
  rw [hanswer] at hother
  cases hother
  rw [h answer hp] at hq
  cases hq

theorem found_not_failed (h : isFound answer = true) : isFailed answer = false := by
  cases answer with
  | matched count => rfl
  | faulty fault => cases h

theorem found_not_missing (h : isFound answer = true) : isMissing answer = false := by
  cases answer with
  | matched count =>
    simp only [isFound,isMissing,decide_eq_true_eq,decide_eq_false_iff_not] at h ⊢
    omega
  | faulty fault => cases h

theorem missing_not_failed (h : isMissing answer = true) : isFailed answer = false := by
  cases answer with
  | matched count => rfl
  | faulty fault => cases h

theorem broken_not_others (h : isBroken answer = true) :
    isFound answer = false ∧ isMissing answer = false ∧ isFailed answer = false := by
  cases answer with
  | matched count =>
    simp only [isBroken,decide_eq_true_eq] at h
    exact ⟨decide_eq_false (by omega),decide_eq_false (by omega),rfl⟩
  | faulty fault =>
    cases fault with
    | malformed => exact ⟨rfl,rfl,rfl⟩
    | failed => cases h

/-- After a search, what is missing or could not be searched is left. -/
theorem lookedUp_shape (h : Shape calm s.pendingByKey s.pendingOrder unresolved)
    (hall : ∀ k ∈ unresolved, (answers.lookup k).isSome = true) :
    Shape calm ((s.settle false (answered unresolved answers isBroken)).confirm
      (answered unresolved answers isFound)).pendingByKey s.pendingOrder
      (answered unresolved answers isFailed++answered unresolved answers isMissing) := by
  have hunresolved := (List.nodup_append.mp h.claimed).2.1
  have hnodup : ∀ p, (answered unresolved answers p).Nodup := fun p => hunresolved.filter _
  have hleft : (answered unresolved answers isFailed++answered unresolved answers isMissing).Nodup := by
    refine List.nodup_append.mpr ⟨hnodup _,hnodup _,fun k hk k' hk' heq => ?_⟩
    rw [← heq] at hk'
    exact answered_apart missing_not_failed hk' hk
  have hfound : ∀ k ∈ answered unresolved answers isFound,
      k ∉ answered unresolved answers isFailed++answered unresolved answers isMissing := by
    intro k hk hin
    rcases List.mem_append.mp hin with hin | hin
    · exact answered_apart found_not_failed hk hin
    · exact answered_apart found_not_missing hk hin
  have hfirst : Shape calm (s.settle false (answered unresolved answers isBroken)).pendingByKey
      s.pendingOrder (answered unresolved answers isFound++
        (answered unresolved answers isFailed++answered unresolved answers isMissing)) := by
    refine h.settle ?_ (fun k => ?_) (fun k hk hin => ?_)
    · exact List.nodup_append.mpr ⟨hnodup _,hleft,fun k hk k' hk' heq => hfound k hk (heq ▸ hk')⟩
    · rw [answered_kinds hall k,List.mem_append,List.mem_append]
      tauto
    · rcases List.mem_append.mp hin with hin | hin
      · exact answered_apart (fun a ha => (broken_not_others a ha).1) hk hin
      · rcases List.mem_append.mp hin with hin | hin
        · exact answered_apart (fun a ha => (broken_not_others a ha).2.2) hk hin
        · exact answered_apart (fun a ha => (broken_not_others a ha).2.1) hk hin
  exact hfirst.settle hleft (fun k => List.mem_append) hfound

theorem lookedUp_sound (h : Sound calm s)
    (hlane : s.lane = some ⟨owner,.looking unresolved answers round⟩)
    (hall : ∀ k ∈ unresolved, (answers.lookup k).isSome = true) :
    Sound calm (s.lookedUp config owner unresolved answers round) := by
  have hshape := h.shaped.shape
  have hlive : s.wantsLane owner = true :=
    h.shaped.live ⟨owner,.looking unresolved answers round⟩ (by rw [hlane]; rfl)
  simp only [laneKeys,hlane,writeKeys] at hshape
  have hleft := lookedUp_shape hshape hall
  have hwaited := (h.waited.settle false (answered unresolved answers isBroken)).confirm
    (answered unresolved answers isFound)
  have hstill : ((s.settle false (answered unresolved answers isBroken)).confirm
      (answered unresolved answers isFound)).wantsLane owner = true := by
    rw [confirm_wantsLane,settle_wantsLane]
    exact hlive
  unfold Sink.lookedUp
  dsimp only
  split
  · next hempty =>
      rw [List.isEmpty_iff] at hempty
      rw [hempty,List.append_nil] at hleft
      exact nextRound_sound hwaited hleft hstill
  · next hsome =>
      rw [List.isEmpty_iff] at hsome
      have hmarked := hwaited.setStates (answered unresolved answers isMissing) .writing
      refine ⟨⟨hleft.states (List.subset_append_right _ _),fun l hl => ?_,fun l hl => ?_⟩,
        ⟨hmarked.counted,hmarked.waiting⟩⟩
      · cases hl
        rw [← hstill]
        exact wantsLane_congr rfl rfl rfl owner
      · cases hl
        exact List.append_ne_nil_of_right_ne_nil _ hsome

theorem abandon_sound (h : Sound calm s) (owner : Owner) :
    Sound (calm ∧ ¬∃ l ∈ s.lane, l.owner = owner) (s.abandon owner) ∧
      ∀ l ∈ (s.abandon owner).lane, l.owner ≠ owner := by
  have hshape := h.shaped.shape
  unfold Sink.abandon
  split
  · next holder write hlane =>
      split
      · next hholder =>
          have hclaimed := (List.nodup_append.mp hshape.claimed).1
          refine ⟨⟨⟨⟨hshape.unique,?_,?_,hshape.buffered,?_⟩,fun l hl => (by cases hl),
            fun l hl => (by cases hl)⟩,⟨h.waited.counted,h.waited.waiting⟩⟩,fun l hl => (by cases hl)⟩
          · simpa [laneKeys] using hclaimed
          · intro k hk
            simp only [laneKeys,List.append_nil] at hk
            exact hshape.pending k (List.mem_append_left _ hk)
          · intro hcalm
            refine absurd ⟨⟨holder,write⟩,?_,hholder⟩ hcalm.2
            rw [hlane]
            rfl
      · next hother =>
          refine ⟨⟨⟨hshape.mono And.left,h.shaped.live,h.shaped.busy⟩,h.waited⟩,fun l hl heq => ?_⟩
          rw [hlane] at hl
          cases hl
          exact hother heq
  · next hfree =>
      refine ⟨⟨⟨hshape.mono And.left,h.shaped.live,h.shaped.busy⟩,h.waited⟩,fun l hl => ?_⟩
      rw [hfree] at hl
      cases hl

theorem timer_wantsLane {timer : Option Timer} (h : s.wantsLane owner = true)
    (htimer : owner = .timer → timer = some .flushing) :
    ({s with timer := timer} : Sink).wantsLane owner = true := by
  cases owner with
  | timer => exact decide_eq_true (htimer rfl)
  | sender i => exact h
  | close => exact h

theorem closing_wantsLane {closed : Bool} (h : s.wantsLane owner = true) :
    ({s with closed := closed, closing := .flushing} : Sink).wantsLane owner = true := by
  cases owner with
  | timer => exact h
  | sender i => exact h
  | close => rfl

theorem timerFires_sound (h : Sound calm s) : Sound calm {s with timer := some .flushing} :=
  ⟨⟨h.shaped.shape,fun l hl => timer_wantsLane (h.shaped.live l hl) fun _ => rfl,h.shaped.busy⟩,
    ⟨h.waited.counted,h.waited.waiting⟩⟩

theorem cancelTimer_sound (h : Sound calm s) :
    Sound (calm ∧ ¬∃ l ∈ s.lane, l.owner = .timer) s.cancelTimer := by
  obtain ⟨hsound,howner⟩ := abandon_sound h .timer
  refine ⟨⟨hsound.shaped.shape,fun l hl => ?_,hsound.shaped.busy⟩,
    ⟨hsound.waited.counted,hsound.waited.waiting⟩⟩
  exact timer_wantsLane (hsound.shaped.live l hl) fun heq => absurd heq (howner l hl)

theorem close_sound (h : Sound calm s) :
    Sound (calm ∧ ¬∃ l ∈ s.lane, l.owner = .timer)
      {s.cancelTimer with closed := true, closing := .flushing} := by
  have hsound := cancelTimer_sound h
  exact ⟨⟨hsound.shaped.shape,fun l hl => closing_wantsLane (hsound.shaped.live l hl),
    hsound.shaped.busy⟩,⟨hsound.waited.counted,hsound.waited.waiting⟩⟩

theorem cancelled_waited (h : Waited s) (i : ℕ) : Waited {s with senders := s.senders.modify i fun x =>
    {x with
      phase := .cancelled
      waiter := x.waiter.map fun w => match w with
        | .waiting => .cancelled
        | done => done}} := by
  refine ⟨h.counted,fun j hj => ?_⟩
  by_cases hij : i = j
  · rw [hij,List.getElem?_map,List.getElem?_modify_eq] at hj
    cases hx : s.senders[j]? with
    | none =>
      rw [hx] at hj
      cases hj
    | some x =>
      rw [hx] at hj
      cases hwaiter : x.waiter with
      | none => simp [hwaiter] at hj
      | some w => cases w <;> simp [hwaiter] at hj
  · rw [List.getElem?_map,List.getElem?_modify_ne _ _ hij,← List.getElem?_map] at hj
    exact h.waiting j hj

theorem cancelSender_sound (h : Sound calm s) (hx : s.senders[i]? = some x)
    (hcancel : s.cancelSender i x = some s') :
    Sound (calm ∧ ¬∃ l ∈ s.lane, l.owner = .sender i) s' := by
  unfold Sink.cancelSender at hcancel
  have hmono : ∀ t, Sound calm t → Sound (calm ∧ ¬∃ l ∈ s.lane, l.owner = .sender i) t := fun t ht =>
    ⟨⟨ht.shaped.shape.mono And.left,ht.shaped.live,ht.shaped.busy⟩,ht.waited⟩
  split at hcancel
  · next answer hphase =>
      cases hcancel
      exact hmono _ (setPhase_sound h (phase_idle hx (by rw [hphase]; simp)) .cancelled)
  · cases hcancel
    obtain ⟨hsound,howner⟩ := abandon_sound h (.sender i)
    exact ⟨modify_shaped hsound.shaped howner,hsound.waited.setPhase i .cancelled⟩
  · next hphase =>
      cases hcancel
      refine hmono _ ⟨modify_shaped h.shaped (idle_owner h.shaped (phase_idle hx ?_)),
        cancelled_waited h.waited i⟩
      rw [hphase]
      simp
  · cases hcancel

theorem Sound.mono {still : Prop} (h : Sound calm s) (hstill : still → calm) : Sound still s :=
  ⟨⟨h.shaped.shape.mono hstill,h.shaped.live,h.shaped.busy⟩,h.waited⟩

theorem Sound.tables (h : Sound calm s) (table : List FeishuInsert.Record)
    (abandoned : List (List FeishuInsert.Record)) :
    Sound calm {s with table := table, abandoned := abandoned} :=
  ⟨⟨h.shaped.shape,h.shaped.live,h.shaped.busy⟩,⟨h.waited.counted,h.waited.waiting⟩⟩

theorem Sound.lane {lane : Option Lane} {table : List FeishuInsert.Record} (h : Sound calm s)
    (howner : lane.map Lane.owner = s.lane.map Lane.owner)
    (hkeys : lane.map (fun l => writeKeys l.write) = s.lane.map fun l => writeKeys l.write) :
    Sound calm {s with lane := lane, table := table} := by
  have hsame : laneKeys {s with lane := lane, table := table} = laneKeys s := by
    cases hl : lane with
    | none =>
      rw [hl,eq_comm,Option.map_none,Option.map_eq_none_iff] at hkeys
      simp only [laneKeys,hkeys]
    | some l =>
      rw [hl,eq_comm,Option.map_some,Option.map_eq_some_iff] at hkeys
      obtain ⟨l₀,hl₀,hwrite⟩ := hkeys
      simp only [laneKeys,hl₀,hwrite]
  refine ⟨⟨?_,fun l hl => ?_,fun l hl => ?_⟩,⟨h.waited.counted,h.waited.waiting⟩⟩
  · rw [hsame]
    exact h.shaped.shape
  · have hin : l.owner ∈ s.lane.map Lane.owner := howner ▸ Option.mem_map_of_mem _ hl
    obtain ⟨l₀,hl₀,heq⟩ := Option.mem_map.mp hin
    rw [← heq,← h.shaped.live l₀ hl₀]
    exact wantsLane_congr rfl rfl rfl _
  · have hin : writeKeys l.write ∈ s.lane.map fun l => writeKeys l.write :=
      hkeys ▸ Option.mem_map_of_mem _ hl
    obtain ⟨l₀,hl₀,heq⟩ := Option.mem_map.mp hin
    rw [← heq]
    exact h.shaped.busy l₀ hl₀

theorem commit_sound (h : Sound calm s) {write : Write} (hlane : s.lane = some ⟨owner,write⟩)
    (hcommit : s.commit owner write = some s') : Sound calm s' := by
  unfold Sink.commit at hcommit
  split at hcommit
  · cases hcommit
    exact h.lane (by rw [hlane]; rfl) (by rw [hlane]; rfl)
  · cases hcommit
    exact h.lane (by rw [hlane]; rfl) (by rw [hlane]; rfl)
  · cases hcommit

/-- What an operation does, where it can be done. -/
inductive Does (config : Config) (s : Sink) : Op → Sink → Prop
  | send (fields : FeishuInsert.Record) : Does config s (.send fields) (s.send config fields)
  | reconcileLookup {i : ℕ} {x : Sender} (fault : Option Fault) :
      s.senders[i]? = some x → x.phase = .reconciling none → Does config s (.reconcileLookup i fault)
        (s.setPhase i (.reconciling (some (s.search config x.key fault))))
  | reconciled {i : ℕ} {x : Sender} {answer : Lookup} :
      s.senders[i]? = some x → x.phase = .reconciling (some answer) →
        Does config s (.reconciled i) (s.reconciled config i x answer)
  | wake {i : ℕ} {x : Sender} {ok : Bool} :
      s.senders[i]? = some x → x.phase = .waiting → x.waiter = some (.done ok) →
        Does config s (.wake i) (s.setPhase i (if ok then .returned else .raised))
  | timerFires : s.timer = some .sleeping →
      Does config s .timerFires {s with timer := some .flushing}
  | acquire {owner : Owner} : s.lane = none → s.wantsLane owner = true →
      Does config s (.acquire owner) (s.acquire config owner)
  | commit {owner : Owner} {write : Write} {s' : Sink} :
      s.lane = some ⟨owner,write⟩ → s.commit owner write = some s' → Does config s .commit s'
  | respond {owner : Owner} {write : Write} (reply : Reply) :
      s.lane = some ⟨owner,write⟩ →
      (∀ unresolved answers round, write ≠ .looking unresolved answers round) →
        Does config s (.respond reply) (s.respond config owner reply write)
  | lookUp {owner : Owner} {unresolved : List String} {answers : List (String × Lookup)} {round : ℕ}
      {key : String} (fault : Option Fault) :
      s.lane = some ⟨owner,.looking unresolved answers round⟩ → key ∈ unresolved →
        answers.lookup key = none → Does config s (.lookUp key fault) {s with
          lane := some ⟨owner,.looking unresolved ((key,s.search config key fault)::answers) round⟩}
  | lookedUp {owner : Owner} {unresolved : List String} {answers : List (String × Lookup)} {round : ℕ} :
      s.lane = some ⟨owner,.looking unresolved answers round⟩ →
      (∀ k ∈ unresolved, (answers.lookup k).isSome = true) →
        Does config s .lookedUp (s.lookedUp config owner unresolved answers round)
  | close : s.closing ≠ .flushing →
      Does config s .close {s.cancelTimer with closed := true, closing := .flushing}
  | cancelSender {i : ℕ} {x : Sender} {s' : Sink} :
      s.senders[i]? = some x → s.cancelSender i x = some s' → Does config s (.cancelSender i) s'
  | cancelTimer : Does config s .cancelTimer s.cancelTimer
  | lateCommit {i : ℕ} {records : List FeishuInsert.Record} :
      s.abandoned[i]? = some records → Does config s (.lateCommit i)
        {s with table := s.table++records, abandoned := s.abandoned.eraseIdx i}

theorem perform_does {op : Op} (h : s.perform config op = some s') : Does config s op s' := by
  cases op with
  | send fields =>
    cases h
    exact .send fields
  | reconcileLookup i fault =>
    simp only [Sink.perform] at h
    split at h
    · next key fields waiter hx =>
        cases h
        exact .reconcileLookup fault hx rfl
    · cases h
  | reconciled i =>
    simp only [Sink.perform] at h
    split at h
    · next key fields answer waiter hx =>
        cases h
        exact .reconciled hx rfl
    · cases h
  | wake i =>
    simp only [Sink.perform] at h
    split at h
    · next key fields ok hx =>
        cases h
        exact .wake hx rfl rfl
    · cases h
  | timerFires =>
    simp only [Sink.perform] at h
    split at h
    · next htimer =>
        cases h
        exact .timerFires htimer
    · cases h
  | acquire owner =>
    simp only [Sink.perform] at h
    split at h
    · next hfree =>
        rw [Bool.and_eq_true,Option.isNone_iff_eq_none] at hfree
        cases h
        exact .acquire hfree.1 hfree.2
    · cases h
  | commit =>
    obtain ⟨l,hlane,hcommit⟩ := Option.bind_eq_some_iff.mp h
    exact .commit hlane hcommit
  | respond reply =>
    simp only [Sink.perform] at h
    split at h
    · cases h
    · next owner write hbusy hlane =>
        cases h
        exact .respond reply hlane hbusy
    · cases h
  | lookUp key fault =>
    simp only [Sink.perform] at h
    split at h
    · next owner unresolved answers round hlane =>
        split at h
        · next hopen =>
            rw [Bool.and_eq_true,Option.isNone_iff_eq_none,List.contains_iff_mem] at hopen
            cases h
            exact .lookUp fault hlane hopen.1 hopen.2
        · cases h
    · cases h
  | lookedUp =>
    simp only [Sink.perform] at h
    split at h
    · next owner unresolved answers round hlane =>
        split at h
        · next hall =>
            rw [List.all_eq_true] at hall
            cases h
            exact .lookedUp hlane hall
        · cases h
    · cases h
  | close =>
    simp only [Sink.perform] at h
    split at h
    · cases h
    · next hopen =>
        cases h
        exact .close hopen
  | cancelSender i =>
    obtain ⟨x,hx,hcancel⟩ := Option.bind_eq_some_iff.mp h
    exact .cancelSender hx hcancel
  | cancelTimer =>
    simp only [Sink.perform] at h
    split at h
    · cases h
      exact .cancelTimer
    · cases h
  | lateCommit i =>
    simp only [Sink.perform] at h
    split at h
    · next records habandoned =>
        cases h
        exact .lateCommit habandoned
    · cases h

/-- The task that holds the flush lock is cancelled. -/
def interrupts (s : Sink) (op : Op) : Prop :=
  ∃ l ∈ s.lane, match op with
    | .cancelSender i => l.owner = .sender i
    | .cancelTimer => l.owner = .timer
    | .close => l.owner = .timer
    | _ => False

theorem does_sound {op : Op} (h : Sound calm s) (hdoes : Does config s op s') :
    Sound (calm ∧ ¬interrupts s op) s' := by
  cases hdoes with
  | send fields => exact (send_sound h fields).mono And.left
  | reconcileLookup fault hx hphase =>
    exact (setPhase_sound h (phase_idle hx (by rw [hphase]; simp)) _).mono And.left
  | reconciled hx hphase =>
    exact (reconciled_sound h (phase_idle hx (by rw [hphase]; simp)) _ _).mono And.left
  | wake hx hphase hwaiter =>
    exact (setPhase_sound h (phase_idle hx (by rw [hphase]; simp)) _).mono And.left
  | timerFires htimer => exact (timerFires_sound h).mono And.left
  | acquire hfree hwants => exact (acquire_sound h hfree hwants).mono And.left
  | commit hlane hcommit => exact (commit_sound h hlane hcommit).mono And.left
  | respond reply hlane hbusy => exact (respond_sound h hlane hbusy reply).mono And.left
  | lookUp fault hlane hkey hopen =>
    exact (h.lane (by rw [hlane]; rfl) (by rw [hlane]; rfl)).mono And.left
  | lookedUp hlane hall => exact (lookedUp_sound h hlane hall).mono And.left
  | close hopen => exact close_sound h
  | cancelSender hx hcancel => exact cancelSender_sound h hx hcancel
  | cancelTimer => exact cancelTimer_sound h
  | lateCommit habandoned => exact (h.tables _ _).mono And.left

end Steps

section Closing
variable {calm : Prop} {s s' : Sink} {config : Config} {owner : Owner}

/-- `close` is over: it has returned, or raised for entries that are left. -/
def Ended (s : Sink) : Prop := s.pendingOrder = [] ∧ s.lane = none ∧
  s.closing = if s.pendingByKey.isEmpty then .returned else .raised

def Closes (s s' : Sink) : Prop := s'.closing = s.closing ∨ s'.closing = .flushing ∨ Ended s'

theorem Closes.through {t : Sink} (u : Sink) (h : u.closing = s.closing) (hcloses : Closes u t) :
    Closes s t := by
  unfold Closes
  rw [← h]
  exact hcloses

theorem release_closes (s : Sink) (owner : Owner) : Closes s (s.release owner) := by
  cases owner with
  | sender i => exact .inl rfl
  | timer => exact .inl rfl
  | close =>
    by_cases horder : s.pendingOrder.isEmpty = true
    · refine .inr (.inr ⟨List.isEmpty_iff.mp horder,rfl,?_⟩)
      simp only [Sink.release,Sink.closeRound,horder,Bool.not_true,Bool.false_eq_true,if_false]
    · refine .inr (.inl ?_)
      simp only [Sink.release,Sink.closeRound,Bool.not_eq_true',horder,if_true]

theorem nextRound_closes (s : Sink) (owner : Owner) (unresolved : List String) (round : ℕ) :
    Closes s (s.nextRound config owner unresolved round) := by
  unfold Sink.nextRound
  split
  · exact release_closes s owner
  · split
    · exact .inl rfl
    · exact .through (s.settle false unresolved) rfl (release_closes _ owner)

theorem buffer_closing (config : Config) (s : Sink) (i : ℕ) (key : String) (fields : FeishuInsert.Record) :
    (s.buffer config i key fields).closing = s.closing :=
  (buffer_spec config s i key fields).choose_spec.closing

theorem respond_closes (s : Sink) (owner : Owner) (reply : Reply) (write : Write) :
    Closes s (s.respond config owner reply write) := by
  cases write with
  | looking unresolved answers round => exact .inl rfl
  | creating batch committed =>
    simp only [Sink.respond]
    split
    · exact .through (s.confirm batch) rfl (release_closes _ owner)
    · exact .through (s.settle false batch) rfl (release_closes _ owner)
    · exact .through {s.setStates batch .recovering with
        uncertainKeys := s.uncertainKeys ∪ batch.toFinset} rfl (nextRound_closes _ owner _ _)
  | recreating missing lookupFailed committed round =>
    simp only [Sink.respond]
    split
    · exact .through (s.confirm missing) rfl (nextRound_closes _ owner _ _)
    · exact .through (s.settle false missing) rfl (nextRound_closes _ owner _ _)
    · exact nextRound_closes s owner _ _

theorem abandon_closing (s : Sink) (owner : Owner) : (s.abandon owner).closing = s.closing := by
  unfold Sink.abandon
  split
  · split <;> rfl
  · rfl

theorem does_closes {op : Op} (hdoes : Does config s op s') : Closes s s' := by
  cases hdoes with
  | send fields =>
    left
    unfold Sink.send
    split
    · rfl
    split
    · rfl
    split
    · rfl
    split
    · rfl
    · exact buffer_closing config _ _ _ _
  | reconcileLookup fault hx hphase => exact .inl rfl
  | @reconciled i x answer hx hphase =>
    left
    cases answer with
    | faulty fault => rfl
    | matched count =>
      simp only [Sink.reconciled]
      split
      · rfl
      split
      · rfl
      · exact buffer_closing config _ _ _ _
  | wake hx hphase hwaiter => exact .inl rfl
  | timerFires htimer => exact .inl rfl
  | @acquire owner hfree hwants =>
    unfold Sink.acquire
    dsimp only
    split
    · exact release_closes {s with
        pendingOrder := (sealBatch config.batchSize s.pendingOrder s.pendingByKey).2.1
        pendingByKey := (sealBatch config.batchSize s.pendingOrder s.pendingByKey).2.2} owner
    · exact .inl rfl
  | commit hlane hcommit =>
    left
    unfold Sink.commit at hcommit
    split at hcommit <;> cases hcommit <;> rfl
  | respond reply hlane hbusy => exact respond_closes s _ reply _
  | lookUp fault hlane hkey hopen => exact .inl rfl
  | @lookedUp owner unresolved answers round hlane hall =>
    unfold Sink.lookedUp
    dsimp only
    split
    · exact .through ((s.settle false (answered unresolved answers isBroken)).confirm
        (answered unresolved answers isFound)) rfl (nextRound_closes _ owner _ _)
    · exact .inl rfl
  | close hopen => exact .inr (.inl rfl)
  | @cancelSender i x s' hx hcancel =>
    left
    unfold Sink.cancelSender at hcancel
    split at hcancel <;> cases hcancel
    · rfl
    · exact abandon_closing s (.sender i)
    · rfl
  | cancelTimer => exact .inl (abandon_closing s .timer)
  | lateCommit habandoned => exact .inl rfl

/-- A cancellation of the holder leaves its entries where they are. -/
theorem interrupted {op : Op} (hsound : Sound calm s) (hdoes : Does config s op s')
    (h : interrupts s op) :
    s'.lane = none ∧ s'.pendingByKey = s.pendingByKey ∧ s'.pendingOrder = s.pendingOrder := by
  obtain ⟨⟨holder,write⟩,hlane,hop⟩ := h
  have hlane : s.lane = some ⟨holder,write⟩ := hlane
  have habandon : ∀ owner, holder = owner → (s.abandon owner).lane = none ∧
      (s.abandon owner).pendingByKey = s.pendingByKey ∧
      (s.abandon owner).pendingOrder = s.pendingOrder := by
    intro owner hholder
    simp only [Sink.abandon,hlane,if_pos hholder,and_self]
  cases hdoes with
  | close hopen => exact habandon .timer hop
  | cancelTimer => exact habandon .timer hop
  | @cancelSender i x s' hx hcancel =>
    have hphase : x.phase = .flushing := by
      have hlive := hsound.shaped.live ⟨holder,write⟩ (by rw [hlane]; rfl)
      have hholder : holder = .sender i := hop
      rw [hholder,Sink.wantsLane,hx] at hlive
      simpa using hlive
    unfold Sink.cancelSender at hcancel
    rw [hphase] at hcancel
    cases hcancel
    exact habandon (.sender i) hop
  | _ => exact absurd hop id

end Closing

section Settles
variable {calm : Prop} {config : Config}

/-- A live task holds the flush lock and writes a batch with the key. -/
def BeingWritten (s : Sink) (key : String) : Prop :=
  ∃ l ∈ s.lane, s.wantsLane l.owner = true ∧ key ∈ writeKeys l.write

def waiterTotal (s : Sink) : ℕ := (s.pendingByKey.map fun p => p.waiters.length).sum

/-- What every step is to leave behind it. -/
structure Settles (e : Event) : Prop where
  counted : e.after.inflightWaiterCount = waiterTotal e.after
  attended : ∀ p ∈ e.after.pendingByKey, p.key ∈ e.after.pendingOrder ∨ BeingWritten e.after p.key
  closed : e.before.closing = .flushing → e.after.closing ≠ .flushing →
    e.after.closing = .returned ∧ e.after.pendingByKey = [] ∧
      ∀ x ∈ e.after.senders, x.waiter ≠ some .waiting

theorem sound_attended {s : Sink} (h : Sound True s) : ∀ p ∈ s.pendingByKey,
    p.key ∈ s.pendingOrder ∨ BeingWritten s p.key := by
  intro p hp
  have hcovered := h.shaped.shape.covered trivial p hp
  rcases List.mem_append.mp hcovered with hin | hin
  · exact .inl hin
  · right
    cases hlane : s.lane with
    | none =>
      rw [laneKeys,hlane] at hin
      cases hin
    | some l =>
      rw [laneKeys,hlane] at hin
      have hl : l ∈ s.lane := by rw [hlane]; rfl
      exact ⟨l,hlane ▸ rfl,h.shaped.live l hl,hin⟩

theorem ended_empty {s : Sink} (h : Sound True s) (hended : Ended s) :
    s.closing = .returned ∧ s.pendingByKey = [] ∧ ∀ x ∈ s.senders, x.waiter ≠ some .waiting := by
  obtain ⟨horder,hlane,hclosing⟩ := hended
  have hkeys : laneKeys s = [] := by rw [laneKeys,hlane]
  have hempty : s.pendingByKey = [] := by
    apply List.eq_nil_iff_forall_not_mem.mpr
    intro p hp
    have hin := h.shaped.shape.covered trivial p hp
    rw [horder,hkeys] at hin
    cases hin
  refine ⟨by rw [hclosing,hempty]; rfl,hempty,fun x hx hwaiter => ?_⟩
  obtain ⟨i,hi⟩ := List.getElem?_of_mem hx
  obtain ⟨ws,hws,-⟩ := h.waited.waiting i (by rw [List.getElem?_map,hi,Option.map_some,hwaiter])
  rw [hempty] at hws
  cases hws

theorem settles_of_sound {e : Event} (hdoes : Does config e.before e.op e.after)
    (h : Sound True e.after) : Settles e := by
  refine ⟨?_,sound_attended h,fun hbefore hafter => ?_⟩
  · have hcounted := h.waited.counted
    rw [List.map_map] at hcounted
    exact hcounted
  · rcases does_closes hdoes with hsame | hflushing | hended
    · exact absurd (hsame.trans hbefore) hafter
    · exact absurd hflushing hafter
    · exact ended_empty h hended

theorem interrupted_not_settles {e : Event} (hsound : Sound calm e.before)
    (hdoes : Does config e.before e.op e.after) (h : interrupts e.before e.op) : ¬Settles e := by
  intro hsettles
  obtain ⟨hfree,hentries,horder⟩ := interrupted hsound hdoes h
  obtain ⟨l,hl,-⟩ := h
  have hshape := hsound.shaped.shape
  obtain ⟨k,hk⟩ := List.exists_mem_of_ne_nil _ (hsound.shaped.busy l hl)
  have hkeys : k ∈ laneKeys e.before := by
    have hlane : e.before.lane = some l := hl
    rw [laneKeys,hlane]
    exact hk
  obtain ⟨p,hp,rfl⟩ := List.mem_map.mp (hshape.pending k (List.mem_append_right _ hkeys))
  rcases hsettles.attended p (hentries ▸ hp) with hin | ⟨l',hl',-⟩
  · rw [horder] at hin
    exact (List.nodup_append.mp hshape.claimed).2.2 _ hin _ hkeys rfl
  · rw [hfree] at hl'
    cases hl'

theorem opened_sound (config : Config) (table : List FeishuInsert.Record) :
    Sound True (opened config table) :=
  ⟨⟨⟨List.nodup_nil,List.nodup_nil,(by simp [opened,laneKeys]),fun p hp => (by cases hp),
    fun _ p hp => (by cases hp)⟩,fun l hl => (by cases hl),fun l hl => (by cases hl)⟩,
    ⟨rfl,fun i hi => (by cases hi)⟩⟩

/-- Waiters settle in runs without an interruption, and
in no other. -/
theorem everyWaiter_iff {s s' : Sink} {es : List Event} (h : Run (Step config) s es s')
    (hsound : Sound True s) : (∀ e ∈ es, Settles e) ↔ ∀ e ∈ es, ¬interrupts e.before e.op := by
  induction h with
  | nil s => simp
  | @cons s t u e es hstep _ ih =>
    obtain ⟨hbefore,hafter,hperform⟩ := hstep
    have hdoes : Does config e.before e.op e.after := by
      rw [hbefore,hafter]
      exact perform_does hperform
    have hsound : Sound True e.before := by rw [hbefore]; exact hsound
    by_cases hint : interrupts e.before e.op
    · refine iff_of_false (fun hall => ?_) (fun hall => hall e List.mem_cons_self hint)
      exact interrupted_not_settles hsound hdoes hint (hall e List.mem_cons_self)
    · have hnext : Sound True e.after := (does_sound hsound hdoes).mono fun _ => ⟨trivial,hint⟩
      have hsettles := settles_of_sound hdoes hnext
      rw [hafter] at hnext
      simp only [List.forall_mem_cons,hsettles,hint,not_false_eq_true,true_and]
      exact ih hnext

/-- Every waiter is settled and every entry attended to as long as no task is cancelled
while it writes a batch, and not after it. -/
theorem waiters_settled (config : Config) (table : List FeishuInsert.Record) (es : List Event)
    (s : Sink) (h : Run (Step config) (opened config table) es s) :
    (∀ e ∈ es, Settles e) ↔ ∀ e ∈ es, ¬interrupts e.before e.op :=
  everyWaiter_iff h (opened_sound config table)

def byNumber (size : ℕ) (sized : 1 ≤ size ∧ size ≤ 500) : Config :=
  ⟨"number",size,1,fun _ => [],sized,by decide⟩

def one : FeishuInsert.Record := [("number",.int 1)]

/-- Two sends share an entry, one of them is cancelled, and `close` waits for the other
one to write it. -/
theorem waiters_settled_shared : ∃ es s, Run (Step (byNumber 1 (by decide)))
    (opened (byNumber 1 (by decide)) []) es s ∧ s.closing = .returned ∧ s.table = [one] ∧
      s.senders.map Sender.phase = [.returned,.cancelled] ∧ ∀ e ∈ es, Settles e := by
  obtain ⟨es,s,htrace,hclosing,htable,hphases,hcalm⟩ :
      ∃ es s, (opened (byNumber 1 (by decide)) []).trace (byNumber 1 (by decide))
        [.send one,.acquire (.sender 0),.send one,.commit,.close,.cancelSender 1,
          .respond (.data [("records",.arr [.obj []])]),.wake 0,.acquire .close] = some (es,s) ∧
      s.closing = .returned ∧ s.table = [one] ∧
      s.senders.map Sender.phase = [.returned,.cancelled] ∧ ∀ e ∈ es, ¬interrupts e.before e.op := by
    refine ⟨_,_,rfl,rfl,rfl,rfl,?_⟩
    simp only [List.forall_mem_cons]
    refine ⟨?_,?_,?_,?_,?_,?_,?_,?_,?_,by simp⟩ <;> rintro ⟨l,hl,hop⟩ <;> cases hl <;> cases hop
  exact ⟨es,s,run_of_trace _ _ htrace,hclosing,htable,hphases,
    (waiters_settled _ _ es s (run_of_trace _ _ htrace)).mpr hcalm⟩

/-- A send is cancelled while it writes the batch, or `close` cancels the timer while it
does: the entry is left, `close` raises, and whoever shares the entry waits for ever. -/
theorem cancelled_writer_strands :
    (∃ es s, Run (Step (byNumber 1 (by decide))) (opened (byNumber 1 (by decide)) []) es s ∧
      s.closing = .raised ∧ s.pendingOrder = [] ∧ s.lane = none ∧
      s.pendingByKey.map Pending.waiters = [[0,1]] ∧
      (s.senders.map Sender.waiter)[1]? = some (some .waiting) ∧ ¬∀ e ∈ es, Settles e) ∧
    ∃ es s, Run (Step (byNumber 2 (by decide))) (opened (byNumber 2 (by decide)) []) es s ∧
      s.closing = .raised ∧ s.pendingOrder = [] ∧ s.lane = none ∧
      s.pendingByKey.map Pending.waiters = [[0]] ∧
      (s.senders.map Sender.waiter)[0]? = some (some .waiting) ∧ ¬∀ e ∈ es, Settles e := by
  constructor
  · obtain ⟨es,s,htrace,hs,e,he,hbefore,hafter⟩ :
        ∃ es s, (opened (byNumber 1 (by decide)) []).trace (byNumber 1 (by decide))
          [.send one,.acquire (.sender 0),.send one,.cancelSender 0,.close,.acquire .close] =
            some (es,s) ∧
        (s.closing = .raised ∧ s.pendingOrder = [] ∧ s.lane = none ∧
          s.pendingByKey.map Pending.waiters = [[0,1]] ∧
          (s.senders.map Sender.waiter)[1]? = some (some .waiting)) ∧
        ∃ e ∈ es, e.before.closing = .flushing ∧ e.after.closing = .raised := by
      refine ⟨_,_,rfl,⟨rfl,rfl,rfl,rfl,rfl⟩,?_⟩
      simp only [List.exists_mem_cons_iff]
      exact .inr (.inr (.inr (.inr (.inr (.inl ⟨trivial,rfl⟩)))))
    refine ⟨es,s,run_of_trace _ _ htrace,hs.1,hs.2.1,hs.2.2.1,hs.2.2.2.1,hs.2.2.2.2,fun hall => ?_⟩
    have hreturned := ((hall e he).closed hbefore (by rw [hafter]; decide)).1
    rw [hafter] at hreturned
    cases hreturned
  · obtain ⟨es,s,htrace,hs,e,he,hbefore,hafter⟩ :
        ∃ es s, (opened (byNumber 2 (by decide)) []).trace (byNumber 2 (by decide))
          [.send one,.timerFires,.acquire .timer,.close,.acquire .close] = some (es,s) ∧
        (s.closing = .raised ∧ s.pendingOrder = [] ∧ s.lane = none ∧
          s.pendingByKey.map Pending.waiters = [[0]] ∧
          (s.senders.map Sender.waiter)[0]? = some (some .waiting)) ∧
        ∃ e ∈ es, e.before.closing = .flushing ∧ e.after.closing = .raised := by
      refine ⟨_,_,rfl,⟨rfl,rfl,rfl,rfl,rfl⟩,?_⟩
      simp only [List.exists_mem_cons_iff]
      exact .inr (.inr (.inr (.inr (.inl ⟨trivial,rfl⟩))))
    refine ⟨es,s,run_of_trace _ _ htrace,hs.1,hs.2.1,hs.2.2.1,hs.2.2.2.1,hs.2.2.2.2,fun hall => ?_⟩
    have hreturned := ((hall e he).closed hbefore (by rw [hafter]; decide)).1
    rw [hafter] at hreturned
    cases hreturned

end Settles

end OneStep.InsertWaiters
