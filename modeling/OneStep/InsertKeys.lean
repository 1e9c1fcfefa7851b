import OneStep.InsertWaiters

/-!
# One record for each key

A key of the table is known to the sink, marked as uncertain, or pending; a key that
waits in order is not in the table, nor is one whose request was left behind. This holds
as long as no entry that failed takes an unmarked key of the table with it, and no send
trusts a search that a commit has overtaken.
-/
namespace OneStep.InsertKeys
open FeishuInsert InsertWaiters Transition

section Requests

/-- The keys of the request in flight. -/
def request : Write → List String
  | .creating batch _ => batch
  | .looking _ _ _ => []
  | .recreating missing _ _ _ => missing

def committed : Write → Bool
  | .creating _ committed => committed
  | .looking _ _ _ => false
  | .recreating _ _ committed _ => committed

variable (config : Config)

def exhausted (unresolved : List String) (round : ℕ) : List String :=
  if round ≤ config.ambiguousWriteMaxRounds then [] else unresolved

/-- The keys whose entries fail when a create is answered. -/
def failedByReply (reply : Reply) : Write → List String
  | .creating batch _ => if reply.verdict batch.length = .definite then batch else []
  | .looking _ _ _ => []
  | .recreating missing lookupFailed _ round =>
    match reply.verdict missing.length with
    | .complete => exhausted config lookupFailed (round+1)
    | .definite => missing++exhausted config lookupFailed (round+1)
    | .ambiguous => exhausted config (lookupFailed++missing) (round+1)

/-- The keys whose entries fail when a search is over. -/
def failedBySearch : Write → List String
  | .looking unresolved answers round =>
    answered unresolved answers isBroken++
      if (answered unresolved answers isMissing).isEmpty then
        exhausted config (answered unresolved answers isFailed) (round+1)
      else []
  | _ => []

variable (s : Sink)

/-- Those of the keys that are in the table are known or marked. -/
def Kept (keys : List String) : Prop :=
  ∀ k ∈ keys, k ∈ tableKeys config s.table → k ∈ s.insertKeys ∨ k ∈ s.uncertainKeys

/-- A complete reply tells of a commit, no entry fails that leaves an unmarked record in
the table, and a search without a match still says what the table holds. -/
def Faithful : Op → Prop
  | .respond reply => ∀ l ∈ s.lane,
      (reply.verdict (request l.write).length = .complete → committed l.write = true) ∧
        Kept config s (failedByReply config reply l.write)
  | .lookedUp => ∀ l ∈ s.lane, Kept config s (failedBySearch config l.write)
  | .reconciled i => ∀ x ∈ s.senders[i]?, x.phase = .reconciling (some (.matched 0)) →
      x.key ∈ tableKeys config s.table → x.key ∈ s.insertKeys ∨ x.key ∈ s.pendingByKey.map Pending.key
  | _ => True

end Requests

section Books
variable {config : Config} {s s' : Sink} {keys : List String} {owner : Owner}

/-- A send that was told that its key is in the table. -/
inductive Told (x : Sender) : Prop
  | returned : x.phase = .returned → Told x
  | done : x.waiter = some (.done true) → Told x
  | found (count : ℕ) : x.phase = .reconciling (some (.matched count)) → 0 < count → Told x

structure Informed (config : Config) (table : List String) (x : Sender) : Prop where
  named : recordKey config x.fields = some x.key
  told : Told x → x.key ∈ table

def abandonedKeys (config : Config) (s : Sink) : List String := tableKeys config s.abandoned.flatten

/-- What the sink knows, with the keys of the batch in work. -/
structure Book (config : Config) (s : Sink) (keys : List String) : Prop where
  distinct : (tableKeys config s.table).Nodup
  inserted : ∀ k ∈ s.insertKeys, k ∈ tableKeys config s.table
  marked : ∀ k ∈ tableKeys config s.table,
    k ∈ s.insertKeys ∨ k ∈ s.uncertainKeys ∨ k ∈ s.pendingByKey.map Pending.key
  named : ∀ p ∈ s.pendingByKey, recordKey config p.fields = some p.key
  shared : ∀ p ∈ s.pendingByKey, ∀ i ∈ p.waiters, ∃ x, s.senders[i]? = some x ∧ x.key = p.key
  leftOnce : (abandonedKeys config s).Nodup
  left : ∀ k ∈ abandonedKeys config s,
    k ∈ s.pendingByKey.map Pending.key ∧ k ∉ s.pendingOrder++keys
  fresh : ∀ k ∈ s.pendingOrder++abandonedKeys config s, k ∉ tableKeys config s.table
  informed : ∀ x ∈ s.senders, Informed config (tableKeys config s.table) x

/-- What is known of the keys in work. -/
def Fits (table : List String) : Write → Prop
  | .creating batch committed => ∀ k ∈ batch, k ∈ table ↔ committed = true
  | .looking unresolved answers _ =>
    ∀ k ∈ unresolved, ∀ count, answers.lookup k = some (.matched count) → (k ∈ table ↔ 0 < count)
  | .recreating missing _ committed _ => ∀ k ∈ missing, k ∈ table ↔ committed = true

structure Keyed (config : Config) (s : Sink) : Prop where
  book : Book config s (laneKeys s)
  fits : ∀ l ∈ s.lane, Fits (tableKeys config s.table) l.write

theorem Fits.congr {table table' : List String} {write : Write} (h : Fits table write)
    (hsame : ∀ k ∈ writeKeys write, k ∈ table ↔ k ∈ table') : Fits table' write := by
  cases write with
  | creating batch committed => exact fun k hk => (hsame k hk).symm.trans (h k hk)
  | looking unresolved answers round =>
    exact fun k hk count hcount => (hsame k hk).symm.trans (h k hk count hcount)
  | recreating missing lookupFailed committed round =>
    exact fun k hk => (hsame k (List.mem_append_right _ hk)).symm.trans (h k hk)

theorem Book.mono {others : List String} (h : Book config s keys) (hsub : others ⊆ keys) :
    Book config s others := by
  refine ⟨h.distinct,h.inserted,h.marked,h.named,h.shared,h.leftOnce,fun k hk => ?_,h.fresh,h.informed⟩
  refine ⟨(h.left k hk).1,fun hin => (h.left k hk).2 ?_⟩
  rcases List.mem_append.mp hin with hin | hin
  · exact List.mem_append_left _ hin
  · exact List.mem_append_right _ (hsub hin)

theorem Book.lane (h : Book config s keys) (lane : Option Lane) :
    Book config {s with lane := lane} keys :=
  ⟨h.distinct,h.inserted,h.marked,h.named,h.shared,h.leftOnce,h.left,h.fresh,h.informed⟩

/-- What of an entry the books depend on. -/
def data (p : Pending) : String × FeishuInsert.Record × List ℕ := (p.key,p.fields,p.waiters)

theorem Book.entries {entries : List Pending} (h : Book config s keys)
    (hdata : entries.map data = s.pendingByKey.map data) :
    Book config {s with pendingByKey := entries} keys := by
  have hkeys : entries.map Pending.key = s.pendingByKey.map Pending.key := by
    have hfirst := congrArg (List.map Prod.fst) hdata
    rw [List.map_map,List.map_map] at hfirst
    exact hfirst
  have hfind : ∀ p ∈ entries, ∃ q ∈ s.pendingByKey, data q = data p := by
    intro p hp
    have hin : data p ∈ s.pendingByKey.map data := hdata ▸ List.mem_map_of_mem hp
    exact List.mem_map.mp hin
  refine ⟨h.distinct,h.inserted,?_,fun p hp => ?_,fun p hp => ?_,h.leftOnce,?_,h.fresh,h.informed⟩
  · rw [hkeys]
    exact h.marked
  · obtain ⟨q,hq,heq⟩ := hfind p hp
    simp only [data,Prod.mk.injEq] at heq
    rw [← heq.1,← heq.2.1]
    exact h.named q hq
  · obtain ⟨q,hq,heq⟩ := hfind p hp
    simp only [data,Prod.mk.injEq] at heq
    rw [← heq.1,← heq.2.2]
    exact h.shared q hq
  · rw [hkeys]
    exact h.left

theorem Book.setStates (h : Book config s keys) (marked : List String) (state : InsertState) :
    Book config (s.setStates marked state) keys := by
  refine h.entries ?_
  rw [List.map_map]
  apply List.map_congr_left
  intro p _
  simp only [Function.comp_apply,data]
  split <;> rfl

theorem Book.modify (h : Book config s keys) {i : ℕ} {f : Sender → Sender}
    (hkey : ∀ x, (f x).key = x.key)
    (hf : ∀ x, s.senders[i]? = some x → Informed config (tableKeys config s.table) (f x)) :
    Book config {s with senders := s.senders.modify i f} keys := by
  refine ⟨h.distinct,h.inserted,h.marked,h.named,fun p hp j hj => ?_,h.leftOnce,h.left,h.fresh,?_⟩
  · obtain ⟨x,hx,hxk⟩ := h.shared p hp j hj
    by_cases hij : i = j
    · refine ⟨f x,?_,(hkey x).trans hxk⟩
      rw [hij,List.getElem?_modify_eq,hx]
      rfl
    · exact ⟨x,by rw [List.getElem?_modify_ne _ _ hij]; exact hx,hxk⟩
  · intro y hy
    obtain ⟨j,hj⟩ := List.getElem?_of_mem hy
    by_cases hij : i = j
    · rw [hij,List.getElem?_modify_eq,Option.map_eq_map,Option.map_eq_some_iff] at hj
      obtain ⟨x,hx,rfl⟩ := hj
      exact hf x (hij ▸ hx)
    · rw [List.getElem?_modify_ne _ _ hij] at hj
      exact h.informed y (List.mem_of_getElem? hj)

theorem Book.setPhase (h : Book config s keys) {i : ℕ} {phase : Phase}
    (hphase : ∀ x, s.senders[i]? = some x → Told {x with phase := phase} →
      x.key ∈ tableKeys config s.table) : Book config (s.setPhase i phase) keys :=
  h.modify (fun _ => rfl) fun x hx =>
    ⟨(h.informed x (List.mem_of_getElem? hx)).named,hphase x hx⟩

theorem Book.setPhase_untold (h : Book config s keys) {i : ℕ} {phase : Phase}
    (hreturned : phase ≠ .returned)
    (hfound : ∀ count, phase = .reconciling (some (.matched count)) → count = 0) :
    Book config (s.setPhase i phase) keys := by
  refine h.setPhase fun x hx htold => ?_
  have hx := h.informed x (List.mem_of_getElem? hx)
  cases htold with
  | returned hphase => exact absurd hphase hreturned
  | done hwaiter => exact hx.told (.done hwaiter)
  | found count hphase hcount =>
    have := hfound count hphase
    omega

theorem settle_told {ok : Bool} {x : Sender} (h : Told (x.settle ok)) :
    Told x ∨ ok = true ∧ x.waiter = some .waiting := by
  cases h with
  | returned hphase => exact .inl (.returned hphase)
  | found count hphase hcount => exact .inl (.found count hphase hcount)
  | done hwaiter =>
    cases hw : x.waiter with
    | none => simp [Sender.settle,hw] at hwaiter
    | some w =>
      cases w with
      | waiting =>
        simp only [Sender.settle,hw,Option.map_some,Option.some.injEq,Waiter.done.injEq] at hwaiter
        exact .inr ⟨hwaiter,rfl⟩
      | done ok' =>
        simp only [Sender.settle,hw,Option.map_some] at hwaiter
        exact .inl (.done (hw.trans hwaiter))
      | cancelled => simp [Sender.settle,hw] at hwaiter

theorem Book.settle {ok : Bool} {gone : List String} (h : Book config s keys) (hgone : gone ⊆ keys)
    (hkept : Kept config s gone) (hok : ok = true → ∀ k ∈ gone, k ∈ tableKeys config s.table) :
    Book config (s.settle ok gone) keys := by
  have hstay : ∀ k ∈ s.pendingByKey.map Pending.key, k ∉ gone →
      k ∈ (s.pendingByKey.filter fun p => p.key ∉ gone).map Pending.key := by
    intro k hk hnot
    obtain ⟨p,hp,rfl⟩ := List.mem_map.mp hk
    exact List.mem_map_of_mem (List.mem_filter.mpr ⟨hp,by simpa using hnot⟩)
  refine ⟨h.distinct,h.inserted,fun k hk => ?_,fun p hp => h.named p (List.mem_of_mem_filter hp),
    fun p hp i hi => ?_,h.leftOnce,fun k hk => ?_,h.fresh,fun y hy => ?_⟩
  · by_cases hin : k ∈ gone
    · rcases hkept k hin hk with hmark | hmark
      · exact .inl hmark
      · exact .inr (.inl hmark)
    · rcases h.marked k hk with hmark | hmark | hpending
      · exact .inl hmark
      · exact .inr (.inl hmark)
      · exact .inr (.inr (hstay k hpending hin))
  · obtain ⟨x,hx,hxk⟩ := h.shared p (List.mem_of_mem_filter hp) i hi
    simp only [Sink.settle,List.getElem?_mapIdx,hx,Option.map_some]
    refine ⟨_,rfl,?_⟩
    split <;> exact hxk
  · obtain ⟨hpending,hout⟩ := h.left k hk
    exact ⟨hstay k hpending fun hin => hout (List.mem_append_right _ (hgone hin)),hout⟩
  · obtain ⟨i,hi⟩ := List.getElem?_of_mem hy
    simp only [Sink.settle,List.getElem?_mapIdx,Option.map_eq_some_iff] at hi
    obtain ⟨x,hx,rfl⟩ := hi
    have hinformed := h.informed x (List.mem_of_getElem? hx)
    split
    · next hany =>
        refine ⟨hinformed.named,fun htold => ?_⟩
        rcases settle_told htold with htold | ⟨hsuccess,-⟩
        · exact hinformed.told htold
        · obtain ⟨p,hp,hiw⟩ := List.any_eq_true.mp hany
          obtain ⟨hp,hpk⟩ := List.mem_filter.mp hp
          obtain ⟨x',hx',hxk⟩ := h.shared p hp i (by simpa using hiw)
          rw [hx] at hx'
          cases hx'
          have hkey : x.key ∈ gone := by rw [hxk]; simpa using hpk
          exact hok hsuccess x.key hkey
    · exact hinformed

theorem Book.confirm {gone : List String} (h : Book config s keys) (hgone : gone ⊆ keys)
    (hin : ∀ k ∈ gone, k ∈ tableKeys config s.table) : Book config (s.confirm gone) keys := by
  have hknown : Book config {s with
      insertKeys := s.insertKeys ∪ gone.toFinset
      uncertainKeys := s.uncertainKeys \ gone.toFinset} keys := by
    refine ⟨h.distinct,fun k hk => ?_,fun k hk => ?_,h.named,h.shared,h.leftOnce,h.left,h.fresh,h.informed⟩
    · rcases Finset.mem_union.mp hk with hk | hk
      · exact h.inserted k hk
      · exact hin k (List.mem_toFinset.mp hk)
    · by_cases hk' : k ∈ gone
      · exact .inl (Finset.mem_union_right _ (List.mem_toFinset.mpr hk'))
      · rcases h.marked k hk with hmark | hmark | hpending
        · exact .inl (Finset.mem_union_left _ hmark)
        · exact .inr (.inl (Finset.mem_sdiff.mpr ⟨hmark,by simpa using hk'⟩))
        · exact .inr (.inr hpending)
  exact hknown.settle hgone
    (fun k hk _ => .inl (Finset.mem_union_right _ (List.mem_toFinset.mpr hk))) fun _ => hin

theorem release_keyed (h : Book config s []) (owner : Owner) : Keyed config (s.release owner) := by
  cases owner with
  | sender i =>
    have hphase : Book config (({s with lane := none} : Sink).setPhase i .waiting) [] :=
      (h.lane none).setPhase_untold (by simp) (by simp)
    exact ⟨hphase,fun l hl => (by cases hl)⟩
  | timer =>
    exact ⟨⟨h.distinct,h.inserted,h.marked,h.named,h.shared,h.leftOnce,h.left,h.fresh,h.informed⟩,
      fun l hl => (by cases hl)⟩
  | close =>
    exact ⟨⟨h.distinct,h.inserted,h.marked,h.named,h.shared,h.leftOnce,h.left,h.fresh,h.informed⟩,
      fun l hl => (by cases hl)⟩

theorem nextRound_keyed {unresolved : List String} {round : ℕ} (h : Book config s unresolved)
    (hkept : Kept config s (exhausted config unresolved round)) :
    Keyed config (s.nextRound config owner unresolved round) := by
  unfold Sink.nextRound
  split
  · exact release_keyed (h.mono (List.nil_subset _)) owner
  · split
    · refine ⟨h.lane _,fun l hl => ?_⟩
      cases hl
      intro k hk count hcount
      cases hcount
    · next hround =>
        rw [exhausted,if_neg hround] at hkept
        have hsettled : Book config (s.settle false unresolved) unresolved :=
          h.settle (List.Subset.refl unresolved) hkept (by simp)
        exact release_keyed (hsettled.mono (List.nil_subset _)) owner

end Books

section Commits
variable {config : Config} {s s' : Sink} {keys : List String} {owner : Owner} {batch : List String}

theorem tableKeys_append (table records : List FeishuInsert.Record) :
    tableKeys config (table++records) = tableKeys config table++tableKeys config records :=
  List.filterMap_append

/-- A request holds one record for each key. -/
theorem tableKeys_records (h : Book config s keys)
    (hbatch : ∀ k ∈ batch, k ∈ s.pendingByKey.map Pending.key) :
    tableKeys config (s.records batch) = batch := by
  induction batch with
  | nil => rfl
  | cons key batch ih =>
    obtain ⟨p,hfind,hp,hkey⟩ := find_of_mem (hbatch key List.mem_cons_self)
    have hrest := ih fun k hk => hbatch k (List.mem_cons_of_mem _ hk)
    have hrecords : s.records (key::batch) = p.fields::s.records batch := by
      simp only [Sink.records,Sink.pending?,List.filterMap_cons,hfind,Option.map_some]
    rw [hrecords,tableKeys,List.filterMap_cons,h.named p hp,hkey]
    exact congrArg (key::·) hrest

/-- New records: their keys are new to the table, pending, and not in order. -/
theorem Book.extend {table : List FeishuInsert.Record} {abandoned : List (List FeishuInsert.Record)}
    (h : Book config s keys) (hnew : (tableKeys config table).Nodup)
    (hpending : ∀ k ∈ tableKeys config table, k ∈ s.pendingByKey.map Pending.key ∧
      k ∉ tableKeys config s.table ∧ k ∉ s.pendingOrder ∧ k ∉ tableKeys config abandoned.flatten)
    (hless : (tableKeys config abandoned.flatten).Sublist (abandonedKeys config s)) :
    Book config {s with table := s.table++table, abandoned := abandoned} keys := by
  have hmono : ∀ k ∈ tableKeys config s.table, k ∈ tableKeys config (s.table++table) := by
    intro k hk
    rw [tableKeys_append]
    exact List.mem_append_left _ hk
  refine ⟨?_,fun k hk => hmono k (h.inserted k hk),fun k hk => ?_,h.named,h.shared,
    hless.nodup h.leftOnce,fun k hk => h.left k (hless.subset hk),fun k hk => ?_,fun x hx => ?_⟩
  · rw [tableKeys_append]
    refine List.nodup_append.mpr ⟨h.distinct,hnew,fun k hk k' hk' heq => ?_⟩
    exact (hpending k' hk').2.1 (heq ▸ hk)
  · rw [tableKeys_append] at hk
    rcases List.mem_append.mp hk with hk | hk
    · exact h.marked k hk
    · exact .inr (.inr (hpending k hk).1)
  · rw [tableKeys_append,List.mem_append,not_or]
    rcases List.mem_append.mp hk with hk | hk
    · exact ⟨h.fresh k (List.mem_append_left _ hk),fun hin => (hpending k hin).2.2.1 hk⟩
    · exact ⟨h.fresh k (List.mem_append_right _ (hless.subset hk)),fun hin => (hpending k hin).2.2.2 hk⟩
  · exact ⟨(h.informed x hx).named,fun htold => hmono _ ((h.informed x hx).told htold)⟩

theorem request_extend {calm : Prop} (h : Book config s keys)
    (hshape : Shape calm s.pendingByKey s.pendingOrder keys) (hbatch : batch ⊆ keys)
    (honce : batch.Nodup) (hout : ∀ k ∈ batch, k ∉ tableKeys config s.table) :
    Book config {s with table := s.table++s.records batch} keys := by
  have hpending : ∀ k ∈ batch, k ∈ s.pendingByKey.map Pending.key := fun k hk =>
    hshape.pending k (List.mem_append_right _ (hbatch hk))
  have hrecords := tableKeys_records h hpending
  have hextend := @Book.extend config s keys (s.records batch) s.abandoned h
    (by rw [hrecords]; exact honce) ?_ (List.Sublist.refl _)
  · exact hextend
  · rw [hrecords]
    intro k hk
    refine ⟨hpending k hk,hout k hk,fun hin => ?_,fun hin => ?_⟩
    · exact (List.nodup_append.mp hshape.claimed).2.2 k hin k (hbatch hk) rfl
    · exact (h.left k hin).2 (List.mem_append_right _ (hbatch hk))

theorem mem_extended (h : Book config s keys)
    (hbatch : ∀ k ∈ batch, k ∈ s.pendingByKey.map Pending.key) (k : String) :
    k ∈ tableKeys config (s.table++s.records batch) ↔ k ∈ tableKeys config s.table ∨ k ∈ batch := by
  rw [tableKeys_append,tableKeys_records h hbatch,List.mem_append]

theorem commit_keyed {calm : Prop} {write : Write} (h : Keyed config s)
    (hshape : Shape calm s.pendingByKey s.pendingOrder (laneKeys s))
    (hlane : s.lane = some ⟨owner,write⟩) (hcommit : s.commit owner write = some s') :
    Keyed config s' := by
  have hbook := h.book
  have hfits := h.fits ⟨owner,write⟩ (by rw [hlane]; rfl)
  simp only [laneKeys,hlane] at hbook hshape
  have hnodup := (List.nodup_append.mp hshape.claimed).2.1
  unfold Sink.commit at hcommit
  split at hcommit
  · next batch =>
      cases hcommit
      have hout : ∀ k ∈ batch, k ∉ tableKeys config s.table := fun k hk hin => by
        cases (hfits k hk).mp hin
      have hpending : ∀ k ∈ batch, k ∈ s.pendingByKey.map Pending.key := fun k hk =>
        hshape.pending k (List.mem_append_right _ hk)
      have hbook' := request_extend hbook hshape (List.Subset.refl batch) hnodup hout
      refine ⟨hbook'.lane _,fun l hl => ?_⟩
      cases hl
      exact fun k hk => iff_of_true ((mem_extended hbook hpending k).mpr (.inr hk)) rfl
  · next missing lookupFailed round =>
      cases hcommit
      have hmissing := (List.nodup_append.mp hnodup).2.1
      have hout : ∀ k ∈ missing, k ∉ tableKeys config s.table := fun k hk hin => by
        cases (hfits k hk).mp hin
      have hpending : ∀ k ∈ missing, k ∈ s.pendingByKey.map Pending.key := fun k hk =>
        hshape.pending k (List.mem_append_right _ (List.mem_append_right _ hk))
      have hbook' := request_extend hbook hshape (List.subset_append_right _ _) hmissing hout
      refine ⟨hbook'.lane _,fun l hl => ?_⟩
      cases hl
      exact fun k hk => iff_of_true ((mem_extended hbook hpending k).mpr (.inr hk)) rfl
  · cases hcommit

theorem lateCommit_keyed {i : ℕ} {records : List FeishuInsert.Record} (h : Keyed config s)
    (hrecords : s.abandoned[i]? = some records) :
    Keyed config {s with table := s.table++records, abandoned := s.abandoned.eraseIdx i} := by
  have hbook := h.book
  obtain ⟨hi,hget⟩ := List.getElem?_eq_some_iff.mp hrecords
  have hperm : (abandonedKeys config s).Perm
      (tableKeys config records++tableKeys config (s.abandoned.eraseIdx i).flatten) := by
    have hsplit := (List.getElem_cons_eraseIdx_perm hi).symm
    rw [hget] at hsplit
    have hkeys := hsplit.flatten.filterMap (recordKey config)
    rw [List.flatten_cons,List.filterMap_append] at hkeys
    exact hkeys
  have hnodup := hperm.nodup_iff.mp hbook.leftOnce
  obtain ⟨honce,-,hcross⟩ := List.nodup_append.mp hnodup
  have hin : ∀ k ∈ tableKeys config records, k ∈ abandonedKeys config s := fun k hk =>
    hperm.mem_iff.mpr (List.mem_append_left _ hk)
  have hless : (tableKeys config (s.abandoned.eraseIdx i).flatten).Sublist (abandonedKeys config s) :=
    (List.Sublist.flatten (List.eraseIdx_sublist s.abandoned i)).filterMap _
  refine ⟨hbook.extend honce (fun k hk => ?_) hless,fun l hl => (h.fits l hl).congr fun k hk => ?_⟩
  · obtain ⟨hpending,hout⟩ := hbook.left k (hin k hk)
    refine ⟨hpending,hbook.fresh k (List.mem_append_right _ (hin k hk)),fun hord => ?_,fun hleft => ?_⟩
    · exact hout (List.mem_append_left _ hord)
    · exact hcross k hk k hleft rfl
  · have hlane : k ∈ laneKeys s := by
      have hl : s.lane = some l := hl
      rw [laneKeys,hl]
      exact hk
    rw [tableKeys_append,List.mem_append]
    refine ⟨.inl,fun hor => hor.resolve_right fun hrec => ?_⟩
    exact (hbook.left k (hin k hrec)).2 (List.mem_append_right _ hlane)

end Commits

section Steps
variable {config : Config} {calm : Prop} {s s' : Sink} {keys : List String} {owner : Owner}

theorem sealBatch_data (size : ℕ) (order : List String) (entries : List Pending) :
    (sealBatch size order entries).2.2.map data = entries.map data := by
  induction order generalizing size entries with
  | nil => rw [sealBatch.eq_1]
  | cons key order ih =>
    cases size with
    | zero => rw [sealBatch.eq_2 _ _ (List.cons_ne_nil key order)]
    | succ size =>
      rw [sealBatch]
      split
      · exact ih (size+1) entries
      · split
        · exact ih (size+1) entries
        · rw [ih,List.map_map]
          apply List.map_congr_left
          intro q _
          simp only [Function.comp_apply,data]
          split <;> rfl

theorem acquire_keyed (h : Keyed config s) (hshape : Shape calm s.pendingByKey s.pendingOrder (laneKeys s))
    (hfree : s.lane = none) : Keyed config (s.acquire config owner) := by
  have hkeys : laneKeys s = [] := by rw [laneKeys,hfree]
  have hbook := h.book
  rw [hkeys] at hbook hshape
  obtain ⟨-,hsplit,-⟩ := hshape.seal config.batchSize
  have hentries := hbook.entries (sealBatch_data config.batchSize s.pendingOrder s.pendingByKey)
  have hsub : ∀ k, k ∈ s.pendingOrder ↔ k ∈ (sealBatch config.batchSize s.pendingOrder s.pendingByKey).1 ∨
      k ∈ (sealBatch config.batchSize s.pendingOrder s.pendingByKey).2.1 := by
    intro k
    rw [← List.mem_append,hsplit]
  have hsealed : Book config {s with
      pendingOrder := (sealBatch config.batchSize s.pendingOrder s.pendingByKey).2.1
      pendingByKey := (sealBatch config.batchSize s.pendingOrder s.pendingByKey).2.2}
      (sealBatch config.batchSize s.pendingOrder s.pendingByKey).1 := by
    refine ⟨hentries.distinct,hentries.inserted,hentries.marked,hentries.named,hentries.shared,
      hentries.leftOnce,fun k hk => ⟨(hentries.left k hk).1,fun hin => ?_⟩,fun k hk => ?_,hentries.informed⟩
    · refine (hbook.left k hk).2 (List.mem_append_left _ ((hsub k).mpr ?_))
      exact (List.mem_append.mp hin).symm
    · rcases List.mem_append.mp hk with hk | hk
      · exact hbook.fresh k (List.mem_append_left _ ((hsub k).mpr (.inr hk)))
      · exact hbook.fresh k (List.mem_append_right _ hk)
  unfold Sink.acquire
  dsimp only
  split
  · exact release_keyed (hsealed.mono (List.nil_subset _)) owner
  · refine ⟨hsealed.lane _,fun l hl => ?_⟩
    cases hl
    intro k hk
    refine iff_of_false (hbook.fresh k (List.mem_append_left _ ((hsub k).mpr (.inl hk)))) ?_
    exact Bool.false_ne_true

variable {write : Write} {key : String}

theorem leftBehind_keys (h : Book config s keys)
    (hpending : ∀ k ∈ writeKeys write, k ∈ s.pendingByKey.map Pending.key) :
    tableKeys config (s.leftBehind write).flatten =
      if committed write then [] else request write := by
  cases write with
  | looking unresolved answers round => rfl
  | creating batch done =>
    cases done with
    | true => rfl
    | false =>
      simp only [Sink.leftBehind,List.flatten_cons,List.flatten_nil,List.append_nil]
      exact tableKeys_records h hpending
  | recreating missing lookupFailed done round =>
    cases done with
    | true => rfl
    | false =>
      simp only [Sink.leftBehind,List.flatten_cons,List.flatten_nil,List.append_nil]
      exact tableKeys_records h fun k hk => hpending k (List.mem_append_right _ hk)

theorem request_subset (write : Write) : request write ⊆ writeKeys write := by
  cases write with
  | creating batch done => exact List.Subset.refl batch
  | looking unresolved answers round => exact List.nil_subset _
  | recreating missing lookupFailed done round => exact List.subset_append_right _ _

theorem request_nodup (h : (writeKeys write).Nodup) : (request write).Nodup := by
  cases write with
  | creating batch done => exact h
  | looking unresolved answers round => exact List.nodup_nil
  | recreating missing lookupFailed done round => exact (List.nodup_append.mp h).2.1

theorem Fits.request {table : List String} (h : Fits table write) {k : String}
    (hk : k ∈ request write) : k ∈ table ↔ committed write = true := by
  cases write with
  | creating batch done => exact h k hk
  | looking unresolved answers round => cases hk
  | recreating missing lookupFailed done round => exact h k hk

/-- A cancelled task leaves its request behind, and with it the keys. -/
theorem abandon_keyed (h : Keyed config s) (hshape : Shape calm s.pendingByKey s.pendingOrder (laneKeys s))
    (owner : Owner) : Keyed config (s.abandon owner) := by
  have hbook := h.book
  unfold Sink.abandon
  split
  · next holder write hlane =>
      split
      · have hfits := h.fits ⟨holder,write⟩ (by rw [hlane]; rfl)
        simp only [laneKeys,hlane] at hbook hshape
        have hpending : ∀ k ∈ writeKeys write, k ∈ s.pendingByKey.map Pending.key := fun k hk =>
          hshape.pending k (List.mem_append_right _ hk)
        obtain ⟨-,hnodup,hcross⟩ := List.nodup_append.mp hshape.claimed
        have hkeys : tableKeys config (s.abandoned++s.leftBehind write).flatten =
            abandonedKeys config s++if committed write then [] else request write := by
          rw [List.flatten_append,tableKeys_append,leftBehind_keys hbook hpending]
          rfl
        have hnew : ∀ k ∈ (if committed write then [] else request write),
            k ∈ writeKeys write ∧ k ∉ tableKeys config s.table := by
          intro k hk
          split at hk
          · cases hk
          · next hdone =>
              exact ⟨request_subset write hk,fun hin => hdone ((hfits.request hk).mp hin)⟩
        refine ⟨⟨hbook.distinct,hbook.inserted,hbook.marked,hbook.named,hbook.shared,?_,fun k hk => ?_,
          fun k hk => ?_,hbook.informed⟩,fun l hl => (by cases hl)⟩
        · unfold abandonedKeys
          dsimp only
          rw [hkeys]
          refine List.nodup_append.mpr ⟨hbook.leftOnce,?_,fun k hk k' hk' heq => ?_⟩
          · split
            · exact List.nodup_nil
            · exact request_nodup hnodup
          · rw [← heq] at hk'
            exact (hbook.left k hk).2 (List.mem_append_right _ (hnew k hk').1)
        · unfold abandonedKeys at hk
          dsimp only at hk
          rw [hkeys] at hk
          simp only [laneKeys,List.append_nil]
          rcases List.mem_append.mp hk with hk | hk
          · exact ⟨(hbook.left k hk).1,fun hin => (hbook.left k hk).2 (List.mem_append_left _ hin)⟩
          · exact ⟨hpending k (hnew k hk).1,fun hin => hcross k hin k (hnew k hk).1 rfl⟩
        · unfold abandonedKeys at hk
          dsimp only at hk
          rw [hkeys] at hk
          rcases List.mem_append.mp hk with hk | hk
          · exact hbook.fresh k (List.mem_append_left _ hk)
          · rcases List.mem_append.mp hk with hk | hk
            · exact hbook.fresh k (List.mem_append_right _ hk)
            · exact (hnew k hk).2
      · exact h
  · exact h

theorem buffered_keyed {i : ℕ} {fields : FeishuInsert.Record} {phase : Phase} (h : Keyed config s)
    (hb : Buffered s i key fields phase s') (hname : recordKey config fields = some key)
    (hsender : ∃ x, s.senders[i]? = some x ∧ x.key = key)
    (hnew : key ∈ tableKeys config s.table → key ∈ s.pendingByKey.map Pending.key) :
    Keyed config s' := by
  have hbook := h.book
  have hlanes : laneKeys s' = laneKeys s := by rw [laneKeys,hb.lane]; rfl
  have hleft : abandonedKeys config s' = abandonedKeys config s := by
    unfold abandonedKeys
    rw [hb.abandoned]
  have hphase : ∀ x : Sender, ¬Told {x with phase := phase, waiter := some .waiting} := by
    intro x htold
    rcases hb.phase with rfl | rfl
    · cases htold with
      | returned hphase => cases hphase
      | done hwaiter => cases hwaiter
      | found count hphase => cases hphase
    · cases htold with
      | returned hphase => cases hphase
      | done hwaiter => cases hwaiter
      | found count hphase => cases hphase
  have hsenders := hbook.modify (i := i) (f := fun x => {x with phase := phase, waiter := some .waiting})
    (fun _ => rfl) fun x hx => ⟨(hbook.informed x (List.mem_of_getElem? hx)).named,fun htold =>
      absurd htold (hphase x)⟩
  obtain ⟨x,hx,hxk⟩ := hsender
  have hthere : ∃ y, s'.senders[i]? = some y ∧ y.key = key := by
    refine ⟨{x with phase := phase, waiter := some .waiting},?_,hxk⟩
    rw [hb.senders,List.getElem?_modify_eq,hx]
    rfl
  have hfits : ∀ l ∈ s'.lane, Fits (tableKeys config s'.table) l.write := by
    rw [hb.lane,hb.table]
    exact h.fits
  have hinformed : ∀ x ∈ s'.senders, Informed config (tableKeys config s'.table) x := by
    rw [hb.senders,hb.table]
    exact hsenders.informed
  have hshared : ∀ p ∈ s.pendingByKey, ∀ j ∈ p.waiters, ∃ y, s'.senders[j]? = some y ∧ y.key = p.key := by
    rw [hb.senders]
    exact hsenders.shared
  refine ⟨?_,hfits⟩
  rw [hlanes]
  rcases hb.entries with ⟨-,hentries,horder⟩ | ⟨hfresh,hentries,horder⟩
  · have hkeys : s'.pendingByKey.map Pending.key = s.pendingByKey.map Pending.key := by
      rw [hentries,List.map_map]
      exact List.map_congr_left fun p _ => join_key key i p
    refine ⟨by rw [hb.table]; exact hbook.distinct,by rw [hb.insertKeys,hb.table]; exact hbook.inserted,?_,
      ?_,?_,by rw [hleft]; exact hbook.leftOnce,by rw [hleft,hkeys,horder]; exact hbook.left,
      by rw [hleft,horder,hb.table]; exact hbook.fresh,hinformed⟩
    · rw [hkeys,hb.insertKeys,hb.uncertainKeys,hb.table]
      exact hbook.marked
    · rw [hentries]
      intro p hp
      obtain ⟨p₀,hp₀,rfl⟩ := List.mem_map.mp hp
      rw [join_key]
      unfold join
      split <;> exact hbook.named p₀ hp₀
    · rw [hentries]
      intro p hp j hj
      obtain ⟨p₀,hp₀,rfl⟩ := List.mem_map.mp hp
      rw [join_key]
      unfold join at hj
      split at hj
      · next hkey =>
          rcases List.mem_append.mp hj with hj | hj
          · exact hshared p₀ hp₀ j hj
          · rw [List.mem_singleton.mp hj,hkey]
            exact hthere
      · exact hshared p₀ hp₀ j hj
  · have hkeys : s'.pendingByKey.map Pending.key = s.pendingByKey.map Pending.key++[key] := by
      rw [hentries,List.map_append]
      rfl
    refine ⟨by rw [hb.table]; exact hbook.distinct,by rw [hb.insertKeys,hb.table]; exact hbook.inserted,?_,
      ?_,?_,by rw [hleft]; exact hbook.leftOnce,?_,?_,hinformed⟩
    · rw [hkeys,hb.insertKeys,hb.uncertainKeys,hb.table]
      intro k hk
      rcases hbook.marked k hk with hmark | hmark | hpending
      · exact .inl hmark
      · exact .inr (.inl hmark)
      · exact .inr (.inr (List.mem_append_left _ hpending))
    · rw [hentries]
      intro p hp
      rcases List.mem_append.mp hp with hp | hp
      · exact hbook.named p hp
      · rw [List.mem_singleton.mp hp]
        exact hname
    · rw [hentries]
      intro p hp j hj
      rcases List.mem_append.mp hp with hp | hp
      · exact hshared p hp j hj
      · rw [List.mem_singleton.mp hp] at hj ⊢
        rw [List.mem_singleton.mp hj]
        exact hthere
    · rw [hleft,hkeys,horder]
      intro k hk
      obtain ⟨hpending,hout⟩ := hbook.left k hk
      refine ⟨List.mem_append_left _ hpending,fun hin => ?_⟩
      rw [List.append_assoc,List.mem_append,List.mem_append,List.mem_singleton] at hin
      rcases hin with hin | rfl | hin
      · exact hout (List.mem_append_left _ hin)
      · exact hfresh hpending
      · exact hout (List.mem_append_right _ hin)
    · rw [hleft,horder,hb.table]
      intro k hk
      rw [List.append_assoc,List.mem_append,List.mem_append,List.mem_singleton] at hk
      rcases hk with hk | rfl | hk
      · exact hbook.fresh k (List.mem_append_left _ hk)
      · exact fun hin => hfresh (hnew hin)
      · exact hbook.fresh k (List.mem_append_right _ hk)

theorem payloadKey_recordKey {fields : FeishuInsert.Record} (h : payloadKey config fields = .ok key) :
    recordKey config fields = some key := by
  unfold payloadKey at h
  dsimp only at h
  split at h
  · cases h
  · rw [recordKey,h]
    rfl

variable {x : Sender}

theorem joined_keyed (h : Keyed config s) (hx : Informed config (tableKeys config s.table) x) :
    Keyed config {s with senders := s.senders++[x]} := by
  have hbook := h.book
  refine ⟨⟨hbook.distinct,hbook.inserted,hbook.marked,hbook.named,fun p hp i hi => ?_,hbook.leftOnce,
    hbook.left,hbook.fresh,fun y hy => ?_⟩,h.fits⟩
  · obtain ⟨y,hy,hyk⟩ := hbook.shared p hp i hi
    refine ⟨y,?_,hyk⟩
    rw [List.getElem?_append_left (List.getElem?_eq_some_iff.mp hy).1]
    exact hy
  · rcases List.mem_append.mp hy with hy | hy
    · exact hbook.informed y hy
    · rw [List.mem_singleton.mp hy]
      exact hx

theorem send_keyed (h : Keyed config s) (fields : FeishuInsert.Record) :
    Keyed config (s.send config fields) := by
  unfold Sink.send
  split
  · exact h
  split
  · exact h
  · next key hkey =>
      have hname := payloadKey_recordKey hkey
      split
      · next hin =>
          exact joined_keyed h ⟨hname,fun _ => h.book.inserted key hin⟩
      split
      · refine joined_keyed h ⟨hname,fun htold => ?_⟩
        cases htold with
        | returned hphase => cases hphase
        | done hwaiter => cases hwaiter
        | found count hphase => cases hphase
      · next hout hcertain =>
          have hjoined : Keyed config {s with senders := s.senders++[⟨key,fields,.waiting,none⟩]} := by
            refine joined_keyed h ⟨hname,fun htold => ?_⟩
            cases htold with
            | returned hphase => cases hphase
            | done hwaiter => cases hwaiter
            | found count hphase => cases hphase
          obtain ⟨phase,hb⟩ := buffer_spec config
            {s with senders := s.senders++[⟨key,fields,.waiting,none⟩]} s.senders.length key fields
          refine buffered_keyed hjoined hb hname ⟨⟨key,fields,.waiting,none⟩,by simp,rfl⟩ fun hin => ?_
          rcases h.book.marked key hin with hmark | hmark | hpending
          · exact absurd hmark hout
          · exact absurd hmark hcertain
          · exact hpending

theorem learn_book (h : Book config s keys) {count : ℕ}
    (hfound : 0 < count → key ∈ tableKeys config s.table)
    (hkept : key ∈ tableKeys config s.table → 0 < count ∨ key ∈ s.insertKeys ∨
      key ∈ s.pendingByKey.map Pending.key) : Book config (s.learn key count) keys := by
  refine ⟨h.distinct,fun k hk => ?_,fun k hk => ?_,h.named,h.shared,h.leftOnce,h.left,h.fresh,h.informed⟩
  · simp only [Sink.learn] at hk
    split at hk
    · next hcount =>
        rcases Finset.mem_insert.mp hk with rfl | hk
        · exact hfound hcount
        · exact h.inserted k hk
    · exact h.inserted k hk
  · simp only [Sink.learn]
    have hins : ∀ k' ∈ s.insertKeys, k' ∈ if 0 < count then insert key s.insertKeys else s.insertKeys := by
      intro k' hk'
      split
      · exact Finset.mem_insert_of_mem hk'
      · exact hk'
    by_cases hkey : k = key
    · subst hkey
      rcases hkept hk with hcount | hmark | hpending
      · left
        rw [if_pos hcount]
        exact Finset.mem_insert_self k _
      · exact .inl (hins k hmark)
      · exact .inr (.inr hpending)
    · rcases h.marked k hk with hmark | hmark | hpending
      · exact .inl (hins k hmark)
      · exact .inr (.inl (Finset.mem_erase.mpr ⟨hkey,hmark⟩))
      · exact .inr (.inr hpending)

theorem reconciled_keyed {i : ℕ} {answer : Lookup} (h : Keyed config s)
    (hx : s.senders[i]? = some x) (hphase : x.phase = .reconciling (some answer))
    (hf : Faithful config s (.reconciled i)) : Keyed config (s.reconciled config i x answer) := by
  have hbook := h.book
  have hinformed := hbook.informed x (List.mem_of_getElem? hx)
  cases answer with
  | faulty fault => exact ⟨hbook.setPhase_untold (by simp) (by simp),h.fits⟩
  | matched count =>
    have hfound : 0 < count → x.key ∈ tableKeys config s.table := fun hcount =>
      hinformed.told (.found count hphase hcount)
    have hkept : x.key ∈ tableKeys config s.table → 0 < count ∨ x.key ∈ s.insertKeys ∨
        x.key ∈ s.pendingByKey.map Pending.key := by
      intro hin
      rcases Nat.eq_zero_or_pos count with rfl | hcount
      · exact .inr (hf x hx hphase hin)
      · exact .inl hcount
    have hlearnt : Keyed config (s.learn x.key count) := ⟨learn_book hbook hfound hkept,h.fits⟩
    simp only [Sink.reconciled]
    split
    · exact ⟨hbook.setPhase_untold (by simp) (by simp),h.fits⟩
    split
    · next hin =>
        refine ⟨hlearnt.book.setPhase fun y hy _ => ?_,hlearnt.fits⟩
        have hsame : s.senders[i]? = some y := hy
        rw [hx] at hsame
        cases hsame
        exact hlearnt.book.inserted x.key hin
    · next hout =>
        obtain ⟨phase,hb⟩ := buffer_spec config (s.learn x.key count) i x.key x.fields
        refine buffered_keyed hlearnt hb hinformed.named ⟨x,hx,rfl⟩ fun hin => ?_
        rcases hkept hin with hcount | hmark | hpending
        · refine absurd ?_ hout
          simp only [Sink.learn,if_pos hcount,Finset.mem_insert_self]
        · refine absurd ?_ hout
          simp only [Sink.learn]
          split
          · exact Finset.mem_insert_of_mem hmark
          · exact hmark
        · exact hpending

theorem kept_mono {gone rest : List String} (h : Kept config s gone) (hsub : rest ⊆ gone) :
    Kept config s rest := fun k hk => h k (hsub hk)

theorem recover_keyed {batch : List String} (h : Book config s batch) :
    Keyed config (s.recover config owner batch) := by
  have hmarked := h.setStates batch .recovering
  refine nextRound_keyed ⟨h.distinct,h.inserted,fun k hk => ?_,hmarked.named,hmarked.shared,h.leftOnce,
    hmarked.left,h.fresh,h.informed⟩ ?_
  · rcases hmarked.marked k hk with hmark | hmark | hpending
    · exact .inl hmark
    · exact .inr (.inl (Finset.mem_union_left _ hmark))
    · exact .inr (.inr hpending)
  · rw [exhausted,if_pos config.positive]
    exact fun k hk => absurd hk List.not_mem_nil

theorem confirm_kept {gone rest : List String} (h : Kept config s rest) (hout : ∀ k ∈ rest, k ∉ gone) :
    Kept config (s.confirm gone) rest := by
  intro k hk hin
  rcases h k hk hin with hmark | hmark
  · exact .inl (Finset.mem_union_left _ hmark)
  · exact .inr (Finset.mem_sdiff.mpr ⟨hmark,by simpa using hout k hk⟩)

theorem exhausted_subset (unresolved : List String) (round : ℕ) :
    exhausted config unresolved round ⊆ unresolved := by
  unfold exhausted
  split
  · exact List.nil_subset _
  · exact List.Subset.refl _

theorem respond_keyed {reply : Reply} (h : Keyed config s)
    (hshape : Shape calm s.pendingByKey s.pendingOrder (laneKeys s))
    (hlane : s.lane = some ⟨owner,write⟩)
    (hbusy : ∀ unresolved answers round, write ≠ .looking unresolved answers round)
    (hf : Faithful config s (.respond reply)) :
    Keyed config (s.respond config owner reply write) := by
  have hl : (⟨owner,write⟩ : Lane) ∈ s.lane := by rw [hlane]; rfl
  obtain ⟨hcomplete,hkept⟩ := hf ⟨owner,write⟩ hl
  have hbook := h.book
  have hfits := h.fits ⟨owner,write⟩ hl
  simp only [laneKeys,hlane] at hbook hshape
  cases write with
  | looking unresolved answers round => exact absurd rfl (hbusy unresolved answers round)
  | creating batch done =>
    have hall := List.Subset.refl batch
    simp only [Sink.respond]
    split
    · next hverdict =>
        have hin : ∀ k ∈ batch, k ∈ tableKeys config s.table := fun k hk =>
          (hfits k hk).mpr (hcomplete hverdict)
        exact release_keyed ((hbook.confirm hall hin).mono (List.nil_subset _)) owner
    · next hverdict =>
        have hkept : Kept config s batch := by simpa only [failedByReply,if_pos hverdict] using hkept
        have hsettled : Book config (s.settle false batch) batch := hbook.settle hall hkept (by simp)
        exact release_keyed (hsettled.mono (List.nil_subset _)) owner
    · exact recover_keyed hbook
  | recreating missing lookupFailed done round =>
    have hmissing : missing ⊆ lookupFailed++missing := List.subset_append_right _ _
    have hfailed : lookupFailed ⊆ lookupFailed++missing := List.subset_append_left _ _
    have hcross := (List.nodup_append.mp (List.nodup_append.mp hshape.claimed).2.1).2.2
    simp only [Sink.respond]
    split
    · next hverdict =>
        have hin : ∀ k ∈ missing, k ∈ tableKeys config s.table := fun k hk =>
          (hfits k hk).mpr (hcomplete hverdict)
        have hkept : Kept config s (exhausted config lookupFailed (round+1)) := by
          simpa only [failedByReply,hverdict] using hkept
        refine nextRound_keyed ((hbook.confirm hmissing hin).mono hfailed) (confirm_kept hkept ?_)
        exact fun k hk hgone => hcross k (exhausted_subset _ _ hk) k hgone rfl
    · next hverdict =>
        have hkept : Kept config s (missing++exhausted config lookupFailed (round+1)) := by
          simpa only [failedByReply,hverdict] using hkept
        have hsettled : Book config (s.settle false missing) (lookupFailed++missing) :=
          hbook.settle hmissing (kept_mono hkept (List.subset_append_left _ _)) (by simp)
        exact nextRound_keyed (hsettled.mono hfailed) (kept_mono hkept (List.subset_append_right _ _))
    · next hverdict =>
        have hkept : Kept config s (exhausted config (lookupFailed++missing) (round+1)) := by
          simpa only [failedByReply,hverdict] using hkept
        exact nextRound_keyed hbook hkept

theorem lookedUp_keyed {unresolved : List String} {answers : List (String × Lookup)} {round : ℕ}
    (h : Keyed config s) (hlane : s.lane = some ⟨owner,.looking unresolved answers round⟩)
    (hf : Faithful config s .lookedUp) :
    Keyed config (s.lookedUp config owner unresolved answers round) := by
  have hl : (⟨owner,.looking unresolved answers round⟩ : Lane) ∈ s.lane := by rw [hlane]; rfl
  have hkept := hf _ hl
  have hbook := h.book
  have hfits := h.fits _ hl
  simp only [laneKeys,hlane] at hbook
  have hsub : ∀ p, answered unresolved answers p ⊆ unresolved := fun p k hk => (mem_answered.mp hk).1
  have hcount : ∀ p k, k ∈ answered unresolved answers p → (∀ fault, p (.faulty fault) = false) →
      ∃ count, p (.matched count) = true ∧ (k ∈ tableKeys config s.table ↔ 0 < count) := by
    intro p k hk hfault
    obtain ⟨hin,answer,hanswer,hp⟩ := mem_answered.mp hk
    cases answer with
    | matched count => exact ⟨count,hp,hfits k hin count hanswer⟩
    | faulty fault =>
      rw [hfault fault] at hp
      cases hp
  have hfound : ∀ k ∈ answered unresolved answers isFound, k ∈ tableKeys config s.table := by
    intro k hk
    obtain ⟨count,hone,hiff⟩ := hcount isFound k hk fun _ => rfl
    simp only [isFound,decide_eq_true_eq] at hone
    exact hiff.mpr (by omega)
  have hmissing : ∀ k ∈ answered unresolved answers isMissing, k ∉ tableKeys config s.table := by
    intro k hk
    obtain ⟨count,hzero,hiff⟩ := hcount isMissing k hk fun _ => rfl
    simp only [isMissing,decide_eq_true_eq] at hzero
    exact fun hin => absurd (hiff.mp hin) (by omega)
  have hbroken : Book config (s.settle false (answered unresolved answers isBroken)) unresolved :=
    hbook.settle (hsub _) (kept_mono hkept (List.subset_append_left _ _)) (by simp)
  have hconfirmed := hbroken.confirm (hsub isFound) hfound
  unfold Sink.lookedUp
  dsimp only
  split
  · next hempty =>
      have hlast : Kept config s (exhausted config (answered unresolved answers isFailed) (round+1)) := by
        simp only [failedBySearch,if_pos hempty] at hkept
        exact kept_mono hkept (List.subset_append_right _ _)
      have hsettled : Kept config (s.settle false (answered unresolved answers isBroken))
          (exhausted config (answered unresolved answers isFailed) (round+1)) := hlast
      refine nextRound_keyed (hconfirmed.mono (hsub _)) (confirm_kept hsettled fun k hk => ?_)
      exact fun hin => answered_apart found_not_failed hin (exhausted_subset _ _ hk)
  · refine ⟨((hconfirmed.mono ?_).setStates _ _).lane _,fun l hl => ?_⟩
    · intro k hk
      rcases List.mem_append.mp hk with hk | hk
      · exact hsub _ hk
      · exact hsub _ hk
    · cases hl
      exact fun k hk => iff_of_false (hmissing k hk) Bool.false_ne_true

theorem cancelSender_keyed {i : ℕ} (h : Keyed config s)
    (hshape : Shape calm s.pendingByKey s.pendingOrder (laneKeys s))
    (hcancel : s.cancelSender i x = some s') : Keyed config s' := by
  unfold Sink.cancelSender at hcancel
  split at hcancel
  · cases hcancel
    exact ⟨h.book.setPhase_untold (by simp) (by simp),h.fits⟩
  · cases hcancel
    have habandon := abandon_keyed h hshape (.sender i)
    exact ⟨habandon.book.setPhase_untold (by simp) (by simp),habandon.fits⟩
  · cases hcancel
    refine ⟨h.book.modify (fun _ => rfl) fun y hy => ?_,h.fits⟩
    have hinformed := h.book.informed y (List.mem_of_getElem? hy)
    refine ⟨hinformed.named,fun htold => ?_⟩
    cases htold with
    | returned hphase => cases hphase
    | found count hphase => cases hphase
    | done hwaiter =>
      cases hw : y.waiter with
      | none => simp [hw] at hwaiter
      | some w =>
        cases w with
        | waiting => simp [hw] at hwaiter
        | done ok =>
          simp only [hw,Option.map_some] at hwaiter
          exact hinformed.told (.done (hw.trans hwaiter))
        | cancelled => simp [hw] at hwaiter
  · cases hcancel

theorem does_keyed {op : Op} (h : Keyed config s) (hsound : Sound calm s)
    (hf : Faithful config s op) (hdoes : Does config s op s') : Keyed config s' := by
  have hshape := hsound.shaped.shape
  have hbook := h.book
  cases hdoes with
  | send fields => exact send_keyed h fields
  | @reconcileLookup i x fault hx hphase =>
    refine ⟨hbook.setPhase fun y hy htold => ?_,h.fits⟩
    rw [hx] at hy
    cases hy
    have hinformed := hbook.informed x (List.mem_of_getElem? hx)
    cases htold with
    | returned hreturned => cases hreturned
    | done hwaiter => exact hinformed.told (.done hwaiter)
    | found count hfound hcount =>
      cases fault with
      | some fault => simp [Sink.search] at hfound
      | none =>
        simp only [Sink.search,Phase.reconciling.injEq,Option.some.injEq,Lookup.matched.injEq]
          at hfound
        exact List.count_pos_iff.mp (by omega)
  | reconciled hx hphase => exact reconciled_keyed h hx hphase hf
  | @wake i x ok hx hphase hwaiter =>
    refine ⟨hbook.setPhase fun y hy htold => ?_,h.fits⟩
    rw [hx] at hy
    cases hy
    have hinformed := hbook.informed x (List.mem_of_getElem? hx)
    cases ok with
    | true => exact hinformed.told (.done hwaiter)
    | false =>
      cases htold with
      | returned hreturned => cases hreturned
      | done hdone => exact hinformed.told (.done hdone)
      | found count hfound => cases hfound
  | timerFires htimer =>
    exact ⟨⟨hbook.distinct,hbook.inserted,hbook.marked,hbook.named,hbook.shared,hbook.leftOnce,
      hbook.left,hbook.fresh,hbook.informed⟩,h.fits⟩
  | acquire hfree hwants => exact acquire_keyed h hshape hfree
  | commit hlane hcommit => exact commit_keyed h hshape hlane hcommit
  | respond reply hlane hbusy => exact respond_keyed h hshape hlane hbusy hf
  | @lookUp owner unresolved answers round key fault hlane hkey hopen =>
    have hfits := h.fits _ (show (⟨owner,.looking unresolved answers round⟩ : Lane) ∈ s.lane by
      rw [hlane]; rfl)
    simp only [laneKeys,hlane] at hbook
    refine ⟨hbook.lane _,fun l hl => ?_⟩
    cases hl
    intro k hk count hcount
    by_cases hsame : k = key
    · rw [hsame,List.lookup_cons_self,Option.some.injEq] at hcount
      rw [hsame]
      cases fault with
      | some fault => cases hcount
      | none =>
        simp only [Sink.search,Lookup.matched.injEq] at hcount
        change key ∈ tableKeys config s.table ↔ 0 < count
        rw [← List.count_pos_iff]
        omega
    · have hother : (k == key) = false := by simpa using hsame
      simp only [List.lookup_cons,hother] at hcount
      exact hfits k hk count hcount
  | lookedUp hlane hall => exact lookedUp_keyed h hlane hf
  | close hopen =>
    have habandon := abandon_keyed h hshape .timer
    have hb := habandon.book
    exact ⟨⟨hb.distinct,hb.inserted,hb.marked,hb.named,hb.shared,hb.leftOnce,hb.left,hb.fresh,
      hb.informed⟩,habandon.fits⟩
  | cancelSender hx hcancel => exact cancelSender_keyed h hshape hcancel
  | cancelTimer =>
    have habandon := abandon_keyed h hshape .timer
    have hb := habandon.book
    exact ⟨⟨hb.distinct,hb.inserted,hb.marked,hb.named,hb.shared,hb.leftOnce,hb.left,hb.fresh,
      hb.informed⟩,habandon.fits⟩
  | lateCommit habandoned => exact lateCommit_keyed h habandoned

end Steps

section OncePerKey
variable (config : Config) (table : List FeishuInsert.Record)

/-- No key has two records, and a send that returned left its key in the table. -/
structure OncePerKey (s : Sink) : Prop where
  distinct : (tableKeys config s.table).Nodup
  written : ∀ x ∈ s.senders, x.phase = .returned → x.key ∈ tableKeys config s.table

theorem opened_keyed (h : (tableKeys config table).Nodup) : Keyed config (opened config table) := by
  refine ⟨⟨h,fun k hk => List.mem_toFinset.mp hk,fun k hk => .inl (List.mem_toFinset.mpr hk),
    fun p hp => (by cases hp),fun p hp => (by cases hp),List.nodup_nil,fun k hk => (by cases hk),
    fun k hk => (by cases hk),fun x hx => (by cases hx)⟩,fun l hl => (by cases hl)⟩

/-- Over a faithful table the records stay keyed. -/
theorem keyed_run {config : Config} {s s' : Sink} {es : List Event} (hrun : Run (Step config) s es s')
    (hf : ∀ e ∈ es, Faithful config e.before e.op) (h : Keyed config s) (hsound : Sound False s) :
    Keyed config s' := by
  induction hrun with
  | nil s => exact h
  | @cons s t u e es hstep _ ih =>
    obtain ⟨hbefore,hafter,hperform⟩ := hstep
    have hdoes := perform_does hperform
    have hfaithful := hf e List.mem_cons_self
    rw [hbefore] at hfaithful
    exact ih (fun e' he' => hf e' (List.mem_cons_of_mem _ he')) (does_keyed h hsound hfaithful hdoes)
      ((does_sound hsound hdoes).mono False.elim)

/-- From a table that has no key twice, runs of faithful steps keep it so. -/
theorem one_record_per_key (hdistinct : (tableKeys config table).Nodup) (es : List Event) (s : Sink)
    (h : Run (Step config) (opened config table) es s)
    (hf : ∀ e ∈ es, Faithful config e.before e.op) : OncePerKey config s := by
  have hkeyed := keyed_run h hf (opened_keyed config table hdistinct)
    ((opened_sound config table).mono False.elim)
  exact ⟨hkeyed.book.distinct,fun x hx hphase => (hkeyed.book.informed x hx).told (.returned hphase)⟩

/-- A create commits and its answer is lost; the search finds the record, and a later send
of the key returns at once. -/
theorem one_record_per_key_found : ∃ es s, Run (Step (byNumber 1 (by decide)))
    (opened (byNumber 1 (by decide)) []) es s ∧ s.senders.map Sender.phase = [.returned,.returned] ∧
      s.table = [one] ∧ OncePerKey (byNumber 1 (by decide)) s := by
  obtain ⟨es,s,htrace,hphases,htable,hfaithful⟩ :
      ∃ es s, (opened (byNumber 1 (by decide)) []).trace (byNumber 1 (by decide))
        [.send one,.acquire (.sender 0),.commit,.respond .raised,.lookUp "1" none,.lookedUp,.wake 0,
          .send one] = some (es,s) ∧
      s.senders.map Sender.phase = [.returned,.returned] ∧ s.table = [one] ∧
      ∀ e ∈ es, Faithful (byNumber 1 (by decide)) e.before e.op := by
    refine ⟨_,_,rfl,rfl,rfl,?_⟩
    simp only [List.forall_mem_cons]
    refine ⟨trivial,trivial,trivial,?_,trivial,?_,trivial,trivial,by simp⟩
    · intro l hl
      cases hl
      exact ⟨by decide,fun k hk => (by cases hk)⟩
    · intro l hl
      cases hl
      exact fun k hk => (by cases hk)
  exact ⟨es,s,run_of_trace _ _ htrace,hphases,htable,
    one_record_per_key _ [] (by decide) es s (run_of_trace _ _ htrace) hfaithful⟩

/-- A create commits and its body cannot be read: the status of a success counts as a
definite error, nothing is marked, and the send that is made again creates a second record. -/
theorem unreadable_reply_duplicates : ∃ es s, Run (Step (byNumber 1 (by decide)))
    (opened (byNumber 1 (by decide)) []) es s ∧ s.table = [one,one] ∧
      ¬OncePerKey (byNumber 1 (by decide)) s := by
  obtain ⟨es,s,htrace,htable⟩ :
      ∃ es s, (opened (byNumber 1 (by decide)) []).trace (byNumber 1 (by decide))
        [.send one,.acquire (.sender 0),.commit,.respond (.unparsable 200),.wake 0,.send one,
          .acquire (.sender 1),.commit] = some (es,s) ∧ s.table = [one,one] :=
    ⟨_,_,rfl,rfl⟩
  refine ⟨es,s,run_of_trace _ _ htrace,htable,fun honce => ?_⟩
  have hdistinct := honce.distinct
  rw [htable] at hdistinct
  exact absurd hdistinct (by decide)

end OncePerKey

end OneStep.InsertKeys
