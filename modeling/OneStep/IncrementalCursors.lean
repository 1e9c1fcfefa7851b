import OneStep.IncrementalSource
import OneStep.Transition

/-!
# Saved cursors of the incremental sources

The queue holds the fetched rows whose cursor was not saved, in the order they
were fetched, and a commit takes acked rows from its head only. Hence a saved
cursor passes no row on which neither ack nor fail was called, whatever retries,
releases and failed saves came between, and the saved cursors ascend.
-/
namespace OneStep.IncrementalCursors
open IncrementalSource Transition

section Commit
variable {κ : Type} [DecidableEq κ] {s : Source κ} {batch rest : List κ}

/-- A batch that stands at the head of the queue is committed without error. -/
theorem popCommitted_eq (hpending : s.pending = batch++rest) (hnodup : batch.Nodup)
    (hacked : ∀ row ∈ batch, row ∈ s.acked) :
    popCommitted batch s = ({s with
      pending := rest
      acked := s.acked \ batch.toFinset
      retryRows := batch.foldl (fun rows row => rows.erase row) s.retryRows},true) := by
  induction batch generalizing s with
  | nil =>
    rw [List.nil_append] at hpending
    simp [popCommitted,← hpending]
  | cons row batch ih =>
    obtain ⟨hnot,hnodup⟩ := List.nodup_cons.mp hnodup
    rw [popCommitted,hpending,List.cons_append]
    have hrow : row ∈ s.acked := hacked row (by simp)
    simp only [ne_eq,not_true_eq_false,if_false,hrow]
    rw [ih rfl hnodup]
    · simp only [List.foldl_cons,List.toFinset_cons,Finset.sdiff_insert,Finset.erase_sdiff_comm]
    · intro other hother
      refine Finset.mem_erase.mpr ⟨?_,hacked other (by simp [hother])⟩
      rintro rfl
      exact hnot hother

/-- What a commit of the rows at the head of the queue leaves. -/
def afterCommit (s : Source κ) (batch rest : List κ) (highest : κ) : Source κ :=
  {s with
    pending := rest
    acked := s.acked \ batch.toFinset
    retryRows := batch.foldl (fun rows row => rows.erase row) s.retryRows
    committedCursor := some highest
    fetchedCursor := if rest = [] then some highest else s.fetchedCursor
    flush := .idle
    saves := s.saves++[highest]}

theorem flushRound_of_head (h : ∀ row ∈ s.pending.head?, row ∉ s.acked) :
    s.flushRound = s.endFlush true := by
  have hnil : s.ackedHead = [] := by
    rw [Source.ackedHead]
    cases hpending : s.pending with
    | nil => rfl
    | cons row rows => simp [h row (by simp [hpending])]
  simp [Source.flushRound,hnil]

theorem commitBatch_eq {highest : κ} (hpending : s.pending = batch++rest) (hnodup : batch.Nodup)
    (hacked : ∀ row ∈ batch, row ∈ s.acked) :
    s.commitBatch batch highest = (afterCommit s batch rest highest).flushRound := by
  unfold Source.commitBatch
  rw [popCommitted_eq (s := {s with saves := s.saves++[highest]}) hpending hnodup hacked]
  dsimp only
  split
  · next head hhead =>
      split
      · rfl
      · next hnot =>
          refine (flushRound_of_head (s := afterCommit s batch rest highest) fun row hrow => ?_).symm
          rw [show row = head from Option.some.inj (hrow.symm.trans hhead)]
          exact hnot
  · next hhead =>
      refine (flushRound_of_head (s := afterCommit s batch rest highest) fun row hrow => ?_).symm
      cases hrow.symm.trans hhead

theorem ackedHead_isPrefixOf : s.ackedHead <+: s.pending := List.takeWhile_prefix _

theorem mem_ackedHead {row : κ} (h : row ∈ s.ackedHead) : row ∈ s.acked :=
  of_decide_eq_true (List.mem_takeWhile_imp (p := fun row => decide (row ∈ s.acked)) h)

end Commit

section Invariant
variable {κ : Type} [LinearOrder κ] {s s' : Source κ} {backend : Backend} {batchSize : ℕ}

/-- The cursor under way to the store is of a fetched row, and ack or fail was
called on every row fetched up to it. -/
def SavesCalled (s : Source κ) : Prop :=
  ∀ batch highest, s.flush = .saving batch highest → ∃ before after,
    s.fetched = before++highest::after ∧ ∀ row ∈ before++[highest], row ∈ s.called

structure CursorInvariant (s : Source κ) : Prop where
  split : ∃ committed, s.fetched = committed++s.pending ∧ ∀ row ∈ committed, row ∈ s.called
  ascending : s.fetched.Pairwise (· < ·)
  acked : s.acked ⊆ s.called
  reached : ∀ row ∈ s.fetched, ∃ cursor ∈ s.fetchedCursor, row ≤ cursor
  querying : ∀ readCursor limit, s.fetching = .querying readCursor limit →
    ∀ row ∈ s.fetched, ∃ cursor ∈ readCursor, row ≤ cursor
  saving : ∀ batch highest, s.flush = .saving batch highest →
    batch <+: s.pending ∧ batch.getLast? = some highest ∧ ∀ row ∈ batch, row ∈ s.acked
  saves : s.saves.Pairwise (· ≤ ·)
  known : ∀ cursor ∈ s.saves, cursor ∈ s.fetched
  below : ∀ cursor ∈ s.saves, ∀ row ∈ s.pending, cursor < row

theorem CursorInvariant.savesCalled (h : CursorInvariant s) : SavesCalled s := by
  intro batch highest hsaving
  obtain ⟨⟨rest,hrest⟩,hlast,hacked⟩ := h.saving batch highest hsaving
  obtain ⟨committed,hfetched,hcalled⟩ := h.split
  obtain ⟨init,rfl⟩ := List.getLast?_eq_some_iff.mp hlast
  refine ⟨committed++init,rest,?_,?_⟩
  · rw [hfetched,← hrest]
    simp
  · intro row hrow
    simp only [List.append_assoc,List.mem_append] at hrow
    rcases hrow with hrow | hrow
    · exact hcalled row hrow
    · exact h.acked (hacked row (List.mem_append.mpr hrow))

theorem cursor_opened (loaded : Option κ) : CursorInvariant (opened loaded) where
  split := ⟨[],rfl,by simp⟩
  ascending := List.Pairwise.nil
  acked := Finset.Subset.refl _
  reached := by simp [opened]
  querying := by simp [opened]
  saving := by simp [opened]
  saves := List.Pairwise.nil
  known := by simp [opened]
  below := by simp [opened]

/-- What a step may do to the fields the invariant reads when it neither fetches
nor commits. -/
structure Calm (s s' : Source κ) : Prop where
  pending : s'.pending = s.pending
  fetched : s'.fetched = s.fetched
  fetchedCursor : s'.fetchedCursor = s.fetchedCursor
  saves : s'.saves = s.saves
  called : s.called ⊆ s'.called
  acked : s.acked ⊆ s'.acked
  ackedCalled : s'.acked ⊆ s.acked ∪ s'.called
  querying : ∀ readCursor limit, s'.fetching = .querying readCursor limit →
    s.fetching = .querying readCursor limit
  saving : ∀ batch highest, s'.flush = .saving batch highest →
    s.flush = .saving batch highest ∨
      (batch = s'.ackedHead ∧ batch.getLast? = some highest)

theorem calm_of_eq (hpending : s'.pending = s.pending) (hfetched : s'.fetched = s.fetched)
    (hcursor : s'.fetchedCursor = s.fetchedCursor) (hsaves : s'.saves = s.saves)
    (hacked : s'.acked = s.acked) (hflush : s'.flush = s.flush) (hcalled : s.called ⊆ s'.called)
    (hquerying : ∀ readCursor limit, s'.fetching = .querying readCursor limit →
      s.fetching = .querying readCursor limit) : Calm s s' where
  pending := hpending
  fetched := hfetched
  fetchedCursor := hcursor
  saves := hsaves
  called := hcalled
  acked := hacked ▸ Finset.Subset.refl _
  ackedCalled := hacked ▸ Finset.subset_union_left
  querying := hquerying
  saving := fun _ _ hs => .inl (hflush ▸ hs)

theorem CursorInvariant.calm (h : CursorInvariant s) (hc : Calm s s') : CursorInvariant s' := by
  constructor
  · obtain ⟨committed,hfetched,hcalled⟩ := h.split
    refine ⟨committed,?_,fun row hrow => hc.called (hcalled row hrow)⟩
    rw [hc.fetched,hc.pending]
    exact hfetched
  · rw [hc.fetched]
    exact h.ascending
  · intro row hrow
    rcases Finset.mem_union.mp (hc.ackedCalled hrow) with hrow | hrow
    · exact hc.called (h.acked hrow)
    · exact hrow
  · rw [hc.fetched,hc.fetchedCursor]
    exact h.reached
  · intro readCursor limit hq
    rw [hc.fetched]
    exact h.querying readCursor limit (hc.querying readCursor limit hq)
  · intro batch highest hs
    rw [hc.pending]
    rcases hc.saving batch highest hs with hs | ⟨rfl,hlast⟩
    · obtain ⟨hhead,hlast,hacked⟩ := h.saving batch highest hs
      exact ⟨hhead,hlast,fun row hrow => hc.acked (hacked row hrow)⟩
    · exact ⟨hc.pending ▸ ackedHead_isPrefixOf,hlast,fun row hrow => mem_ackedHead hrow⟩
  · rw [hc.saves]
    exact h.saves
  · rw [hc.saves,hc.fetched]
    exact h.known
  · rw [hc.saves,hc.pending]
    exact h.below

theorem CursorInvariant.endFlush (h : CursorInvariant s) (ok : Bool) :
    CursorInvariant (s.endFlush ok) :=
  h.calm ⟨rfl,rfl,rfl,rfl,Finset.Subset.refl _,Finset.Subset.refl _,Finset.subset_union_left,
    fun _ _ hq => hq,fun _ _ hs => by cases hs⟩

theorem CursorInvariant.flushRound (h : CursorInvariant s) : CursorInvariant s.flushRound := by
  unfold Source.flushRound
  split
  · exact h.endFlush true
  · next highest hlast =>
      refine h.calm ⟨rfl,rfl,rfl,rfl,Finset.Subset.refl _,Finset.Subset.refl _,
        Finset.subset_union_left,fun _ _ hq => hq,?_⟩
      intro batch highest' hs
      cases hs
      exact .inr ⟨rfl,hlast⟩

theorem CursorInvariant.register {readCursor : Option κ} {limit : ℕ} {rows : List κ}
    (h : CursorInvariant s) (hq : s.fetching = .querying readCursor limit)
    (hsorted : rows.Pairwise (· < ·)) (habove : ∀ row ∈ rows, ∀ cursor ∈ readCursor, cursor < row) :
    CursorInvariant (s.register rows) := by
  have hnew : ∀ old ∈ s.fetched, ∀ row ∈ rows, old < row := by
    intro old hold row hrow
    obtain ⟨cursor,hcursor,hle⟩ := h.querying readCursor limit hq old hold
    exact lt_of_le_of_lt hle (habove row hrow cursor hcursor)
  constructor
  · obtain ⟨committed,hfetched,hcalled⟩ := h.split
    refine ⟨committed,?_,hcalled⟩
    simp only [Source.register]
    rw [hfetched,List.append_assoc]
  · exact List.pairwise_append.mpr ⟨h.ascending,hsorted,hnew⟩
  · exact h.acked
  · intro row hrow
    simp only [Source.register] at hrow ⊢
    cases hlast : rows.getLast? with
    | none =>
      rw [List.getLast?_eq_none_iff.mp hlast,List.append_nil] at hrow
      exact h.reached row hrow
    | some last =>
      obtain ⟨init,rfl⟩ := List.getLast?_eq_some_iff.mp hlast
      refine ⟨last,rfl,?_⟩
      rcases List.mem_append.mp hrow with hrow | hrow
      · exact (hnew row hrow last (by simp)).le
      · rcases List.mem_append.mp hrow with hrow | hrow
        · exact ((List.pairwise_append.mp hsorted).2.2 row hrow last (by simp)).le
        · exact (List.mem_singleton.mp hrow).le
  · intro readCursor' limit' hq'
    cases hq'
  · intro batch highest hs
    obtain ⟨hhead,hrest⟩ := h.saving batch highest hs
    exact ⟨hhead.trans (List.prefix_append _ _),hrest⟩
  · exact h.saves
  · intro cursor hcursor
    exact List.mem_append.mpr (.inl (h.known cursor hcursor))
  · intro cursor hcursor row hrow
    rcases List.mem_append.mp hrow with hrow | hrow
    · exact h.below cursor hcursor row hrow
    · exact hnew cursor (h.known cursor hcursor) row hrow

theorem CursorInvariant.commit {batch : List κ} {highest : κ} (h : CursorInvariant s)
    (hs : s.flush = .saving batch highest) : CursorInvariant (s.commitBatch batch highest) := by
  obtain ⟨⟨rest,hrest⟩,hlast,hacked⟩ := h.saving batch highest hs
  obtain ⟨init,rfl⟩ := List.getLast?_eq_some_iff.mp hlast
  obtain ⟨committed,hfetched,hcalled⟩ := h.split
  have hsorted := h.ascending
  rw [hfetched,← hrest] at hsorted
  have hparts := List.pairwise_append.mp (List.pairwise_append.mp hsorted).2.1
  have hbatch := hparts.1
  have hnodup : (init++[highest]).Nodup := hbatch.imp ne_of_lt
  have hafter : CursorInvariant (afterCommit s (init++[highest]) rest highest) := by
    constructor
    · refine ⟨committed++(init++[highest]),?_,?_⟩
      · simp only [afterCommit,List.append_assoc]
        rw [hfetched,← hrest]
        simp
      · intro row hrow
        rcases List.mem_append.mp hrow with hrow | hrow
        · exact hcalled row hrow
        · exact h.acked (hacked row hrow)
    · exact h.ascending
    · exact fun row hrow => h.acked (Finset.mem_sdiff.mp hrow).1
    · intro row hrow
      simp only [afterCommit]
      split
      · next hnil =>
          refine ⟨highest,rfl,?_⟩
          simp only [afterCommit,hfetched,← hrest,hnil,List.append_nil] at hrow
          rw [hnil,List.append_nil] at hsorted
          rcases List.mem_append.mp hrow with hrow | hrow
          · exact ((List.pairwise_append.mp hsorted).2.2 row hrow highest (by simp)).le
          · rcases List.mem_append.mp hrow with hrow | hrow
            · exact ((List.pairwise_append.mp hbatch).2.2 row hrow highest (by simp)).le
            · exact (List.mem_singleton.mp hrow).le
      · exact h.reached row hrow
    · exact h.querying
    · intro batch' highest' hs'
      cases hs'
    · refine List.pairwise_append.mpr ⟨h.saves,by simp,?_⟩
      intro cursor hcursor row hrow
      rw [List.mem_singleton.mp hrow]
      exact (h.below cursor hcursor highest (by rw [← hrest]; simp)).le
    · intro cursor hcursor
      rcases List.mem_append.mp hcursor with hcursor | hcursor
      · exact h.known cursor hcursor
      · rw [List.mem_singleton.mp hcursor]
        simp only [afterCommit]
        rw [hfetched,← hrest]
        simp
    · intro cursor hcursor row hrow
      rcases List.mem_append.mp hcursor with hcursor | hcursor
      · exact h.below cursor hcursor row (by rw [← hrest]; simp [show row ∈ rest from hrow])
      · rw [List.mem_singleton.mp hcursor]
        exact hparts.2.2 highest (by simp) row hrow
  rw [commitBatch_eq hrest.symm hnodup hacked]
  exact hafter.flushRound

theorem CursorInvariant.ack (h : CursorInvariant s) (i : ℕ) (row : κ) :
    CursorInvariant (s.ackToken i row) := by
  have hadded : CursorInvariant
      {s with acked := insert row s.acked,called := insert row s.called} := by
    refine h.calm ⟨rfl,rfl,rfl,rfl,Finset.subset_insert _ _,Finset.subset_insert _ _,?_,
      fun _ _ hq => hq,fun _ _ hs => .inl hs⟩
    intro other hother
    rcases Finset.mem_insert.mp hother with rfl | hother
    · exact Finset.mem_union_right _ (Finset.mem_insert_self _ _)
    · exact Finset.mem_union_left _ hother
  unfold Source.ackToken
  dsimp only
  split
  · exact hadded.calm (calm_of_eq rfl rfl rfl rfl rfl rfl (Finset.Subset.refl _) fun _ _ hq => hq)
  · split
    · exact hadded.calm (calm_of_eq rfl rfl rfl rfl rfl rfl (Finset.Subset.refl _) fun _ _ hq => hq)
    · refine hadded.calm ⟨rfl,rfl,rfl,rfl,Finset.Subset.refl _,Finset.Subset.refl _,
        Finset.subset_union_left,fun _ _ hq => hq,?_⟩
      intro batch highest hs
      simp only [Source.setPhase] at hs
      split at hs
      · cases hs
      · exact .inl hs

/-- Every step keeps the cursors in order. -/
theorem CursorInvariant.step {op : Op κ} (h : CursorInvariant s)
    (hs : perform backend batchSize s op = some s') (hgenuine : Genuine s op) :
    CursorInvariant s' := by
  cases performed hs with
  | startFetch limit now =>
    unfold Source.startFetch
    split
    · exact h
    · split
      · unfold Source.takeRetry
        split
        · exact h
        · exact h.calm (calm_of_eq rfl rfl rfl rfl rfl rfl (Finset.Subset.refl _) fun _ _ hq => hq)
      · split
        · exact h
        · exact h.calm (calm_of_eq rfl rfl rfl rfl rfl rfl (Finset.Subset.refl _) fun _ _ hq => by cases hq)
  | query =>
    refine ⟨h.split,h.ascending,h.acked,h.reached,?_,h.saving,h.saves,h.known,h.below⟩
    intro readCursor limit hq row hrow
    cases hq
    obtain ⟨cursor,hcursor,hle⟩ := h.reached row hrow
    refine ⟨cursor,?_,hle⟩
    rw [Option.mem_def.mp hcursor]
    rfl
  | gotRows readCursor limit rows hquerying =>
    simp only [Genuine,hquerying] at hgenuine
    exact h.register hquerying hgenuine.1 hgenuine.2
  | fetchEnds =>
    exact h.calm (calm_of_eq rfl rfl rfl rfl rfl rfl (Finset.Subset.refl _) fun _ _ hq => by cases hq)
  | ack i d => exact h.ack i d.row
  | fail =>
    exact h.calm (calm_of_eq rfl rfl rfl rfl rfl rfl (Finset.subset_insert _ _) fun _ _ hq => hq)
  | retry | dropped | released =>
    exact h.calm (calm_of_eq rfl rfl rfl rfl rfl rfl (Finset.Subset.refl _) fun _ _ hq => hq)
  | flushStarts => exact h.flushRound
  | saved batch highest hsaving => exact h.commit hsaving
  | saveFailed => exact h.endFlush false

/-- A cursor that is saved passes only rows on which ack or fail was called, and
the saved cursors never go back. -/
theorem saves_pass_called (backend : Backend) (batchSize : ℕ) (loaded : Option κ) (s : Source κ)
    (h : Reachable (opened loaded) (Step backend batchSize fun _ _ => True) s) :
    SavesCalled s ∧ s.saves.Pairwise (· ≤ ·) := by
  have hinv := h.invariant (I := CursorInvariant) (cursor_opened loaded)
    fun s op s' h hstep => h.step hstep.1 hstep.2.1
  exact ⟨hinv.savesCalled,hinv.saves⟩

end Invariant

section Samples

theorem source_reachable {allowed : Source ℕ → Op ℕ → Prop} [∀ s op, Decidable (allowed s op)]
    {backend : Backend} {batchSize : ℕ} {s t : Source ℕ} {ops : List (Op ℕ)}
    (h : runs (perform backend batchSize) (fun s op => decide (Genuine s op ∧ allowed s op)) s ops =
      some t) : Reachable s (Step backend batchSize allowed) t :=
  ⟨ops,run_of_runs (fun _ _ => of_decide_eq_true) h⟩

/-- Acks out of order, and one that joins the commit task while it saves. -/
def coalesced : List (Op ℕ) :=
  [.startFetch 3 0,.query,.gotRows [1,2,3],.ack 1,.ack 0,.flushStarts,.ack 2,.saveReturns true]

/-- One save passes called rows only. -/
theorem coalesced_passes_called : ∃ s, Reachable (opened none)
    (Step .postgres 10 fun _ _ => True) s ∧ s.saves = [2] ∧ s.flush = .saving [3] 3 ∧
      SavesCalled s ∧ s.saves.Pairwise (· ≤ ·) := by
  have hrun : ((runs (perform .postgres 10) (fun s op => decide (Genuine s op ∧ True))
      (opened none) coalesced).map fun s => (s.saves,s.flush)) = some ([2],.saving [3] 3) := by
    decide +kernel
  obtain ⟨s,hs,he⟩ := Option.map_eq_some_iff.mp hrun
  have hreach := source_reachable hs
  simp only [Prod.mk.injEq] at he
  have hpass := saves_pass_called .postgres 10 none s hreach
  exact ⟨s,hreach,he.1,he.2,hpass⟩

end Samples

end OneStep.IncrementalCursors
