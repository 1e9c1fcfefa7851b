import OneStep.IncrementalProgress
import OneStep.MemoryQueue
import OneStep.ScheduleOverlap

/-!
# Released work

When a stop control meets a finished fetch, the runner releases what it fetched
and never started. Releasing is a call the base class leaves empty. The memory
queue and the schedule sources do not override it, and of the three incremental
sources PostgreSQL alone does not, although its source has the operation.
-/
namespace OneStep.ReleasedWork
open Transition WorkItems

section Incremental
open IncrementalSource IncrementalCursors IncrementalProgress
variable {κ : Type} [LinearOrder κ] {s s' : Source κ} {backend : Backend} {batchSize : ℕ}
  {op : Op κ} {row : κ}

def handedRows (s : Source κ) : List κ := s.deliveries.map Delivery.row

/-- Deliveries of a row that are not settled. -/
def openFor (s : Source κ) (row : κ) : ℕ :=
  s.deliveries.countP fun d => decide (d.phase ≠ .settled) && decide (d.row = row)

/-- Whether a row waits to be handed out again. -/
def waiting (s : Source κ) (row : κ) : ℕ :=
  match s.retryRows.lookup row with
  | none => 0
  | some r => if r.inFlight then 0 else 1

/-- How often a row is with a delivery or waits for one. -/
def tokens (s : Source κ) (row : κ) : ℕ := openFor s row+waiting s row

/-- The rows a step reads from the table. -/
def Op.rows : Op κ → List κ
  | .gotRows rows => rows
  | _ => []

/-- What a step does to the rows it does not read. A row is handed out again only
from the queue, when it waits there and no row has failed. -/
structure Moved (s : Source κ) (new : List κ) (s' : Source κ) : Prop where
  tokens : ∀ row, tokens s' row ≤ tokens s row+new.count row
  failed : s.terminalError ≠ none → s'.terminalError ≠ none
  pending : ∀ row ∈ s'.pending, row ∈ s.pending ∨ row ∈ new
  fetched : s'.fetched = s.fetched++new
  handed : ∃ again, handedRows s' = handedRows s++again++new ∧
    ∀ row ∈ again, waiting s row ≠ 0 ∧ s.terminalError = none ∧ row ∈ s.pending

/-- A step that hands out nothing. -/
structure NoneHanded (s s' : Source κ) : Prop where
  tokens : ∀ row, tokens s' row ≤ tokens s row
  failed : s.terminalError ≠ none → s'.terminalError ≠ none
  pending : ∀ row ∈ s'.pending, row ∈ s.pending
  fetched : s'.fetched = s.fetched
  handed : handedRows s' = handedRows s

theorem NoneHanded.trans {t : Source κ} (h : NoneHanded s s') (h' : NoneHanded s' t) :
    NoneHanded s t where
  tokens row := (h'.tokens row).trans (h.tokens row)
  failed hfailed := h'.failed (h.failed hfailed)
  pending row hrow := h.pending row (h'.pending row hrow)
  fetched := h'.fetched.trans h.fetched
  handed := h'.handed.trans h.handed

theorem NoneHanded.moved (h : NoneHanded s s') : Moved s [] s' where
  tokens := h.tokens
  failed := h.failed
  pending row hrow := .inl (h.pending row hrow)
  fetched := by rw [h.fetched,List.append_nil]
  handed := ⟨[],by rw [h.handed,List.append_nil,List.append_nil],by simp⟩

section Phases

omit [LinearOrder κ] in
theorem handedRows_setPhase (s : Source κ) (i : ℕ) (phase : Phase) :
    handedRows (s.setPhase i phase) = handedRows s :=
  map_modify (f := fun d : Delivery κ => {d with phase := phase}) (fun _ => rfl) s.deliveries i

omit [LinearOrder κ] in
variable {d : Delivery κ} {i : ℕ}

omit [LinearOrder κ] in
theorem outstanding_get (h : s.outstanding i = some d) :
    s.deliveries[i]? = some d ∧ d.phase ≠ .settled := by
  obtain ⟨hd,hphase⟩ := Option.filter_eq_some_iff.mp h
  refine ⟨hd,?_⟩
  rcases of_decide_eq_true hphase with hphase | hphase <;> rw [hphase] <;> decide

theorem openFor_settle (h : s.outstanding i = some d) (row : κ) :
    openFor (s.setPhase i .settled) row+(if d.row = row then 1 else 0) = openFor s row := by
  obtain ⟨hd,hopen⟩ := outstanding_get h
  have hcount := countP_modify
    (p := fun d : Delivery κ => decide (d.phase ≠ .settled) && decide (d.row = row))
    (f := fun d => {d with phase := .settled}) hd
  unfold openFor Source.setPhase
  simpa [hopen] using hcount

theorem openFor_acking (h : s.outstanding i = some d) (row : κ) :
    openFor (s.setPhase i .acking) row = openFor s row := by
  obtain ⟨hd,hopen⟩ := outstanding_get h
  have hcount := countP_modify
    (p := fun d : Delivery κ => decide (d.phase ≠ .settled) && decide (d.row = row))
    (f := fun d => {d with phase := .acking}) hd
  unfold openFor Source.setPhase
  simpa [hopen] using hcount

omit [LinearOrder κ] in
theorem handedRows_endFlush (s : Source κ) (ok : Bool) :
    handedRows (s.endFlush ok) = handedRows s := by
  unfold handedRows Source.endFlush
  rw [List.map_map]
  refine List.map_congr_left fun d _ => ?_
  simp only [Function.comp_apply]
  split <;> rfl

theorem openFor_endFlush (s : Source κ) (ok : Bool) (row : κ) :
    openFor (s.endFlush ok) row ≤ openFor s row := by
  unfold openFor Source.endFlush
  rw [List.countP_map]
  refine List.countP_mono_left fun d _ hd => ?_
  simp only [Function.comp_apply] at hd
  by_cases hacking : d.phase = .acking
  · rw [if_pos hacking] at hd
    simp only [Bool.and_eq_true] at hd
    simp [hacking,of_decide_eq_true hd.2]
  · rw [if_neg hacking] at hd
    exact hd

theorem noneHanded_endFlush (s : Source κ) (ok : Bool) : NoneHanded s (s.endFlush ok) :=
  ⟨fun row => Nat.add_le_add_right (openFor_endFlush s ok row) _,fun h => h,fun _ h => h,rfl,
    handedRows_endFlush s ok⟩

theorem noneHanded_flushRound (s : Source κ) : NoneHanded s s.flushRound := by
  unfold Source.flushRound
  split
  · exact noneHanded_endFlush s true
  · exact ⟨fun _ => le_rfl,fun h => h,fun _ h => h,rfl,rfl⟩

theorem lookup_erased (batch : List κ) (rows : AList (fun _ : κ => RetryRow)) (row : κ) :
    (batch.foldl (fun rows row => rows.erase row) rows).lookup row = none ∨
      (batch.foldl (fun rows row => rows.erase row) rows).lookup row = rows.lookup row := by
  induction batch generalizing rows with
  | nil => exact .inr rfl
  | cons other batch ih =>
    rw [List.foldl_cons]
    rcases ih (rows.erase other) with hnone | hsame
    · exact .inl hnone
    · rw [hsame]
      by_cases heq : row = other
      · subst heq
        exact .inl (AList.lookup_erase _ _)
      · exact .inr (AList.lookup_erase_ne heq)

theorem noneHanded_commit {batch : List κ} {highest : κ} (h : CursorInvariant s)
    (hs : s.flush = .saving batch highest) : NoneHanded s (s.commitBatch batch highest) := by
  obtain ⟨⟨rest,hrest⟩,-,hacked⟩ := h.saving batch highest hs
  obtain ⟨committed,hfetched,-⟩ := h.split
  have hsorted := h.ascending
  rw [hfetched,← hrest] at hsorted
  have hbatch := (List.pairwise_append.mp (List.pairwise_append.mp hsorted).2.1).1
  have hafter : NoneHanded s (afterCommit s batch rest highest) := by
    refine ⟨fun row => ?_,fun hfailed => hfailed,fun row hrow => ?_,rfl,rfl⟩
    · refine Nat.add_le_add_left ?_ _
      unfold waiting afterCommit
      dsimp only
      rcases lookup_erased batch s.retryRows row with hnone | hsame
      · rw [hnone]
        exact Nat.zero_le _
      · rw [hsame]
    · rw [← hrest]
      exact List.mem_append_right _ hrow
  rw [commitBatch_eq hrest.symm (hbatch.imp ne_of_lt) hacked]
  exact hafter.trans (noneHanded_flushRound _)

theorem waiting_le_one (s : Source κ) (row : κ) : waiting s row ≤ 1 := by
  unfold waiting
  split
  · exact Nat.zero_le 1
  · split <;> omega

/-- A settled delivery leaves at most an entry that waits in its place. -/
theorem noneHanded_settle (hd : s.outstanding i = some d)
    (hdeliveries : s'.deliveries = (s.setPhase i .settled).deliveries)
    (hretry : ∀ row ≠ d.row, s'.retryRows.lookup row = s.retryRows.lookup row)
    (hfailed : s.terminalError ≠ none → s'.terminalError ≠ none) (hpending : s'.pending = s.pending)
    (hfetched : s'.fetched = s.fetched) : NoneHanded s s' := by
  refine ⟨fun row => ?_,hfailed,fun row hrow => hpending ▸ hrow,hfetched,?_⟩
  · have hopen : openFor s' row = openFor (s.setPhase i .settled) row := by
      unfold openFor
      rw [hdeliveries]
    have hsettle := openFor_settle hd row
    have hone := waiting_le_one s' row
    unfold tokens
    by_cases hrow : d.row = row
    · rw [if_pos hrow] at hsettle
      omega
    · rw [if_neg hrow] at hsettle
      have hsame : waiting s' row = waiting s row := by
        unfold waiting
        rw [hretry row (Ne.symm hrow)]
      omega
  · unfold handedRows
    rw [hdeliveries]
    exact handedRows_setPhase s i .settled

end Phases

section Steps

variable {now : ℚ}

theorem moved_takeRetry (hopen : s.terminalError = none) (hready : s.readyRetry now = some row) :
    Moved s [] (s.takeRetry row) := by
  have hfound := List.find?_some hready
  have hmem := mem_readyRetry hready
  unfold Source.takeRetry
  cases hlookup : s.retryRows.lookup row with
  | none =>
    rw [hlookup] at hfound
    cases hfound
  | some r =>
    rw [hlookup] at hfound
    obtain ⟨hidle,-⟩ := Bool.and_eq_true_iff.mp hfound
    have hwaiting : waiting s row = 1 := by
      unfold waiting
      rw [hlookup]
      simpa using hidle
    refine ⟨fun other => ?_,fun hfailed => hfailed,fun _ hrow => .inl hrow,
      (List.append_nil _).symm,[row],?_,?_⟩
    · unfold tokens openFor waiting
      dsimp only
      rw [List.countP_append,List.countP_singleton]
      by_cases hother : other = row
      · subst hother
        unfold waiting at hwaiting
        rw [AList.lookup_insert,hwaiting]
        simp
      · rw [AList.lookup_insert_ne hother]
        simp [Ne.symm hother]
    · unfold handedRows
      dsimp only
      rw [List.map_append,List.append_nil]
      rfl
    · intro other hother
      rw [List.mem_singleton.mp hother,hwaiting]
      exact ⟨one_ne_zero,hopen,hmem⟩

theorem moved_register (rows : List κ) : Moved s rows (s.register rows) := by
  refine ⟨fun row => ?_,fun hfailed => hfailed,fun row hrow => List.mem_append.mp hrow,rfl,[],?_,
    by simp⟩
  · unfold tokens openFor waiting Source.register
    dsimp only
    rw [List.countP_append,List.countP_map]
    have hnew : List.countP ((fun d : Delivery κ => decide (d.phase ≠ .settled) && decide (d.row = row)) ∘
        fun row => ⟨row,0,.out⟩) rows = rows.count row := by
      unfold List.count
      refine List.countP_congr fun other _ => ?_
      simp
    omega
  · unfold handedRows Source.register
    dsimp only
    rw [List.map_append,List.map_map,List.append_nil]
    congr 1
    exact List.map_id rows

theorem moved_step (h : CursorInvariant s) (hs : perform backend batchSize s op = some s') :
    Moved s (Op.rows op) s' := by
  cases performed hs with
  | startFetch limit now =>
    unfold Source.startFetch
    split
    · exact NoneHanded.moved ⟨fun _ => le_rfl,fun hf => hf,fun _ hr => hr,rfl,rfl⟩
    · next hopen =>
        split
        · next row hrow => exact moved_takeRetry hopen hrow
        · split
          · exact NoneHanded.moved ⟨fun _ => le_rfl,fun hf => hf,fun _ hr => hr,rfl,rfl⟩
          · exact NoneHanded.moved ⟨fun _ => le_rfl,fun hf => hf,fun _ hr => hr,rfl,rfl⟩
  | query | fetchEnds =>
    exact NoneHanded.moved ⟨fun _ => le_rfl,fun hf => hf,fun _ hr => hr,rfl,rfl⟩
  | gotRows readCursor limit rows => exact moved_register rows
  | ack i d hd =>
    refine NoneHanded.moved ?_
    unfold Source.ackToken
    dsimp only
    split
    · exact noneHanded_settle hd rfl (fun _ _ => rfl) (fun hf => hf) rfl rfl
    · split
      · exact noneHanded_settle hd rfl (fun _ _ => rfl) (fun hf => hf) rfl rfl
      · exact ⟨fun row => (Nat.add_le_add_right (openFor_acking hd row).le _),fun hf => hf,
          fun _ hr => hr,rfl,handedRows_setPhase s i .acking⟩
  | fail i d hd =>
    refine NoneHanded.moved ?_
    refine noneHanded_settle hd rfl (fun row hrow => ?_) (fun _ h => by cases h) rfl rfl
    simp only [Source.setPhase,Source.failToken]
    split
    · rfl
    · exact AList.lookup_insert_ne hrow
  | retry i d now delayS hd | released i d now hd =>
    refine NoneHanded.moved ?_
    exact noneHanded_settle hd rfl (fun row hrow => AList.lookup_insert_ne hrow) (fun hf => hf)
      rfl rfl
  | dropped i d now hd =>
    exact NoneHanded.moved (noneHanded_settle hd rfl (fun _ _ => rfl) (fun hf => hf) rfl rfl)
  | flushStarts => exact (noneHanded_flushRound s).moved
  | saved batch highest hsaving => exact (noneHanded_commit h hsaving).moved
  | saveFailed => exact (noneHanded_endFlush s false).moved

/-- A row is with one delivery or waits for one, and only after it was read. -/
structure Single (s : Source κ) : Prop where
  cursors : CursorInvariant s
  once : ∀ row, tokens s row ≤ 1
  unread : ∀ row ∉ s.fetched, tokens s row = 0

theorem new_rows (h : CursorInvariant s') (hmoved : Moved s (Op.rows op) s') :
    (Op.rows op).Nodup ∧ ∀ row ∈ Op.rows op, row ∉ s.fetched := by
  have hnodup : s'.fetched.Nodup := h.ascending.imp ne_of_lt
  rw [hmoved.fetched] at hnodup
  obtain ⟨-,hrows,hapart⟩ := List.nodup_append.mp hnodup
  exact ⟨hrows,fun row hrow hold => hapart row hold row hrow rfl⟩

theorem Single.step (h : Single s) (hs : perform backend batchSize s op = some s')
    (hgenuine : Genuine s op) : Single s' := by
  have hcursors := h.cursors.step hs hgenuine
  have hmoved := moved_step h.cursors hs
  obtain ⟨hnodup,hnew⟩ := new_rows hcursors hmoved
  refine ⟨hcursors,fun row => ?_,fun row hrow => ?_⟩
  · have htokens := hmoved.tokens row
    by_cases hrow : row ∈ Op.rows op
    · have hzero := h.unread row (hnew row hrow)
      have hcount := List.nodup_iff_count_le_one.mp hnodup row
      omega
    · have honce := h.once row
      rw [List.count_eq_zero.mpr hrow] at htokens
      omega
  · rw [hmoved.fetched,List.mem_append,not_or] at hrow
    have htokens := hmoved.tokens row
    rw [List.count_eq_zero.mpr hrow.2,h.unread row hrow.1] at htokens
    omega

theorem single_opened (loaded : Option κ) : Single (opened loaded) where
  cursors := cursor_opened loaded
  once row := by simp [tokens,openFor,waiting,opened]
  unread row _ := by simp [tokens,openFor,waiting,opened]

/-- A row that was read, and that no later fetch can hand out. -/
def Stuck (row : κ) (s : Source κ) : Prop :=
  CursorInvariant s ∧ row ∈ s.fetched ∧
    (tokens s row = 0 ∨ s.terminalError ≠ none ∨ row ∉ s.pending)

theorem Stuck.not_comesBack (h : Stuck row s) :
    ¬ComesBack (Step backend batchSize fun _ _ => True) handedRows s row := by
  refine WorkItems.not_comesBack (I := Stuck row) ?_ h
  rintro s op t ⟨hcursors,hread,hstuck⟩ ⟨hs,hgenuine,-⟩
  have hcursors' := hcursors.step hs hgenuine
  have hmoved := moved_step hcursors hs
  have hold : row ∉ Op.rows op := fun hrow => (new_rows hcursors' hmoved).2 row hrow hread
  refine ⟨⟨hcursors',?_,?_⟩,?_⟩
  · rw [hmoved.fetched]
    exact List.mem_append_left _ hread
  · rcases hstuck with hzero | hfailed | hgone
    · have htokens := hmoved.tokens row
      rw [hzero,List.count_eq_zero.mpr hold] at htokens
      exact .inl (by omega)
    · exact .inr (.inl (hmoved.failed hfailed))
    · exact .inr (.inr fun hrow => (hmoved.pending row hrow).elim hgone hold)
  · obtain ⟨again,hhanded,hagain⟩ := hmoved.handed
    refine ⟨again++Op.rows op,by rw [hhanded,List.append_assoc],fun hmem => ?_⟩
    rcases List.mem_append.mp hmem with hmem | hmem
    · obtain ⟨hwaiting,hopen,hpending⟩ := hagain row hmem
      rcases hstuck with hzero | hfailed | hgone
      · unfold tokens at hzero
        omega
      · exact hfailed hopen
      · exact hgone hpending
    · exact hold hmem

/-- A row that a fetch at this time could hand out again. -/
def isReady (s : Source κ) (now : ℚ) (row : κ) : Bool :=
  match s.retryRows.lookup row with
  | none => false
  | some r => !r.inFlight && decide (r.readyAt ≤ now)

theorem isReady_takeRetry {first other : κ} (hready : isReady s now first = true) :
    isReady (s.takeRetry first) now other = (isReady s now other && decide (other ≠ first)) := by
  unfold isReady at hready
  unfold Source.takeRetry
  cases hlookup : s.retryRows.lookup first with
  | none =>
    rw [hlookup] at hready
    cases hready
  | some r =>
    unfold isReady
    dsimp only
    by_cases hother : other = first
    · subst hother
      rw [AList.lookup_insert]
      simp
    · rw [AList.lookup_insert_ne hother]
      simp [hother]

theorem takeRetry_frame (s : Source κ) (first : κ) :
    (s.takeRetry first).pending = s.pending ∧ (s.takeRetry first).fetching = s.fetching ∧
      (s.takeRetry first).terminalError = s.terminalError := by
  unfold Source.takeRetry
  split
  · exact ⟨rfl,rfl,rfl⟩
  · exact ⟨rfl,rfl,rfl⟩

theorem handedRows_takeRetry {first : κ} (hready : isReady s now first = true) :
    handedRows (s.takeRetry first) = handedRows s++[first] := by
  unfold isReady at hready
  unfold Source.takeRetry handedRows
  cases hlookup : s.retryRows.lookup first with
  | none =>
    rw [hlookup] at hready
    cases hready
  | some r =>
    dsimp only
    rw [List.map_append]
    rfl

theorem comesBack_of_ready (n : ℕ)
    (hn : (s.pending.toFinset.filter fun row => isReady s now row = true).card ≤ n)
    (hidle : s.fetching = .idle) (hopen : s.terminalError = none) (hrow : row ∈ s.pending)
    (hready : isReady s now row = true) :
    ComesBack (Step backend batchSize fun _ _ => True) handedRows s row := by
  induction n generalizing s with
  | zero =>
    have hmem : row ∈ s.pending.toFinset.filter fun row => isReady s now row = true :=
      Finset.mem_filter.mpr ⟨List.mem_toFinset.mpr hrow,hready⟩
    rw [Finset.card_eq_zero.mp (Nat.le_zero.mp hn)] at hmem
    cases hmem
  | succ n ih =>
    obtain ⟨first,hfirst⟩ : ∃ first, s.readyRetry now = some first :=
      Option.isSome_iff_exists.mp (List.find?_isSome.mpr ⟨row,hrow,hready⟩)
    have hfound : isReady s now first = true :=
      List.find?_some (p := fun row => isReady s now row) hfirst
    have hstep : Step backend batchSize (fun _ _ => True) s (.startFetch 1 now)
        (s.takeRetry first) := by
      refine ⟨?_,trivial,trivial⟩
      simp only [perform,hidle,Source.startFetch,hopen,hfirst]
    have hhanded := handedRows_takeRetry hfound
    by_cases heq : row = first
    · exact comesBack_now hstep hhanded (by simp [heq])
    · obtain ⟨hpending,hfetching,hterminal⟩ := takeRetry_frame s first
      refine ComesBack.later hstep hhanded (ih ?_ (hfetching.trans hidle)
        (hterminal.trans hopen) (hpending ▸ hrow) ?_)
      · have hsmaller : ((s.takeRetry first).pending.toFinset.filter
            fun row => isReady (s.takeRetry first) now row = true) ⊂
              s.pending.toFinset.filter fun row => isReady s now row = true := by
          refine Finset.ssubset_iff_subset_ne.mpr ⟨fun other hother => ?_,fun hsame => ?_⟩
          · rw [Finset.mem_filter,hpending,isReady_takeRetry hfound,Bool.and_eq_true] at hother
            exact Finset.mem_filter.mpr ⟨hother.1,hother.2.1⟩
          · have hmem : first ∈ s.pending.toFinset.filter fun row => isReady s now row = true :=
              Finset.mem_filter.mpr ⟨List.mem_toFinset.mpr (mem_readyRetry hfirst),hfound⟩
            rw [← hsame,Finset.mem_filter,isReady_takeRetry hfound] at hmem
            simp at hmem
        have hcard := Finset.card_lt_card hsmaller
        omega
      · rw [isReady_takeRetry hfound,hready]
        simp [heq]

theorem comesBack_of_waiting (now : ℚ) (hopen : s.terminalError = none) (hrow : row ∈ s.pending)
    (hready : isReady s now row = true) :
    ComesBack (Step backend batchSize fun _ _ => True) handedRows s row := by
  by_cases hidle : s.fetching = .idle
  · exact comesBack_of_ready _ le_rfl hidle hopen hrow hready
  · have hstep : Step backend batchSize (fun _ _ => True) s .fetchEnds {s with fetching := .idle} := by
      refine ⟨?_,trivial,trivial⟩
      simp only [perform]
    exact ComesBack.later hstep (List.append_nil _).symm
      (comesBack_of_ready (s := {s with fetching := .idle}) _ le_rfl rfl hopen hrow hready)

/-- A released row comes back exactly from MySQL and SQLite, as long as no row has
failed and the row is still in the queue. -/
theorem releasedRow_comesBack {loaded : Option κ} {i : ℕ} {d : Delivery κ}
    (hreach : Reachable (opened loaded) (Step backend batchSize fun _ _ => True) s)
    (hd : s.outstanding i = some d)
    (hs : perform backend batchSize s (.releaseUnstarted i now) = some s') :
    ComesBack (Step backend batchSize fun _ _ => True) handedRows s' d.row ↔
      backend ≠ .postgres ∧ s.terminalError = none ∧ d.row ∈ s.pending := by
  have hsingle : Single s := hreach.invariant (single_opened loaded)
    fun _ _ _ h hstep => h.step hstep.1 hstep.2.1
  have hsingle' : Single s' := hsingle.step hs trivial
  have hread : d.row ∈ s.fetched := by
    by_contra hnot
    have hzero := hsingle.unread d.row hnot
    have hopen := openFor_settle hd d.row
    rw [if_pos rfl] at hopen
    unfold tokens at hzero
    omega
  have hread' : d.row ∈ s'.fetched := by
    rw [(moved_step hsingle.cursors hs).fetched]
    exact List.mem_append_left _ hread
  have hframe : s'.terminalError = s.terminalError ∧ s'.pending = s.pending := by
    rw [perform,hd,Option.map_some] at hs
    cases hs
    cases backend with
    | postgres => exact ⟨rfl,rfl⟩
    | mysql => exact ⟨rfl,rfl⟩
    | sqlite => exact ⟨rfl,rfl⟩
  constructor
  · intro hback
    refine ⟨fun hpostgres => ?_,?_,?_⟩
    · subst hpostgres
      refine Stuck.not_comesBack ⟨hsingle'.cursors,hread',.inl ?_⟩ hback
      rw [perform,hd,Option.map_some] at hs
      cases hs
      have honce := hsingle.once d.row
      have hopen := openFor_settle hd d.row
      rw [if_pos rfl] at hopen
      unfold tokens at honce ⊢
      have hsame : waiting (s.setPhase i .settled) d.row = waiting s d.row := rfl
      dsimp only
      omega
    · by_contra hfailed
      exact Stuck.not_comesBack ⟨hsingle'.cursors,hread',.inr (.inl (hframe.1 ▸ hfailed))⟩ hback
    · by_contra hgone
      exact Stuck.not_comesBack ⟨hsingle'.cursors,hread',.inr (.inr (hframe.2 ▸ hgone))⟩ hback
  · rintro ⟨hbackend,hopen,hpending⟩
    refine comesBack_of_waiting now (hframe.1.trans hopen) (hframe.2 ▸ hpending) ?_
    rw [perform,hd,Option.map_some] at hs
    cases hs
    cases backend with
    | postgres => exact absurd rfl hbackend
    | mysql | sqlite =>
      unfold isReady
      simp only [Source.setPhase,Source.releaseToken,AList.lookup_insert]
      simp

end Steps

end Incremental

/-- What is released comes back from no memory queue, stays in flight in every
schedule source and keeps due runs back there, and comes back from an incremental
source exactly when the source overrides the call, no row has failed and the row
is still in the queue. -/
theorem released_comesBack {β μ κ : Type} [LinearOrder κ] :
    (∀ (cfg : MemoryQueue.Settings) (m m' : MemoryQueue.Memory β μ) (i : ℕ)
      (d : MemoryQueue.Delivery β μ), Reachable {} (MemoryQueue.Step cfg) m →
      m.unsettled i = some d → MemoryQueue.perform cfg m (.releaseUnstarted i) = some m' →
        ¬ComesBack (MemoryQueue.Step cfg) MemoryQueue.Memory.handed m' d.entry.item) ∧
    (∀ (cfg : ScheduleSource.Settings) (s s' : ScheduleSource.State) (i : ℕ),
      Reachable (ScheduleSource.constructed cfg)
        (fun s op s' => ScheduleSource.perform cfg s op = some s') s →
      ScheduleSource.perform cfg s (.releaseUnstarted i) = some s' →
        s'.source.inflight = s.source.inflight ∧
          (cfg.overlap ≠ .allow → ∀ ops t,
            Run (fun s op s' => ScheduleSource.perform cfg s op = some s') s' ops t →
            (∀ op ∈ ops, ¬ScheduleOverlap.Op.Settles i op) → ScheduleOverlap.Blocked cfg t)) ∧
    ∀ (backend : IncrementalSource.Backend) (batchSize : ℕ) (loaded : Option κ)
      (s s' : IncrementalSource.Source κ) (i : ℕ) (d : IncrementalSource.Delivery κ) (now : ℚ),
      Reachable (IncrementalSource.opened loaded)
        (IncrementalSource.Step backend batchSize fun _ _ => True) s →
      s.outstanding i = some d →
      IncrementalSource.perform backend batchSize s (.releaseUnstarted i now) = some s' →
        (ComesBack (IncrementalSource.Step backend batchSize fun _ _ => True) handedRows s' d.row ↔
          backend ≠ .postgres ∧ s.terminalError = none ∧ d.row ∈ s.pending) := by
  refine ⟨?_,?_,?_⟩
  · intro cfg m m' i d hreach hd hs
    exact MemoryQueue.released_gone hreach hd hs
  · intro cfg s s' i hreach hs
    refine ⟨?_,fun hoverlap ops t hr hops => ScheduleOverlap.released_blocks hoverlap hreach hs hr hops⟩
    obtain ⟨d,-,rfl⟩ := Option.map_eq_some_iff.mp hs
    rfl
  · intro backend batchSize loaded s s' i d now hreach hd hs
    exact releasedRow_comesBack hreach hd hs

section Samples
open IncrementalSource IncrementalCursors

def readOne : List (Op ℕ) := [.startFetch 1 0,.query,.gotRows [7]]

/-- The state a list of steps leads to, and the one after its only delivery is
released. -/
def released (backend : Backend) : Option (Source ℕ × Source ℕ) :=
  (runs (perform backend 10) (fun s op => decide (Genuine s op ∧ True)) (opened none) readOne).bind
    fun s => (perform backend 10 s (.releaseUnstarted 0 1)).map fun s' => (s,s')

theorem released_spec {backend : Backend} {s s' : Source ℕ}
    (h : released backend = some (s,s')) :
    Reachable (opened none) (Step backend 10 fun _ _ => True) s ∧
      perform backend 10 s (.releaseUnstarted 0 1) = some s' := by
  obtain ⟨t,ht,hrest⟩ := Option.bind_eq_some_iff.mp h
  obtain ⟨t',ht',heq⟩ := Option.map_eq_some_iff.mp hrest
  cases heq
  exact ⟨source_reachable ht,ht'⟩

/-- The released row is fetched again. -/
theorem releasedRow_fetched : ∃ s s' : Source ℕ,
    Reachable (opened none) (Step .sqlite 10 fun _ _ => True) s ∧
      s.outstanding 0 = some ⟨7,0,.out⟩ ∧
      perform .sqlite 10 s (.releaseUnstarted 0 1) = some s' ∧
      ComesBack (Step .sqlite 10 fun _ _ => True) handedRows s' 7 := by
  have hrun : (released .sqlite).map (fun p => (p.1.outstanding 0,p.1.terminalError,p.1.pending)) =
      some (some ⟨7,0,.out⟩,none,[7]) := by decide +kernel
  obtain ⟨⟨s,s'⟩,hp,hfacts⟩ := Option.map_eq_some_iff.mp hrun
  simp only [Prod.mk.injEq] at hfacts
  obtain ⟨hreach,hs⟩ := released_spec hp
  refine ⟨s,s',hreach,hfacts.1,hs,?_⟩
  refine ((released_comesBack (β := ℕ) (μ := ℕ)).2.2 .sqlite 10 none s s' 0 _ 1 hreach hfacts.1
    hs).mpr ?_
  exact ⟨by decide,hfacts.2.1,by rw [hfacts.2.2]; simp⟩

/-- The same row, released by the PostgreSQL source, is gone. -/
theorem releasedRow_lost : ∃ s s' : Source ℕ,
    Reachable (opened none) (Step .postgres 10 fun _ _ => True) s ∧
      s.outstanding 0 = some ⟨7,0,.out⟩ ∧
      perform .postgres 10 s (.releaseUnstarted 0 1) = some s' ∧
      ¬ComesBack (Step .postgres 10 fun _ _ => True) handedRows s' 7 := by
  have hrun : (released .postgres).map (fun p => p.1.outstanding 0) = some (some ⟨7,0,.out⟩) := by
    decide +kernel
  obtain ⟨⟨s,s'⟩,hp,hd⟩ := Option.map_eq_some_iff.mp hrun
  obtain ⟨hreach,hs⟩ := released_spec hp
  refine ⟨s,s',hreach,hd,hs,fun hback => ?_⟩
  exact ((releasedRow_comesBack hreach hd hs).mp hback).1 rfl

end Samples

end OneStep.ReleasedWork
