import OneStep.IncrementalCursors

/-!
# Progress of the incremental sources

A fetch that finds retried rows but none that is ready returns nothing. It would
do so for ever if a retried row were no longer in the queue. That happens after
a failed save: the row whose ack raised stays acked, another ack may commit past
it, and the retry that follows finds the row gone. It also happens when a commit
task saves once and fails in a later round, since the acks of the first round
raise with it. And it does so when a retried row stays in flight with no delivery
of it left, as a PostgreSQL delivery that is given back unstarted leaves it.
-/
namespace OneStep.IncrementalProgress
open IncrementalSource IncrementalCursors Transition

section Deliveries
variable {κ : Type} {s : Source κ} {d : Delivery κ}

theorem outstanding_spec {i : ℕ} (h : s.outstanding i = some d) :
    d ∈ s.deliveries ∧ (d.phase = .out ∨ d.phase = .raised) := by
  obtain ⟨hd,hphase⟩ := Option.filter_eq_some_iff.mp h
  exact ⟨List.mem_of_getElem? hd,of_decide_eq_true hphase⟩

theorem mem_setPhase {i : ℕ} {phase : Phase} (h : d ∈ (s.setPhase i phase).deliveries) :
    d ∈ s.deliveries ∨ d.phase = phase := by
  obtain ⟨j,hj⟩ := List.mem_iff_getElem?.mp h
  simp only [Source.setPhase,List.getElem?_modify] at hj
  obtain ⟨e,he,rfl⟩ := Option.map_eq_some_iff.mp hj
  split
  · exact .inr rfl
  · exact .inl (List.mem_of_getElem? he)

theorem mem_endFlush {ok : Bool} (h : d ∈ (s.endFlush ok).deliveries)
    (hopen : d.phase = .out ∨ d.phase = .raised) :
    d ∈ s.deliveries ∨ (ok = false ∧ ∃ e ∈ s.deliveries, e.phase = .acking ∧ e.row = d.row) := by
  obtain ⟨e,he,rfl⟩ := List.mem_map.mp h
  by_cases hacking : e.phase = .acking
  · rw [if_pos hacking] at hopen ⊢
    cases ok with
    | true => simp at hopen
    | false => exact .inr ⟨rfl,e,he,hacking,rfl⟩
  · rw [if_neg hacking]
    exact .inl he

theorem mem_of_setPhase (i : ℕ) (phase : Phase) (h : d ∈ s.deliveries) :
    d ∈ (s.setPhase i phase).deliveries ∨ s.deliveries[i]? = some d := by
  obtain ⟨j,hj⟩ := List.mem_iff_getElem?.mp h
  by_cases hij : i = j
  · exact .inr (hij ▸ hj)
  · refine .inl (List.mem_of_getElem? (i := j) ?_)
    simp [Source.setPhase,hij,hj]

/-- A delivery of the row awaits its settlement. -/
def Open (s : Source κ) (row : κ) : Prop :=
  ∃ d ∈ s.deliveries, d.row = row ∧ (d.phase = .out ∨ d.phase = .raised)

theorem Open.setPhase {i : ℕ} {phase : Phase} {row : κ} (h : Open s row)
    (hd : s.outstanding i = some d) (hrow : row ≠ d.row) : Open (s.setPhase i phase) row := by
  obtain ⟨e,he,rfl,hphase⟩ := h
  rcases mem_of_setPhase i phase he with he | he
  · exact ⟨e,he,rfl,hphase⟩
  · rw [(Option.filter_eq_some_iff.mp hd).1] at he
    cases he
    exact (hrow rfl).elim

theorem Open.endFlush {row : κ} (h : Open s row) (ok : Bool) : Open (s.endFlush ok) row := by
  obtain ⟨e,he,rfl,hphase⟩ := h
  refine ⟨e,List.mem_map.mpr ⟨e,he,?_⟩,rfl,hphase⟩
  rcases hphase with hphase | hphase <;> simp [hphase]

end Deliveries

variable {κ : Type} [LinearOrder κ]

theorem lawful_rows {κ : Type} [LinearOrder κ] : LawfulBEq κ := inferInstance

attribute [local instance] lawful_rows

/-- The fetch returns a retried row or goes on to the table. -/
def FetchGoesOn (s : Source κ) (batchSize limit : ℕ) (now : ℚ) : Prop :=
  (s.readyRetry now).isSome ∨
    (s.startFetch batchSize limit now).fetching = .checked (max 1 (min limit batchSize))

/-- Retried and acked rows are in the queue, with an empty queue a fetch goes on
to the table, and with nothing under way no fetch is empty for ever. -/
structure MovesOn (batchSize : ℕ) (s : Source κ) : Prop where
  retried : ∀ row ∈ s.retryRows, row ∈ s.pending
  acked : ∀ row ∈ s.acked, row ∈ s.pending
  queries : s.pending = [] → s.terminalError = none → ∀ limit now,
    (s.startFetch batchSize limit now).fetching = .checked (max 1 (min limit batchSize))
  returns : s.terminalError = none → s.flush = .idle → (∀ d ∈ s.deliveries, d.phase = .settled) →
    ∃ ready : ℚ, ∀ now, ready ≤ now → ∀ limit, FetchGoesOn s batchSize limit now

/-- The executor retries a delivery whose ack raised. -/
def Executed (s : Source κ) : Op κ → Prop
  | .ack i | .fail i | .releaseUnstarted i _ => ∀ d ∈ s.deliveries[i]?, d.phase ≠ .raised
  | _ => True

/-- A save that returns commits no row with a delivery that is still open, and a
save that raises belongs to a commit task that has not yet committed the row of
an ack that waits for it. -/
def CommitsClosed (s : Source κ) (op : Op κ) : Prop :=
  match op,s.flush with
  | .saveReturns true,.saving batch _ =>
    ∀ d ∈ s.deliveries, d.row ∈ batch → d.phase = .settled ∨ d.phase = .acking
  | .saveReturns false,.saving _ _ => ∀ d ∈ s.deliveries, d.phase = .acking → d.row ∈ s.pending
  | _,_ => True

/-- A PostgreSQL delivery is not given back unstarted: the source has no way to
take it. -/
def TakesBack (backend : Backend) : Op κ → Prop
  | .releaseUnstarted .. => backend ≠ .postgres
  | _ => True

instance (backend : Backend) : (op : Op κ) → Decidable (TakesBack backend op)
  | .releaseUnstarted .. => inferInstanceAs (Decidable (backend ≠ .postgres))
  | .startFetch .. | .query | .gotRows _ | .fetchEnds | .ack _ | .fail _ | .retry .. | .flushStarts
  | .saveReturns _ => isTrue trivial

instance (s : Source κ) : (op : Op κ) → Decidable (Executed s op)
  | .ack i | .fail i | .releaseUnstarted i _ =>
    inferInstanceAs (Decidable (∀ d ∈ s.deliveries[i]?, d.phase ≠ .raised))
  | .startFetch .. | .query | .gotRows _ | .fetchEnds | .retry .. | .flushStarts
  | .saveReturns _ => isTrue trivial

instance (s : Source κ) (op : Op κ) : Decidable (CommitsClosed s op) := by
  unfold CommitsClosed
  split <;> infer_instance

section Invariant
variable {s s' : Source κ} {backend : Backend} {batchSize : ℕ}

structure ProgressInvariant (s : Source κ) : Prop where
  cursors : CursorInvariant s
  retried : ∀ row ∈ s.retryRows, row ∈ s.pending
  acked : ∀ row ∈ s.acked, row ∈ s.pending
  deliveries : ∀ d ∈ s.deliveries, d.phase = .out ∨ d.phase = .raised → d.row ∈ s.pending

/-- A fetch will return the row once its time has come. -/
def Queued (s : Source κ) (row : κ) : Prop := ∃ r ∈ s.retryRows.lookup row, r.inFlight = false

/-- Every row of the queue is acked, at work or to be returned. -/
def Waiting (s : Source κ) : Prop :=
  s.terminalError = none → ∀ row ∈ s.pending, row ∈ s.acked ∨ Open s row ∨ Queued s row

/-- An acked row at the head of the queue is under commit, or another row is at
work or to be returned. -/
structure Served (s : Source κ) : Prop where
  waiting : Waiting s
  head : s.terminalError = none → s.flush = .idle → ∀ row ∈ s.pending.head?, row ∈ s.acked →
    (∃ row, Open s row) ∨ ∃ row ∈ s.pending, Queued s row
  running : s.flush ≠ .idle → ∃ d ∈ s.deliveries, d.phase = .acking

theorem readyRetry_of_queued {row : κ} (hrow : row ∈ s.pending) (h : Queued s row) :
    ∃ ready : ℚ, ∀ now, ready ≤ now → (s.readyRetry now).isSome := by
  obtain ⟨r,hlookup,hfree⟩ := h
  refine ⟨r.readyAt,fun now hnow => List.find?_isSome.mpr ⟨row,hrow,?_⟩⟩
  simp [Option.mem_def.mp hlookup,hfree,hnow]

theorem Served.returns (h : Served s) (hopen : s.terminalError = none) (hidle : s.flush = .idle)
    (hsettled : ∀ d ∈ s.deliveries, d.phase = .settled) {head : κ}
    (hhead : s.pending.head? = some head) : ∃ row ∈ s.pending, Queued s row := by
  have hnone : ∀ row, ¬Open s row := by
    rintro row ⟨d,hd,-,hphase⟩
    rw [hsettled d hd] at hphase
    simp at hphase
  have hin : head ∈ s.pending := List.mem_of_head? hhead
  rcases h.waiting hopen head hin with hacked | hopened | hqueued
  · exact (h.head hopen hidle head hhead hacked).resolve_left fun ⟨row,hrow⟩ => hnone row hrow
  · exact (hnone head hopened).elim
  · exact ⟨head,hin,hqueued⟩

theorem ProgressInvariant.goesOn (h : ProgressInvariant s) (hnil : s.pending = [])
    (hopen : s.terminalError = none) (limit : ℕ) (now : ℚ) :
    (s.startFetch batchSize limit now).fetching = .checked (max 1 (min limit batchSize)) := by
  have hkeys : s.retryRows.keys = [] := by
    refine List.eq_nil_iff_forall_not_mem.mpr fun row hrow => ?_
    have hin := h.retried row (AList.mem_keys.mpr hrow)
    rw [hnil] at hin
    cases hin
  have hready : s.readyRetry now = none := by
    rw [Source.readyRetry,hnil]
    rfl
  simp [Source.startFetch,hopen,hready,hkeys]

theorem ProgressInvariant.movesOn (h : ProgressInvariant s) (hserved : Served s) :
    MovesOn batchSize s := by
  refine ⟨h.retried,h.acked,h.goesOn,?_⟩
  intro hopen hidle hsettled
  cases hhead : s.pending.head? with
  | none => exact ⟨0,fun now _ limit => .inr (h.goesOn (List.head?_eq_none_iff.mp hhead) hopen limit now)⟩
  | some head =>
    obtain ⟨row,hrow,hqueued⟩ := hserved.returns hopen hidle hsettled hhead
    obtain ⟨ready,hready⟩ := readyRetry_of_queued hrow hqueued
    exact ⟨ready,fun now hnow limit => .inl (hready now hnow)⟩

theorem ProgressInvariant.settle {i : ℕ} {phase : Phase} (h : ProgressInvariant s)
    (hcursors : CursorInvariant s') (hpending : s'.pending = s.pending)
    (hretried : ∀ row ∈ s'.retryRows, row ∈ s.pending) (hacked : ∀ row ∈ s'.acked, row ∈ s.pending)
    (hdeliveries : s'.deliveries = (s.setPhase i phase).deliveries)
    (hphase : phase = .settled ∨ phase = .acking) : ProgressInvariant s' := by
  refine ⟨hcursors,?_,?_,?_⟩
  · rw [hpending]
    exact hretried
  · rw [hpending]
    exact hacked
  · intro d hd hopen
    rw [hdeliveries] at hd
    rw [hpending]
    rcases mem_setPhase hd with hd | hd
    · exact h.deliveries d hd hopen
    · rw [hd] at hopen
      rcases hphase with rfl | rfl <;> simp at hopen

theorem mem_erased {row : κ} {batch : List κ} {rows : AList (fun _ : κ => RetryRow)} :
    row ∈ batch.foldl (fun rows row => rows.erase row) rows ↔ row ∈ rows ∧ row ∉ batch := by
  induction batch generalizing rows with
  | nil => simp
  | cons other batch ih =>
    rw [List.foldl_cons,ih,AList.mem_erase]
    simp only [List.mem_cons,not_or]
    tauto

theorem ProgressInvariant.endFlush {ok : Bool} (h : ProgressInvariant s)
    (hwaiting : ok = false → ∀ d ∈ s.deliveries, d.phase = .acking → d.row ∈ s.pending) :
    ProgressInvariant (s.endFlush ok) := by
  refine ⟨h.cursors.endFlush ok,h.retried,h.acked,?_⟩
  intro d hd hopen
  rcases mem_endFlush hd hopen with hd | ⟨hok,e,he,hacking,hrow⟩
  · exact h.deliveries d hd hopen
  · rw [← hrow]
    exact hwaiting hok e he hacking

theorem ProgressInvariant.flushRound (h : ProgressInvariant s) : ProgressInvariant s.flushRound := by
  have hcursors := h.cursors.flushRound
  unfold Source.flushRound at hcursors ⊢
  split
  · exact h.endFlush (by simp)
  · next highest hlast =>
      rw [hlast] at hcursors
      exact ⟨hcursors,h.retried,h.acked,h.deliveries⟩

/-- A commit that meets the condition takes no open delivery's row away. -/
theorem ProgressInvariant.commit {batch : List κ} {highest : κ} (h : ProgressInvariant s)
    (hs : s.flush = .saving batch highest)
    (hclosed : ∀ d ∈ s.deliveries, d.row ∈ batch → d.phase = .settled ∨ d.phase = .acking) :
    ProgressInvariant (s.commitBatch batch highest) := by
  have hcursors := h.cursors.commit hs
  obtain ⟨⟨rest,hrest⟩,hlast,hacked⟩ := h.cursors.saving batch highest hs
  obtain ⟨committed,hfetched,-⟩ := h.cursors.split
  have hsorted := h.cursors.ascending
  rw [hfetched,← hrest] at hsorted
  have hbatch := (List.pairwise_append.mp (List.pairwise_append.mp hsorted).2.1).1
  have hkept : ∀ row ∈ s.pending, row ∉ batch → row ∈ rest := by
    intro row hrow hnot
    rw [← hrest] at hrow
    exact (List.mem_append.mp hrow).resolve_left hnot
  have hretried : ∀ row ∈ (afterCommit s batch rest highest).retryRows, row ∈ rest := by
    intro row hrow
    obtain ⟨hin,hnot⟩ := mem_erased.mp hrow
    exact hkept row (h.retried row hin) hnot
  have hleft : ∀ row ∈ (afterCommit s batch rest highest).acked, row ∈ rest := by
    intro row hrow
    obtain ⟨hin,hnot⟩ := Finset.mem_sdiff.mp hrow
    exact hkept row (h.acked row hin) fun hmem => hnot (List.mem_toFinset.mpr hmem)
  have hopen : ∀ d ∈ s.deliveries, d.phase = .out ∨ d.phase = .raised → d.row ∈ rest := by
    intro d hd hphase
    refine hkept d.row (h.deliveries d hd hphase) fun hmem => ?_
    rcases hclosed d hd hmem with he | he <;> rw [he] at hphase <;> simp at hphase
  rw [commitBatch_eq hrest.symm (hbatch.imp ne_of_lt) hacked] at hcursors ⊢
  unfold Source.flushRound at hcursors ⊢
  split
  · next hnone =>
      rw [hnone] at hcursors
      refine ⟨hcursors,hretried,hleft,?_⟩
      intro d hd hphase
      rcases mem_endFlush hd hphase with hd | ⟨hok,-⟩
      · exact hopen d hd hphase
      · cases hok
  · next highest' hsome =>
      rw [hsome] at hcursors
      exact ⟨hcursors,hretried,hleft,hopen⟩

theorem ackToken_parts (i : ℕ) (row : κ) :
    (s.ackToken i row).pending = s.pending ∧ (s.ackToken i row).retryRows = s.retryRows ∧
      (s.ackToken i row).acked = insert row s.acked ∧
      ((s.ackToken i row).deliveries = (s.setPhase i .settled).deliveries ∨
        (s.ackToken i row).deliveries = (s.setPhase i .acking).deliveries) := by
  unfold Source.ackToken
  dsimp only
  split
  · exact ⟨rfl,rfl,rfl,.inl rfl⟩
  · split
    · exact ⟨rfl,rfl,rfl,.inl rfl⟩
    · exact ⟨rfl,rfl,rfl,.inr rfl⟩

theorem mem_readyRetry {now : ℚ} {row : κ} (h : s.readyRetry now = some row) :
    row ∈ s.pending := List.mem_of_find?_eq_some h

/-- Every step keeps retried, acked and open rows
in the queue. -/
theorem ProgressInvariant.step {op : Op κ} (h : ProgressInvariant s)
    (hs : perform backend batchSize s op = some s') (hgenuine : Genuine s op)
    (hclosed : CommitsClosed s op) : ProgressInvariant s' := by
  have hcursors := h.cursors.step hs hgenuine
  cases performed hs with
  | startFetch limit now =>
    unfold Source.startFetch
    split
    · exact h
    · split
      · next row hrow =>
          have hin := mem_readyRetry hrow
          unfold Source.takeRetry
          split
          · exact h
          · refine ⟨h.cursors.calm (calm_of_eq rfl rfl rfl rfl rfl rfl (Finset.Subset.refl _)
              fun _ _ hq => hq),?_,h.acked,?_⟩
            · intro other hother
              rcases (AList.mem_insert _).mp hother with rfl | hother
              · exact hin
              · exact h.retried other hother
            · intro d hd hphase
              rcases List.mem_append.mp hd with hd | hd
              · exact h.deliveries d hd hphase
              · rw [List.mem_singleton.mp hd]
                exact hin
      · split
        · exact h
        · exact ⟨h.cursors.calm (calm_of_eq rfl rfl rfl rfl rfl rfl (Finset.Subset.refl _)
            fun _ _ hq => by cases hq),h.retried,h.acked,h.deliveries⟩
  | query | fetchEnds => exact ⟨hcursors,h.retried,h.acked,h.deliveries⟩
  | gotRows =>
    refine ⟨hcursors,?_,?_,?_⟩
    · exact fun row hrow => List.mem_append.mpr (.inl (h.retried row hrow))
    · exact fun row hrow => List.mem_append.mpr (.inl (h.acked row hrow))
    · intro d hd hphase
      rcases List.mem_append.mp hd with hd | hd
      · exact List.mem_append.mpr (.inl (h.deliveries d hd hphase))
      · obtain ⟨row,hrow,rfl⟩ := List.mem_map.mp hd
        exact List.mem_append.mpr (.inr hrow)
  | ack i d hd =>
    obtain ⟨hmem,hphase⟩ := outstanding_spec hd
    have hrow := h.deliveries d hmem hphase
    obtain ⟨hpending,hretry,hacked,hdeliveries⟩ := ackToken_parts (s := s) i d.row
    have hin : ∀ row ∈ (s.ackToken i d.row).acked, row ∈ s.pending := by
      intro row hin
      rw [hacked] at hin
      rcases Finset.mem_insert.mp hin with rfl | hin
      · exact hrow
      · exact h.acked row hin
    rcases hdeliveries with he | he
    · exact h.settle hcursors hpending (hretry ▸ h.retried) hin he (.inl rfl)
    · exact h.settle hcursors hpending (hretry ▸ h.retried) hin he (.inr rfl)
  | fail i d =>
    refine h.settle hcursors rfl ?_ h.acked rfl (.inl rfl)
    intro row hrow
    simp only [Source.setPhase,Source.failToken] at hrow
    split at hrow
    · exact h.retried row hrow
    · next r hr =>
        rcases (AList.mem_insert _).mp hrow with rfl | hrow
        · exact h.retried _ (AList.lookup_isSome.mp (by rw [hr]; rfl))
        · exact h.retried row hrow
  | retry i d now delayS hd | released i d now hd =>
    obtain ⟨hmem,hphase⟩ := outstanding_spec hd
    refine h.settle hcursors rfl ?_ h.acked rfl (.inl rfl)
    intro row hrow
    rcases (AList.mem_insert _).mp hrow with rfl | hrow
    · exact h.deliveries d hmem hphase
    · exact h.retried row hrow
  | dropped => exact h.settle hcursors rfl h.retried h.acked rfl (.inl rfl)
  | flushStarts => exact h.flushRound
  | saved batch highest hsaving =>
    simp only [CommitsClosed,hsaving] at hclosed
    exact h.commit hsaving hclosed
  | saveFailed batch highest hsaving =>
    simp only [CommitsClosed,hsaving] at hclosed
    exact h.endFlush fun _ => hclosed

theorem Queued.insert {row other : κ} {r : RetryRow} (h : Queued s row) (hrow : row ≠ other) :
    Queued {s with retryRows := s.retryRows.insert other r} row := by
  obtain ⟨r',hlookup,hfree⟩ := h
  exact ⟨r',by rwa [AList.lookup_insert_ne hrow],hfree⟩

theorem lookup_of_not_mem {row : κ} {batch : List κ} {rows : AList (fun _ : κ => RetryRow)}
    (h : row ∉ batch) :
    (batch.foldl (fun rows row => rows.erase row) rows).lookup row = rows.lookup row := by
  induction batch generalizing rows with
  | nil => rfl
  | cons other batch ih =>
    rw [List.mem_cons,not_or] at h
    rw [List.foldl_cons,ih h.2,AList.lookup_erase_ne h.1]

/-- The settlement of a delivery leaves the other rows as they were. -/
theorem Served.settle {i : ℕ} {d : Delivery κ} {phase : Phase} (h : Served s)
    (hd : s.outstanding i = some d) (hterminal : s'.terminalError = s.terminalError)
    (hpending : s'.pending = s.pending) (hacked : s.acked ⊆ s'.acked)
    (hdeliveries : s'.deliveries = (s.setPhase i phase).deliveries)
    (hqueued : ∀ row, row ≠ d.row → Queued s row → Queued s' row)
    (hrow : d.row ∈ s'.acked ∨ Queued s' d.row) : Waiting s' := by
  intro hopen row hin
  rw [hpending] at hin
  rw [hterminal] at hopen
  by_cases hsame : row = d.row
  · rw [hsame]
    rcases hrow with hrow | hrow
    · exact .inl hrow
    · exact .inr (.inr hrow)
  · rcases h.waiting hopen row hin with hleft | hleft | hleft
    · exact .inl (hacked hleft)
    · obtain ⟨e,he,hphase⟩ : Open (s.setPhase i phase) row := hleft.setPhase hd hsame
      exact .inr (.inl ⟨e,hdeliveries ▸ he,hphase⟩)
    · exact .inr (.inr (hqueued row hsame hleft))

theorem Served.acking {i : ℕ} {d : Delivery κ} (h : Served s) (hd : s.outstanding i = some d)
    (phase : Phase) (hflush : s.flush ≠ .idle) :
    ∃ e ∈ (s.setPhase i phase).deliveries, e.phase = .acking := by
  obtain ⟨e,he,hphase⟩ := h.running hflush
  rcases mem_of_setPhase i phase he with he | he
  · exact ⟨e,he,hphase⟩
  · obtain ⟨hd,hopen⟩ := Option.filter_eq_some_iff.mp hd
    rw [hd] at he
    cases he
    simp [hphase] at hopen

/-- A row that is put back for a later fetch serves an acked head. -/
theorem Served.putBack {i : ℕ} {d : Delivery κ} {r : RetryRow} (h : Served s)
    (hd : s.outstanding i = some d) (hin : d.row ∈ s.pending) (hfree : r.inFlight = false) :
    Served (Source.setPhase {s with retryRows := s.retryRows.insert d.row r} i .settled) := by
  have hqueued : Queued {s with retryRows := s.retryRows.insert d.row r} d.row :=
    ⟨r,by simp,hfree⟩
  refine ⟨h.settle hd rfl rfl (Finset.Subset.refl _) rfl (fun row hne hq => hq.insert hne)
    (.inr hqueued),?_,fun hflush => h.acking hd .settled hflush⟩
  exact fun _ _ _ _ _ => .inr ⟨d.row,hin,hqueued⟩

theorem Served.ack {i : ℕ} {d : Delivery κ} (h : Served s) (hd : s.outstanding i = some d)
    (hin : d.row ∈ s.pending) : Served (s.ackToken i d.row) := by
  have hwaiting : Waiting (s.ackToken i d.row) := by
    obtain ⟨hpending,hretry,hacked,hdeliveries⟩ := ackToken_parts (s := s) i d.row
    have hterminal : (s.ackToken i d.row).terminalError = s.terminalError := by
      unfold Source.ackToken
      dsimp only
      split
      · rfl
      · split <;> rfl
    have hqueued : ∀ row, row ≠ d.row → Queued s row → Queued (s.ackToken i d.row) row := by
      intro row _ hq
      rwa [Queued,hretry]
    have hsubset : s.acked ⊆ (s.ackToken i d.row).acked := hacked ▸ Finset.subset_insert _ _
    have hrow : d.row ∈ (s.ackToken i d.row).acked := hacked ▸ Finset.mem_insert_self _ _
    rcases hdeliveries with he | he
    · exact h.settle hd hterminal hpending hsubset he hqueued (.inl hrow)
    · exact h.settle hd hterminal hpending hsubset he hqueued (.inl hrow)
  refine ⟨hwaiting,?_,?_⟩ <;> unfold Source.ackToken <;> dsimp only
  · intro _ hidle row hrow hacked
    split at hidle
    · next hnone =>
        rw [List.head?_eq_none_iff] at hnone
        simp [hnone] at hin
    · next head hhead =>
        split at hidle
        · next hnot =>
            simp only [hhead,if_pos hnot,Source.setPhase,Option.mem_some_iff] at hrow hacked
            exact (hnot (hrow ▸ hacked)).elim
        · simp only [Source.setPhase] at hidle
          split at hidle
          · cases hidle
          · next hrunning => exact (hrunning hidle).elim
  · intro hflush
    cases hhead : s.pending.head? with
    | none =>
      rw [List.head?_eq_none_iff] at hhead
      simp [hhead] at hin
    | some head =>
      simp only [hhead] at hflush ⊢
      by_cases hacked : head ∈ insert d.row s.acked
      · simp only [not_true_eq_false,if_false,hacked]
        obtain ⟨hd,-⟩ := Option.filter_eq_some_iff.mp hd
        refine ⟨{d with phase := .acking},List.mem_of_getElem? (i := i) ?_,rfl⟩
        simp [Source.setPhase,hd]
      · simp only [if_true,hacked,not_false_eq_true] at hflush ⊢
        exact h.acking hd .settled hflush

theorem Waiting.endFlush {ok : Bool} (h : Waiting s)
    (hacking : ok = false → ∃ d ∈ s.deliveries, d.phase = .acking)
    (hhead : ok = true → ∀ row ∈ s.pending.head?, row ∉ s.acked) : Served (s.endFlush ok) := by
  refine ⟨?_,?_,fun hrunning => (hrunning rfl).elim⟩
  · intro hopen row hin
    rcases h hopen row hin with hleft | hleft | hleft
    · exact .inl hleft
    · exact .inr (.inl (hleft.endFlush ok))
    · exact .inr (.inr hleft)
  · intro _ _ row hrow hacked
    cases ok with
    | true => exact (hhead rfl row hrow hacked).elim
    | false =>
      obtain ⟨e,he,hphase⟩ := hacking rfl
      exact .inl ⟨e.row,{e with phase := .raised},List.mem_map.mpr ⟨e,he,by simp [hphase]⟩,rfl,
        .inr rfl⟩

theorem head_of_ackedHead (h : s.ackedHead.getLast? = none) :
    ∀ row ∈ s.pending.head?, row ∉ s.acked := by
  intro row hrow hacked
  obtain ⟨rest,hpending⟩ := List.head?_eq_some_iff.mp hrow
  rw [List.getLast?_eq_none_iff,Source.ackedHead,hpending] at h
  simp [hacked] at h

theorem Waiting.flushRound (h : Waiting s) (hacking : ∃ d ∈ s.deliveries, d.phase = .acking) :
    Served s.flushRound := by
  unfold Source.flushRound
  split
  · next hlast => exact h.endFlush (by simp) fun _ => head_of_ackedHead hlast
  · exact ⟨h,fun _ hidle => (by cases hidle),fun _ => hacking⟩

theorem Served.commit {batch : List κ} {highest : κ} (h : Served s) (hc : CursorInvariant s)
    (hs : s.flush = .saving batch highest) : Served (s.commitBatch batch highest) := by
  obtain ⟨⟨rest,hrest⟩,-,hacked⟩ := hc.saving batch highest hs
  obtain ⟨committed,hfetched,-⟩ := hc.split
  have hsorted := hc.ascending
  rw [hfetched,← hrest] at hsorted
  have hnodup := (List.pairwise_append.mp hsorted).2.1.imp ne_of_lt
  obtain ⟨hbatch,-,hapart⟩ := List.nodup_append.mp hnodup
  rw [commitBatch_eq hrest.symm hbatch hacked]
  refine Waiting.flushRound ?_ (h.running (by simp [hs]))
  intro hopen row hin
  have hnot : row ∉ batch := fun hmem => hapart row hmem row hin rfl
  rcases h.waiting hopen row (by rw [← hrest]; exact List.mem_append_right _ hin) with
    hleft | hleft | ⟨r,hlookup,hfree⟩
  · exact .inl (Finset.mem_sdiff.mpr ⟨hleft,fun hmem => hnot (List.mem_toFinset.mp hmem)⟩)
  · exact .inr (.inl hleft)
  · exact .inr (.inr ⟨r,(lookup_of_not_mem hnot).trans hlookup,hfree⟩)

theorem Served.startFetch {limit : ℕ} {now : ℚ} (h : Served s) :
    Served (s.startFetch batchSize limit now) := by
  unfold Source.startFetch
  split
  · exact h
  · split
    · next row hrow =>
        unfold Source.takeRetry
        split
        · exact h
        · next r hlookup =>
            refine ⟨fun hopen other hin => ?_,
              fun _ _ _ _ _ => .inl ⟨row,_,List.mem_append_right _ (List.mem_singleton_self _),rfl,.inl rfl⟩,
              fun hflush => ?_⟩
            · by_cases hsame : other = row
              · exact .inr (.inl ⟨_,List.mem_append_right _ (List.mem_singleton_self _),hsame.symm,.inl rfl⟩)
              · rcases h.waiting hopen other hin with hleft | ⟨e,he,hphase⟩ | hleft
                · exact .inl hleft
                · exact .inr (.inl ⟨e,List.mem_append_left _ he,hphase⟩)
                · exact .inr (.inr (hleft.insert hsame))
            · obtain ⟨e,he,hphase⟩ := h.running hflush
              exact ⟨e,List.mem_append_left _ he,hphase⟩
    · split
      · exact h
      · exact ⟨h.waiting,h.head,h.running⟩

theorem Served.register {rows : List κ} (h : Served s) : Served (s.register rows) := by
  have hnew : ∀ row ∈ rows, Open (s.register rows) row := fun row hrow =>
    ⟨⟨row,0,.out⟩,List.mem_append_right _ (List.mem_map.mpr ⟨row,hrow,rfl⟩),rfl,.inl rfl⟩
  have hkept : ∀ row, Open s row → Open (s.register rows) row := fun row ⟨e,he,hphase⟩ =>
    ⟨e,List.mem_append_left _ he,hphase⟩
  refine ⟨?_,?_,fun hflush => ?_⟩
  · intro hopen row hin
    rcases List.mem_append.mp hin with hin | hin
    · rcases h.waiting hopen row hin with hleft | hleft | hleft
      · exact .inl hleft
      · exact .inr (.inl (hkept row hleft))
      · exact .inr (.inr hleft)
    · exact .inr (.inl (hnew row hin))
  · intro hopen hidle row hrow hacked
    cases hpending : s.pending with
    | nil =>
      simp only [Source.register,hpending,List.nil_append] at hrow
      exact .inl ⟨row,hnew row (List.mem_of_head? hrow)⟩
    | cons head rest =>
      have hhead : row ∈ s.pending.head? := by
        simpa [Source.register,hpending] using hrow
      rcases h.head hopen hidle row hhead hacked with ⟨other,hother⟩ | ⟨other,hother,hqueued⟩
      · exact .inl ⟨other,hkept other hother⟩
      · exact .inr ⟨other,List.mem_append_left _ hother,hqueued⟩
  · obtain ⟨e,he,hphase⟩ := h.running hflush
    exact ⟨e,List.mem_append_left _ he,hphase⟩

/-- With every delivery in the hands of the source, a step keeps the queue
served. -/
theorem Served.step {op : Op κ} (h : Served s) (hp : ProgressInvariant s)
    (hs : perform backend batchSize s op = some s') (htakes : TakesBack backend op) : Served s' := by
  cases performed hs with
  | startFetch => exact h.startFetch
  | query | fetchEnds => exact ⟨h.waiting,h.head,h.running⟩
  | gotRows => exact h.register
  | ack i d hd =>
    obtain ⟨hmem,hphase⟩ := outstanding_spec hd
    exact h.ack hd (hp.deliveries d hmem hphase)
  | fail i d hd =>
    exact ⟨fun hopen => (by cases hopen),fun hopen => (by cases hopen),h.acking hd .settled⟩
  | retry i d now delayS hd | released i d now hd =>
    obtain ⟨hmem,hphase⟩ := outstanding_spec hd
    exact h.putBack hd (hp.deliveries d hmem hphase) rfl
  | dropped i d now hd hpostgres => exact (htakes hpostgres).elim
  | flushStarts hstarted => exact h.waiting.flushRound (h.running (by simp [hstarted]))
  | saved batch highest hsaving => exact h.commit hp.cursors hsaving
  | saveFailed batch highest hsaving =>
    exact h.waiting.endFlush (fun _ => h.running (by simp [hsaving])) (by simp)

theorem progress_opened (loaded : Option κ) : ProgressInvariant (opened loaded) where
  cursors := cursor_opened loaded
  retried := by simp [opened]
  acked := by simp [opened]
  deliveries := by simp [opened]

theorem served_opened (loaded : Option κ) : Served (opened loaded) where
  waiting := by simp [Waiting,opened]
  head := by simp [opened]
  running := fun hrunning => (hrunning rfl).elim

end Invariant

section Samples

/-- The first row waits for its delay while the second is acked. -/
def delayed : List (Op ℕ) :=
  [.startFetch 2 0,.query,.gotRows [1,2],.retry 0 0 (some 5),.ack 1,.startFetch 1 5]

/-- The ack of the first row raises, the ack of the second commits both, and the
first is retried. -/
def retriedLate : List (Op ℕ) :=
  [.startFetch 2 0,.query,.gotRows [1,2],.ack 0,.flushStarts,.saveReturns false,
    .ack 1,.flushStarts,.saveReturns true,.retry 0 0 none]

/-- A retried row is handed out again and given back unstarted. -/
def givenBack : List (Op ℕ) :=
  [.startFetch 1 0,.query,.gotRows [1],.retry 0 0 none,.startFetch 1 0,.releaseUnstarted 1 0]

/-- The queue is empty, and the retried row keeps every later fetch from the
table. -/
def KeepsFromTable (s : Source ℕ) : Prop :=
  s.pending = [] ∧ s.retryRows.keys = [1] ∧ s.terminalError = none ∧ ¬MovesOn 10 s

/-- The row stays in flight with nobody at work on it. -/
def KeptInFlight (s : Source ℕ) : Prop :=
  s.pending = [1] ∧ s.terminalError = none ∧ s.flush = .idle ∧ s.fetching = .idle ∧
    (s.retryRows.lookup 1).map RetryRow.inFlight = some true ∧ ¬MovesOn 10 s

end Samples

end OneStep.IncrementalProgress
