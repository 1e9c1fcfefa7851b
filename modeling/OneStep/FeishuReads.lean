import OneStep.FeishuIncremental
import Mathlib.Tactic

/-!
# What the incremental reads return

The records are arranged by value and record id. A fetch whose cursor is the last
of the first records looks for the next ones: the scan of all pages finds them, and
the sorted pages do when no page border splits them. Acks and reopening leave the
cursor where it is, so that this carries over to runs.
-/
namespace OneStep.FeishuReads
open FeishuIncremental JsonValues KeyedTable KeysetPages SortedPages Transition

section Parsing
variable {py : Builtins} {cursorField : String}

/-- The entry is what its record reads as. -/
def Valid (py : Builtins) (cursorField : String) (e : Entry) : Prop :=
  entry py cursorField e.record = .ok e

theorem bind_ok {α β : Type} {x : Except FetchError α} {f : α → Except FetchError β} {b : β}
    (h : x >>= f = .ok b) : ∃ a, x = .ok a ∧ f a = .ok b := by
  cases x with
  | error e => cases h
  | ok a => exact ⟨a,rfl,h⟩

theorem entry_spec {record : Record} {e : Entry} (h : entry py cursorField record = .ok e) :
    e.record = record ∧ cursorValueSortKey py e.cursor.value = .ok e.valueKey := by
  obtain ⟨fields,-,h⟩ := bind_ok h
  obtain ⟨id,-,h⟩ := bind_ok h
  split at h
  · cases h
  · obtain ⟨valueKey,hkey,h⟩ := bind_ok h
    cases h
    exact ⟨rfl,hkey⟩

theorem mapM_entry {records : List Record} {entries : List Entry}
    (h : records.mapM (entry py cursorField) = .ok entries) :
    entries.map Entry.record = records ∧ ∀ e ∈ entries, Valid py cursorField e := by
  induction records generalizing entries with
  | nil =>
    cases h
    exact ⟨rfl,by simp⟩
  | cons record records ih =>
    rw [List.mapM_cons] at h
    obtain ⟨e,he,h⟩ := bind_ok h
    obtain ⟨rest,hrest,h⟩ := bind_ok h
    cases h
    obtain ⟨hmap,hvalid⟩ := ih hrest
    have hrecord := (entry_spec he).1
    refine ⟨by rw [List.map_cons,hmap,hrecord],List.forall_mem_cons.mpr ⟨?_,hvalid⟩⟩
    unfold Valid
    rw [hrecord]
    exact he

/-- An entry above a cursor. -/
def isAfter (py : Builtins) (readCursor : Option Cursor) (e : Entry) : Bool :=
  match readCursor with
  | none => true
  | some cursor => match cursorValueSortKey py cursor.value with
      | .ok key => decide (toLex (key,cursor.recordId) < e.sortKey)
      | .error _ => false

/-- A cursor that came from an entry. -/
def Keyed (py : Builtins) (readCursor : Option Cursor) : Prop :=
  ∀ cursor ∈ readCursor, ∃ key, cursorValueSortKey py cursor.value = .ok key

theorem candidate_ok {e : Entry} {readCursor : Option Cursor} (he : Valid py cursorField e)
    (hcursor : Keyed py readCursor) : candidate py cursorField readCursor (.obj e.record) =
      .ok (if isAfter py readCursor e then some e else none) := by
  unfold Valid at he
  cases readCursor with
  | none =>
    simp only [candidate,he]
    rfl
  | some cursor =>
    obtain ⟨key,hkey⟩ := hcursor cursor rfl
    simp only [candidate,he,isAfter,hkey,decide_eq_true_eq]
    rfl

theorem candidates_ok {page : List Entry} {readCursor : Option Cursor}
    (hpage : ∀ e ∈ page, Valid py cursorField e) (hcursor : Keyed py readCursor) :
    ∃ found, (page.map fun e => Json.obj e.record).mapM (candidate py cursorField readCursor) =
      .ok found ∧ found.filterMap id = page.filter (isAfter py readCursor) := by
  induction page with
  | nil => exact ⟨[],rfl,rfl⟩
  | cons e page ih =>
    rw [List.forall_mem_cons] at hpage
    obtain ⟨found,hfound,hreduce⟩ := ih hpage.2
    refine ⟨(if isAfter py readCursor e then some e else none)::found,?_,?_⟩
    · rw [List.map_cons,List.mapM_cons,candidate_ok hpage.1 hcursor,hfound]
      rfl
    · by_cases hafter : isAfter py readCursor e = true
      · simpa [hafter] using hreduce
      · simpa [hafter] using hreduce

end Parsing

section Pages
variable {py : Builtins} {cursorField : String} {config : Config}

variable {n : ℕ} {readCursor : Option Cursor}

theorem readPages_cons {scanAllPages : Bool} {items : List Json} {rest : List (List Json)}
    {found : List (Option Entry)} (h : items.mapM (candidate py cursorField readCursor) = .ok found)
    (records : List Entry) (scanned : ℕ) :
    readPages py cursorField config n scanAllPages readCursor (items::rest) records scanned =
      let page := ascending Entry.sortKey (found.filterMap id)
      let records := records++if scanAllPages then page else page.take (n-records.length)
      if scanAllPages && !rest.isEmpty && config.fallbackScanPageLimit ≤ scanned+1 then
        .error (.scanLimit config.fallbackScanPageLimit)
      else if !scanAllPages && n ≤ records.length then .ok records
      else readPages py cursorField config n scanAllPages readCursor rest records (scanned+1) := by
  simp only [readPages,h]
  rfl

theorem readPages_sorted (hcursor : Keyed py readCursor) {pages : List (List Entry)}
    (hpages : ∀ p ∈ pages, ∀ e ∈ p, Valid py cursorField e) (records : List Entry) (scanned : ℕ) :
    readPages py cursorField config n false readCursor
      (pages.map (List.map fun e => Json.obj e.record)) records scanned =
      .ok (gather Entry.sortKey n (pages.map (List.filter (isAfter py readCursor))) records) := by
  induction pages generalizing records scanned with
  | nil => rfl
  | cons page pages ih =>
    rw [List.forall_mem_cons] at hpages
    obtain ⟨found,hfound,hreduce⟩ := candidates_ok hpages.1 hcursor
    rw [List.map_cons,readPages_cons hfound]
    simp only [Bool.false_and,Bool.false_eq_true,if_false,Bool.not_false,Bool.true_and,
      decide_eq_true_eq,List.map_cons,gather,← hreduce]
    split
    · rfl
    · exact ih hpages.2 _ _

/-- Every page is read, unless there are more than the limit. -/
theorem readPages_all (hcursor : Keyed py readCursor) {pages : List (List Entry)}
    (hpages : ∀ p ∈ pages, ∀ e ∈ p, Valid py cursorField e) (records : List Entry) (scanned : ℕ)
    (hscanned : scanned < config.fallbackScanPageLimit) :
    if scanned+pages.length ≤ config.fallbackScanPageLimit then
      ∃ found, readPages py cursorField config n true readCursor
        (pages.map (List.map fun e => Json.obj e.record)) records scanned = .ok (records++found) ∧
        found.Perm (pages.flatten.filter (isAfter py readCursor))
    else readPages py cursorField config n true readCursor
        (pages.map (List.map fun e => Json.obj e.record)) records scanned =
          .error (.scanLimit config.fallbackScanPageLimit) := by
  induction pages generalizing records scanned with
  | nil =>
    rw [if_pos (by simpa using hscanned.le)]
    refine ⟨[],?_,.refl _⟩
    rw [List.append_nil]
    rfl
  | cons page pages ih =>
    rw [List.forall_mem_cons] at hpages
    obtain ⟨found,hfound,hreduce⟩ := candidates_ok hpages.1 hcursor
    rw [List.map_cons,readPages_cons hfound]
    simp only [Bool.true_and,Bool.not_true,Bool.false_and,Bool.false_eq_true,if_false,if_true,
      Bool.and_eq_true,Bool.not_eq_true',decide_eq_true_eq,List.isEmpty_map,List.length_cons]
    have hperm : (ascending Entry.sortKey (found.filterMap id)).Perm
        (page.filter (isAfter py readCursor)) := by
      rw [← hreduce]
      exact perm_ascending _
    cases pages with
    | nil =>
      rw [if_pos (by simpa using hscanned),if_neg (by simp)]
      refine ⟨_,rfl,?_⟩
      rw [List.flatten_cons,List.flatten_nil,List.append_nil]
      exact hperm
    | cons next pages =>
      by_cases hlimit : config.fallbackScanPageLimit ≤ scanned+1
      · rw [if_neg (by rw [List.length_cons]; omega),if_pos ⟨rfl,hlimit⟩]
      · have hrest := ih hpages.2 (records++ascending Entry.sortKey (found.filterMap id))
          (scanned+1) (by omega)
        rw [Nat.add_assoc,Nat.add_comm 1] at hrest
        split at hrest
        · next hfits =>
            rw [if_pos hfits,if_neg (fun h => hlimit h.2)]
            obtain ⟨others,hread,hothers⟩ := hrest
            refine ⟨ascending Entry.sortKey (found.filterMap id)++others,?_,?_⟩
            · rw [hread,List.append_assoc]
            · rw [List.flatten_cons,List.filter_append]
              exact hperm.append hothers
        · next hexceeds =>
            rw [if_neg hexceeds,if_neg (fun h => hlimit h.2)]
            exact hrest

end Pages

section Fetches
variable {py : Builtins} {cursorField : String} (t : Table py cursorField)

/-- The records above a cursor, by the pages of the sorted search. -/
def candidatePages (readCursor : Option Cursor) (n : ℕ) : List (List Entry) :=
  (pagesOf n (t.entries.length+1) t.entries).map (List.filter (isAfter py readCursor))

variable {t} {config : Config} {n : ℕ} {readCursor : Option Cursor}

theorem entries_valid {e : Entry} (he : e ∈ t.entries) : Valid py cursorField e :=
  (mapM_entry t.read).2 e he

theorem entries_unique : UniqueKey Entry.sortKey t.entries := by
  have hids : (t.entries.map fun e => e.cursor.recordId) =
      (t.entries.map Entry.sortKey).map fun k => (ofLex k).2 := by
    rw [List.map_map]
    rfl
  have hdistinct := t.distinct
  rw [hids] at hdistinct
  exact List.Nodup.of_map _ hdistinct

theorem flatten_candidatePages (hn : 0 < n) :
    (candidatePages t readCursor n).flatten = t.entries.filter (isAfter py readCursor) := by
  rw [candidatePages,← List.filter_flatten,flatten_pagesOf hn (Nat.lt_succ_self _)]

theorem candidates_unique : UniqueKey Entry.sortKey (t.entries.filter (isAfter py readCursor)) :=
  (List.filter_sublist.map Entry.sortKey).nodup entries_unique

theorem pages_valid {entries : List Entry} (h : ∀ e ∈ entries, Valid py cursorField e) (hn : 0 < n) :
    ∀ p ∈ pagesOf n (entries.length+1) entries, ∀ e ∈ p, Valid py cursorField e := by
  intro p hp e he
  apply h
  rw [← flatten_pagesOf hn (Nat.lt_succ_self entries.length)]
  exact List.mem_flatten.mpr ⟨p,hp,he⟩

theorem searchRecords_eq {entries : List Entry} {sort : Bool} (hn : 0 < n) (hsized : n ≤ 500)
    (h : (if sort then t.records else t.unsorted) = entries.map Entry.record) :
    t.searchRecords sort n =
      (pagesOf n (entries.length+1) entries).map (List.map fun e => Json.obj e.record) := by
  have hsize : normalizePageSize n = n := by
    unfold normalizePageSize
    omega
  rw [Table.searchRecords,h,hsize,List.length_map,List.map_map,pagesOf_map]
  rfl

theorem fetch_sorted (hcursor : Keyed py readCursor) (hn : 0 < n) (hsized : n ≤ 500) :
    t.fetchRecordsWithBody config n false readCursor =
      .ok (least Entry.sortKey n (gather Entry.sortKey n (candidatePages t readCursor n) [])) := by
  have hsearch : t.searchRecords true n =
      (pagesOf n (t.entries.length+1) t.entries).map (List.map fun e => Json.obj e.record) :=
    searchRecords_eq hn hsized (mapM_entry t.read).1.symm
  rw [Table.fetchRecordsWithBody,Bool.not_false,hsearch,
    readPages_sorted hcursor (pages_valid (fun _ => entries_valid) hn)]
  rfl

theorem unsorted_entries (t : Table py cursorField) : ∃ entries : List Entry, entries.Perm t.entries ∧
    t.unsorted = entries.map Entry.record ∧ ∀ e ∈ entries, Valid py cursorField e := by
  have hperm := t.shuffled
  rw [← (mapM_entry t.read).1] at hperm
  obtain ⟨entries,hrecords,hentries⟩ :
      Relation.Comp (fun l m => l = m.map Entry.record) List.Perm t.unsorted t.entries := by
    rw [List.eq_map_comp_perm]
    exact hperm
  exact ⟨entries,hentries,hrecords,fun e he => entries_valid (hentries.mem_iff.mp he)⟩

def pageCount (t : Table py cursorField) (n : ℕ) : ℕ := (t.searchRecords false n).length

/-- The scan of all pages finds the least records above the cursor, unless there are more
pages than it may read. -/
theorem fetch_all (hcursor : Keyed py readCursor) (hn : 0 < n) (hsized : n ≤ 500) :
    t.fetchRecordsWithBody config n true readCursor =
      if pageCount t n ≤ config.fallbackScanPageLimit then
        .ok (least Entry.sortKey n (t.entries.filter (isAfter py readCursor)))
      else .error (.scanLimit config.fallbackScanPageLimit) := by
  obtain ⟨entries,hperm,hrecords,hvalid⟩ := unsorted_entries t
  have hsearch : t.searchRecords false n =
      (pagesOf n (entries.length+1) entries).map (List.map fun e => Json.obj e.record) :=
    searchRecords_eq hn hsized hrecords
  have hread := @readPages_all py cursorField config n readCursor hcursor _
    (pages_valid hvalid hn) [] 0 config.positive
  rw [Nat.zero_add,flatten_pagesOf hn (Nat.lt_succ_self _)] at hread
  have hcount : pageCount t n = (pagesOf n (entries.length+1) entries).length := by
    rw [pageCount,hsearch,List.length_map]
  rw [hcount,Table.fetchRecordsWithBody,Bool.not_true,hsearch]
  split at hread
  · next hfits =>
      obtain ⟨found,hfound,hsame⟩ := hread
      rw [if_pos hfits,hfound,List.nil_append]
      have hall := hsame.trans (hperm.filter (isAfter py readCursor))
      rw [least,ascending_congr candidates_unique hall.symm]
      rfl
  · next hexceeds =>
      rw [if_neg hexceeds,hread]
      rfl

theorem isAfter_entry {e : Entry} (he : Valid py cursorField e) :
    isAfter py (some e.cursor) = fun r => decide (e.sortKey < r.sortKey) := by
  have hkey := (entry_spec he).2
  funext r
  simp only [isAfter,hkey]
  rfl

theorem above_first {k : ℕ} (h : readCursor =
    ((ascending Entry.sortKey t.entries).take k).getLast?.map Entry.cursor) :
    Keyed py readCursor ∧ ascending Entry.sortKey (t.entries.filter (isAfter py readCursor)) =
      (ascending Entry.sortKey t.entries).drop k := by
  have hsplit := List.take_append_drop k (ascending Entry.sortKey t.entries)
  rcases List.eq_nil_or_concat ((ascending Entry.sortKey t.entries).take k) with
    hnil | ⟨front,last,hfront⟩
  · rw [hnil,List.nil_append] at hsplit
    rw [hnil] at h
    rw [h,hsplit]
    refine ⟨fun cursor hcursor => absurd hcursor (by simp),?_⟩
    congr 1
    exact List.filter_eq_self.mpr fun _ _ => rfl
  · rw [List.concat_eq_append] at hfront
    rw [hfront,List.getLast?_concat,Option.map_some] at h
    rw [hfront,List.append_assoc,List.singleton_append] at hsplit
    have hlast : last ∈ t.entries := by
      rw [← @mem_ascending _ _ _ Entry.sortKey,← hsplit]
      simp
    rw [h,isAfter_entry (entries_valid hlast)]
    refine ⟨fun cursor hcursor => ?_,arranged_below _ (uniqueKey_dual.mpr entries_unique) hsplit.symm⟩
    cases hcursor
    exact ⟨_,(entry_spec (entries_valid hlast)).2⟩

end Fetches

section Source
variable {q : Source}

theorem advance_spec (pending : List Cursor) (acked : Finset Cursor) (advanced : Option Cursor) :
    ∃ popped, pending = popped++(advance pending acked advanced).1 ∧
      (advance pending acked advanced).2.2 = popped.getLast?.or advanced := by
  induction pending generalizing acked advanced with
  | nil => exact ⟨[],rfl,rfl⟩
  | cons head pending ih =>
    simp only [advance]
    split
    · obtain ⟨popped,hpending,hadvanced⟩ := ih (acked.erase head) (some head)
      refine ⟨head::popped,by rw [List.cons_append,← hpending],?_⟩
      rw [hadvanced]
      cases popped with
      | nil => rfl
      | cons p popped =>
        rw [List.getLast?_cons_cons,List.getLast?_eq_some_getLast (List.cons_ne_nil p popped)]
        rfl
    · exact ⟨[],rfl,rfl⟩

/-- The cursor is the end of what was fetched, and reopening finds it again once all
of that is acked. -/
structure Kept (q : Source) : Prop where
  pending : ∀ last ∈ q.pending.getLast?, q.fetchedCursor = some last
  stored : q.pending = [] → (opened q.stored).readCursor = q.readCursor

theorem opened_kept (stored : Option Json) : Kept (opened stored) := by
  have hpending : (opened stored).pending = [] := by
    unfold opened
    split <;> rfl
  have hstored : (opened stored).stored = stored := by
    unfold opened
    split <;> rfl
  refine ⟨fun last hlast => ?_,fun _ => by rw [hstored]⟩
  rw [hpending] at hlast
  cases hlast

theorem Source.readCursor_of_fetched {cursor : Cursor} (h : q.fetchedCursor = some cursor) :
    q.readCursor = some cursor := by
  rw [Source.readCursor,h]
  rfl

theorem ackToken_kept (h : Kept q) (token : Cursor) : Kept (q.ackToken token) ∧
    (q.ackToken token).readCursor = q.readCursor ∧ (q.ackToken token).fetching = q.fetching := by
  unfold Source.ackToken
  split
  swap
  · exact ⟨h,rfl,rfl⟩
  obtain ⟨popped,hpending,hadvanced⟩ := advance_spec q.pending (insert token q.acked) none
  generalize advance q.pending (insert token q.acked) none = result at hpending hadvanced
  obtain ⟨pending,acked,advanced⟩ := result
  rw [Option.or_none] at hadvanced
  cases advanced with
  | none =>
    have hpopped : popped = [] := List.getLast?_eq_none_iff.mp hadvanced.symm
    rw [hpopped,List.nil_append] at hpending
    dsimp only at hpending ⊢
    subst hpending
    exact ⟨⟨h.pending,h.stored⟩,rfl,rfl⟩
  | some advanced =>
    dsimp only at hpending hadvanced ⊢
    cases pending with
    | nil =>
      rw [List.append_nil] at hpending
      have hfetched := h.pending advanced (by rw [hpending]; exact hadvanced.symm)
      refine ⟨⟨fun last hlast => (by cases hlast),fun _ => ?_⟩,?_,rfl⟩
      · rfl
      · rw [Source.readCursor_of_fetched hfetched]
        rfl
    | cons p pending =>
      have hlast : (p::pending).getLast? = q.pending.getLast? := by
        rw [hpending,List.getLast?_append,List.getLast?_eq_some_getLast (List.cons_ne_nil p pending)]
        rfl
      have hfetched := h.pending ((p::pending).getLast (List.cons_ne_nil p pending))
        (by rw [← hlast]; exact List.getLast?_eq_some_getLast _)
      refine ⟨⟨fun last hin => ?_,fun hnil => by cases hnil⟩,?_,rfl⟩
      · rw [hlast] at hin
        exact h.pending last hin
      · rw [Source.readCursor_of_fetched hfetched]
        exact Source.readCursor_of_fetched hfetched

theorem register_kept (h : Kept q) (entries : List Entry) : Kept (q.register entries) ∧
    (q.register entries).readCursor = (entries.getLast?.map Entry.cursor).or q.readCursor := by
  refine ⟨⟨fun last hlast => ?_,fun hnil => ?_⟩,?_⟩
  · simp only [Source.register,List.getLast?_append,List.getLast?_map] at hlast ⊢
    cases hentries : entries.getLast?.map Entry.cursor with
    | none =>
      rw [hentries] at hlast
      exact h.pending last hlast
    | some cursor =>
      rw [hentries] at hlast
      exact hlast
  · simp only [Source.register,List.append_eq_nil_iff,List.map_eq_nil_iff] at hnil
    rw [hnil.2]
    exact h.stored hnil.1
  · rw [Source.readCursor,Source.register,Option.or_assoc]
    rfl

end Source

section Runs
variable {py : Builtins} {cursorField : String} (t : Table py cursorField) (config : Config)

/-- What holds of a source that has fetched the first records. -/
structure Reading (fetched : ℕ) (q : Source) : Prop where
  kept : Kept q
  cursor : q.readCursor =
    ((ascending Entry.sortKey t.entries).take fetched).getLast?.map Entry.cursor
  fetching : ∀ readCursor n, q.fetching = some (readCursor,n) →
    readCursor = q.readCursor ∧ 0 < n ∧ n ≤ 500

/-- The records that a fetch asks for. -/
def Event.wanted (e : Event) : ℕ :=
  match e.op,e.before.fetching with
  | .gotRecords,some (_,n) => n
  | _,_ => 0

/-- What is said of the reading of a table, for a cursor and a page size. -/
def Event.Reads (e : Event) (P : Option Cursor → ℕ → Prop) : Prop :=
  e.op = .gotRecords → ∀ readCursor n, e.before.fetching = some (readCursor,n) → P readCursor n

/-- No record beyond those a fetch looks for stands on an earlier page than one of them. -/
def Event.Unsplit (e : Event) : Prop :=
  Event.Reads e fun readCursor n => SortedPages.Unsplit Entry.sortKey n (candidatePages t readCursor n)

/-- The scan of all pages, where it returns, returns the same. -/
def Event.Agrees (e : Event) : Prop :=
  Event.Reads e fun readCursor n => ∀ entries,
    t.fetchRecordsWithBody config n true readCursor = .ok entries → e.returned = entries.map Entry.delivery

variable {t config} {q q' : Source} {e : Event} {k : ℕ}

/-- A step that reads nothing returns nothing and keeps the cursor. -/
structure Quiet (t : Table py cursorField) (k : ℕ) (e : Event) (q' : Source) : Prop where
  notReading : e.op ≠ .gotRecords
  returned : e.returned = []
  reading : Reading t k q'

/-- A step that reads finds the next records exactly when they are not split. -/
structure Fetched (t : Table py cursorField) (config : Config) (k : ℕ) (e : Event) (n : ℕ)
    (entries : List Entry) (q' : Source) : Prop where
  wanted : Event.wanted e = n
  returned : e.returned = entries.map Entry.delivery
  length : entries.length = min n (t.entries.length-k)
  subset : entries ⊆ t.entries
  iff : entries = ((ascending Entry.sortKey t.entries).drop k).take n ↔ Event.Unsplit t e
  agrees : entries = ((ascending Entry.sortKey t.entries).drop k).take n → Event.Agrees t config e
  reading : entries = ((ascending Entry.sortKey t.entries).drop k).take n → Reading t (k+n) q'

theorem reads_iff {P : Option Cursor → ℕ → Prop} {readCursor : Option Cursor} {n : ℕ}
    (hop : e.op = .gotRecords) (hfetching : e.before.fetching = some (readCursor,n)) :
    Event.Reads e P ↔ P readCursor n := by
  refine ⟨fun h => h hop readCursor n hfetching,fun h _ c m hcm => ?_⟩
  rw [hfetching] at hcm
  cases hcm
  exact h

theorem fetched_spec (hq : Reading t k q) (h : Step t config false q e q') (hop : e.op = .gotRecords)
    {readCursor : Option Cursor} {n : ℕ} (hfetching : q.fetching = some (readCursor,n)) :
    ∃ entries, Fetched t config k e n entries q' := by
  obtain ⟨hbefore,hperform⟩ := h
  obtain ⟨hcursor,hn,hsized⟩ := hq.fetching readCursor n hfetching
  obtain ⟨hkeyed,habove⟩ := above_first (hcursor.trans hq.cursor)
  have hwanted : least Entry.sortKey n (t.entries.filter (isAfter py readCursor)) =
      ((ascending Entry.sortKey t.entries).drop k).take n := by
    rw [least,habove]
  have hcount : (t.entries.filter (isAfter py readCursor)).length = t.entries.length-k := by
    rw [← @length_ascending _ _ _ Entry.sortKey,habove,List.length_drop,length_ascending]
  have hread := @fetch_sorted py cursorField t config n readCursor hkeyed hn hsized
  have hflat := @flatten_candidatePages py cursorField t n readCursor hn
  have hevent : e.before.fetching = some (readCursor,n) := by
    rw [hbefore]
    exact hfetching
  generalize hentries : least Entry.sortKey n
    (gather Entry.sortKey n (candidatePages t readCursor n) []) = entries at hread
  rw [hop] at hperform
  simp only [perform,hfetching,Table.fetchRecords,hread] at hperform
  obtain ⟨hreturned,rfl⟩ := Prod.mk.inj (Option.some.inj hperform)
  refine ⟨entries,⟨?_,hreturned.symm,?_,?_,?_,?_,?_⟩⟩
  · simp only [Event.wanted,hop,hevent]
  · rw [← hentries,length_least_gather hn,hflat,hcount]
  · intro x hx
    rw [← hentries] at hx
    have hx := gather_subset n (candidatePages t readCursor n) [] (mem_of_least hx)
    rw [List.nil_append,hflat] at hx
    exact List.mem_of_mem_filter hx
  · rw [Event.Unsplit,reads_iff hop hevent,← gather_iff hn (by rw [hflat]; exact candidates_unique),
      hentries,hflat,hwanted]
  · intro hright
    rw [Event.Agrees,reads_iff hop hevent]
    intro others hothers
    rw [fetch_all hkeyed hn hsized,hwanted,← hright] at hothers
    split at hothers
    · rw [← hreturned,Except.ok.inj hothers]
    · cases hothers
  · intro hright
    obtain ⟨hkept,hnext⟩ := register_kept hq.kept entries
    refine ⟨hkept,?_,fun c m hcm => by cases hcm⟩
    rw [hnext,hq.cursor,List.take_add,List.getLast?_append,← hright,Option.map_or]

theorem step_cases (hq : Reading t k q) (h : Step t config false q e q') :
    Quiet t k e q' ∨ ∃ n entries, Fetched t config k e n entries q' := by
  obtain ⟨hbefore,hperform⟩ := h
  cases hop : e.op with
  | fetch limit =>
    left
    rw [hop] at hperform
    simp only [perform] at hperform
    split at hperform
    · obtain ⟨hreturned,rfl⟩ := Prod.mk.inj (Option.some.inj hperform)
      refine ⟨by rw [hop]; simp,hreturned.symm,⟨⟨hq.kept.pending,hq.kept.stored⟩,hq.cursor,?_⟩⟩
      intro readCursor n hfetching
      obtain ⟨rfl,rfl⟩ := Prod.mk.inj (Option.some.inj hfetching)
      have hsized := config.sized
      refine ⟨rfl,?_,?_⟩ <;> unfold Config.pageSize <;> omega
    · cases hperform
  | gotRecords =>
    right
    cases hfetching : q.fetching with
    | none =>
      rw [hop] at hperform
      simp only [perform,hfetching] at hperform
      cases hperform
    | some fetching =>
      obtain ⟨readCursor,n⟩ := fetching
      exact ⟨n,fetched_spec hq ⟨hbefore,hperform⟩ hop hfetching⟩
  | ack token =>
    left
    rw [hop] at hperform
    obtain ⟨hreturned,rfl⟩ := Prod.mk.inj (Option.some.inj hperform)
    obtain ⟨hkept,hcursor,hfetching⟩ := ackToken_kept hq.kept token
    refine ⟨by rw [hop]; simp,hreturned.symm,⟨hkept,hcursor.trans hq.cursor,?_⟩⟩
    rw [hfetching,hcursor]
    exact hq.fetching
  | reopen =>
    left
    rw [hop] at hperform
    simp only [perform] at hperform
    split at hperform
    · next hidle =>
        rw [Bool.and_eq_true,List.isEmpty_iff] at hidle
        obtain ⟨hreturned,rfl⟩ := Prod.mk.inj (Option.some.inj hperform)
        refine ⟨by rw [hop]; simp,hreturned.symm,⟨opened_kept _,?_,?_⟩⟩
        · rw [hq.kept.stored hidle.1]
          exact hq.cursor
        · intro readCursor n hfetching
          unfold opened at hfetching
          split at hfetching <;> cases hfetching
    · cases hperform

/-- What a list of events has returned, against the records from one place on. -/
def Right (t : Table py cursorField) (k : ℕ) (es : List Event) : Prop :=
  es.flatMap Event.returned = (((ascending Entry.sortKey t.entries).drop k).take
    (es.map Event.wanted).sum).map Entry.delivery

theorem Quiet.wanted (h : Quiet t k e q') : Event.wanted e = 0 := by
  have hnot := h.notReading
  unfold Event.wanted
  split
  · next hop _ => exact absurd hop hnot
  · rfl

theorem Quiet.reads (h : Quiet t k e q') (P : Option Cursor → ℕ → Prop) : Event.Reads e P :=
  fun hop => absurd hop h.notReading

theorem Quiet.right (h : Quiet t k e q') (es : List Event) : Right t k (e::es) ↔ Right t k es := by
  rw [Right,Right,List.flatMap_cons,List.map_cons,List.sum_cons,h.wanted,h.returned,Nat.zero_add,
    List.nil_append]

theorem delivery_injective {l m : List Entry} (hl : l ⊆ t.entries) (hm : m ⊆ t.entries)
    (h : l.map Entry.delivery = m.map Entry.delivery) : l = m := by
  induction l generalizing m with
  | nil =>
    rw [List.map_nil,eq_comm,List.map_eq_nil_iff] at h
    exact h.symm
  | cons x l ih =>
    cases m with
    | nil => cases h
    | cons y m =>
      rw [List.map_cons,List.map_cons,List.cons.injEq] at h
      obtain ⟨hx,hl⟩ := List.cons_subset.mp hl
      obtain ⟨hy,hm⟩ := List.cons_subset.mp hm
      have hid : x.cursor.recordId = y.cursor.recordId :=
        congrArg (fun d => d.token.recordId) h.1
      rw [List.inj_on_of_nodup_map t.distinct hx hy hid,ih hl hm h.2]

theorem Fetched.right {n : ℕ} {entries : List Entry} (h : Fetched t config k e n entries q')
    (es : List Event) : Right t k (e::es) ↔
      entries = ((ascending Entry.sortKey t.entries).drop k).take n ∧ Right t (k+n) es := by
  rw [Right,Right,List.flatMap_cons,List.map_cons,List.sum_cons,h.wanted,h.returned,List.take_add,
    List.map_append,List.drop_drop]
  refine ⟨fun heq => ?_,fun ⟨hentries,hrest⟩ => by rw [hrest,hentries]⟩
  obtain ⟨hfirst,hrest⟩ := List.append_inj heq (by
    rw [List.length_map,List.length_map,h.length,List.length_take,List.length_drop,length_ascending])
  refine ⟨delivery_injective h.subset (fun x hx => ?_) hfirst,hrest⟩
  exact mem_ascending.mp (List.mem_of_mem_drop (List.mem_of_mem_take hx))

theorem run_unsplit {es : List Event} (hq : Reading t k q) (h : Run (Step t config false) q es q') :
    (Right t k es ∧ ∀ e ∈ es, Event.Agrees t config e) ↔ ∀ e ∈ es, Event.Unsplit t e := by
  induction h generalizing k with
  | nil q => simp [Right]
  | cons hstep _ ih =>
    rw [List.forall_mem_cons,List.forall_mem_cons]
    rcases step_cases hq hstep with hquiet | ⟨n,entries,hfetched⟩
    · have hagrees : Event.Agrees t config _ := hquiet.reads _
      have hunsplit : Event.Unsplit t _ := hquiet.reads _
      rw [hquiet.right,and_iff_right hagrees,and_iff_right hunsplit]
      exact ih hquiet.reading
    · rw [hfetched.right,← hfetched.iff]
      constructor
      · rintro ⟨⟨hentries,hright⟩,-,hagrees⟩
        exact ⟨hentries,(ih (hfetched.reading hentries)).mp ⟨hright,hagrees⟩⟩
      · rintro ⟨hentries,hunsplit⟩
        obtain ⟨hright,hagrees⟩ := (ih (hfetched.reading hentries)).mpr hunsplit
        exact ⟨⟨hentries,hright⟩,hfetched.agrees hentries,hagrees⟩

theorem reading_start : Reading t 0 {} where
  kept := opened_kept none
  cursor := rfl
  fetching := fun _ _ h => by cases h

/-- Repeated fetches return the records one after the other, each as the scan of all
pages does, exactly when no fetch finds its records split by a page border. -/
theorem fetches_iff (t : Table py cursorField) (config : Config) {es : List Event} {q : Source}
    (h : Run (Step t config false) {} es q) :
    (es.flatMap Event.returned = ((ascending Entry.sortKey t.entries).take
        (es.map Event.wanted).sum).map Entry.delivery ∧ ∀ e ∈ es, Event.Agrees t config e) ↔
      ∀ e ∈ es, Event.Unsplit t e :=
  run_unsplit reading_start h

theorem unsplit_of_ties (h : t.entries.Pairwise fun r s => r.sortKey < s.sortKey) :
    ∀ (readCursor : Option Cursor) (n : ℕ), 0 < n →
      SortedPages.Unsplit Entry.sortKey n (candidatePages t readCursor n) := by
  intro readCursor n hn
  apply unsplit_of_strict
  rw [flatten_candidatePages hn]
  exact h.filter _

/-- What a list of operations does. -/
def trace (t : Table py cursorField) (config : Config) (q : Source) :
    List Op → Option (List Event × Source)
  | [] => some ([],q)
  | op::ops => (perform t config false q op).bind fun r =>
    (trace t config r.2 ops).map fun done => (⟨q,op,r.1⟩::done.1,done.2)

theorem run_trace {ops : List Op} {es : List Event} (h : trace t config q ops = some (es,q')) :
    Run (Step t config false) q es q' := by
  induction ops generalizing q es with
  | nil =>
    cases h
    exact .nil _
  | cons op ops ih =>
    obtain ⟨r,hr,h⟩ := Option.bind_eq_some_iff.mp h
    obtain ⟨done,hdone,h⟩ := Option.map_eq_some_iff.mp h
    cases h
    exact .cons ⟨rfl,hr⟩ (ih hdone)

end Runs

section Samples

def ten : Double := ⟨0x4024000000000000⟩

def sampleBuiltins : Builtins where
  float n := if n = 10 then some ten else none
  str _ := ""

def sampleRecord (recordId : String) : Record :=
  [("record_id",.str recordId),("fields",.obj [("updated_at",.int 10)])]

def sampleEntry (recordId : String) : Entry :=
  ⟨sampleRecord recordId,[("updated_at",.int 10)],⟨.int 10,recordId⟩,numberKey ten⟩

def tiesInOrder : Table sampleBuiltins "updated_at" where
  records := [sampleRecord "rec1",sampleRecord "rec2"]
  entries := [sampleEntry "rec1",sampleEntry "rec2"]
  read := rfl
  sorted := by simp [sampleEntry]
  distinct := by decide
  unsorted := [sampleRecord "rec1",sampleRecord "rec2"]
  shuffled := .refl _

def tiesReversed : Table sampleBuiltins "updated_at" where
  records := [sampleRecord "rec2",sampleRecord "rec1"]
  entries := [sampleEntry "rec2",sampleEntry "rec1"]
  read := rfl
  sorted := by simp [sampleEntry]
  distinct := by decide
  unsorted := [sampleRecord "rec2",sampleRecord "rec1"]
  shuffled := .refl _

def sampleConfig : Config := ⟨2,100,by decide,by decide⟩

/-- Two records of one value, fetched one by one. -/
theorem tiesInOrder_fetched : ∃ es q, Run (Step tiesInOrder sampleConfig false) {} es q ∧
    es.flatMap Event.returned = [(sampleEntry "rec1").delivery,(sampleEntry "rec2").delivery] ∧
      ∀ e ∈ es, Event.Agrees tiesInOrder sampleConfig e := by
  obtain ⟨es,q,htrace,hwanted,hfetching⟩ : ∃ es q, trace tiesInOrder sampleConfig {}
      [.fetch 1,.gotRecords,.ack ⟨.int 10,"rec1"⟩,.fetch 1,.gotRecords,.ack ⟨.int 10,"rec2"⟩] =
        some (es,q) ∧ (es.map Event.wanted).sum = 2 ∧
        ∀ e ∈ es, ∀ readCursor n, e.before.fetching = some (readCursor,n) → 0 < n := by
    refine ⟨_,_,rfl,rfl,?_⟩
    simp only [List.forall_mem_cons]
    refine ⟨?_,?_,?_,?_,?_,?_,by simp⟩ <;> intro readCursor n h <;> cases h <;> decide
  have hstrict : tiesInOrder.entries.Pairwise fun r s => r.sortKey < s.sortKey := by decide
  have hboth := (fetches_iff tiesInOrder sampleConfig (run_trace htrace)).mpr fun e he _ c n h =>
    unsplit_of_ties hstrict c n (hfetching e he c n h)
  rw [hwanted] at hboth
  exact ⟨es,q,run_trace htrace,hboth.1,hboth.2⟩

/-- The server has the records of one value in another order: the first fetch returns
the later one, the scan of all pages the earlier one, which no fetch returns. -/
theorem tiesReversed_lost : ∃ es q, Run (Step tiesReversed sampleConfig false) {} es q ∧
    2 ≤ (es.map Event.wanted).sum ∧ q.pending = [] ∧
    es.flatMap Event.returned = [(sampleEntry "rec2").delivery] ∧
    ¬∀ e ∈ es, Event.Agrees tiesReversed sampleConfig e := by
  obtain ⟨es,q,htrace,hwanted,hpending,hreturned,e,he,hop,hfetching,hfirst⟩ :
      ∃ es q, trace tiesReversed sampleConfig {}
        [.fetch 1,.gotRecords,.ack ⟨.int 10,"rec2"⟩,.fetch 1,.gotRecords] = some (es,q) ∧
      (es.map Event.wanted).sum = 2 ∧ q.pending = [] ∧
      es.flatMap Event.returned = [(sampleEntry "rec2").delivery] ∧
      ∃ e ∈ es, e.op = .gotRecords ∧ e.before.fetching = some (none,1) ∧
        e.returned = [(sampleEntry "rec2").delivery] := by
    refine ⟨_,_,rfl,rfl,rfl,rfl,?_⟩
    simp only [List.exists_mem_cons_iff]
    exact .inr (.inl ⟨trivial,rfl,rfl⟩)
  refine ⟨es,q,run_trace htrace,hwanted.ge,hpending,hreturned,fun hagrees => ?_⟩
  have hscan : tiesReversed.fetchRecordsWithBody sampleConfig 1 true none =
      .ok [sampleEntry "rec1"] := by rfl
  have hsame := hagrees e he hop none 1 hfetching _ hscan
  rw [hfirst] at hsame
  have hid := congrArg (List.map fun d => d.token.recordId) hsame
  simp [sampleEntry,Entry.delivery] at hid

end Samples

end OneStep.FeishuReads
