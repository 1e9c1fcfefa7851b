import OneStep.ExecutionCursors
import OneStep.ExecutionRuns
import OneStep.KeysetPages

/-!
# Pages of executions

`_list` reads one row more than a page holds, so that it knows whether another
page follows, and then hands out the cursor of the last execution of the page. A
client that follows the cursors reads every matching row once, the newest first,
however large it asks its pages to be, and rows that are created meanwhile do not
disturb it.
-/
namespace OneStep.ExecutionPages
open CalendarDays DateTimeText ExecutionBackend ExecutionCursors ExecutionModel KeyedTable
open ExecutionRuns JsonValues KeysetPages

section Model
variable {V J : Type}

structure ExecutionQuery where
  namespaceName : String
  taskName : Option String := none
  status : Option ExecutionStatus := none
  limit : ℕ := 50
  cursor : Option (List Char) := none

structure ExecutionPage (V : Type) where
  items : List (Execution V)
  nextCursor : Option (List Char)

def matchesQuery (q : ExecutionQuery) (row : ExecutionRow J) : Bool :=
  row.namespaceName = q.namespaceName && q.taskName.all (fun name => row.taskName = name) &&
    q.status.all fun status => row.status = status

/-- The columns of the order, both descending. -/
def pageKey (row : ExecutionRow J) : Instant ×ₗ UUID := toLex (row.createdAt,row.id)

/-- The rows behind the cursor. -/
def behind (position : Option (Instant × UUID)) (row : ExecutionRow J) : Bool :=
  position.all fun p => row.createdAt < p.1 || (row.createdAt = p.1 && row.id < p.2)

/-- The instant a datetime in UTC is compared as. -/
def timestamp (d : DateTime) : Instant := wall d-d.offset.getD 0

def cursorPosition (readFloat : List Char → Double) (cursor : Option (List Char)) :
    Except BackendError (Option (Instant × UUID)) :=
  match cursor with
  | none => .ok none
  | some cursor => (decodeCursor readFloat cursor).map fun p => some (timestamp p.1,p.2.toNat)

/-- The datetime of a column; the driver raises for one out of range. -/
def asDateTime (i : Instant) : Except BackendError DateTime :=
  match utc i with
  | some d => .ok d
  | none => .error (.valueError "date value out of range")

variable [DecidableEq J]

/-- The page that the rows make, of which there is one too many when more follow. -/
def pageOf (b : Backend V J) (limit : ℕ) (rows : List (ExecutionRow J)) :
    Except BackendError (ExecutionPage V) := do
  let hasMore := decide (limit < rows.length)
  let items ← (rows.take limit).mapM (rowToExecution b)
  match items.getLast?.filter fun _ => hasMore with
  | none => return ⟨items,none⟩
  | some last =>
    let createdAt ← asDateTime last.createdAt
    return ⟨items,some (encodeCursor createdAt (BitVec.ofNat 128 last.id))⟩

/-- `_list`. -/
def list (b : Backend V J) (readFloat : List Char → Double) (q : ExecutionQuery) (t : Tables J) :
    Except BackendError (ExecutionPage V) := do
  let position ← cursorPosition readFloat q.cursor
  pageOf b q.limit (select (fun row => matchesQuery q row && behind position row)
    (newest pageKey) (q.limit+1) t.executions)

/-- A client that follows the cursors: before the `i`-th page it asks for
`limits i` rows, and after it the rows `inserts i` are stored. It runs out of fuel
or ends with an error or with all the items. -/
def follow (b : Backend V J) (readFloat : List Char → Double) (q : ExecutionQuery)
    (limits : ℕ → ℕ) (inserts : ℕ → List (ExecutionRow J)) :
    ℕ → ℕ → Tables J → Option (List Char) → Option (Except BackendError (List (Execution V)))
  | 0,_,_,_ => none
  | fuel+1,i,t,cursor =>
    match list b readFloat {q with limit := limits i, cursor := cursor} t with
    | .error e => some (.error e)
    | .ok page =>
      match page.nextCursor with
      | none => some (.ok page.items)
      | some next =>
        (follow b readFloat q limits inserts fuel (i+1)
          {t with executions := t.executions++inserts i} (some next)).map fun more =>
            more.map fun items => page.items++items

end Model

section Rows
variable {V J : Type} {rows : List (ExecutionRow J)}

/-- Rows as the columns hold them: distinct ids of 128 bits and times in range. -/
structure StoredRows (J : Type) where
  rows : List (ExecutionRow J)
  ids : UniqueKey ExecutionRow.id rows
  timed : ∀ row ∈ rows, InRange row.createdAt
  sized : ∀ row ∈ rows, row.id < 2^128

def StoredRows.selected (s : StoredRows J) (q : ExecutionQuery) : List (ExecutionRow J) :=
  arranged pageKey (s.rows.filter (matchesQuery q))

theorem pageKey_unique (h : UniqueKey ExecutionRow.id rows) : UniqueKey pageKey rows := by
  unfold UniqueKey at h ⊢
  refine List.Nodup.of_map (fun k : Instant ×ₗ UUID => (ofLex k).2) ?_
  rw [List.map_map]
  exact h

theorem unique_filter {p : ExecutionRow J → Bool} (h : UniqueKey ExecutionRow.id rows) :
    UniqueKey ExecutionRow.id (rows.filter p) :=
  h.sublist (List.filter_sublist.map _)

variable {s : StoredRows J} {q : ExecutionQuery} {row : ExecutionRow J}

theorem mem_selected (h : row ∈ s.selected q) : row ∈ s.rows :=
  (List.mem_filter.mp ((perm_arranged pageKey _).mem_iff.mp h)).1

variable {last : ExecutionRow J}

theorem behind_last :
    behind (some (last.createdAt,last.id)) row = decide (pageKey row < pageKey last) := by
  have hlex : pageKey row < pageKey last ↔ row.createdAt < last.createdAt ∨
      (row.createdAt = last.createdAt ∧ row.id < last.id) := Prod.Lex.toLex_lt_toLex
  unfold behind
  rw [Option.all_some,decide_eq_decide.mpr hlex,Bool.decide_or,Bool.decide_and]

/-- Where a client is: at the start, or behind a row whose cursor it was handed,
with rows stored meanwhile that are later than the others. What is left to read. -/
inductive At (s : StoredRows J) (q : ExecutionQuery) :
    List (ExecutionRow J) → Option (List Char) → List (ExecutionRow J) → Prop
  | first : At s q s.rows none (s.selected q)
  | later {front rest extra : List (ExecutionRow J)} {last : ExecutionRow J} {d : DateTime} :
      s.selected q = front++last::rest → utc last.createdAt = some d →
      (∀ r ∈ extra, ∀ row ∈ s.rows, row.createdAt < r.createdAt) →
      At s q (s.rows++extra) (some (encodeCursor d (BitVec.ofNat 128 last.id))) rest

theorem cursorPosition_encodeCursor (readFloat : List Char → Double) (hrow : row ∈ s.rows)
    {d : DateTime} (hd : utc row.createdAt = some d) :
    cursorPosition readFloat (some (encodeCursor d (BitVec.ofNat 128 row.id))) =
      .ok (some (row.createdAt,row.id)) := by
  obtain ⟨d',hd',hwall,hoffset,-⟩ := utc_inRange (s.timed row hrow)
  rw [hd] at hd'
  cases hd'
  unfold cursorPosition
  dsimp only
  rw [decodeCursor_encodeCursor hoffset]
  have htime : timestamp {d with fold := false} = row.createdAt := by
    change wall d-d.offset.getD 0 = row.createdAt
    rw [hoffset,Option.getD_some,Int.sub_zero,hwall]
  have hid : (BitVec.ofNat 128 row.id).toNat = row.id := by
    rw [BitVec.toNat_ofNat]
    exact Nat.mod_eq_of_lt (s.sized row hrow)
  simp only [Except.map,htime,hid]

variable {rest : List (ExecutionRow J)}

theorem select_behind {front extra : List (ExecutionRow J)} (h : s.selected q = front++last::rest)
    (hextra : ∀ r ∈ extra, ∀ row ∈ s.rows, row.createdAt < r.createdAt) (n : ℕ) :
    select (fun row => matchesQuery q row && behind (some (last.createdAt,last.id)) row)
      (newest pageKey) n (s.rows++extra) = rest.take n := by
  have hlast : last ∈ s.rows := mem_selected (s := s) (q := q) (by rw [h]; simp)
  have hnone : extra.filter (fun row => matchesQuery q row &&
      behind (some (last.createdAt,last.id)) row) = [] := by
    apply List.filter_eq_nil_iff.mpr
    intro r hr
    have hlater := hextra r hr last hlast
    have hnot : ¬pageKey r < pageKey last := by
      intro hlt
      rcases Prod.Lex.toLex_lt_toLex.mp hlt with hlt | ⟨heq,-⟩
      · exact lt_asymm hlater hlt
      · exact hlater.ne' heq
    simp [behind_last,hnot]
  have hfilter : (s.rows++extra).filter (fun row => matchesQuery q row &&
      behind (some (last.createdAt,last.id)) row) =
        (s.rows.filter (matchesQuery q)).filter fun row => pageKey row < pageKey last := by
    rw [List.filter_append,hnone,List.append_nil,List.filter_filter]
    apply List.filter_congr
    intro row _
    rw [behind_last,Bool.and_comm]
  unfold select
  rw [hfilter]
  have hbelow := arranged_below pageKey (pageKey_unique (unique_filter s.ids)) h
  unfold arranged at hbelow
  rw [hbelow]

theorem At.advance {front extra : List (ExecutionRow J)} {cursor : Option (List Char)}
    {d : DateTime} {n : ℕ} (h : At s q rows cursor rest) (hpage : rest.take n = front++[last])
    (hd : utc last.createdAt = some d)
    (hextra : ∀ r ∈ extra, ∀ row ∈ s.rows, row.createdAt < r.createdAt) :
    At s q (rows++extra) (some (encodeCursor d (BitVec.ofNat 128 last.id))) (rest.drop n) := by
  have hrest : rest = front++last::rest.drop n := by
    conv_lhs => rw [← List.take_append_drop n rest,hpage]
    simp
  cases h with
  | first => exact .later hrest hd hextra
  | later hsel hd' hextra' =>
    rename_i front' extra' last' d'
    rw [List.append_assoc]
    refine .later (show s.selected q = (front'++last'::front)++last::rest.drop n from ?_) hd ?_
    · rw [hsel]
      conv_lhs => rw [hrest]
      simp
    · intro r hr
      rcases List.mem_append.mp hr with hr | hr
      · exact hextra' r hr
      · exact hextra r hr

theorem At.mem {cursor : Option (List Char)} (h : At s q rows cursor rest) (hrow : row ∈ rest) :
    row ∈ s.rows := by
  cases h with
  | first => exact mem_selected hrow
  | later hsel hd hextra =>
    apply mem_selected (q := q)
    rw [hsel]
    simp [hrow]

section Reading
variable [DecidableEq J] {b : Backend V J} {readFloat : List Char → Double}

variable {rest : List (ExecutionRow J)}

theorem list_at {t : Tables J} {cursor : Option (List Char)} (h : At s q t.executions cursor rest)
    (n : ℕ) :
    list b readFloat {q with limit := n, cursor := cursor} t = pageOf b n (rest.take (n+1)) := by
  unfold list
  generalize t.executions = rows at h
  cases h with
  | first =>
    have hall : s.rows.filter (fun row => matchesQuery q row && behind none row) =
        s.rows.filter (matchesQuery q) := by
      apply List.filter_congr
      intro row _
      exact Bool.and_true _
    change pageOf b n (select (fun row => matchesQuery q row && behind none row)
      (newest pageKey) (n+1) s.rows) = _
    unfold select
    rw [hall]
    rfl
  | later hsel hd hextra =>
    rename_i front extra last d
    have hlast : last ∈ s.rows := mem_selected (s := s) (q := q) (by rw [hsel]; simp)
    dsimp only
    rw [cursorPosition_encodeCursor readFloat hlast hd]
    change pageOf b n (select (fun row => matchesQuery q row &&
      behind (some (last.createdAt,last.id)) row) (newest pageKey) (n+1) (s.rows++extra)) = _
    rw [select_behind hsel hextra]

theorem rowToExecution_key {x : Execution V} (h : rowToExecution b row = .ok x) :
    x.id = row.id ∧ x.createdAt = row.createdAt := by
  unfold rowToExecution at h
  obtain ⟨payload,-,h⟩ := ok_of_bind h
  obtain ⟨metadata,-,h⟩ := ok_of_bind h
  obtain ⟨result,-,h⟩ := ok_of_bind h
  cases h
  exact ⟨rfl,rfl⟩

theorem mapM_concat {α β : Type} {f : α → Except BackendError β} {front : List α} {last : α}
    {items : List β} (h : (front++[last]).mapM f = .ok items) :
    ∃ before x, items = before++[x] ∧ f last = .ok x := by
  rw [List.mapM_append] at h
  obtain ⟨before,-,h⟩ := ok_of_bind h
  obtain ⟨xs,hxs,h⟩ := ok_of_bind h
  rw [List.mapM_cons,List.mapM_nil] at hxs
  obtain ⟨x,hx,hxs⟩ := ok_of_bind hxs
  cases h
  cases hxs
  exact ⟨before,x,rfl,hx⟩

theorem pageOf_last {n : ℕ} (h : rest.length ≤ n) :
    pageOf b n (rest.take (n+1)) =
      (rest.mapM (rowToExecution b)).map fun items => ⟨items,none⟩ := by
  have htake : rest.take (n+1) = rest := List.take_of_length_le (by omega)
  unfold pageOf
  rw [htake,List.take_of_length_le h]
  have hmore : decide (n < rest.length) = false := decide_eq_false (by omega)
  cases hitems : rest.mapM (rowToExecution b) with
  | error e => rfl
  | ok items =>
    have hnone : (items.getLast?.filter fun _ => false) = none := by
      cases items.getLast? <;> rfl
    simp only [hmore,Bind.bind,Except.bind,hnone,Except.map]
    rfl

theorem pageOf_more {front : List (ExecutionRow J)} {n : ℕ} (h : n < rest.length)
    (hpage : rest.take n = front++[last]) {d : DateTime} (hd : utc last.createdAt = some d) :
    pageOf b n (rest.take (n+1)) =
      ((rest.take n).mapM (rowToExecution b)).map fun items =>
        ⟨items,some (encodeCursor d (BitVec.ofNat 128 last.id))⟩ := by
  have htake : (rest.take (n+1)).take n = rest.take n := by
    rw [List.take_take,Nat.min_eq_left (Nat.le_succ n)]
  have hmore : decide (n < (rest.take (n+1)).length) = true := by
    apply decide_eq_true
    rw [List.length_take]
    omega
  unfold pageOf
  rw [htake,hmore]
  cases hitems : (rest.take n).mapM (rowToExecution b) with
  | error e => rfl
  | ok items =>
    rw [hpage] at hitems
    obtain ⟨before,x,rfl,hx⟩ := mapM_concat hitems
    obtain ⟨hid,hcreated⟩ := rowToExecution_key hx
    have hdate : asDateTime x.createdAt = .ok d := by
      rw [asDateTime,hcreated,hd]
    simp only [Bind.bind,Except.bind,List.getLast?_append,List.getLast?_singleton,
      Option.some_or,Option.filter_some,if_true,hdate,hid,Except.map]
    rfl

/-- From wherever a client is, it reads what is left, or meets the first row that
does not decode. -/
theorem follow_at {limits : ℕ → ℕ} {inserts : ℕ → List (ExecutionRow J)}
    (hlimits : ∀ i, 1 ≤ limits i)
    (hinserts : ∀ i, ∀ r ∈ inserts i, ∀ row ∈ s.rows, row.createdAt < r.createdAt) {fuel i : ℕ}
    {t : Tables J} {cursor : Option (List Char)} (h : At s q t.executions cursor rest)
    (hfuel : rest.length < fuel) :
    follow b readFloat q limits inserts fuel i t cursor =
      some (rest.mapM (rowToExecution b)) := by
  induction fuel generalizing i t cursor rest with
  | zero => omega
  | succ fuel ih =>
    have hlimit := hlimits i
    unfold follow
    rw [list_at h]
    by_cases hmore : limits i < rest.length
    · obtain ⟨front,last,hpage⟩ : ∃ front last, rest.take (limits i) = front++[last] := by
        refine ⟨_,_,(List.dropLast_append_getLast ?_).symm⟩
        intro hnil
        have hlen := congrArg List.length hnil
        rw [List.length_take,List.length_nil] at hlen
        omega
      have hlast : last ∈ s.rows := by
        apply h.mem
        apply List.mem_of_mem_take
        rw [hpage]
        simp
      obtain ⟨d,hd,-⟩ := utc_inRange (s.timed last hlast)
      have hnext := h.advance hpage hd (hinserts i)
      have hrest : rest.mapM (rowToExecution b) = (rest.take (limits i)).mapM (rowToExecution b) >>=
          fun items => (rest.drop (limits i)).mapM (rowToExecution b) >>=
            fun more => pure (items++more) := by
        conv_lhs => rw [← List.take_append_drop (limits i) rest]
        exact List.mapM_append
      rw [pageOf_more hmore hpage hd,hrest]
      cases (rest.take (limits i)).mapM (rowToExecution b) with
      | error e => rfl
      | ok items =>
        dsimp only [Except.map]
        rw [ih (t := {t with executions := t.executions++inserts i}) hnext
          (by rw [List.length_drop]; omega),Option.map_some]
        rfl
    · rw [pageOf_last (by omega)]
      cases rest.mapM (rowToExecution b) with
      | error e => rfl
      | ok items => rfl

/-- Following the cursors reads every matching row once, in the order of creation
time and id, both descending, whatever the limits are and whatever is created
meanwhile; a cursor stands for the position it was made of, and no other text does. -/
theorem follow_complete (b : Backend V J) (readFloat : List Char → Double) (s : StoredRows J)
    (q : ExecutionQuery) (limits : ℕ → ℕ) (inserts : ℕ → List (ExecutionRow J))
    (hlimits : ∀ i, 1 ≤ limits i)
    (hinserts : ∀ i, ∀ r ∈ inserts i, ∀ row ∈ s.rows, row.createdAt < r.createdAt) :
    (∃ rows : List (ExecutionRow J), rows.Perm (s.rows.filter (matchesQuery q)) ∧
      rows.Pairwise (fun r r' => r'.createdAt < r.createdAt ∨
        (r'.createdAt = r.createdAt ∧ r'.id < r.id)) ∧
      ∀ fuel attempts, rows.length < fuel →
        follow b readFloat q limits inserts fuel 0 ⟨s.rows,attempts⟩ none =
          some (rows.mapM (rowToExecution b))) ∧
    (∀ (d : DateTime) (u : Uuid), d.offset = some 0 →
      decodeCursor readFloat (encodeCursor d u) = .ok ({d with fold := false},u)) ∧
    ∀ cursor d u, decodeCursor readFloat cursor = .ok (d,u) → cursor = encodeCursor d u := by
  refine ⟨⟨s.selected q,perm_arranged pageKey _,?_,?_⟩,?_,?_⟩
  · have hstrict := arranged_strict pageKey (pageKey_unique (unique_filter s.ids
      (p := matchesQuery q)))
    exact hstrict.imp fun h => Prod.Lex.toLex_lt_toLex.mp h
  · intro fuel attempts hfuel
    exact follow_at hlimits hinserts .first hfuel
  · intro d u hd
    exact decodeCursor_encodeCursor hd u
  · intro cursor d u h
    exact encodeCursor_of_decodeCursor h

end Reading

end Rows

section Sample

/-- A waiting execution of the sample. -/
def waitingRow (id : UUID) (createdAt : Instant) : ExecutionRow (Option ℤ) :=
  ⟨id,"default","resize",.queued,some 7,none,none,none,none,none,0,createdAt,none,none,none,none,
    none,none,createdAt,createdAt,none,none,0⟩

/-- Three executions created in one microsecond. -/
def tiedRows : StoredRows (Option ℤ) where
  rows := [waitingRow 5 day,waitingRow 9 day,waitingRow 7 day]
  ids := List.nodup_iff_pairwise_ne.mpr (by decide)
  timed := by decide +kernel
  sized := by decide +kernel

/-- Pages of one row each, while later executions are created. -/
theorem tiedRows_complete : ∃ items,
    follow integers (fun _ => ⟨0⟩) {namespaceName := "default"} (fun _ => 1)
      (fun i => [waitingRow (10+i) (2*day)]) 4 0 ⟨tiedRows.rows,[]⟩ none = some (.ok items) ∧
    items.map Execution.id = [9,7,5] := by
  have hlater : ∀ i : ℕ, ∀ r ∈ [waitingRow (10+i) (2*day)], ∀ row ∈ tiedRows.rows,
      row.createdAt < r.createdAt := by
    intro i r hr row hrow
    rw [List.mem_singleton] at hr
    have htime : ∀ row ∈ tiedRows.rows, row.createdAt = day := by decide +kernel
    rw [hr,htime row hrow]
    change (day : ℤ) < 2*day
    decide
  obtain ⟨⟨rows,hperm,hstrict,hfollow⟩,-⟩ := follow_complete integers (fun _ => ⟨0⟩) tiedRows
    {namespaceName := "default"} (fun _ => 1) (fun i => [waitingRow (10+i) (2*day)])
    (fun _ => le_rfl) hlater
  have hsorted : [waitingRow 9 day,waitingRow 7 day,waitingRow 5 day].Perm
      (tiedRows.rows.filter (matchesQuery {namespaceName := "default"})) := by decide +kernel
  have hdown : [waitingRow 9 day,waitingRow 7 day,waitingRow 5 day].Pairwise
      fun r r' => pageKey r' < pageKey r := by decide +kernel
  have hrows : rows = [waitingRow 9 day,waitingRow 7 day,waitingRow 5 day] :=
    (arranged_eq pageKey hperm (hstrict.imp fun h => Prod.Lex.toLex_lt_toLex.mpr h)).symm.trans
      (arranged_eq pageKey hsorted hdown)
  rw [hrows] at hfollow
  exact ⟨_,hfollow 4 [] (by decide),rfl⟩

end Sample

end OneStep.ExecutionPages
