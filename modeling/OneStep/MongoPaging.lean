import OneStep.ItemLists
import OneStep.MongoSources
import OneStep.Transition
import Mathlib.Data.List.Lex

/-!
# Paging by keys

The polling source asks for the documents above its scan position: those that agree
with the position in the first cursor fields and are greater in the next one, for
each number of first fields. This is the order of the tuples, and what the fetches
return is one walk through the documents in that order, whatever their limits are
and whenever the deliveries are acked.
-/
namespace OneStep.MongoPaging
open GenerationTracker ItemLists MongoSources Transition

section Above
variable {δ τ : Type} [LinearOrder τ] (key : δ → τ)

/-- What a reader that stands at `start` has not passed. -/
def above (ds : List δ) (start : WithBot τ) : List δ :=
  ds.filter fun d => start < (key d : WithBot τ)

variable {key} in
theorem mem_above {ds : List δ} {start : WithBot τ} {d : δ} :
    d ∈ above key ds start ↔ d ∈ ds ∧ start < (key d : WithBot τ) := by
  rw [above,List.mem_filter,decide_eq_true_iff]

variable {key} in
theorem filter_eq_above {ds : List δ} {start : WithBot τ} {p q : δ → Bool}
    (h : ∀ d ∈ ds, p d = true ↔ q d = true ∧ start < (key d : WithBot τ)) :
    ds.filter p = above key (ds.filter q) start := by
  rw [above,List.filter_filter]
  apply List.filter_congr
  intro d hd
  rw [Bool.eq_iff_iff,h d hd,Bool.and_eq_true,decide_eq_true_iff,and_comm]

theorem le_endOf {start : WithBot τ} {batch : List τ} (h : ∀ x ∈ batch, start ≤ (x : WithBot τ)) :
    start ≤ endOf start batch := by
  induction batch using List.reverseRecOn with
  | nil => exact le_rfl
  | append_singleton batch x _ =>
    rw [endOf_snoc]
    exact h x (by simp)

theorem above_taken {ds : List δ} (h : ds.Pairwise fun a b => key a < key b) {start : WithBot τ}
    (hstart : ∀ d ∈ ds, start < (key d : WithBot τ)) (n : ℕ) :
    above key ds (endOf start ((ds.take n).map key)) = ds.drop n := by
  induction ds generalizing start n with
  | nil => simp [above]
  | cons d ds ih =>
    cases n with
    | zero =>
      apply List.filter_eq_self.mpr
      intro e he
      exact decide_eq_true (hstart e he)
    | succ n =>
      rw [List.pairwise_cons] at h
      have hlater : ∀ e ∈ ds, (key d : WithBot τ) < (key e : WithBot τ) :=
        fun e he => WithBot.coe_lt_coe.mpr (h.1 e he)
      have hle : (key d : WithBot τ) ≤ endOf (key d : WithBot τ) ((ds.take n).map key) := by
        apply le_endOf
        intro x hx
        obtain ⟨e,he,rfl⟩ := List.mem_map.mp hx
        exact (hlater e (List.mem_of_mem_take he)).le
      change above key (d::ds) (endOf (key d : WithBot τ) ((ds.take n).map key)) = ds.drop n
      rw [above,List.filter_cons_of_neg (by simpa using hle)]
      exact ih h.2 hlater n

theorem above_above (ds : List δ) {start reached : WithBot τ} (h : start ≤ reached) :
    above key (above key ds start) reached = above key ds reached := by
  unfold above
  rw [List.filter_filter]
  apply List.filter_congr
  intro d _
  by_cases hd : reached < (key d : WithBot τ)
  · simp [hd,h.trans_lt hd]
  · simp [hd]

theorem above_endOf {ds : List δ} (h : ds.Pairwise fun a b => key a < key b)
    (start : WithBot τ) (n : ℕ) :
    above key ds (endOf start (((above key ds start).take n).map key)) =
      (above key ds start).drop n := by
  have hstart : ∀ d ∈ above key ds start, start < (key d : WithBot τ) :=
    fun d hd => (mem_above.mp hd).2
  have hle : start ≤ endOf start (((above key ds start).take n).map key) := by
    apply le_endOf
    intro x hx
    obtain ⟨e,he,rfl⟩ := List.mem_map.mp hx
    exact (hstart e (List.mem_of_mem_take he)).le
  rw [← above_above key ds hle]
  exact above_taken key (h.filter _) hstart n

end Above

section Queries
variable {V K F : Type} [LinearOrder V] [OrderBot V]

abbrev Document (V : Type) : Type := List (String × V)

/-- A field that is missing is null, the least of all values. -/
def value (d : Document V) (field : String) : V := (d.lookup field).getD ⊥

/-- What the database does that the source relies on: each value is of one kind, and a
static filter takes some documents. -/
structure Server (V K F : Type) where
  kind : V → K
  takes : F → Document V → Bool

inductive Condition (V : Type) where
  | is (v : V)
  | gt (v : V)

/-- What `_query` returns; a branch is a conjunction. -/
inductive Query (V F : Type) where
  | all
  | filter (f : F)
  | or (branches : List (List (String × Condition V)))
  | and (f : F) (branches : List (List (String × Condition V)))

/-- The loop of `_cursor_query`, after the fields in `before`. -/
def branches (before : List (String × Condition V)) :
    List (String × V) → List (List (String × Condition V))
  | [] => []
  | (field,v)::rest => (before++[(field,.gt v)])::branches (before++[(field,.is v)]) rest

/-- `_cursor_query`. -/
def cursorQuery (cursor : List String) (token : List V) : List (List (String × Condition V)) :=
  branches [] (cursor.zip token)

/-- `_query`; no filter is an empty one. -/
def query (cursor : List String) (filter : Option F) (scan : WithBot (List V)) : Query V F :=
  match filter,scan with
  | some f,some token => .and f (cursorQuery cursor token)
  | some f,none => .filter f
  | none,some token => .or (cursorQuery cursor token)
  | none,none => .all

variable [DecidableEq K] (server : Server V K F)

/-- `$gt` finds no value of another kind. -/
def Condition.holds (v : V) : Condition V → Bool
  | .is w => v = w
  | .gt w => server.kind v = server.kind w ∧ w < v

def holdAll (d : Document V) (branch : List (String × Condition V)) : Bool :=
  branch.all fun part => part.2.holds server (value d part.1)

def Query.matches (d : Document V) : Query V F → Bool
  | .all => true
  | .filter f => server.takes f d
  | .or branches => branches.any (holdAll server d)
  | .and f branches => server.takes f d && branches.any (holdAll server d)

/-- The tuple by which the documents are sorted. -/
def tuple (cursor : List String) (d : Document V) : List V := cursor.map (value d)

/-- `find`, `sort` and `limit`; a limit of zero is none. -/
def find (documents : List (Document V)) (q : Query V F) (cursor : List String) (limit : ℕ) :
    List (Document V) :=
  let found := (documents.filter (q.matches server)).insertionSort fun d e =>
    tuple cursor d ≤ tuple cursor e
  if limit = 0 then found else found.take limit

/-- The token of a document, which raises for a missing field. -/
def token (cursor : List String) (d : Document V) : Option (List V) := cursor.mapM fun field => d.lookup field

theorem holdAll_snoc (d : Document V) (before : List (String × Condition V)) (field : String)
    (c : Condition V) : holdAll server d (before++[(field,c)]) =
      (holdAll server d before && c.holds server (value d field)) := by
  simp [holdAll]

/-- The branches after some fields are the order of the tuples of the others. -/
theorem any_branches (d : Document V) (rest : List (String × V))
    (hkinds : ∀ p ∈ rest, server.kind (value d p.1) = server.kind p.2)
    (before : List (String × Condition V)) :
    (branches before rest).any (holdAll server d) = (holdAll server d before &&
      decide (rest.map Prod.snd < rest.map fun p => value d p.1)) := by
  induction rest generalizing before with
  | nil => simp [branches]
  | cons p rest ih =>
    obtain ⟨field,v⟩ := p
    have hkind : server.kind (value d field) = server.kind v := hkinds _ List.mem_cons_self
    have hrest := ih (fun p hp => hkinds p (List.mem_cons_of_mem _ hp))
      (before++[(field,.is v)])
    rw [branches,List.any_cons,hrest,holdAll_snoc,holdAll_snoc]
    simp only [Condition.holds,hkind,true_and,List.map_cons,List.cons_lt_cons_iff]
    cases holdAll server d before with
    | false => simp
    | true =>
      by_cases hv : v = value d field
      · simp [hv]
      · simp [hv,Ne.symm hv]

end Queries

section Paging
variable {V K F : Type} [LinearOrder V] [OrderBot V] [DecidableEq K]

/-- The cursor of a source: `_id` is its last field. -/
structure Keyset where
  fields : List String
  distinct : fields.Nodup
  tied : fields.getLast? = some "_id"

/-- The constructor's check of the cursor. -/
def keyset (configured : List String) : Except String Keyset :=
  if hplain : configured = [] ∨ ¬configured.Nodup then
    .error "cursor must be non-empty and unique"
  else if hplace : "_id" ∈ configured ∧ configured.getLast? ≠ some "_id" then
    .error "_id must be the final cursor component"
  else if hlast : configured.getLast? = some "_id" then
    .ok ⟨configured,not_not.mp (not_or.mp hplain).2,hlast⟩
  else
    .ok ⟨configured++["_id"],by
      have hnew : "_id" ∉ configured := fun hmem => hplace ⟨hmem,hlast⟩
      simpa [List.nodup_append',hnew] using (not_or.mp hplain).2,by simp⟩

/-- Documents that hold values of one kind in each field of the cursor, under ids of
their own. -/
structure Collection (server : Server V K F) (keys : Keyset) where
  documents : List (Document V)
  kinds : String → K
  held : ∀ d ∈ documents, ∀ field ∈ keys.fields,
    ∃ v, d.lookup field = some v ∧ server.kind v = kinds field
  unique : documents.Pairwise fun d e => value d "_id" ≠ value e "_id"

variable {server : Server V K F} {keys : Keyset} (c : Collection server keys)
  (filter : Option F) (batchSize : ℕ)

/-- Values as the cursor fields hold them. -/
def Collection.Typed (token : List V) : Prop :=
  token.map server.kind = keys.fields.map c.kinds

/-- What the source is for: the documents that the filter takes above the committed
cursor, in their order. -/
def Collection.walk (committed : WithBot (List V)) : List (Document V) :=
  (above (tuple keys.fields) (c.documents.filter fun d => filter.all (server.takes · d))
    committed).insertionSort fun d e => tuple keys.fields d ≤ tuple keys.fields e

/-- What a fetch finds when it stands at `scan`. -/
def Collection.batch (scan : WithBot (List V)) (limit : ℕ) : List (Document V) :=
  find server c.documents (query keys.fields filter scan) keys.fields limit

/-- A step in which the driver answers with what it finds, and every delivery is acked. -/
def Collection.Polls (p : Polling (List V)) (op : PollOp (List V)) (p' : Polling (List V)) :
    Prop :=
  p.perform batchSize op = some p' ∧
  match op with
  | .fetched tokens => ∀ r ∈ p.reading,
      (c.batch filter r.scan r.limit).mapM (token keys.fields) = some tokens
  | .call (.settle _ call) => call = .ack
  | .call (.invalidate _) => False
  | _ => True

section Order

omit [LinearOrder V] [OrderBot V] [DecidableEq K] in
theorem typed_zip {kind : V → K} {kinds : String → K} {fields : List String} {vs : List V}
    (h : vs.map kind = fields.map kinds) : ∀ p ∈ fields.zip vs, kind p.2 = kinds p.1 := by
  induction fields generalizing vs with
  | nil => simp
  | cons field fields ih =>
    cases vs with
    | nil => simp
    | cons v vs =>
      rw [List.map_cons,List.map_cons,List.cons.injEq] at h
      rw [List.zip_cons_cons,List.forall_mem_cons]
      exact ⟨h.1,ih h.2⟩

variable {c} {d : Document V} {scan : WithBot (List V)}

omit [DecidableEq K] in
theorem Collection.kind_held (hd : d ∈ c.documents) {field : String} (hfield : field ∈ keys.fields) :
    server.kind (value d field) = c.kinds field := by
  obtain ⟨v,hv,hkind⟩ := c.held d hd field hfield
  rw [value,hv]
  exact hkind

omit [DecidableEq K] in
theorem Collection.typed_tuple (hd : d ∈ c.documents) : c.Typed (tuple keys.fields d) := by
  unfold Typed tuple
  rw [List.map_map]
  apply List.map_congr_left
  intro field hfield
  exact c.kind_held hd hfield

/-- A document is above a token in the query exactly if it is in the order. -/
theorem Collection.cursorQuery_iff {t : List V} (ht : c.Typed t) (hd : d ∈ c.documents) :
    (cursorQuery keys.fields t).any (holdAll server d) = true ↔
      t < tuple keys.fields d := by
  have hlength : t.length = keys.fields.length := by simpa using congrArg List.length ht
  have hkinds : ∀ p ∈ keys.fields.zip t, server.kind (value d p.1) = server.kind p.2 := by
    intro p hp
    rw [typed_zip ht p hp]
    exact c.kind_held hd (List.of_mem_zip hp).1
  have hright : (keys.fields.zip t).map Prod.snd = t := List.map_snd_zip hlength.le
  have hleft : (keys.fields.zip t).map (fun p => value d p.1) = tuple keys.fields d := by
    have hfst : (keys.fields.zip t).map Prod.fst = keys.fields := List.map_fst_zip hlength.ge
    calc (keys.fields.zip t).map (fun p => value d p.1)
        = ((keys.fields.zip t).map Prod.fst).map (value d) := by
          rw [List.map_map]
          rfl
      _ = tuple keys.fields d := by rw [hfst,tuple]
  rw [cursorQuery,any_branches server d _ hkinds,hright,hleft]
  simp [holdAll]

theorem Collection.query_iff (hscan : ∀ t : List V, scan = t → c.Typed t) (hd : d ∈ c.documents) :
    (query keys.fields filter scan).matches server d = true ↔
      filter.all (server.takes · d) = true ∧ scan < (tuple keys.fields d : WithBot (List V)) := by
  cases scan with
  | bot =>
    cases filter with
    | none => simp [query,Query.matches]
    | some f => simp [query,Query.matches]
  | coe t =>
    have horder := c.cursorQuery_iff (hscan t rfl) hd
    cases filter with
    | none => simpa [query,Query.matches] using horder
    | some f => simpa [query,Query.matches] using fun _ => horder

theorem mapM_eq_map {α β : Type} {f : α → Option β} {g : α → β} {as : List α}
    (h : ∀ a ∈ as, f a = some (g a)) : as.mapM f = some (as.map g) := by
  induction as with
  | nil => rfl
  | cons a as ih =>
    rw [List.forall_mem_cons] at h
    rw [List.mapM_cons,h.1,ih h.2]
    rfl

omit [DecidableEq K] in
theorem Collection.token_held (hd : d ∈ c.documents) :
    token keys.fields d = some (tuple keys.fields d) := by
  unfold token tuple
  have hheld : ∀ field ∈ keys.fields, d.lookup field = some (value d field) := by
    intro field hfield
    obtain ⟨v,hv,-⟩ := c.held d hd field hfield
    rw [value,hv]
    rfl
  exact mapM_eq_map hheld

omit [DecidableEq K] in
theorem Collection.mem_walk {committed : WithBot (List V)} :
    d ∈ c.walk filter committed ↔ (d ∈ c.documents ∧ filter.all (server.takes · d) = true) ∧
      committed < (tuple keys.fields d : WithBot (List V)) := by
  rw [walk,(List.perm_insertionSort _ _).mem_iff,mem_above,List.mem_filter]

omit [DecidableEq K] in
/-- No two documents have one tuple, which ends with the id. -/
theorem Collection.tuple_ne : c.documents.Pairwise fun d e =>
    tuple keys.fields d ≠ tuple keys.fields e := by
  have htied : "_id" ∈ keys.fields := List.mem_of_getLast? keys.tied
  exact c.unique.imp fun h heq => h (List.map_inj_left.mp heq "_id" htied)

omit [DecidableEq K] in
theorem Collection.walk_ascending (committed : WithBot (List V)) :
    (c.walk filter committed).Pairwise fun d e => tuple keys.fields d < tuple keys.fields e := by
  have htaken := c.tuple_ne.filter fun d => filter.all (server.takes · d)
  have hne : (c.walk filter committed).Pairwise fun d e =>
      tuple keys.fields d ≠ tuple keys.fields e :=
    (htaken.sublist List.filter_sublist).perm (List.perm_insertionSort _ _).symm Ne.symm
  exact List.Pairwise.imp₂ (fun _ _ => lt_of_le_of_ne) (pairwise_sorted (tuple keys.fields) _) hne

omit [DecidableEq K] in
theorem Collection.walk_nodup (committed : WithBot (List V)) : (c.walk filter committed).Nodup := by
  refine (c.walk_ascending filter committed).imp fun {d e} hlt => ?_
  rintro rfl
  exact lt_irrefl _ hlt

omit [DecidableEq K] in
theorem Collection.walk_above {committed : WithBot (List V)} (h : committed ≤ scan) :
    above (tuple keys.fields) (c.walk filter committed) scan = c.walk filter scan := by
  have hleft : (above (tuple keys.fields) (c.walk filter committed) scan).Nodup :=
    (c.walk_nodup filter committed).filter _
  have hmem : ∀ d, d ∈ above (tuple keys.fields) (c.walk filter committed) scan ↔
      d ∈ c.walk filter scan := by
    intro d
    rw [mem_above,c.mem_walk,c.mem_walk]
    constructor
    · intro hd
      exact ⟨hd.1.1,hd.2⟩
    · intro hd
      exact ⟨⟨hd.1,h.trans_lt hd.2⟩,hd.2⟩
  apply sorted_unique (tuple keys.fields)
  · exact (List.perm_ext_iff_of_nodup hleft (c.walk_nodup filter scan)).mpr hmem
  · exact ((c.walk_ascending filter committed).imp le_of_lt).filter _
  · exact (c.walk_ascending filter scan).imp le_of_lt
  · intro a ha b hb heq
    have ha := (c.mem_walk filter).mp ((hmem a).mp ha)
    have hb := (c.mem_walk filter).mp hb
    by_contra hne
    have : Std.Symm fun d e : Document V => tuple keys.fields d ≠ tuple keys.fields e :=
      ⟨fun _ _ => Ne.symm⟩
    exact c.tuple_ne.forall ha.1.1 hb.1.1 hne heq

/-- As many as a limit lets through. -/
def limited {δ : Type} (limit : ℕ) (ds : List δ) : List δ := if limit = 0 then ds else ds.take limit

theorem Collection.batch_eq (hscan : ∀ t : List V, scan = t → c.Typed t) (limit : ℕ) :
    c.batch filter scan limit = limited limit (c.walk filter scan) := by
  have hfound : c.documents.filter ((query keys.fields filter scan).matches server) =
      above (tuple keys.fields) (c.documents.filter fun d => filter.all (server.takes · d)) scan :=
    filter_eq_above fun d hd => c.query_iff filter hscan hd
  unfold batch find limited walk
  rw [hfound]

end Order

section Calls
variable {τ : Type} {core core' : Core τ}

/-- The tokens that were handed out, in order. -/
def returned (core : Core τ) : List τ := core.tracker.tokens.map (·.token)

theorem returned_deliverAll (core : Core τ) (generation : ℕ) (batch : List τ) :
    returned (core.deliverAll generation batch) = returned core++batch ∧
      (core.deliverAll generation batch).tracker.invalidated = core.tracker.invalidated := by
  induction batch using List.reverseRecOn with
  | nil => exact ⟨(List.append_nil _).symm,rfl⟩
  | append_singleton batch x ih =>
    rw [Core.deliverAll,List.foldl_append]
    change returned ((core.deliverAll generation batch).deliver generation x) = _ ∧
      (core.deliverAll generation batch).tracker.invalidated = _
    refine ⟨?_,ih.2⟩
    rw [← List.append_assoc,← ih.1]
    exact List.map_append

theorem tokens_setFlags (t : Tracker τ) (i : ℕ) (completed advances : Bool) :
    (t.setFlags i completed advances).tokens.map (·.token) = t.tokens.map (·.token) := by
  apply List.ext_getElem?
  intro j
  simp only [Tracker.setFlags,List.getElem?_map,List.getElem?_modify]
  cases t.tokens[j]? with
  | none => rfl
  | some x =>
    by_cases hj : i = j
    · simp [hj]
    · simp [hj]

theorem returned_call {op : Call} (hop : op.invalidates = false)
    (hvalid : core.tracker.invalidated = ∅) (h : op.perform core = some core') :
    returned core' = returned core ∧ core'.tracker.invalidated = ∅ := by
  cases op with
  | settle i call =>
    simp only [Call.perform,Core.settle] at h
    split at h <;> cases h
    exact ⟨rfl,hvalid⟩
  | invalidate i => cases hop
  | complete i =>
    simp only [Call.perform,Core.complete] at h
    split at h
    · split at h <;> cases h
      · exact ⟨tokens_setFlags _ _ _ _,by simp [Core.setPhase,Tracker.finish,
          Tracker.discardSettledGenerations,Tracker.setFlags,hvalid]⟩
      · exact ⟨tokens_setFlags _ _ _ _,hvalid⟩
    · cases h
  | saveReturns ok =>
    simp only [Call.perform,Core.saveReturns] at h
    split at h
    · cases h
    · split at h <;> cases h
      · exact ⟨rfl,by simp [Core.setPhase,Tracker.finish,Tracker.discardSettledGenerations,hvalid]⟩
      · exact ⟨tokens_setFlags _ _ _ _,hvalid⟩

end Calls

section Runs
variable {c filter batchSize} {committed : WithBot (List V)} {p p' : Polling (List V)}
  {op : PollOp (List V)}

/-- What was handed out is the beginning of the walk, and what is left its end. -/
structure Walked (c : Collection server keys) (filter : Option F) (committed : WithBot (List V))
    (p : Polling (List V)) : Prop where
  typed : ∀ t : List V, p.scan = t → c.Typed t
  reached : committed ≤ p.scan
  accounted : ∃ n, returned p.core = ((c.walk filter committed).take n).map (tuple keys.fields) ∧
    c.walk filter p.scan = (c.walk filter committed).drop n
  reading : ∀ r ∈ p.reading, r.scan = p.scan
  valid : p.core.tracker.invalidated = ∅

theorem endOf_cases {τ : Type} (start : WithBot τ) (batch : List τ) :
    endOf start batch = start ∨ ∃ x ∈ batch, endOf start batch = x := by
  induction batch using List.reverseRecOn with
  | nil => exact .inl rfl
  | append_singleton batch x _ => exact .inr ⟨x,by simp,endOf_snoc start batch x⟩

theorem limited_eq {δ : Type} (limit : ℕ) (ds : List δ) : ∃ size, limited limit ds = ds.take size ∧
    (limited limit ds = [] → ds = []) := by
  unfold limited
  split
  · exact ⟨ds.length,(List.take_length).symm,id⟩
  · next hlimit => exact ⟨limit,rfl,fun h => (List.take_eq_nil_iff.mp h).resolve_left hlimit⟩

theorem Walked.tokens {r : PollRead (List V)} {tokens : List (List V)}
    (h : Walked c filter committed p) (hr : r ∈ p.reading)
    (htokens : (c.batch filter r.scan r.limit).mapM (token keys.fields) = some tokens) :
    ∃ size, tokens = ((c.walk filter p.scan).take size).map (tuple keys.fields) := by
  rw [h.reading r hr,c.batch_eq filter h.typed] at htokens
  obtain ⟨size,hsize,-⟩ := limited_eq r.limit (c.walk filter p.scan)
  rw [hsize] at htokens
  have hall : ∀ d ∈ (c.walk filter p.scan).take size,
      token keys.fields d = some (tuple keys.fields d) :=
    fun d hd => c.token_held ((c.mem_walk filter).mp (List.mem_of_mem_take hd)).1.1
  rw [mapM_eq_map hall] at htokens
  exact ⟨size,(Option.some.inj htokens).symm⟩

/-- A poll goes on with the walk. -/
theorem Walked.step (h : Walked c filter committed p) (hstep : c.Polls filter batchSize p op p') :
    Walked c filter committed p' := by
  obtain ⟨hp,hop⟩ := hstep
  cases op with
  | startFetch limit =>
    simp only [Polling.perform] at hp
    split at hp
    · cases hp
    · split at hp <;> cases hp
      · exact ⟨h.typed,h.reached,h.accounted,fun r hr => by cases hr; rfl,h.valid⟩
      · exact h
  | fetchRaised =>
    simp only [Polling.perform] at hp
    split at hp <;> cases hp
    exact ⟨h.typed,h.reached,h.accounted,nofun,h.valid⟩
  | call op =>
    have hkeeps : op.invalidates = false := by
      cases op with
      | invalidate i => exact hop.elim
      | _ => rfl
    simp only [Polling.perform,hkeeps] at hp
    obtain ⟨core,hcore,rfl⟩ := Option.map_eq_some_iff.mp hp
    obtain ⟨hreturned,hvalid⟩ := returned_call hkeeps h.valid hcore
    exact ⟨h.typed,h.reached,hreturned ▸ h.accounted,h.reading,hvalid⟩
  | fetched tokens =>
    simp only [Polling.perform] at hp
    split at hp
    · cases hp
    · next r hr =>
        split at hp <;> cases hp
        obtain ⟨size,rfl⟩ := h.tokens hr (hop r hr)
        obtain ⟨hreturned,hvalid⟩ := returned_deliverAll p.core r.generation
          (((c.walk filter p.scan).take size).map (tuple keys.fields))
        have hpassed : p.scan ≤
            endOf p.scan (((c.walk filter p.scan).take size).map (tuple keys.fields)) := by
          apply le_endOf
          intro x hx
          obtain ⟨d,hd,rfl⟩ := List.mem_map.mp hx
          exact ((c.mem_walk filter).mp (List.mem_of_mem_take hd)).2.le
        have hleft := above_endOf (tuple keys.fields) (c.walk_ascending filter p.scan) p.scan size
        rw [c.walk_above filter le_rfl,c.walk_above filter hpassed] at hleft
        refine ⟨fun t ht => ?_,h.reached.trans hpassed,?_,nofun,hvalid.trans h.valid⟩
        · rcases endOf_cases p.scan (((c.walk filter p.scan).take size).map (tuple keys.fields)) with
            hsame | ⟨x,hx,hend⟩
          · exact h.typed t (hsame.symm.trans ht)
          · obtain ⟨d,hd,rfl⟩ := List.mem_map.mp hx
            cases hend.symm.trans ht
            exact c.typed_tuple ((c.mem_walk filter).mp (List.mem_of_mem_take hd)).1.1
        · obtain ⟨n,hfront,hback⟩ := h.accounted
          refine ⟨n+size,?_,?_⟩
          · rw [hreturned,hfront,hback,← List.map_append,List.take_add]
          · rw [hleft,hback,List.drop_drop]

/-- A query for what is above a token is the order of the tuples, and what fetches return
whose deliveries are acked is a walk through the documents above the committed cursor: each
once, in their order, and all of them by the time that a fetch returns none. -/
theorem paging_walks (c : Collection server keys) (filter : Option F) (batchSize : ℕ) :
    (∀ t, c.Typed t → ∀ d ∈ c.documents,
      ((cursorQuery keys.fields t).any (holdAll server d) = true ↔ t < tuple keys.fields d)) ∧
    ∀ committed : WithBot (List V), (∀ t : List V, committed = t → c.Typed t) →
      (c.walk filter committed).Pairwise (fun d e => tuple keys.fields d < tuple keys.fields e) ∧
      (∀ d, d ∈ c.walk filter committed ↔ d ∈ c.documents ∧
        filter.all (server.takes · d) = true ∧
        committed < (tuple keys.fields d : WithBot (List V))) ∧
      ∀ p, Reachable (Polling.opened committed) (c.Polls filter batchSize) p →
        p.core.tracker.canFetch = true ∧ ∃ n,
          returned p.core = ((c.walk filter committed).take n).map (tuple keys.fields) ∧
          ∀ r ∈ p.reading,
            c.batch filter r.scan r.limit = limited r.limit ((c.walk filter committed).drop n) ∧
            (c.batch filter r.scan r.limit = [] → (c.walk filter committed).drop n = []) := by
  refine ⟨fun t ht d hd => c.cursorQuery_iff ht hd,fun committed hcommitted => ⟨?_,?_,?_⟩⟩
  · exact c.walk_ascending filter committed
  · intro d
    rw [c.mem_walk,and_assoc]
  · intro p hp
    have hopened : Walked c filter committed (Polling.opened committed) :=
      ⟨hcommitted,le_rfl,⟨0,rfl,rfl⟩,nofun,rfl⟩
    have h : Walked c filter committed p := hp.invariant hopened fun _ _ _ h hs => h.step hs
    obtain ⟨n,hfront,hback⟩ := h.accounted
    refine ⟨by simp [Tracker.canFetch,h.valid],n,hfront,?_⟩
    intro r hr
    rw [h.reading r hr,c.batch_eq filter h.typed,← hback]
    obtain ⟨_,-,hnil⟩ := limited_eq r.limit (c.walk filter p.scan)
    exact ⟨rfl,hnil⟩

end Runs

end Paging

section Samples

/-- Zero stands for null, and all other numbers are of one kind. -/
def plain : Server ℕ Bool Unit := ⟨fun v => v != 0,fun _ _ => true⟩

def stamped : Keyset := ⟨["at","_id"],by decide,rfl⟩

example : keyset ["at"] = .ok stamped := rfl

def ticks : Collection plain stamped where
  documents := [[("at",5),("_id",2)],[("at",5),("_id",1)],[("at",3),("_id",3)]]
  kinds _ := true
  held := by decide
  unique := by decide

/-- Two ticks of one time are paged apart. -/
theorem ticks_paged :
    (cursorQuery stamped.fields [5,1]).any (holdAll plain [("at",5),("_id",2)]) = true ∧
    ∃ n, [[3,3],[5,1]] = ((ticks.walk none ⊥).take n).map (tuple stamped.fields) := by
  obtain ⟨hquery,hwalk⟩ := paging_walks ticks none 2
  refine ⟨(hquery [5,1] rfl [("at",5),("_id",2)] (by decide)).mpr (by decide),?_⟩
  have hrun : Reachable (Polling.opened ⊥) (ticks.Polls none 2) _ :=
    ⟨[.startFetch 5,.fetched [[3,3],[5,1]],.call (.settle 0 .ack)],
      .cons ⟨rfl,trivial⟩ (.cons ⟨rfl,fun r hr => by cases hr; rfl⟩
        (.cons ⟨rfl,rfl⟩ (.nil _)))⟩
  obtain ⟨n,hn,-⟩ := ((hwalk ⊥ nofun).2.2 _ hrun).2
  exact ⟨n,hn⟩

end Samples

end OneStep.MongoPaging
