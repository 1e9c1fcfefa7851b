import OneStep.ExecutionRefinement
import OneStep.SubmissionDigest

/-!
# Submissions with an idempotency key

Two calls of `_submit` with one namespace, task and key, in any interleaving of
their transactions. The one whose insertion comes first puts its row in; the other
one meets the unique index, reads the row, and compares digests. A row that the
database does not accept raises, and nobody's row is compared with it.
-/
namespace OneStep.IdempotentSubmissions
open CanonicalJson CaptureCodec CodecRoundTrip ExecutionBackend ExecutionModel ExecutionRefinement
open DateTimeText JsonValues PythonValues SubmissionDigest Transaction KeyedTable ValueEquality EncodedValues

section Calls
variable {env : Environment}

/-- A call of `_submit`, for a request that was encoded. -/
structure Call (env : Environment) where
  submission : Submission env.loaded
  encoded : EncodedSubmission Json
  id : ExecutionModel.UUID
  accepted : encodeSubmission env submission = .ok encoded

/-- Where a call stands: it inserts, and then reads what there is. -/
inductive Phase where
  | called
  | inserted
  | clashed
  | returned (result : Except BackendError (Option (Execution Value)))

def Call.request (call : Call env) : ExecutionRequest Value := toRequest env call.submission

def Call.row (call : Call env) (now : Instant) : ExecutionRow Json :=
  submittedRow (backend env) call.request call.encoded call.id now

/-- The next transaction of a call. -/
def Call.advance (call : Call env) (now : Instant) (t : Tables Json) :
    Phase → Phase × Tables Json
  | .called =>
    match commit (submitTx (backend env) (call.row now)) t with
    | (.ok _,u) => (.inserted,u)
    | (.error .integrityError,u) => (.clashed,u)
    | (.error e,u) => (.returned (.error e),u)
  | .inserted => (.returned (getExecution (backend env) call.request.namespaceName call.id t),t)
  | .clashed => (.returned (submitted (backend env) call.request call.encoded t),t)
  | .returned result => (.returned result,t)

inductive Side where
  | first
  | second

structure World where
  tables : Tables Json
  first : Phase
  second : Phase

def begin (t : Tables Json) : World := ⟨t,.called,.called⟩

/-- A transaction of one of the two calls. -/
def move (a b : Call env) (w : World) : Side × Instant → World
  | (.first,now) =>
    let next := a.advance now w.tables w.first
    ⟨next.2,next.1,w.second⟩
  | (.second,now) =>
    let next := b.advance now w.tables w.second
    ⟨next.2,w.first,next.1⟩

def interleave (a b : Call env) (w : World) (turns : List (Side × Instant)) : World :=
  turns.foldl (move a b) w

/-- The time of the first turn of the second call. -/
def calledAt : List (Side × Instant) → Option Instant
  | [] => none
  | (.first,_)::turns => calledAt turns
  | (.second,now)::_ => some now

/-- The rows that hold the key of a request. -/
def keyed (request : ExecutionRequest Value) (r : ExecutionRow Json) : Bool :=
  r.namespaceName = request.namespaceName && r.taskName = request.taskName &&
    r.idempotencyKey = request.idempotencyKey

/-- Requests for one namespace and task, with one key. -/
structure OneKey (a b : Submission env.loaded) : Prop where
  namespaceName : a.namespaceName = b.namespaceName
  taskName : a.taskName = b.taskName
  key : a.idempotencyKey = b.idempotencyKey
  some : a.idempotencyKey.isSome = true

/-- The tables before: nobody has the key, and the identifier of the first call is
new. -/
structure Free (a : Call env) (t : Tables Json) : Prop where
  key : ∀ r ∈ t.executions, keyed a.request r = false
  id : ∀ r ∈ t.executions, r.id ≠ a.id

def conflict : BackendError :=
  .executionConflict "idempotency key was already used with a different submission"

end Calls

section Interleaving
variable {env : Environment} {a b : Call env} {t : Tables Json} {now : Instant}

/-- The tables with the row of the first call. -/
def stored (a : Call env) (t : Tables Json) (now : Instant) : Tables Json :=
  ⟨t.executions++[a.row now],t.attempts⟩

theorem insert_first (hfree : Free a t) (haccepted : env.accepts (a.row now) = true) :
    a.advance now t .called = (.inserted,stored a t now) := by
  have hclash : (t.executions.any fun r => clashesExecution r (a.row now)) = false := by
    apply List.any_eq_false.mpr
    intro r hr hclash
    have hid := hfree.id r hr
    have hkey := hfree.key r hr
    simp only [clashesExecution,Bool.or_eq_true,decide_eq_true_eq,Bool.and_eq_true] at hclash
    rcases hclash with heq | hsame
    · exact hid heq
    · apply Bool.eq_false_iff.mp hkey
      simp only [keyed,Bool.and_eq_true,decide_eq_true_eq]
      exact ⟨⟨hsame.1.1.2,hsame.1.2⟩,hsame.2⟩
  have hrun : (submitTx (backend env) (a.row now)).run t = .ok ((),stored a t now) := by
    have haccepts : (backend env).accepts (a.row now) = true := haccepted
    unfold submitTx insertExecution
    simp only [StateT.run,bind,StateT.bind,get,getThe,MonadStateOf.get,StateT.get,pure,Except.pure,
      Except.bind,hclash,haccepts,Bool.false_eq_true,if_false,if_true]
    rfl
  rw [Call.advance,commit_of_ok hrun]

theorem insert_second (hkey : OneKey a.submission b.submission) {later : Instant}
    (haccepted : env.accepts (b.row later) = true) :
    b.advance later (stored a t now) .called = (.clashed,stored a t now) := by
  have hclash : ((stored a t now).executions.any fun r => clashesExecution r (b.row later)) = true := by
    apply List.any_eq_true.mpr
    refine ⟨a.row now,List.mem_append_right _ List.mem_cons_self,?_⟩
    have hsome := hkey.some
    rw [hkey.key] at hsome
    simp [clashesExecution,Call.row,submittedRow,Call.request,toRequest,hkey.namespaceName,
      hkey.taskName,hkey.key,hsome]
  have hrun : (submitTx (backend env) (b.row later)).run (stored a t now) = .error .integrityError := by
    have haccepts : (backend env).accepts (b.row later) = true := haccepted
    unfold submitTx insertExecution
    simp [hclash,haccepts,StateT.run,bind,StateT.bind,get,getThe,MonadStateOf.get,StateT.get,throw,
      throwThe,MonadExceptOf.throw,StateT.lift,pure,Except.pure,Except.bind]
  rw [Call.advance,commit_of_error hrun]

/-- A row that the database does not accept. -/
theorem insert_refused {u : Tables Json} (hrefused : env.accepts (a.row now) = false) :
    a.advance now u .called = (.returned (.error .databaseError),u) := by
  have hrun : (submitTx (backend env) (a.row now)).run u = .error .databaseError := by
    have haccepts : (backend env).accepts (a.row now) = false := hrefused
    unfold submitTx
    simp [haccepts,StateT.run,throw,throwThe,MonadExceptOf.throw,StateT.lift,bind,Except.bind]
  rw [Call.advance,commit_of_error hrun]

/-- The phases of the second call, which made its insertion at `later`. -/
def Answered (a b : Call env) (t : Tables Json) (now later : Instant) (phase : Phase) : Prop :=
  if env.accepts (b.row later) then phase = .clashed ∨
    phase = .returned (submitted (backend env) b.request b.encoded (stored a t now))
  else phase = .returned (.error .databaseError)

/-- What a run of both calls keeps once the first one has inserted its row. -/
structure Kept (a b : Call env) (t : Tables Json) (now : Instant) (called : Option Instant)
    (w : World) : Prop where
  tables : w.tables = stored a t now
  first : w.first = .inserted ∨
    w.first = .returned (getExecution (backend env) a.request.namespaceName a.id (stored a t now))
  second : called.elim (w.second = .called) fun later => Answered a b t now later w.second

theorem answered_called (hkey : OneKey a.submission b.submission) (later : Instant) :
    (b.advance later (stored a t now) .called).2 = stored a t now ∧
      Answered a b t now later (b.advance later (stored a t now) .called).1 := by
  unfold Answered
  cases haccepted : env.accepts (b.row later) with
  | true =>
    rw [insert_second hkey haccepted]
    exact ⟨rfl,.inl rfl⟩
  | false =>
    rw [insert_refused haccepted]
    exact ⟨rfl,rfl⟩

theorem answered_next {later latest : Instant} {phase : Phase} (h : Answered a b t now later phase) :
    (b.advance latest (stored a t now) phase).2 = stored a t now ∧
      Answered a b t now later (b.advance latest (stored a t now) phase).1 := by
  unfold Answered at h ⊢
  cases haccepted : env.accepts (b.row later) with
  | true =>
    rw [haccepted,if_pos rfl] at h
    rcases h with rfl | rfl
    · exact ⟨rfl,.inr rfl⟩
    · exact ⟨rfl,.inr rfl⟩
  | false =>
    rw [haccepted,if_neg (by simp)] at h
    subst h
    exact ⟨rfl,rfl⟩

theorem move_kept (hkey : OneKey a.submission b.submission) {called : Option Instant} {w : World}
    (h : Kept a b t now called w) (turn : Side × Instant) :
    Kept a b t now (called.orElse fun _ => calledAt [turn]) (move a b w turn) := by
  obtain ⟨htables,hfirst,hsecond⟩ := h
  obtain ⟨side,latest⟩ := turn
  cases side with
  | first =>
    have hcalled : (called.orElse fun _ => calledAt [(Side.first,latest)]) = called := by
      cases called <;> rfl
    rw [hcalled]
    rcases hfirst with hinserted | hreturned
    · exact ⟨by simp [move,hinserted,Call.advance,htables],
        by simp [move,hinserted,Call.advance,htables],hsecond⟩
    · exact ⟨by simp [move,hreturned,Call.advance,htables],
        by simp [move,hreturned,Call.advance],hsecond⟩
  | second =>
    cases called with
    | none =>
      have hstep : (b.advance latest (stored a t now) .called).2 = stored a t now ∧
          Answered a b t now latest (b.advance latest (stored a t now) .called).1 :=
        answered_called hkey latest
      rw [← htables,← show w.second = .called from hsecond] at hstep
      exact ⟨by rw [move,hstep.1,htables],hfirst,hstep.2⟩
    | some later =>
      have hstep : (b.advance latest (stored a t now) w.second).2 = stored a t now ∧
          Answered a b t now later (b.advance latest (stored a t now) w.second).1 :=
        answered_next hsecond
      rw [← htables] at hstep
      exact ⟨by rw [move,hstep.1,htables],hfirst,hstep.2⟩

theorem interleave_kept (hkey : OneKey a.submission b.submission) {called : Option Instant}
    {w : World} (h : Kept a b t now called w) (turns : List (Side × Instant)) :
    Kept a b t now (called.orElse fun _ => calledAt turns) (interleave a b w turns) := by
  induction turns generalizing called w with
  | nil =>
    have hcalled : (called.orElse fun _ => calledAt []) = called := by cases called <;> rfl
    rw [hcalled]
    exact h
  | cons turn turns ih =>
    have hnext := ih (move_kept hkey h turn)
    obtain ⟨side,latest⟩ := turn
    cases called <;> cases side <;> exact hnext

/-- The call that moves first inserts its row; whatever follows keeps it. -/
theorem interleaved (hkey : OneKey a.submission b.submission) (hfree : Free a t)
    (haccepted : env.accepts (a.row now) = true) (turns : List (Side × Instant)) :
    Kept a b t now (calledAt turns) (interleave a b (begin t) ((.first,now)::turns)) := by
  have hinsert : a.advance now t .called = (.inserted,stored a t now) := insert_first hfree haccepted
  have hkept : Kept a b t now none (move a b (begin t) (.first,now)) :=
    ⟨by simp [move,begin,hinsert],by simp [move,begin,hinsert],rfl⟩
  exact interleave_kept hkey hkept turns

theorem second_returns (hkey : OneKey a.submission b.submission) (hfree : Free a t)
    (haccepted : env.accepts (a.row now) = true) {later : Instant} (latest : Instant)
    (hsecond : env.accepts (b.row later) = true) :
    (interleave a b (begin t) [(.first,now),(.second,later),(.second,latest)]).second =
      .returned (submitted (backend env) b.request b.encoded (stored a t now)) := by
  have hinsert : a.advance now t .called = (.inserted,stored a t now) := insert_first hfree haccepted
  have hclash : b.advance later (stored a t now) .called = (.clashed,stored a t now) :=
    insert_second hkey hsecond
  simp only [interleave,move,begin,List.foldl_cons,List.foldl_nil,hinsert,hclash]
  rfl

/-- A row gets into the table in a transaction that accepts it. -/
theorem advance_rows (call : Call env) (latest : Instant) (u : Tables Json) (phase : Phase) :
    ∀ r ∈ (call.advance latest u phase).2.executions, r ∈ u.executions ∨ env.accepts r = true := by
  intro r hr
  cases phase with
  | called =>
    rcases commit_cases (submitTx (backend env) (call.row latest)) u with ⟨made,u',hrun,hcommit⟩ | ⟨e,-,hcommit⟩
    · rw [Call.advance,hcommit] at hr
      unfold submitTx at hrun
      split at hrun
      · next haccepts =>
          obtain ⟨-,rfl⟩ := insertExecution_ok hrun
          rcases List.mem_append.mp hr with hr | hr
          · exact .inl hr
          · exact .inr (List.mem_singleton.mp hr ▸ haccepts)
      · exact (throw_ok.mp hrun).elim
    · rw [Call.advance,hcommit] at hr
      cases e <;> exact .inl hr
  | inserted => exact .inl hr
  | clashed => exact .inl hr
  | returned result => exact .inl hr

theorem interleave_rows (w : World) (turns : List (Side × Instant)) :
    ∀ r ∈ (interleave a b w turns).tables.executions, r ∈ w.tables.executions ∨ env.accepts r = true := by
  induction turns generalizing w with
  | nil => exact fun r hr => .inl hr
  | cons turn turns ih =>
    intro r hr
    rcases ih (move a b w turn) r hr with hr | hr
    · obtain ⟨side,latest⟩ := turn
      cases side with
      | first => exact advance_rows a latest w.tables w.first r hr
      | second => exact advance_rows b latest w.tables w.second r hr
    · exact .inr hr

end Interleaving

section Results
variable {env : Environment} {a b : Call env} {t : Tables Json} {now : Instant}

theorem keyed_row (hkey : OneKey a.submission b.submission) : keyed b.request (a.row now) = true := by
  simp [keyed,Call.row,submittedRow,Call.request,toRequest,hkey.namespaceName,hkey.taskName,hkey.key]

theorem keyed_same (hkey : OneKey a.submission b.submission) (r : ExecutionRow Json) :
    keyed b.request r = keyed a.request r := by
  have hnamespace : a.request.namespaceName = b.request.namespaceName := hkey.namespaceName
  have htask : a.request.taskName = b.request.taskName := hkey.taskName
  have hsame : a.request.idempotencyKey = b.request.idempotencyKey := hkey.key
  unfold keyed
  rw [hnamespace,htask,hsame]

theorem one_row (hkey : OneKey a.submission b.submission) (hfree : Free a t) :
    (stored a t now).executions.filter (keyed a.request) = [a.row now] := by
  have hnone : t.executions.filter (keyed a.request) = [] := by
    apply List.filter_eq_nil_iff.mpr
    intro r hr
    simp [hfree.key r hr]
  have hrow : keyed a.request (a.row now) = true := by
    rw [← keyed_same hkey]
    exact keyed_row hkey
  rw [stored,List.filter_append,hnone,List.filter_cons_of_pos hrow]
  rfl

theorem find_row (hkey : OneKey a.submission b.submission) (hfree : Free a t) :
    (stored a t now).executions.find? (keyed b.request) = some (a.row now) := by
  have hnone : t.executions.find? (keyed b.request) = none := by
    apply List.find?_eq_none.mpr
    intro r hr
    rw [keyed_same hkey]
    simp [hfree.key r hr]
  rw [stored,List.find?_append,hnone,List.find?_cons_of_pos (keyed_row hkey)]
  rfl

theorem submitted_second (hkey : OneKey a.submission b.submission) (hfree : Free a t) :
    submitted (backend env) b.request b.encoded (stored a t now) =
      if a.encoded.digest ≠ b.encoded.digest then .error conflict
      else (rowToExecution (backend env) (a.row now)).map some := by
  obtain ⟨key,hsome⟩ := Option.isSome_iff_exists.mp hkey.some
  have hrequest : b.request.idempotencyKey = some key := by
    rw [Call.request,toRequest,← hkey.key,hsome]
  have hfind : (stored a t now).executions.find? (keyed b.request) = some (a.row now) :=
    find_row hkey hfree
  have hdigest : (a.row now).submissionDigest = some a.encoded.digest := by
    simp [Call.row,submittedRow,Call.request,toRequest,hsome]
  unfold keyed at hfind
  rw [hrequest] at hfind
  unfold submitted
  simp only [hrequest,hfind,hdigest,ne_eq,Option.some.injEq,conflict]

/-- A JSON value that `decode_value` reads. -/
def Readable (env : Environment) (j : Json) : Prop := ∃ v, decode env.loaded "" j = .ok v

/-- What JSONB makes of the numbers keeps the value readable. -/
def StaysReadable (env : Environment) (j : Json) : Prop := Readable env j → Readable env (env.stored j)

/-- JSONB makes no encoded value readable that was not. -/
def RepairsNothing (env : Environment) : Prop :=
  ∀ v j, Valid env.loaded v → encode env.floatText env.loaded "" v = .ok j →
    Readable env (env.stored j) → Readable env j

theorem readable_iff {v : Value} (hvalid : Valid env.loaded v) {j : Json}
    (h : encode env.floatText env.loaded "" v = .ok j) : Readable env j ↔ Replayable env.loaded v := by
  have houtcome : Outcome ordered env.loaded v j := outcome_cases.all v hvalid j ⟨"",h⟩
  constructor
  · intro hread
    obtain ⟨w,hw⟩ := hread
    apply Classical.byContradiction
    intro hnot
    obtain ⟨e,he⟩ := houtcome.refused hnot ""
    rw [he] at hw
    cases hw
  · intro hreplay
    obtain ⟨w,hw,-⟩ := houtcome.read hreplay
    exact ⟨w,hw ""⟩

theorem stored_readable (hrepairs : RepairsNothing env) {v : Value} (hvalid : Valid env.loaded v)
    {j : Json} (h : encode env.floatText env.loaded "" v = .ok j) :
    Readable env (env.stored j) ↔ Replayable env.loaded v ∧ StaysReadable env j := by
  rw [← readable_iff hvalid h]
  exact ⟨fun hread => ⟨hrepairs v j hvalid h hread,fun _ => hread⟩,fun hread => hread.2 hread.1⟩

theorem decode_column (j : Json) (id : ExecutionModel.UUID) :
    (∃ w, decodeColumn (backend env) id j = .ok w) ↔ Readable env j := by
  unfold Readable decodeColumn
  cases hdecode : decode env.loaded "" j with
  | ok v => simp [backend,hdecode,Except.mapError]
  | error e => simp [backend,hdecode,Except.mapError]

theorem row_decodes (a : Call env) (now : Instant) :
    (∃ e, rowToExecution (backend env) (a.row now) = .ok e) ↔
      Readable env (env.stored a.encoded.payload) ∧ Readable env (env.stored a.encoded.metadata) := by
  have hresult : decodeResult (backend env) (a.row now) = .ok .none := by
    simp [decodeResult,Call.row,submittedRow,backend]
  rw [← decode_column _ a.id,← decode_column _ a.id]
  constructor
  · intro hread
    obtain ⟨e,he⟩ := hread
    unfold rowToExecution at he
    cases hp : decodeColumn (backend env) (a.row now).id (a.row now).payload with
    | error x =>
      rw [hp] at he
      cases he
    | ok p =>
      cases hm : decodeColumn (backend env) (a.row now).id (a.row now).metadata with
      | error x =>
        rw [hp,hm] at he
        cases he
      | ok m => exact ⟨⟨p,hp⟩,⟨m,hm⟩⟩
  · intro hread
    obtain ⟨⟨p,hp⟩,⟨m,hm⟩⟩ := hread
    have hp' : decodeColumn (backend env) (a.row now).id (a.row now).payload = .ok p := hp
    have hm' : decodeColumn (backend env) (a.row now).id (a.row now).metadata = .ok m := hm
    unfold rowToExecution
    rw [hp',hm',hresult]
    exact ⟨_,rfl⟩

theorem conflict_of_digest (hkey : OneKey a.submission b.submission) (hfree : Free a t)
    (haccepted : env.accepts (a.row now) = true) (hne : a.encoded.digest ≠ b.encoded.digest)
    {later : Instant} (latest : Instant) (hsecond : env.accepts (b.row later) = true) :
    (interleave a b (begin t) [(.first,now),(.second,later),(.second,latest)]).second =
      .returned (.error conflict) := by
  rw [second_returns hkey hfree haccepted latest hsecond,submitted_second hkey hfree,if_pos hne]

/-- What is asked of two submissions with one key: one row holds the key, it is the
row of the first call, and the second call returns its execution exactly when the
requests are equal, and raises a conflict exactly when they are not. -/
structure Contract (a b : Call env) (t : Tables Json) (now : Instant) (w : World) : Prop where
  oneRow : w.tables.executions.filter (keyed a.request) = [a.row now]
  unchanged : w.tables = ⟨t.executions++[a.row now],t.attempts⟩
  returned : (∃ e, rowToExecution (backend env) (a.row now) = .ok e ∧
    w.second = .returned (.ok (some e))) ↔ Equal a.submission b.submission
  refused : w.second = .returned (.error conflict) ↔ ¬Equal a.submission b.submission

/-- A row of its own is in the table only if the database accepted it. -/
theorem Contract.accepted {turns : List (Side × Instant)} (hkey : OneKey a.submission b.submission)
    (hfree : Free a t)
    (h : Contract a b t now (interleave a b (begin t) turns)) : env.accepts (a.row now) = true := by
  have hrow : a.row now ∈ (interleave a b (begin t) turns).tables.executions := by
    have hmem : a.row now ∈ [a.row now] := List.mem_singleton_self _
    rw [← h.oneRow] at hmem
    exact List.mem_of_mem_filter hmem
  rcases interleave_rows (begin t) turns _ hrow with hold | haccepted
  · have hkeyed : keyed a.request (a.row now) = true := by
      rw [← keyed_same hkey]
      exact keyed_row hkey
    rw [hfree.key _ hold] at hkeyed
    cases hkeyed
  · exact haccepted

/-- The second call neither raises a conflict nor returns when its row is refused. -/
theorem Contract.answered {w : World} (h : Contract a b t now w) :
    w.second ≠ .returned (.error .databaseError) := by
  intro hsecond
  by_cases hequal : Equal a.submission b.submission
  · obtain ⟨e,-,he⟩ := h.returned.mpr hequal
    rw [hsecond] at he
    cases he
  · have hconflict := h.refused.mpr hequal
    rw [hsecond] at hconflict
    cases hconflict

/-- When the second call has returned, the contract holds exactly when the database
accepts both rows and the requests, if they are equal, are spelled alike and have
values that can be replayed from the columns. -/
theorem contract_iff (htexts : FloatTexts env.floatText)
    (hsha : Function.Injective env.sha256) (hrepairs : RepairsNothing env)
    (hkey : OneKey a.submission b.submission) (hfree : Free a t) (turns : List (Side × Instant))
    {r : Except BackendError _}
    (hsecond : (interleave a b (begin t) ((.first,now)::turns)).second = .returned r) :
    Contract a b t now (interleave a b (begin t) ((.first,now)::turns)) ↔
      env.accepts (a.row now) = true ∧ (∀ later ∈ calledAt turns, env.accepts (b.row later) = true) ∧
      (Equal a.submission b.submission → Identical a.submission b.submission ∧
        (Replayable env.loaded a.submission.payload ∧ StaysReadable env a.encoded.payload) ∧
          Replayable env.loaded (.dict a.submission.metadata) ∧
            StaysReadable env a.encoded.metadata) := by
  have hencoded := encodeSubmission_ok a.accepted
  rw [← stored_readable hrepairs a.submission.existing.1 hencoded.payload,
    ← stored_readable hrepairs a.submission.existing.2 hencoded.metadata,← row_decodes a now]
  by_cases haccepted : env.accepts (a.row now) = true
  swap
  · exact ⟨fun hcontract => absurd (hcontract.accepted hkey hfree) haccepted,
      fun hcondition => absurd hcondition.1 haccepted⟩
  have hkept : Kept a b t now (calledAt turns) (interleave a b (begin t) ((.first,now)::turns)) :=
    interleaved hkey hfree haccepted turns
  obtain ⟨later,hlater⟩ : ∃ later, calledAt turns = some later := by
    cases hcalled : calledAt turns with
    | none =>
      have hstill := hkept.second
      rw [hcalled,Option.elim_none,hsecond] at hstill
      cases hstill
    | some later => exact ⟨later,rfl⟩
  have hanswered := hkept.second
  rw [hlater,Option.elim_some,Answered] at hanswered
  simp only [hlater,Option.mem_some_iff,forall_eq']
  by_cases hsecondAccepted : env.accepts (b.row later) = true
  swap
  · rw [if_neg hsecondAccepted] at hanswered
    exact ⟨fun hcontract => absurd hanswered hcontract.answered,
      fun hcondition => absurd hcondition.2.1 hsecondAccepted⟩
  have hresult : (interleave a b (begin t) ((.first,now)::turns)).second = .returned
      (if a.encoded.digest ≠ b.encoded.digest then .error conflict
        else (rowToExecution (backend env) (a.row now)).map some) := by
    rw [← submitted_second hkey hfree]
    rw [if_pos hsecondAccepted] at hanswered
    rcases hanswered with hclashed | hreturned
    · rw [hclashed] at hsecond
      cases hsecond
    · exact hreturned
  have hdigest : a.encoded.digest = b.encoded.digest ↔ Identical a.submission b.submission :=
    digest_iff htexts hsha (encodeSubmission_ok a.accepted) (encodeSubmission_ok b.accepted)
      hkey.namespaceName hkey.taskName
  have hmatched : ∀ {e}, (interleave a b (begin t) ((.first,now)::turns)).second =
      .returned (.ok e) → Identical a.submission b.submission := by
    intro e hok
    rw [← hdigest]
    apply Classical.byContradiction
    intro hne
    rw [hresult,if_pos hne] at hok
    cases hok
  constructor
  · intro hcontract
    refine ⟨haccepted,hsecondAccepted,fun hequal => ?_⟩
    obtain ⟨e,he,hsecond⟩ := hcontract.returned.mpr hequal
    exact ⟨hmatched hsecond,e,he⟩
  · rintro ⟨-,-,hcondition⟩
    constructor
    · rw [hkept.tables]
      exact one_row hkey hfree
    · exact hkept.tables
    · constructor
      · rintro ⟨e,he,hsecond⟩
        exact (hmatched hsecond).equal
      · intro hequal
        obtain ⟨hidentical,e,he⟩ := hcondition hequal
        refine ⟨e,he,?_⟩
        rw [hresult,if_neg (not_not.mpr (hdigest.mpr hidentical)),he]
        rfl
    · constructor
      · intro hrefused hequal
        obtain ⟨hidentical,e,he⟩ := hcondition hequal
        rw [hresult,if_neg (not_not.mpr (hdigest.mpr hidentical)),he] at hrefused
        cases hrefused
      · intro hnot
        have hne : a.encoded.digest ≠ b.encoded.digest := by
          intro heq
          exact hnot (hdigest.mp heq).equal
        rw [hresult,if_pos hne]

end Results

section Orders

/-- The text of the digest of an order, and its digest. -/
def orderText : List Char :=
  ("\x7b\"delay_s\":null,\"expires_at\":null,\"metadata\":\x7b\x7d,\"namespace\":\"shop\",\"payload\":\x7b\"order\":7\x7d,\"task_name\":\"charge\"\x7d").toList

def orderDigest : String := "01a557528430a538e4a7dbb6072b319d608ee221cbfa3598d957681848751923"

/-- SHA-256 on the text of the order. -/
def hashed (cs : List Char) : String :=
  if cs = orderText then orderDigest else "text:"++String.ofList cs

theorem hashed_injective : Function.Injective hashed := by
  have hmark : ∀ cs : List Char, "text:"++String.ofList cs ≠ orderDigest := by
    intro cs h
    have hlist := congrArg (fun s => s.toList.head?) h
    simp [orderDigest] at hlist
  intro cs ds h
  unfold hashed at h
  split at h
  · next hcs =>
      split at h
      · next hds => exact hcs.trans hds.symm
      · exact absurd h.symm (hmark ds)
  · split at h
    · exact absurd h (hmark cs)
    · have hlist := congrArg String.toList h
      simpa using hlist

/-- Digits and a point, for floats that no order has. -/
def bitsText (x : Double) : List Char := Nat.toDigits 10 x.bits.toNat++['.','0']

theorem bitsText_texts : FloatTexts bitsText where
  numeric x _ c hc := by
    rcases List.mem_append.mp hc with hdigit | hpoint
    · have hisDigit := Nat.isDigit_of_mem_toDigits (by decide) (by decide) hdigit
      rw [isNumeric,hisDigit,Bool.true_or]
    · have hmarks : ∀ d ∈ ['.','0'], isNumeric d = true := List.all_eq_true.mp (by decide)
      exact hmarks c hpoint
  marked x _ := .inl (List.mem_append_right _ List.mem_cons_self)
  injective x y _ _ h := by
    have hdigits := toDigits_inj (List.append_cancel_right h)
    obtain ⟨xbits⟩ := x
    obtain ⟨ybits⟩ := y
    exact congrArg Double.mk (BitVec.eq_of_toNat_eq hdigits)

def shop : Environment where
  floatText := bitsText
  loaded := ⟨fun _ _ => .noModule,fun _ => .other,fun _ => .error .typeError⟩
  sha256 := hashed
  excText _ := ""
  maxPayloadBytes := 1048576
  maxMetadataBytes := 65536
  maxResultBytes := 1048576
  reclaimBatchSize := 100
  equal i j := canon i == canon j
  stored j := j
  accepts row := (row.namespaceName.toList++row.taskName.toList).all fun c => c ≠ Char.ofNat 0
  equal_null := by decide
  stored_null := rfl

def order (expiresAt : Option DateTimeText.DateTime) (aware : ∀ d ∈ expiresAt, d.offset.isSome = true) :
    Submission shop.loaded where
  namespaceName := "shop"
  taskName := "charge"
  payload := .dict [(.str "order",.int 7)]
  idempotencyKey := some "order-7"
  expiresAt := expiresAt
  existing := by simp [Valid,ValidItems]
  delayed := by simp
  aware := aware

def orderCall (id : ExecutionModel.UUID) : Call shop where
  submission := order none (by simp)
  encoded := ⟨.obj [("order",.int 7)],.obj [],orderDigest⟩
  id := id
  accepted := by decide +kernel

def noTables : Tables Json := ⟨[],[]⟩

theorem noTables_free (a : Call shop) : Free a noTables := by
  constructor
  · intro r hr
    cases hr
  · intro r hr
    cases hr

/-- Interleaved, the two submissions keep the contract. -/
theorem orders_returned : Contract (orderCall 1) (orderCall 2) noTables 5
    (interleave (orderCall 1) (orderCall 2) (begin noTables)
      [(.first,5),(.second,6),(.first,7),(.second,8)]) := by
  have hkey : OneKey (orderCall 1).submission (orderCall 2).submission := ⟨rfl,rfl,rfl,rfl⟩
  have hfree : Free (orderCall 1) noTables := noTables_free _
  apply (contract_iff bitsText_texts hashed_injective (fun _ _ _ _ h => h) hkey hfree _ rfl).mpr
  refine ⟨by decide,by decide,fun _ => ?_⟩
  have hreplay : Replayable shop.loaded (orderCall 1).submission.payload := by
    simp [orderCall,order,Replayable,ReplayableItems]
  have hmetadata : Replayable shop.loaded (.dict (orderCall 1).submission.metadata) := by
    simp [orderCall,order,Replayable,ReplayableItems]
  exact ⟨⟨same_refl _,same_refl _,rfl,rfl⟩,⟨hreplay,id⟩,hmetadata,id⟩

/-- Midnight, on a clock that is so many hours ahead. -/
def midnight (hours : ℕ) (h : hours < 24) : DateTimeText.DateTime where
  year := 2026
  month := 1
  day := 1
  hour := hours
  minute := 0
  second := 0
  microsecond := 0
  offset := some (hours*3600000000)
  dated := by decide
  timed := ⟨h,by decide⟩
  bounded := by
    intro o ho
    cases ho
    have hday : DateTimeText.day = 86400000000 := rfl
    omega

def expiring (hours : ℕ) (h : hours < 24) : Submission shop.loaded :=
  order (some (midnight hours h)) (by
    intro d hd
    cases hd
    rfl)

def expiringCall (id : ExecutionModel.UUID) (hours : ℕ) (h : hours < 24)
    (haccepted : encodeSubmission shop (expiring hours h) = .ok ⟨.obj [("order",.int 7)],.obj [],
      digest shop (expiring hours h) (.obj [("order",.int 7)]) (.obj [])⟩) : Call shop :=
  ⟨expiring hours h,_,id,haccepted⟩

def expiringThere : Call shop := expiringCall 1 0 (by decide) (by decide +kernel)

def expiringHere : Call shop := expiringCall 2 8 (by decide) (by decide +kernel)

theorem expiring_payload (hours : ℕ) (h : hours < 24) :
    (expiring hours h).payload = .dict [(.str "order",.int 7)] := rfl

theorem expiring_metadata (hours : ℕ) (h : hours < 24) : (expiring hours h).metadata = [] := rfl

theorem expiring_delay (hours : ℕ) (h : hours < 24) : (expiring hours h).delayS = none := rfl

theorem expiring_expiry (hours : ℕ) (h : hours < 24) :
    (expiring hours h).expiresAt = some (midnight hours h) := rfl

theorem expiring_key (hours : ℕ) (h : hours < 24) :
    (expiring hours h).idempotencyKey = some "order-7" := rfl

theorem expiring_namespace (hours : ℕ) (h : hours < 24) :
    (expiring hours h).namespaceName = "shop" := rfl

theorem expiring_task (hours : ℕ) (h : hours < 24) : (expiring hours h).taskName = "charge" := rfl

theorem spellings_equal : Equal (expiring 0 (by decide)) (expiring 8 (by decide)) := by
  have hinstant : instant (midnight 0 (by decide)) = instant (midnight 8 (by decide)) := by
    decide +kernel
  constructor
  · rw [expiring_payload,expiring_payload]
    exact same_refl _
  · rw [expiring_metadata,expiring_metadata]
    exact same_refl _
  · rw [expiring_delay,expiring_delay]
  · rw [expiring_expiry,expiring_expiry,Option.map_some,Option.map_some,hinstant]

theorem expiring_oneKey (hours hours' : ℕ) (h : hours < 24) (h' : hours' < 24) :
    OneKey (expiring hours h) (expiring hours' h') := by
  constructor
  · rw [expiring_namespace,expiring_namespace]
  · rw [expiring_task,expiring_task]
  · rw [expiring_key,expiring_key]
  · rw [expiring_key,Option.isSome_some]

theorem there_submission : expiringThere.submission = expiring 0 (by decide) := rfl

theorem here_submission : expiringHere.submission = expiring 8 (by decide) := rfl

theorem spellings_differ : expiringThere.encoded.digest ≠ expiringHere.encoded.digest := by
  have htext : isoformat (midnight 0 (by decide)) ≠ isoformat (midnight 8 (by decide)) := by
    decide +kernel
  have hkey := expiring_oneKey 0 8 (by decide) (by decide)
  rw [← there_submission,← here_submission] at hkey
  intro heq
  have hidentical := (digest_iff bitsText_texts hashed_injective
    (encodeSubmission_ok expiringThere.accepted) (encodeSubmission_ok expiringHere.accepted)
      hkey.namespaceName hkey.taskName).mp heq
  have hexpires := hidentical.expiresAt
  rw [there_submission,here_submission,expiring_expiry,expiring_expiry] at hexpires
  exact htext (Option.some.inj hexpires)

/-- Two spellings of one instant are taken for different requests. -/
theorem spellings_conflict : Equal expiringThere.submission expiringHere.submission ∧
    (interleave expiringThere expiringHere (begin noTables)
      [(.first,5),(.second,6),(.second,7)]).second = .returned (.error conflict) := by
  have hkey := expiring_oneKey 0 8 (by decide) (by decide)
  have hequal := spellings_equal
  rw [← there_submission,← here_submission] at hkey hequal
  exact ⟨hequal,conflict_of_digest hkey (noTables_free _) (by decide +kernel) spellings_differ 7
    (by decide +kernel)⟩

end Orders

end OneStep.IdempotentSubmissions
