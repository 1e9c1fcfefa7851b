import OneStep.KeyedTable
import OneStep.Transition
import Mathlib.Algebra.Group.Nat.Defs
import Mathlib.Logic.Function.Basic

/-!
# Draining the notification outbox

A drainer claims one due row after another, each in a transaction of its own that leaves the row
pending, calls the webhook, and commits the outcome. The session keeps what it loaded: of a row
and its delivery a commit writes the columns that differ from what was loaded. Rows and drainers
are numbered; a row stands here with the status of its delivery.
-/
namespace OneStep.OutboxDrainers
open KeyedTable Transition

section Rows

inductive OutboxStatus where
  | pending | delivered | permanentlyFailed
  deriving DecidableEq

inductive DeliveryStatus where
  | pending | succeeded | failed
  deriving DecidableEq

structure Row where
  id : ℕ
  status : OutboxStatus := .pending
  attempts : ℕ := 0
  maxAttempts : ℕ
  nextAttemptAt : ℕ
  createdAt : ℕ
  deliveryStatus : DeliveryStatus := .pending
  deriving DecidableEq

/-- A claimed row as the session of the drainer knows it, and once the webhook was called the
status of the delivery as it was loaded and whether the call succeeded. -/
structure Claimed where
  id : ℕ
  attempts : ℕ
  maxAttempts : ℕ
  posted : Option (DeliveryStatus × Bool) := none
  deriving DecidableEq

/-- One batch of a drainer. -/
structure Session where
  now : ℕ
  processedIds : List ℕ := []
  left : ℕ
  claimed : Option Claimed := none

/-- Durations are in microseconds. -/
structure Settings where
  batchSize : ℕ
  backoffBase : ℕ
  backoffMax : ℕ

def outboxBackoff (settings : Settings) (attempts : ℕ) : ℕ :=
  min settings.backoffMax (settings.backoffBase*2^(attempts-1))

/-- The rows, the drainers and the calls that the webhooks received. -/
structure World where
  rows : List Row := []
  drainers : ℕ → Option Session := fun _ => none
  posts : List (ℕ × Bool) := []

end Rows

section Steps

def due (now : ℕ) (processedIds : List ℕ) (row : Row) : Bool :=
  row.status = .pending && decide (row.nextAttemptAt ≤ now) && decide (row.id ∉ processedIds)

def earlier (a b : Row) : Bool :=
  a.nextAttemptAt < b.nextAttemptAt ||
    (a.nextAttemptAt = b.nextAttemptAt && decide (a.createdAt < b.createdAt))

/-- The row comes first among those that are due. -/
def claimable (session : Session) (rows : List Row) (row : Row) : Bool :=
  due session.now session.processedIds row &&
    rows.all fun other => !(due session.now session.processedIds other && earlier other row)

def World.setRow (w : World) (id : ℕ) (f : Row → Row) : World :=
  {w with rows := update (fun row => row.id = id) f w.rows}

def World.setDrainer (w : World) (d : ℕ) (session : Option Session) : World :=
  {w with drainers := Function.update w.drainers d session}

def exhaust (now : ℕ) (row : Row) : Row :=
  {row with status := .permanentlyFailed,nextAttemptAt := now,deliveryStatus := .failed}

def attempt (row : Row) : Row := {row with attempts := row.attempts+1}

/-- `claim_next_pending_outbox_row` when it returns this row. -/
def claimRow (w : World) (d : ℕ) (session : Session) (row : Row) : World :=
  let session := {session with
    processedIds := row.id::session.processedIds
    left := session.left-1}
  if row.attempts ≥ row.maxAttempts then
    (w.setRow row.id (exhaust session.now)).setDrainer d (some session)
  else
    (w.setRow row.id attempt).setDrainer d (some {session with
      claimed := some {id := row.id,attempts := row.attempts+1,maxAttempts := row.maxAttempts}})

/-- What `_apply_delivery_outcome` and the commit write. -/
def outcome (settings : Settings) (now : ℕ) (claimed : Claimed) (loaded : DeliveryStatus)
    (success : Bool) (row : Row) : Row :=
  let deliveryStatus := if success then DeliveryStatus.succeeded else .failed
  let row :=
    if deliveryStatus = loaded then row else {row with deliveryStatus := deliveryStatus}
  if success then {row with status := .delivered,nextAttemptAt := now}
  else if claimed.attempts ≥ claimed.maxAttempts then
    {row with status := .permanentlyFailed,nextAttemptAt := now}
  else {row with nextAttemptAt := now+outboxBackoff settings claimed.attempts}

inductive Act where
  | enqueue (id maxAttempts now : ℕ)
  | begin (d now : ℕ)
  | claim (d id : ℕ)
  | finish (d : ℕ)
  | post (d : ℕ) (success : Bool)
  | commit (d now : ℕ)
  | crash (d : ℕ)

def World.perform (settings : Settings) (w : World) : Act → Option World
  | .enqueue id maxAttempts now =>
    match lookup Row.id id w.rows with
    | some _ => none
    | none => some {w with rows :=
        w.rows++[{id := id,maxAttempts := maxAttempts,nextAttemptAt := now,createdAt := now}]}
  | .begin d now =>
    match w.drainers d with
    | some _ => none
    | none => some (w.setDrainer d (some {now := now,left := settings.batchSize}))
  | .claim d id =>
    match w.drainers d,lookup Row.id id w.rows with
    | some session,some row =>
      if session.claimed.isNone && session.left ≠ 0 && claimable session w.rows row then
        some (claimRow w d session row)
      else none
    | _,_ => none
  | .finish d =>
    match w.drainers d with
    | none => none
    | some session =>
      if session.claimed.isNone && (session.left = 0 ||
          !w.rows.any (due session.now session.processedIds)) then
        some (w.setDrainer d none)
      else none
  | .post d success =>
    match w.drainers d with
    | none => none
    | some session =>
      match session.claimed with
      | none => none
      | some claimed =>
        match claimed.posted,lookup Row.id claimed.id w.rows with
        | none,some row =>
          some {w.setDrainer d (some {session with
              claimed := some {claimed with
                posted := some (row.deliveryStatus,success)}}) with
            posts := w.posts++[(claimed.id,success)]}
        | _,_ => none
  | .commit d now =>
    match w.drainers d with
    | none => none
    | some session =>
      match session.claimed with
      | none => none
      | some claimed =>
        match claimed.posted with
        | none => none
        | some (loaded,success) =>
          some ((w.setRow claimed.id (outcome settings now claimed loaded success)).setDrainer
            d (some {session with claimed := none}))
  | .crash d => some (w.setDrainer d none)

end Steps

section Guarantees

/-- The drainer is between the claim of the row and its outcome. -/
def Holds (w : World) (d id : ℕ) : Prop :=
  ∃ session claimed, w.drainers d = some session ∧ session.claimed = some claimed ∧ claimed.id = id

def calls (w : World) (id : ℕ) : ℕ := w.posts.countP fun post => post.1 = id

structure Guarantees (w : World) : Prop where
  exclusive : ∀ d d' id, Holds w d id → Holds w d' id → d = d'
  bounded : ∀ row ∈ w.rows, calls w row.id ≤ row.maxAttempts
  delivered : ∀ row ∈ w.rows, row.status = .delivered → (row.id,true) ∈ w.posts
  atRest : (∀ d id, ¬Holds w d id) →
    ∀ row ∈ w.rows, row.deliveryStatus = .succeeded ↔ row.status = .delivered

/-- A final status stays. -/
def Absorbs (settings : Settings) (w : World) (a : Act) : Prop :=
  ∀ w', w.perform settings a = some w' → ∀ row ∈ w.rows, row.status ≠ .pending →
    ∀ row' ∈ w'.rows, row'.id = row.id → row'.status = row.status

/-- A row is not claimed for an attempt while another drainer has it, and a call that succeeded
is not committed over a row that was given up meanwhile. -/
def Guarded (w : World) : Act → Prop
  | .claim _ id => ∀ row, lookup Row.id id w.rows = some row → row.attempts < row.maxAttempts →
      ∀ d, ¬Holds w d id
  | .commit d _ => ∀ session claimed loaded, w.drainers d = some session →
      session.claimed = some claimed → claimed.posted = some (loaded,true) →
        ∀ row, lookup Row.id claimed.id w.rows = some row → row.status = .pending
  | _ => True

end Guarantees

section Soundness

def callsIn (posts : List (ℕ × Bool)) (id : ℕ) : ℕ := posts.countP fun post => post.1 = id

structure RowSound (posts : List (ℕ × Bool)) (row : Row) : Prop where
  attempts : row.attempts ≤ row.maxAttempts
  calls : callsIn posts row.id ≤ row.attempts
  delivered : row.status = .delivered → (row.id,true) ∈ posts
  succeeded : row.deliveryStatus = .succeeded ↔ row.status = .delivered

/-- A drainer knows the attempts of the row that it holds. Meanwhile the row is at most given
up, when they are used up. -/
structure Fits (posts : List (ℕ × Bool)) (claimed : Claimed) (row : Row) : Prop where
  attempts : row.attempts = claimed.attempts
  maxAttempts : row.maxAttempts = claimed.maxAttempts
  status : row.status = .pending ∨
    row.status = .permanentlyFailed ∧ row.maxAttempts ≤ row.attempts
  unposted : claimed.posted = none → callsIn posts row.id < row.attempts
  posted : ∀ loaded success, claimed.posted = some (loaded,success) →
    loaded ≠ .succeeded ∧ (success = true → (row.id,true) ∈ posts)

def Has (w : World) (d : ℕ) (claimed : Claimed) : Prop :=
  ∃ session, w.drainers d = some session ∧ session.claimed = some claimed

structure Sound (w : World) : Prop where
  unique : UniqueKey Row.id w.rows
  exclusive : ∀ d d' claimed claimed', Has w d claimed → Has w d' claimed' →
    claimed.id = claimed'.id → d = d'
  fits : ∀ d claimed, Has w d claimed →
    ∃ row ∈ w.rows, row.id = claimed.id ∧ Fits w.posts claimed row
  rows : ∀ row ∈ w.rows, RowSound w.posts row
  known : ∀ post ∈ w.posts, ∃ row ∈ w.rows, row.id = post.1

variable {w w' : World} {d d' : ℕ} {claimed : Claimed} {row : Row} {id : ℕ}

theorem holds_iff : Holds w d id ↔ ∃ claimed, Has w d claimed ∧ claimed.id = id := by
  constructor
  · rintro ⟨session,claimed,hsession,hclaimed,hid⟩
    exact ⟨claimed,⟨session,hsession,hclaimed⟩,hid⟩
  · rintro ⟨claimed,⟨session,hsession,hclaimed⟩,hid⟩
    exact ⟨session,claimed,hsession,hclaimed,hid⟩

theorem Sound.guarantees (h : Sound w) : Guarantees w where
  exclusive d d' id hd hd' := by
    obtain ⟨claimed,hhas,hid⟩ := holds_iff.mp hd
    obtain ⟨claimed',hhas',hid'⟩ := holds_iff.mp hd'
    exact h.exclusive d d' claimed claimed' hhas hhas' (hid.trans hid'.symm)
  bounded row hrow := (h.rows row hrow).calls.trans (h.rows row hrow).attempts
  delivered row hrow := (h.rows row hrow).delivered
  atRest _ row hrow := (h.rows row hrow).succeeded

@[simp] theorem drainers_self (session : Option Session) :
    (w.setDrainer d session).drainers d = session := Function.update_self ..

theorem drainers_other (session : Option Session) (h : d' ≠ d) :
    (w.setDrainer d session).drainers d' = w.drainers d' := Function.update_of_ne h ..

theorem has_setDrainer {session : Option Session} (h : Has (w.setDrainer d session) d' claimed) :
    d' = d ∧ (∃ s, session = some s ∧ s.claimed = some claimed) ∨ d' ≠ d ∧ Has w d' claimed := by
  obtain ⟨s,hs,hclaimed⟩ := h
  by_cases hd : d' = d
  · subst hd
    rw [drainers_self] at hs
    exact .inl ⟨rfl,s,hs,hclaimed⟩
  · rw [drainers_other session hd] at hs
    exact .inr ⟨hd,s,hs,hclaimed⟩

theorem Sound.unclaimed (h : Sound w) {session : Option Session}
    (hnone : ∀ s, session = some s → s.claimed = none) : Sound (w.setDrainer d session) := by
  have hold : ∀ e claimed, Has (w.setDrainer d session) e claimed → Has w e claimed := by
    intro e claimed hhas
    rcases has_setDrainer hhas with ⟨-,s,hs,hclaimed⟩ | ⟨-,hhas⟩
    · rw [hnone s hs] at hclaimed
      cases hclaimed
    · exact hhas
  exact ⟨h.unique,fun e e' c c' he he' => h.exclusive e e' c c' (hold e c he) (hold e' c' he'),
    fun e c he => h.fits e c (hold e c he),h.rows,h.known⟩

theorem mem_setRow {f : Row → Row} {row' : Row} (h : row' ∈ (w.setRow id f).rows) :
    ∃ row ∈ w.rows, row.id = id ∧ row' = f row ∨ row.id ≠ id ∧ row' = row := by
  obtain ⟨row,hrow,heq⟩ := List.mem_map.mp h
  by_cases hid : row.id = id
  · rw [if_pos (decide_eq_true hid)] at heq
    exact ⟨row,hrow,.inl ⟨hid,heq.symm⟩⟩
  · rw [if_neg (by simpa using hid)] at heq
    exact ⟨row,hrow,.inr ⟨hid,heq.symm⟩⟩

theorem setRow_mem (id : ℕ) (f : Row → Row) (h : row ∈ w.rows) :
    (if row.id = id then f row else row) ∈ (w.setRow id f).rows := by
  refine List.mem_map.mpr ⟨row,h,?_⟩
  by_cases hid : row.id = id
  · rw [if_pos (decide_eq_true hid),if_pos hid]
  · rw [if_neg (by simpa using hid),if_neg hid]

theorem Sound.setRow (h : Sound w) {f : Row → Row} (hid : ∀ row, (f row).id = row.id)
    (hrow : ∀ row ∈ w.rows, row.id = id → RowSound w.posts (f row))
    (hfits : ∀ d claimed, Has w d claimed → claimed.id = id → ∀ row ∈ w.rows, row.id = id →
      Fits w.posts claimed row → Fits w.posts claimed (f row)) : Sound (w.setRow id f) where
  unique := unique_update hid h.unique
  exclusive := h.exclusive
  fits d claimed hhas := by
    obtain ⟨row,hmem,heq,hfit⟩ := h.fits d claimed hhas
    refine ⟨_,setRow_mem _ _ hmem,?_⟩
    split
    · next hsame =>
        exact ⟨(hid row).trans heq,hfits d claimed hhas (heq.symm.trans hsame) row hmem hsame hfit⟩
    · exact ⟨heq,hfit⟩
  rows row' hrow' := by
    obtain ⟨row,hmem,⟨hsame,rfl⟩ | ⟨-,rfl⟩⟩ := mem_setRow hrow'
    · exact hrow row hmem hsame
    · exact h.rows _ hmem
  known post hpost := by
    obtain ⟨row,hmem,heq⟩ := h.known post hpost
    refine ⟨_,setRow_mem _ _ hmem,?_⟩
    split
    · exact (hid row).trans heq
    · exact heq

theorem Sound.claims (h : Sound w) {session : Session} (hclaimed : session.claimed = some claimed)
    (hfree : ∀ e c, Has w e c → c.id ≠ claimed.id)
    (hfit : ∃ row ∈ w.rows, row.id = claimed.id ∧ Fits w.posts claimed row) :
    Sound (w.setDrainer d (some session)) where
  unique := h.unique
  exclusive e e' c c' he he' hid := by
    rcases has_setDrainer he with ⟨rfl,s,hs,hc⟩ | ⟨-,hold⟩
    · rcases has_setDrainer he' with ⟨rfl,-⟩ | ⟨-,hold'⟩
      · rfl
      · cases hs
        rw [hclaimed] at hc
        cases hc
        exact absurd hid.symm (hfree e' c' hold')
    · rcases has_setDrainer he' with ⟨rfl,s,hs,hc⟩ | ⟨-,hold'⟩
      · cases hs
        rw [hclaimed] at hc
        cases hc
        exact absurd hid (hfree e c hold)
      · exact h.exclusive e e' c c' hold hold' hid
  fits e c he := by
    rcases has_setDrainer he with ⟨-,s,hs,hc⟩ | ⟨-,hold⟩
    · cases hs
      rw [hclaimed] at hc
      cases hc
      exact hfit
    · exact h.fits e c hold
  rows := h.rows
  known := h.known

theorem callsIn_append (posts : List (ℕ × Bool)) (post : ℕ × Bool) (id : ℕ) :
    callsIn (posts++[post]) id = callsIn posts id+if post.1 = id then 1 else 0 := by
  unfold callsIn
  rw [List.countP_append,List.countP_singleton]
  simp only [decide_eq_true_eq]

theorem Sound.post {session : Session} (h : Sound w) (hsession : w.drainers d = some session)
    (hclaimed : session.claimed = some claimed) (hposted : claimed.posted = none)
    (hrow : row ∈ w.rows) (hid : row.id = claimed.id) (success : Bool) :
    Sound {w.setDrainer d (some {session with
        claimed := some {claimed with posted := some (row.deliveryStatus,success)}}) with
      posts := w.posts++[(claimed.id,success)]} := by
  have hhas : Has w d claimed := ⟨session,hsession,hclaimed⟩
  obtain ⟨own,hown,hownId,hfit⟩ := h.fits d claimed hhas
  have hsame : own = row := eq_of_key h.unique hown hrow (hownId.trans hid.symm)
  subst hsame
  have hother : ∀ e c, e ≠ d → Has w e c → c.id ≠ claimed.id := fun e c he hc heq =>
    he (h.exclusive e d c claimed hc hhas heq)
  constructor
  · exact h.unique
  · intro e e' c c' he he' heq
    have hback : ∀ e c, Has (w.setDrainer d (some {session with
        claimed := some {claimed with posted := some (own.deliveryStatus,success)}})) e c →
        ∃ c₀, Has w e c₀ ∧ c₀.id = c.id := by
      intro e c he
      rcases has_setDrainer he with ⟨rfl,s,hs,hc⟩ | ⟨-,hold⟩
      · cases hs
        cases hc
        exact ⟨claimed,hhas,rfl⟩
      · exact ⟨c,hold,rfl⟩
    obtain ⟨c₀,hc₀,hid₀⟩ := hback e c he
    obtain ⟨c₁,hc₁,hid₁⟩ := hback e' c' he'
    exact h.exclusive e e' c₀ c₁ hc₀ hc₁ (hid₀.trans (heq.trans hid₁.symm))
  · intro e c he
    rcases has_setDrainer he with ⟨rfl,s,hs,hc⟩ | ⟨hne,hold⟩
    · cases hs
      cases hc
      refine ⟨own,hown,hownId,hfit.attempts,hfit.maxAttempts,hfit.status,nofun,?_⟩
      rintro loaded ok hloaded
      cases hloaded
      constructor
      · intro hsucceeded
        have hdelivered := (h.rows own hown).succeeded.mp hsucceeded
        rcases hfit.status with hpending | ⟨hfailed,-⟩
        · rw [hdelivered] at hpending
          cases hpending
        · rw [hdelivered] at hfailed
          cases hfailed
      · rintro rfl
        rw [hownId]
        exact List.mem_append_right _ (List.mem_singleton_self _)
    · obtain ⟨r,hr,hrid,hrfit⟩ := h.fits e c hold
      refine ⟨r,hr,hrid,hrfit.attempts,hrfit.maxAttempts,hrfit.status,fun hnone => ?_,?_⟩
      · rw [callsIn_append,if_neg]
        · exact hrfit.unposted hnone
        · rw [hrid]
          exact (hother e c hne hold).symm
      · intro loaded ok hloaded
        obtain ⟨hne',hsent⟩ := hrfit.posted loaded ok hloaded
        exact ⟨hne',fun hok => List.mem_append_left _ (hsent hok)⟩
  · intro r hr
    have hsound := h.rows r hr
    refine ⟨hsound.attempts,?_,fun hd => List.mem_append_left _ (hsound.delivered hd),
      hsound.succeeded⟩
    rw [callsIn_append]
    split
    · next heq =>
        have hrow : own = r := eq_of_key h.unique hown hr (hownId.trans heq)
        subst hrow
        exact hfit.unposted hposted
    · exact hsound.calls
  · intro post hpost
    rcases List.mem_append.mp hpost with hpost | hpost
    · exact h.known post hpost
    · rw [List.mem_singleton.mp hpost]
      exact ⟨own,hown,hownId⟩

end Soundness

section Outcomes

variable {settings : Settings} {w : World} {d : ℕ} {claimed : Claimed} {row : Row}
  {session : Session} {loaded : DeliveryStatus} {success : Bool} {now : ℕ}

theorem outcome_id (settings : Settings) (now : ℕ) (claimed : Claimed) (loaded : DeliveryStatus)
    (success : Bool) (row : Row) : (outcome settings now claimed loaded success row).id = row.id := by
  unfold outcome
  dsimp only
  split_ifs <;> rfl

theorem outcome_attempts (settings : Settings) (now : ℕ) (claimed : Claimed)
    (loaded : DeliveryStatus) (success : Bool) (row : Row) : (outcome settings now claimed loaded success row).attempts =
    row.attempts ∧ (outcome settings now claimed loaded success row).maxAttempts =
      row.maxAttempts := by
  unfold outcome
  dsimp only
  split_ifs <;> exact ⟨rfl,rfl⟩

theorem outcome_success (settings : Settings) (now : ℕ) (claimed : Claimed) (row : Row)
    (hloaded : loaded ≠ .succeeded) :
    (outcome settings now claimed loaded true row).status = .delivered ∧
      (outcome settings now claimed loaded true row).deliveryStatus = .succeeded := by
  refine ⟨rfl,?_⟩
  cases loaded with
  | succeeded => exact absurd rfl hloaded
  | pending => rfl
  | failed => rfl

theorem outcome_failure (settings : Settings) (now : ℕ) (claimed : Claimed)
    (loaded : DeliveryStatus) (hrow : row.status ≠ .delivered)
    (hdelivery : row.deliveryStatus ≠ .succeeded) :
    (outcome settings now claimed loaded false row).status ≠ .delivered ∧
      (outcome settings now claimed loaded false row).deliveryStatus ≠ .succeeded := by
  unfold outcome
  dsimp only
  rw [if_neg Bool.false_ne_true,if_neg Bool.false_ne_true]
  split_ifs
  · exact ⟨nofun,hdelivery⟩
  · exact ⟨nofun,nofun⟩
  · exact ⟨hrow,hdelivery⟩
  · exact ⟨hrow,nofun⟩

theorem rowSound_outcome {posts : List (ℕ × Bool)} (h : RowSound posts row)
    (hfit : Fits posts claimed row) (hposted : claimed.posted = some (loaded,success)) :
    RowSound posts (outcome settings now claimed loaded success row) := by
  obtain ⟨hattempts,hmax⟩ := outcome_attempts settings now claimed loaded success row
  obtain ⟨hloaded,hsent⟩ := hfit.posted loaded success hposted
  have hundelivered : row.status ≠ .delivered := by
    intro hdelivered
    rcases hfit.status with hpending | ⟨hfailed,-⟩
    · rw [hdelivered] at hpending
      cases hpending
    · rw [hdelivered] at hfailed
      cases hfailed
  refine ⟨by rw [hattempts,hmax]; exact h.attempts,by
    rw [hattempts,outcome_id]; exact h.calls,?_,?_⟩
  · cases success with
    | true =>
      rw [outcome_id]
      exact fun _ => hsent rfl
    | false =>
      have hfailure := outcome_failure settings now claimed loaded hundelivered (fun hs => hundelivered (h.succeeded.mp hs))
      exact fun hdelivered => absurd hdelivered hfailure.1
  · cases success with
    | true =>
      obtain ⟨hstatus,hdelivery⟩ := outcome_success settings now claimed row hloaded
      exact iff_of_true hdelivery hstatus
    | false =>
      obtain ⟨hstatus,hdelivery⟩ := outcome_failure settings now claimed loaded hundelivered
        (fun hs => hundelivered (h.succeeded.mp hs))
      exact iff_of_false hdelivery hstatus

/-- A row that was given up meanwhile stays so after a failure. -/
theorem outcome_failed {posts : List (ℕ × Bool)} (hfit : Fits posts claimed row)
    (hstatus : row.status ≠ .pending) :
    (outcome settings now claimed loaded false row).status = row.status := by
  obtain ⟨hfailed,hused⟩ := hfit.status.resolve_left hstatus
  rw [hfit.attempts,hfit.maxAttempts] at hused
  rw [hfailed]
  unfold outcome
  dsimp only
  rw [if_neg Bool.false_ne_true,if_neg Bool.false_ne_true,if_pos hused]

end Outcomes

section Run

variable {settings : Settings} {w w' : World} {d : ℕ} {row : Row}

theorem absorbs_setRow (id : ℕ) (f : Row → Row) (hunique : UniqueKey Row.id w.rows)
    (hid : ∀ row, (f row).id = row.id) (hrows : w'.rows = (w.setRow id f).rows)
    (hfinal : ∀ row ∈ w.rows, row.id = id → row.status ≠ .pending → (f row).status = row.status)
    {row' : Row} (hrow : row ∈ w.rows) (hstatus : row.status ≠ .pending) (hrow' : row' ∈ w'.rows)
    (hsame : row'.id = row.id) : row'.status = row.status := by
  rw [hrows] at hrow'
  obtain ⟨own,hown,⟨hownId,rfl⟩ | ⟨-,rfl⟩⟩ := mem_setRow hrow'
  · rw [hid] at hsame
    have heq := eq_of_key hunique hown hrow hsame
    subst heq
    exact hfinal own hown hownId hstatus
  · rw [eq_of_key hunique hown hrow hsame]

variable {now : ℕ}

theorem sound_enqueue {id maxAttempts : ℕ} (h : Sound w) (hnew : lookup Row.id id w.rows = none) :
    Sound {w with rows :=
      w.rows++[{id := id,maxAttempts := maxAttempts,nextAttemptAt := now,createdAt := now}]} := by
  have hfresh := lookup_eq_none.mp hnew
  constructor
  · exact unique_append_singleton h.unique hfresh
  · exact h.exclusive
  · intro e c he
    obtain ⟨row,hrow,hfit⟩ := h.fits e c he
    exact ⟨row,List.mem_append_left _ hrow,hfit⟩
  · intro row hrow
    rcases List.mem_append.mp hrow with hrow | hrow
    · exact h.rows row hrow
    · rw [List.mem_singleton.mp hrow]
      refine ⟨Nat.zero_le _,le_of_eq (List.countP_eq_zero.mpr ?_),nofun,iff_of_false nofun nofun⟩
      intro post hpost hid
      obtain ⟨other,hother,heq⟩ := h.known post hpost
      exact hfresh other hother (heq.trans (of_decide_eq_true hid))
  · intro post hpost
    obtain ⟨row,hrow,heq⟩ := h.known post hpost
    exact ⟨row,List.mem_append_left _ hrow,heq⟩

theorem due_pending {ids : List ℕ} (h : due now ids row = true) : row.status = .pending :=
  of_decide_eq_true (Bool.and_eq_true_iff.mp (Bool.and_eq_true_iff.mp h).1).1

variable {session : Session}

theorem sound_claim (h : Sound w) (hnone : session.claimed = none) (hrow : row ∈ w.rows)
    (hpending : row.status = .pending)
    (hfree : row.attempts < row.maxAttempts → ∀ d, ¬Holds w d row.id) :
    Sound (claimRow w d session row) := by
  have hsound := h.rows row hrow
  have hsame : ∀ own ∈ w.rows, own.id = row.id → own = row := fun own hown hid =>
    eq_of_key h.unique hown hrow hid
  unfold claimRow
  dsimp only
  split
  · next hused =>
      have hset : Sound (w.setRow row.id (exhaust session.now)) := by
        refine h.setRow (fun _ => rfl) ?_ ?_
        · intro own hown hid
          rw [hsame own hown hid]
          exact ⟨hsound.attempts,hsound.calls,nofun,iff_of_false nofun nofun⟩
        · intro e c he _ own hown hid hfit
          rw [hsame own hown hid] at hfit ⊢
          exact ⟨hfit.attempts,hfit.maxAttempts,.inr ⟨rfl,hused⟩,hfit.unposted,hfit.posted⟩
      refine hset.unclaimed fun s hs => ?_
      cases hs
      exact hnone
  · next hleft =>
      have hlt : row.attempts < row.maxAttempts := not_le.mp hleft
      have hnobody : ∀ e c, Has w e c → c.id ≠ row.id := fun e c he heq =>
        hfree hlt e (holds_iff.mpr ⟨c,he,heq⟩)
      have hset : Sound (w.setRow row.id attempt) := by
        refine h.setRow (fun _ => rfl) ?_ fun e c he heq => absurd heq (hnobody e c he)
        intro own hown hid
        rw [hsame own hown hid]
        exact ⟨hlt,hsound.calls.trans (Nat.le_succ _),hsound.delivered,hsound.succeeded⟩
      refine hset.claims rfl (fun e c he => hnobody e c he) ?_
      refine ⟨_,setRow_mem row.id _ hrow,?_⟩
      rw [if_pos rfl]
      refine ⟨rfl,rfl,rfl,.inl hpending,fun _ => Nat.lt_succ_of_le hsound.calls,nofun⟩

theorem sound_commit {claimed : Claimed} {loaded : DeliveryStatus} {success : Bool} (h : Sound w)
    (hsession : w.drainers d = some session) (hclaimed : session.claimed = some claimed)
    (hposted : claimed.posted = some (loaded,success)) :
    Sound ((w.setRow claimed.id (outcome settings now claimed loaded success)).setDrainer d
      (some {session with claimed := none})) := by
  have hhas : Has w d claimed := ⟨session,hsession,hclaimed⟩
  obtain ⟨row,hrow,hid,hfit⟩ := h.fits d claimed hhas
  have hreleased : Sound (w.setDrainer d (some {session with claimed := none})) :=
    h.unclaimed fun s hs => by cases hs; rfl
  refine hreleased.setRow (outcome_id settings now claimed loaded success) ?_ ?_
  · intro own hown hownId
    have hsame : own = row := eq_of_key h.unique hown hrow (hownId.trans hid.symm)
    subst hsame
    exact rowSound_outcome (h.rows own hrow) hfit hposted
  · intro e c he heq
    rcases has_setDrainer he with ⟨-,s,hs,hc⟩ | ⟨hne,hold⟩
    · cases hs
      cases hc
    · exact absurd (h.exclusive e d c claimed hold hhas heq) hne

theorem absorbs_claim (h : Sound w) (hrow : row ∈ w.rows) (hpending : row.status = .pending)
    (r r' : Row) (hr : r ∈ w.rows) (hstatus : r.status ≠ .pending)
    (hr' : r' ∈ (claimRow w d session row).rows) (hsame : r'.id = r.id) : r'.status = r.status := by
  have hfinal : ∀ own ∈ w.rows, own.id = row.id → own.status ≠ .pending → False := by
    intro own hown hid hne
    rw [eq_of_key h.unique hown hrow hid] at hne
    exact hne hpending
  unfold claimRow at hr'
  dsimp only at hr'
  split at hr'
  · exact absorbs_setRow row.id (exhaust session.now) h.unique (fun _ => rfl) rfl
      (fun own hown hid hne => (hfinal own hown hid hne).elim) hr hstatus hr' hsame
  · exact absorbs_setRow row.id attempt h.unique (fun _ => rfl) rfl
      (fun own hown hid hne => (hfinal own hown hid hne).elim) hr hstatus hr' hsame

theorem absorbs_rows (h : Sound w)
    (hrows : ∀ row' ∈ w'.rows, row' ∈ w.rows ∨ ∀ row ∈ w.rows, row.id ≠ row'.id) {row' : Row}
    (hrow : row ∈ w.rows) (hrow' : row' ∈ w'.rows) (hsame : row'.id = row.id) :
    row'.status = row.status := by
  rcases hrows row' hrow' with hold | hnew
  · rw [eq_of_key h.unique hold hrow hsame]
  · exact absurd hsame.symm (hnew row hrow)

/-- A guarded step from a sound state. -/
theorem sound_step {a : Act} (h : Sound w) (hstep : w.perform settings a = some w')
    (hguard : Guarded w a) : Sound w' ∧ Absorbs settings w a := by
  have habsorbs : (∀ row ∈ w.rows, row.status ≠ .pending → ∀ row' ∈ w'.rows, row'.id = row.id →
      row'.status = row.status) → Absorbs settings w a := by
    intro hall w'' hstep'
    rw [hstep] at hstep'
    cases hstep'
    exact hall
  have hkept : w'.rows = w.rows → Absorbs settings w a := fun hrows =>
    habsorbs fun row hrow _ row' hrow' hsame =>
      absorbs_rows h (fun r hr => .inl (hrows ▸ hr)) hrow hrow' hsame
  unfold World.perform at hstep
  cases a with
  | enqueue id maxAttempts now =>
    dsimp only at hstep
    split at hstep
    · cases hstep
    · next hnew =>
        cases hstep
        refine ⟨sound_enqueue h hnew,habsorbs fun row hrow _ row' hrow' hsame => ?_⟩
        refine absorbs_rows h (fun r hr => ?_) hrow hrow' hsame
        rcases List.mem_append.mp hr with hr | hr
        · exact .inl hr
        · rw [List.mem_singleton.mp hr]
          exact .inr (lookup_eq_none.mp hnew)
  | begin d now =>
    dsimp only at hstep
    split at hstep
    · cases hstep
    · cases hstep
      exact ⟨h.unclaimed fun s hs => (by cases hs; rfl),hkept rfl⟩
  | claim d id =>
    dsimp only at hstep
    split at hstep
    · next session row hsession hlookup =>
        split at hstep
        · next hclaims =>
            cases hstep
            obtain ⟨hfront,hclaimable⟩ := Bool.and_eq_true_iff.mp hclaims
            have hnone := Option.isNone_iff_eq_none.mp (Bool.and_eq_true_iff.mp hfront).1
            have hpending := due_pending (Bool.and_eq_true_iff.mp hclaimable).1
            have hrow := lookup_mem hlookup
            refine ⟨sound_claim h hnone hrow hpending fun hlt e => ?_,
              habsorbs fun r hr hne r' hr' => absorbs_claim h hrow hpending r r' hr hne hr'⟩
            rw [lookup_key hlookup]
            exact hguard row hlookup hlt e
        · cases hstep
    · cases hstep
  | finish d =>
    dsimp only at hstep
    split at hstep
    · cases hstep
    · split at hstep
      · cases hstep
        exact ⟨h.unclaimed fun s hs => (by cases hs),hkept rfl⟩
      · cases hstep
  | post d success =>
    dsimp only at hstep
    split at hstep
    · cases hstep
    · next session hsession =>
        split at hstep
        · cases hstep
        · next claimed hclaimed =>
            split at hstep
            · next row hposted hlookup =>
                cases hstep
                exact ⟨h.post hsession hclaimed hposted (lookup_mem hlookup)
                  (lookup_key hlookup) success,hkept rfl⟩
            · cases hstep
  | commit d now =>
    dsimp only at hstep
    split at hstep
    · cases hstep
    · next session hsession =>
        split at hstep
        · cases hstep
        · next claimed hclaimed =>
            split at hstep
            · cases hstep
            · next loaded success hposted =>
                cases hstep
                refine ⟨sound_commit h hsession hclaimed hposted,
                  habsorbs fun r hr hne r' hr' hsame => ?_⟩
                refine absorbs_setRow claimed.id _ h.unique
                  (outcome_id settings now claimed loaded success) rfl ?_ hr hne hr' hsame
                intro own hown hid hfinal
                obtain ⟨row,hrow,hrowId,hfit⟩ := h.fits d claimed ⟨session,hsession,hclaimed⟩
                have heq : own = row := eq_of_key h.unique hown hrow (hid.trans hrowId.symm)
                subst heq
                cases success with
                | false => exact outcome_failed hfit hfinal
                | true =>
                  have hlookup := lookup_of_mem h.unique hown
                  rw [hid] at hlookup
                  exact absurd (hguard session claimed loaded hsession hclaimed hposted own
                    hlookup) hfinal
  | crash d =>
    cases hstep
    exact ⟨h.unclaimed fun s hs => (by cases hs),hkept rfl⟩

/-- A step that keeps the guarantees and the final statuses is guarded. -/
theorem guarded_of_guarantees {a : Act} (h : Sound w) (hstep : w.perform settings a = some w')
    (hgood : Guarantees w') (habsorbs : Absorbs settings w a) : Guarded w a := by
  cases a with
  | claim d id =>
    intro row hlookup hlt e hholds
    unfold World.perform at hstep
    dsimp only at hstep
    split at hstep
    · next session row' hsession hlookup' =>
        rw [hlookup] at hlookup'
        cases hlookup'
        split at hstep
        · next hclaims =>
            cases hstep
            have hnone := (Bool.and_eq_true_iff.mp (Bool.and_eq_true_iff.mp hclaims).1).1
            rw [Option.isNone_iff_eq_none] at hnone
            obtain ⟨session',claimed,hsession',hclaimed,hid⟩ := hholds
            have hne : e ≠ d := by
              rintro rfl
              rw [hsession] at hsession'
              cases hsession'
              rw [hnone] at hclaimed
              cases hclaimed
            have hmine := lookup_key hlookup
            rw [claimRow,if_neg (not_le.mpr hlt)] at hgood
            refine hne (hgood.exclusive e d id ?_ ?_)
            · exact ⟨session',claimed,(drainers_other _ hne).trans hsession',hclaimed,hid⟩
            · exact ⟨_,_,drainers_self _,rfl,hmine⟩
        · cases hstep
    · cases hstep
  | commit d now =>
    intro session claimed loaded hsession hclaimed hposted row hlookup
    by_contra hstatus
    obtain ⟨own,hown,hid,hfit⟩ := h.fits d claimed ⟨session,hsession,hclaimed⟩
    have hrow := lookup_mem hlookup
    have hrowId := lookup_key hlookup
    have heq : own = row := eq_of_key h.unique hown hrow (hid.trans hrowId.symm)
    subst heq
    have hmem := setRow_mem claimed.id (outcome settings now claimed loaded true) hown
    rw [if_pos hid] at hmem
    have hstep' : w.perform settings (.commit d now) = some ((w.setRow claimed.id
        (outcome settings now claimed loaded true)).setDrainer d
          (some {session with claimed := none})) := by
      unfold World.perform
      dsimp only
      rw [hsession]
      dsimp only
      rw [hclaimed]
      dsimp only
      rw [hposted]
    have hsame := habsorbs _ hstep' own hown hstatus _ hmem
      (outcome_id settings now claimed loaded true own)
    have hloaded := (hfit.posted loaded true hposted).1
    rw [(outcome_success settings now claimed own hloaded).1] at hsame
    rcases hfit.status with hpending | ⟨hfailed,-⟩
    · exact hstatus hpending
    · rw [hfailed] at hsame
      cases hsame
  | _ => trivial

theorem sound_empty : Sound {} :=
  ⟨.nil,fun _ _ _ _ hhas => (by obtain ⟨s,hs,-⟩ := hhas; cases hs),
    fun _ _ hhas => (by obtain ⟨s,hs,-⟩ := hhas; cases hs),
    fun _ hrow => absurd hrow List.not_mem_nil,fun _ hpost => absurd hpost List.not_mem_nil⟩

/-- The guarantees hold in every state of a run, and final statuses stay, just when every step
of it is guarded. -/
theorem drained_iff (settings : Settings) (acts : List Act) :
    Throughout (World.perform settings) Guarantees {} acts ∧
        EachStep (World.perform settings) (Absorbs settings) {} acts ↔
      EachStep (World.perform settings) Guarded {} acts :=
  throughout_and_eachStep_iff (fun _ h => h.guarantees) (fun _ _ _ h hstep => sound_step h hstep)
    (fun _ _ _ h hstep => guarded_of_guarantees h hstep) sound_empty acts

end Run

section Example

def usual : Settings where
  batchSize := 50
  backoffBase := 2000000
  backoffMax := 300000000

/-- A second drainer claims the row that the first one is delivering. -/
def claimedTwice : List Act := [.enqueue 0 5 0,.begin 1 7,.begin 2 7,.claim 1 0,.claim 2 0]

/-- Two drainers hold one row. -/
theorem claimed_again : ¬ ∀ (settings : Settings) (acts : List Act),
    Throughout (World.perform settings) Guarantees {} acts ∧
      EachStep (World.perform settings) (Absorbs settings) {} acts := by
  intro h
  have hlast := (h usual claimedTwice).1.last rfl
  have hsame := hlast.exclusive 1 2 0 ⟨_,_,rfl,rfl,rfl⟩ ⟨_,_,rfl,rfl,rfl⟩
  exact absurd hsame (by decide)

end Example

end OneStep.OutboxDrainers
