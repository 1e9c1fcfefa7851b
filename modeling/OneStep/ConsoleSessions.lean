import OneStep.Transition

/-!
# Console sessions

A session of the console is a row with the hash of its token. A login, a check, a logout and a
logout of all sessions each read what they need and commit later; what others commit meanwhile
is not noticed. A commit writes the columns that were changed, and nothing else.
-/
namespace OneStep.ConsoleSessions
open Transition

variable {U T H : Type} [DecidableEq U] [DecidableEq H]

section Model

structure ConsoleSession (U H : Type) where
  userId : U
  tokenHash : H
  authenticatedAt : ℕ
  expiresAt : ℕ
  lastSeenAt : ℕ
  revokedAt : Option ℕ

def ConsoleSession.live (s : ConsoleSession U H) (now : ℕ) : Bool :=
  s.revokedAt.isNone && decide (now < s.expiresAt)

/-- What a request writes, from what it has read. -/
inductive Write (U H : Type) where
  | create (session : ConsoleSession U H) (active : List H)
  | seen (tokenHash : H) (now : ℕ)
  | revoke (tokenHashes : List H) (now : ℕ)

structure World (U H : Type) where
  isActive : U → Bool
  now : ℕ := 0
  sessions : List (ConsoleSession U H) := []
  writes : List (Write U H) := []

inductive Op (U T : Type) where
  | tick (elapsed : ℕ)
  | setActive (user : U) (active : Bool)
  | create (user : U) (token : T)
  | authenticate (token : T)
  | revoke (token : T)
  | revokeUser (user : U)
  | commit (i : ℕ)
  | rollback (i : ℕ)

variable (w : World U H)

def World.session (tokenHash : H) : Option (ConsoleSession U H) :=
  w.sessions.find? fun s => s.tokenHash = tokenHash

/-- `authenticate_console_session_state`, on the hash of the token. -/
def World.authenticates (tokenHash : H) : Bool :=
  (w.session tokenHash).any fun s => s.live w.now && w.isActive s.userId

def World.activeSessions (user : U) : List H :=
  (w.sessions.filter fun s => s.userId = user && s.live w.now).map ConsoleSession.tokenHash

def revokeIn (tokenHashes : List H) (now : ℕ) (s : ConsoleSession U H) : ConsoleSession U H :=
  if s.tokenHash ∈ tokenHashes then {s with revokedAt := some now} else s

/-- A commit; it fails as a whole where a new token has a hash that is there already. -/
def Write.apply (sessions : List (ConsoleSession U H)) : Write U H → List (ConsoleSession U H)
  | .create session active =>
    if session.tokenHash ∈ sessions.map ConsoleSession.tokenHash then sessions
    else sessions.map (revokeIn active session.authenticatedAt)++[session]
  | .seen tokenHash now => sessions.map fun s =>
    if s.tokenHash = tokenHash then {s with lastSeenAt := now} else s
  | .revoke tokenHashes now => sessions.map (revokeIn tokenHashes now)

def World.begin (write : Write U H) : World U H := {w with writes := w.writes++[write]}

/-- The session that `create_console_session` adds. -/
def World.newSession (ttl : ℕ) (user : U) (tokenHash : H) : ConsoleSession U H where
  userId := user
  tokenHash := tokenHash
  authenticatedAt := w.now
  expiresAt := w.now+ttl
  lastSeenAt := w.now
  revokedAt := none

def perform (ttl : ℕ) (hash : T → H) (w : World U H) : Op U T → Option (World U H)
  | .tick elapsed => some {w with now := w.now+elapsed}
  | .setActive user active =>
    some {w with isActive := fun u => if u = user then active else w.isActive u}
  | .create user token =>
    some (w.begin (.create (w.newSession ttl user (hash token)) (w.activeSessions user)))
  | .authenticate token =>
    some (if w.authenticates (hash token) then w.begin (.seen (hash token) w.now) else w)
  | .revoke token =>
    some (if (w.session (hash token)).any fun s => s.revokedAt.isNone then
      w.begin (.revoke [hash token] w.now) else w)
  | .revokeUser user =>
    some (if w.activeSessions user = [] then w else w.begin (.revoke (w.activeSessions user) w.now))
  | .commit i => w.writes[i]?.map fun write =>
    {w with sessions := write.apply w.sessions, writes := w.writes.eraseIdx i}
  | .rollback i => w.writes[i]?.map fun _ => {w with writes := w.writes.eraseIdx i}

/-- A user has one live session at most. -/
def AtMostOne (w : World U H) : Prop :=
  ∀ s ∈ w.sessions, ∀ o ∈ w.sessions, s.userId = o.userId → s.live w.now = true →
    o.live w.now = true → s.tokenHash = o.tokenHash

/-- The session of a token that is there, and not live. -/
def Dead (w : World U H) (tokenHash : H) : Prop :=
  ∃ s, w.session tokenHash = some s ∧ s.live w.now = false

/-- The commit of a login, with the live sessions that the login has read. -/
def Adds (w : World U H) (op : Op U T) (session : ConsoleSession U H) (active : List H) : Prop :=
  ∃ i, op = .commit i ∧ w.writes[i]? = some (.create session active) ∧
    session.tokenHash ∉ w.sessions.map ConsoleSession.tokenHash

/-- A login that adds a live session has read every live one of its user. -/
def Informed (w : World U H) (op : Op U T) : Prop :=
  ∀ session active, Adds w op session active → session.live w.now = true →
    ∀ o ∈ w.sessions, o.userId = session.userId → o.live w.now = true → o.tokenHash ∈ active

end Model

section Steps
variable {w w' : World U H} {ttl : ℕ} {hash : T → H} {op : Op U T}

/-- Sessions are changed one by one, and none comes to life again. -/
structure Aged (w w' : World U H) (f : ConsoleSession U H → ConsoleSession U H) : Prop where
  tokenHash : ∀ s, (f s).tokenHash = s.tokenHash
  userId : ∀ s, (f s).userId = s.userId
  live : ∀ s, (f s).live w'.now = true → s.live w.now = true

omit [DecidableEq U] [DecidableEq H] in
theorem aged_id (h : w.now ≤ w'.now) : Aged w w' id := by
  refine ⟨fun _ => rfl,fun _ => rfl,fun s hs => ?_⟩
  simp only [ConsoleSession.live,Bool.and_eq_true,decide_eq_true_eq,id_eq] at hs ⊢
  exact ⟨hs.1,Nat.lt_of_le_of_lt h hs.2⟩

omit [DecidableEq U] in
theorem aged_revokeIn (h : w'.now = w.now) (tokenHashes : List H) (now : ℕ) :
    Aged w w' (revokeIn tokenHashes now) := by
  unfold revokeIn
  refine ⟨fun s => ?_,fun s => ?_,fun s hs => ?_⟩
  · split <;> rfl
  · split <;> rfl
  · rw [h] at hs
    split at hs
    · cases hs
    · exact hs

/-- A step ages the sessions, or is the commit of a login and adds one behind them. -/
theorem step_cases (h : perform ttl hash w op = some w') :
    (∃ f, Aged w w' f ∧ w'.sessions = w.sessions.map f ∧ ∀ session active, ¬Adds w op session active) ∨
    ∃ session active, Adds w op session active ∧ w'.now = w.now ∧
      w'.sessions = w.sessions.map (revokeIn active session.authenticatedAt)++[session] := by
  have hkeep (hnow : w.now ≤ w'.now) (hsessions : w'.sessions = w.sessions)
      (hop : ∀ i, op ≠ .commit i) : ∃ f, Aged w w' f ∧ w'.sessions = w.sessions.map f ∧
        ∀ session active, ¬Adds w op session active :=
    ⟨id,aged_id hnow,by rw [hsessions,List.map_id],fun _ _ ⟨i,hi,_⟩ => hop i hi⟩
  cases op with
  | commit i =>
    obtain ⟨write,hwrite,rfl⟩ := Option.map_eq_some_iff.mp h
    cases write with
    | create session active =>
      by_cases hfresh : session.tokenHash ∈ w.sessions.map ConsoleSession.tokenHash
      · refine .inl ⟨id,aged_id (Nat.le_refl _),by simp [Write.apply,hfresh],?_⟩
        rintro _ _ ⟨_,⟨⟩,hsome,hnot⟩
        rw [hwrite] at hsome
        cases hsome
        exact hnot hfresh
      · exact .inr ⟨session,active,⟨i,rfl,hwrite,hfresh⟩,rfl,if_neg hfresh⟩
    | seen tokenHash now =>
      refine .inl ⟨_,?_,rfl,?_⟩
      · refine ⟨fun s => ?_,fun s => ?_,fun s hs => ?_⟩
        · split <;> rfl
        · split <;> rfl
        · split at hs
          · exact hs
          · exact hs
      · rintro _ _ ⟨_,⟨⟩,hsome,-⟩
        rw [hwrite] at hsome
        cases hsome
    | revoke tokenHashes now =>
      refine .inl ⟨revokeIn tokenHashes now,aged_revokeIn (by rfl) tokenHashes now,rfl,?_⟩
      rintro _ _ ⟨_,⟨⟩,hsome,-⟩
      rw [hwrite] at hsome
      cases hsome
  | tick elapsed =>
    cases h
    exact .inl (hkeep (Nat.le_add_right _ _) rfl fun _ h => by cases h)
  | setActive user active | create user token =>
    cases h
    exact .inl (hkeep (Nat.le_refl _) rfl fun _ h => by cases h)
  | authenticate token | revoke token | revokeUser user =>
    cases h
    refine .inl (hkeep ?_ ?_ fun _ h => by cases h)
    · split
      · exact Nat.le_refl _
      · exact Nat.le_refl _
    · split
      · rfl
      · rfl
  | rollback i =>
    obtain ⟨write,-,rfl⟩ := Option.map_eq_some_iff.mp h
    exact .inl (hkeep (Nat.le_refl _) rfl fun _ h => by cases h)

omit [DecidableEq U] [DecidableEq H] in
theorem Adds.unique {session session' : ConsoleSession U H} {active active' : List H}
    (h : Adds w op session active) (h' : Adds w op session' active') :
    session = session' ∧ active = active' := by
  obtain ⟨i,rfl,hwrite,-⟩ := h
  obtain ⟨_,⟨⟩,hwrite',-⟩ := h'
  rw [hwrite] at hwrite'
  cases hwrite'
  exact ⟨rfl,rfl⟩

omit [DecidableEq U] [DecidableEq H] in
/-- The sessions that were there stay one for each user. -/
theorem Aged.oneLive {f : ConsoleSession U H → ConsoleSession U H} (hf : Aged w w' f)
    (hone : AtMostOne w) {s o : ConsoleSession U H} (hs : s ∈ w.sessions.map f)
    (ho : o ∈ w.sessions.map f) (huser : s.userId = o.userId) (hlive : s.live w'.now = true)
    (holive : o.live w'.now = true) : s.tokenHash = o.tokenHash := by
  obtain ⟨s,hsource,rfl⟩ := List.mem_map.mp hs
  obtain ⟨o,hother,rfl⟩ := List.mem_map.mp ho
  rw [hf.userId,hf.userId] at huser
  rw [hf.tokenHash,hf.tokenHash]
  exact hone s hsource o hother huser (hf.live s hlive) (hf.live o holive)

/-- Only an informed step keeps one live session. -/
theorem oneLive_iff (hone : AtMostOne w) (h : perform ttl hash w op = some w') :
    AtMostOne w' ↔ Informed w op := by
  obtain ⟨f,hf,hsessions,hnone⟩ | ⟨session,active,hadds,hnow,hsessions⟩ := step_cases h
  · refine iff_of_true ?_ fun session active hadds => absurd hadds (hnone session active)
    unfold AtMostOne
    rw [hsessions]
    intro s hs o ho huser hlive holive
    exact hf.oneLive hone hs ho huser hlive holive
  · have hf := aged_revokeIn hnow active session.authenticatedAt
    unfold AtMostOne
    rw [hsessions]
    constructor
    · intro hall session' active' hadds' hlive o ho huser holive
      obtain ⟨rfl,rfl⟩ := hadds.unique hadds'
      by_contra hread
      have hkept : revokeIn active session.authenticatedAt o = o := if_neg hread
      obtain ⟨-,-,-,hfresh⟩ := hadds
      refine hfresh (List.mem_map.mpr ⟨o,ho,?_⟩)
      refine hall o ?_ session ?_ huser (hnow ▸ holive) (hnow ▸ hlive)
      · exact List.mem_append_left _ (List.mem_map.mpr ⟨o,ho,hkept⟩)
      · exact List.mem_append_right _ List.mem_cons_self
    · intro hinformed
      have hread (o : ConsoleSession U H) (ho : o ∈ w.sessions)
          (huser : (revokeIn active session.authenticatedAt o).userId = session.userId)
          (hlive : session.live w'.now = true)
          (holive : (revokeIn active session.authenticatedAt o).live w'.now = true) : False := by
        have hmem := hinformed session active hadds (hnow ▸ hlive) o ho (hf.userId o ▸ huser)
          (hf.live o holive)
        rw [revokeIn,if_pos hmem] at holive
        cases holive
      intro s hs o ho huser hlive holive
      rcases List.mem_append.mp hs with hs | hs <;> rcases List.mem_append.mp ho with ho | ho
      · exact hf.oneLive hone hs ho huser hlive holive
      · obtain ⟨s,hsource,rfl⟩ := List.mem_map.mp hs
        cases List.mem_singleton.mp ho
        exact (hread s hsource huser holive hlive).elim
      · obtain ⟨o,hother,rfl⟩ := List.mem_map.mp ho
        cases List.mem_singleton.mp hs
        exact (hread o hother huser.symm hlive holive).elim
      · rw [List.mem_singleton.mp hs,List.mem_singleton.mp ho]

/-- A dead session stays dead. -/
theorem dead_step {tokenHash : H} (hdead : Dead w tokenHash) (h : perform ttl hash w op = some w') :
    Dead w' tokenHash := by
  obtain ⟨s,hs,hlive⟩ := hdead
  have hfind {f : ConsoleSession U H → ConsoleSession U H} (hf : Aged w w' f) :
      (w.sessions.map f).find? (fun s => s.tokenHash = tokenHash) = some (f s) := by
    rw [List.find?_map]
    simp only [Function.comp_def,hf.tokenHash]
    exact congrArg (Option.map f) hs
  have hstill {f : ConsoleSession U H → ConsoleSession U H} (hf : Aged w w' f) :
      (f s).live w'.now = false :=
    Bool.eq_false_iff.mpr fun hf' => Bool.false_ne_true (hlive.symm.trans (hf.live s hf'))
  obtain ⟨f,hf,hsessions,-⟩ | ⟨session,active,-,hnow,hsessions⟩ := step_cases h
  · exact ⟨f s,by rw [World.session,hsessions,hfind hf],hstill hf⟩
  · have hf := aged_revokeIn hnow active session.authenticatedAt
    exact ⟨_,by rw [World.session,hsessions,List.find?_append,hfind hf,Option.some_or],hstill hf⟩

/-- In every run a user has one live session at most, exactly if every login that commits has
read all the live sessions of its user there are at its commit. -/
theorem throughout_atMostOne_iff (isActive : U → Bool) (ops : List (Op U T)) :
    Throughout (perform ttl hash) AtMostOne {isActive} ops ↔
      EachStep (perform ttl hash) Informed {isActive} ops :=
  throughout_iff (fun _ _ _ _ _ => trivial) (fun _ _ _ _ hone h => oneLive_iff hone h)
    (trivial : (fun _ => True) _) (fun _ hs => absurd hs List.not_mem_nil) ops

/-- A token whose session is revoked or has expired is never accepted again, whatever was
read before and is committed later. -/
theorem dead_run {tokenHash : H} {ops : List (Op U T)} (hdead : Dead w tokenHash)
    (h : runs (perform ttl hash) (fun _ _ => true) w ops = some w') :
    w'.authenticates tokenHash = false := by
  have hrun := run_of_runs (P := fun _ _ => True) (fun _ _ _ => trivial) h
  obtain ⟨s,hs,hlive⟩ := hrun.invariant (I := (Dead · tokenHash))
    (fun _ _ _ hs ht => dead_step hs ht.1) hdead
  rw [World.authenticates,hs,Option.any_some,hlive,Bool.false_and]

end Steps

section Samples

/-- A check that has read the session before the logout commits behind it. -/
theorem checked_dead : ∃ w w' : World Unit ℕ,
    runs (perform 60 id) (fun _ _ => true) {isActive := fun _ => true}
      [.create () 7,.commit 0,.authenticate 7,.revoke 7,.commit 1] = some w ∧
    runs (perform 60 id) (fun _ _ => true) w [.tick 5,.authenticate 7,.commit 0] = some w' ∧
    w'.authenticates 7 = false := by
  obtain ⟨w,hw,hdead,w',hw'⟩ : ∃ w : World Unit ℕ,
      runs (perform 60 id) (fun _ _ => true) {isActive := fun _ => true}
        [.create () 7,.commit 0,.authenticate 7,.revoke 7,.commit 1] = some w ∧ Dead w 7 ∧
      ∃ w', runs (perform 60 id) (fun _ _ => true) w [.tick 5,.authenticate 7,.commit 0] =
        some w' := ⟨_,rfl,⟨_,rfl,rfl⟩,_,rfl⟩
  exact ⟨w,w',hw,hw',dead_run hdead hw'⟩

end Samples

end OneStep.ConsoleSessions
