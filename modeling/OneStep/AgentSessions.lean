import OneStep.Transition
import Mathlib.Logic.Function.Basic
import Mathlib.Data.List.Nodup

/-!
# The sessions of the agent connections

Each socket of `agent_ws` has its own task. A hello creates the session, supersedes those
of its instance, and registers the connection without a pause in between; a pause follows.
When the task ends it waits for the send loop, then unregisters the session of its latest
hello and closes it; if the send loop has raised, waiting for it raises as well, and
nothing is done. If the database has raised, within a frame or at the end, it takes no
statement more, and the session is not closed. A session is told by a number, its socket by that of the task, which
stands for the queue of the socket.
-/
namespace OneStep.AgentSessions
open Transition

section Sockets

/-- Where the task of a socket is: waiting for a frame, within one, or at its end. -/
inductive Phase where
  | idle | handling | closing | closed
  deriving DecidableEq

structure ConnectionContext where
  sessionId : ℕ
  instanceId : ℕ
  deriving DecidableEq

structure Socket where
  phase : Phase := .idle
  context : Option ConnectionContext := none
  sendFailed : Bool := false
  dbFailed : Bool := false

inductive AgentSessionStatus where
  | active | superseded | disconnected
  deriving DecidableEq

/-- A row, with the socket through which it was created. -/
structure AgentSession where
  sessionId : ℕ
  instanceId : ℕ
  status : AgentSessionStatus
  socket : ℕ
  deriving DecidableEq

structure LiveAgentConnection where
  sessionId : ℕ
  socket : ℕ
  deriving DecidableEq

structure Plane where
  sockets : ℕ → Option Socket := fun _ => none
  sessions : List AgentSession := []
  connections : ℕ → Option LiveAgentConnection := fun _ => none
  nextSession : ℕ := 0

def supersede (instanceId : ℕ) (row : AgentSession) : AgentSession :=
  if row.instanceId = instanceId ∧ row.status = .active then {row with status := .superseded} else row

/-- `_handle_hello`, the context, and `register`. -/
def handleHello (k : ℕ) (socket : Socket) (instanceId : ℕ) (p : Plane) : Plane where
  sockets := Function.update p.sockets k
    (some {socket with phase := .handling, context := some ⟨p.nextSession,instanceId⟩})
  sessions := p.sessions.map (supersede instanceId)++[⟨p.nextSession,instanceId,.active,k⟩]
  connections := Function.update p.connections instanceId (some ⟨p.nextSession,k⟩)
  nextSession := p.nextSession+1

def unregister (context : ConnectionContext) (connections : ℕ → Option LiveAgentConnection) :
    ℕ → Option LiveAgentConnection :=
  match connections context.instanceId with
  | some current =>
    if current.sessionId = context.sessionId then Function.update connections context.instanceId none
    else connections
  | none => connections

/-- `_close_session`. -/
def closeSession (sessionId : ℕ) (row : AgentSession) : AgentSession :=
  if row.sessionId = sessionId ∧ row.status = .active then {row with status := .disconnected} else row

/-- The end of `agent_ws`, once the send loop is done. -/
def finish (k : ℕ) (socket : Socket) (p : Plane) : Plane :=
  let p := {p with sockets := Function.update p.sockets k (some {socket with phase := .closed})}
  match socket.sendFailed,socket.context with
  | false,some context =>
    let p := {p with connections := unregister context p.connections}
    if socket.dbFailed then p
    else {p with sessions := p.sessions.map (closeSession context.sessionId)}
  | _,_ => p

/-- What the sockets do, each told by a number. A frame that is no accepted hello is
handled, and a task ends with its connection, by an error, or by being refused. -/
inductive Act where
  | open (k : ℕ)
  | hello (k instanceId : ℕ)
  | frame (k : ℕ)
  | handled (k : ℕ)
  | leave (k : ℕ)
  | sendRaises (k : ℕ)
  | dbRaises (k : ℕ)
  | finish (k : ℕ)

def setSocket (p : Plane) (k : ℕ) (socket : Socket) : Plane :=
  {p with sockets := Function.update p.sockets k (some socket)}

def performSocket (p : Plane) (k : ℕ) (socket : Socket) : Act → Option Plane
  | .open _ => none
  | .hello _ instanceId =>
    if socket.phase = .idle then some (handleHello k socket instanceId p) else none
  | .frame _ =>
    if socket.phase = .idle then some (setSocket p k {socket with phase := .handling}) else none
  | .handled _ =>
    if socket.phase = .handling then some (setSocket p k {socket with phase := .idle}) else none
  | .leave _ =>
    if socket.phase = .idle ∨ socket.phase = .handling then
      some (setSocket p k {socket with phase := .closing})
    else none
  | .sendRaises _ =>
    if socket.phase = .closed then none else some (setSocket p k {socket with sendFailed := true})
  | .dbRaises _ =>
    if socket.phase = .handling ∨ socket.phase = .closing then
      some (setSocket p k {socket with phase := .closing, dbFailed := true})
    else none
  | .finish _ => if socket.phase = .closing then some (finish k socket p) else none

def Act.socket : Act → ℕ
  | .open k => k
  | .hello k _ => k
  | .frame k => k
  | .handled k => k
  | .leave k => k
  | .sendRaises k => k
  | .dbRaises k => k
  | .finish k => k

def perform (p : Plane) (act : Act) : Option Plane :=
  match p.sockets act.socket,act with
  | none,.open k => some (setSocket p k {})
  | none,_ => none
  | some socket,act => performSocket p act.socket socket act

end Sockets

section Properties

def OneActive (p : Plane) : Prop :=
  ∀ row ∈ p.sessions, ∀ row' ∈ p.sessions, row.status = .active → row'.status = .active →
    row.instanceId = row'.instanceId → row = row'

/-- No socket is within a frame or at its end. -/
def Quiet (p : Plane) : Prop :=
  ∀ k, ∀ socket ∈ p.sockets k, socket.phase = .idle ∨ socket.phase = .closed

/-- Every route leads to the active session of its instance and to an open socket. -/
def Routed (p : Plane) : Prop :=
  Quiet p → ∀ instanceId, ∀ connection ∈ p.connections instanceId,
    (∃ row ∈ p.sessions, row.sessionId = connection.sessionId ∧ row.instanceId = instanceId ∧
      row.status = .active) ∧
    ∃ socket ∈ p.sockets connection.socket, socket.phase ≠ .closed

/-- No session of a closed socket is active. -/
def Released (p : Plane) : Prop :=
  ∀ row ∈ p.sessions, row.status = .active → ∀ socket ∈ p.sockets row.socket, socket.phase ≠ .closed

def Clean (p : Plane) : Prop := OneActive p ∧ Routed p ∧ Released p

/-- The task of a socket ends with no active session, but for one of the instance of its
latest hello if neither the send loop nor the database has raised. -/
def EndsClean (p : Plane) : Act → Prop
  | .finish k => ∀ row ∈ p.sessions, row.status = .active → row.socket = k →
      ∃ socket ∈ p.sockets k, socket.sendFailed = false ∧ socket.dbFailed = false ∧
        ∃ context ∈ socket.context, row.instanceId = context.instanceId
  | _ => True

/-- The rows and the registry tell the same. -/
structure Sound (p : Plane) : Prop where
  fresh : ∀ row ∈ p.sessions, row.sessionId < p.nextSession
  unique : (p.sessions.map AgentSession.sessionId).Nodup
  single : OneActive p
  live : ∀ instanceId, ∀ connection ∈ p.connections instanceId,
    ⟨connection.sessionId,instanceId,.active,connection.socket⟩ ∈ p.sessions
  opened : ∀ row ∈ p.sessions, (p.sockets row.socket).isSome
  context : ∀ k, ∀ socket ∈ p.sockets k, ∀ context ∈ socket.context,
    context.sessionId < p.nextSession ∧
    (∀ row ∈ p.sessions, row.sessionId = context.sessionId → row.instanceId = context.instanceId) ∧
    ∀ row ∈ p.sessions, row.status = .active → row.socket = k →
      row.instanceId = context.instanceId → row.sessionId = context.sessionId

variable {p q : Plane}

theorem sound_empty : Sound {} :=
  ⟨nofun,List.nodup_nil,nofun,nofun,nofun,nofun⟩

/-- In the states that are reached, it is only closed sockets that may leave something. -/
theorem clean_iff (hp : Sound p) : Clean p ↔ Released p := by
  refine ⟨fun h => h.2.2,fun hreleased => ⟨hp.single,fun hquiet instanceId connection hc => ?_,
    hreleased⟩⟩
  have hrow := hp.live instanceId connection hc
  refine ⟨⟨_,hrow,rfl,rfl,rfl⟩,?_⟩
  obtain ⟨socket,hsocket⟩ := Option.isSome_iff_exists.mp (hp.opened _ hrow)
  exact ⟨socket,hsocket,hreleased _ hrow rfl socket hsocket⟩

end Properties

section Steps
variable {p q : Plane} {k : ℕ} {socket : Socket}

theorem sound_setSocket (hp : Sound p)
    (hcontext : ∀ context ∈ socket.context, ∃ old ∈ p.sockets k, context ∈ old.context) :
    Sound (setSocket p k socket) := by
  refine ⟨hp.fresh,hp.unique,hp.single,hp.live,fun row hrow => ?_,fun k' socket' hsocket' => ?_⟩
  · change (Function.update p.sockets k (some socket) row.socket).isSome = true
    by_cases heq : row.socket = k
    · rw [heq,Function.update_self]
      rfl
    · rw [Function.update_of_ne heq]
      exact hp.opened row hrow
  · change socket' ∈ Function.update p.sockets k (some socket) k' at hsocket'
    by_cases heq : k' = k
    · subst heq
      rw [Function.update_self,Option.mem_some_iff] at hsocket'
      subst hsocket'
      intro context hc
      obtain ⟨old,hold,hc'⟩ := hcontext context hc
      exact hp.context k' old hold context hc'
    · rw [Function.update_of_ne heq] at hsocket'
      exact hp.context k' socket' hsocket'

theorem released_setSocket (hp : Released p) (hopen : socket.phase ≠ .closed) :
    Released (setSocket p k socket) := by
  intro row hrow hactive socket' hsocket'
  change socket' ∈ Function.update p.sockets k (some socket) row.socket at hsocket'
  by_cases heq : row.socket = k
  · rw [heq,Function.update_self,Option.mem_some_iff] at hsocket'
    rw [← hsocket']
    exact hopen
  · rw [Function.update_of_ne heq] at hsocket'
    exact hp row hrow hactive socket' hsocket'

theorem supersede_same (instanceId : ℕ) (row : AgentSession) :
    (supersede instanceId row).sessionId = row.sessionId ∧
      (supersede instanceId row).instanceId = row.instanceId ∧
        (supersede instanceId row).socket = row.socket := by
  unfold supersede
  split
  · exact ⟨rfl,rfl,rfl⟩
  · exact ⟨rfl,rfl,rfl⟩

variable {instanceId : ℕ} {row : AgentSession}

theorem supersede_active (h : (supersede instanceId row).status = .active) :
    row.instanceId ≠ instanceId ∧ supersede instanceId row = row := by
  unfold supersede at h ⊢
  split at h
  · cases h
  · next hother =>
      rw [if_neg hother]
      exact ⟨fun hinstance => hother ⟨hinstance,h⟩,rfl⟩

theorem supersede_other (h : row.instanceId ≠ instanceId) :
    supersede instanceId row = row := if_neg fun hboth => h hboth.1

theorem mem_hello
    (h : row ∈ p.sessions.map (supersede instanceId)++[⟨p.nextSession,instanceId,.active,k⟩]) :
    (∃ old ∈ p.sessions, row = supersede instanceId old) ∨
      row = ⟨p.nextSession,instanceId,.active,k⟩ := by
  rcases List.mem_append.mp h with hold | hnew
  · obtain ⟨old,hmem,rfl⟩ := List.mem_map.mp hold
    exact .inl ⟨old,hmem,rfl⟩
  · exact .inr (List.mem_singleton.mp hnew)

theorem sound_hello (hp : Sound p) (hk : socket ∈ p.sockets k) :
    Sound (handleHello k socket instanceId p) := by
  refine ⟨fun row hrow => ?_,?_,fun row hrow row' hrow' hactive hactive' hi => ?_,
    fun i connection hc => ?_,fun row hrow => ?_,fun k' socket' hsocket' context hc => ?_⟩
  · rcases mem_hello hrow with ⟨old,hold,rfl⟩ | rfl
    · rw [(supersede_same _ _).1]
      exact Nat.lt_succ_of_lt (hp.fresh old hold)
    · exact Nat.lt_succ_self _
  · have hids : (p.sessions.map (supersede instanceId)).map AgentSession.sessionId =
        p.sessions.map AgentSession.sessionId := by
      rw [List.map_map]
      exact List.map_congr_left fun row _ => (supersede_same _ _).1
    change (List.map _ (p.sessions.map (supersede instanceId)++_)).Nodup
    rw [List.map_append,hids,List.nodup_append]
    refine ⟨hp.unique,List.nodup_singleton _,?_⟩
    rintro id hid id' hid' rfl
    obtain ⟨row,hrow,rfl⟩ := List.mem_map.mp hid
    rw [List.map_singleton,List.mem_singleton] at hid'
    exact absurd hid' (Nat.ne_of_lt (hp.fresh row hrow))
  · rcases mem_hello hrow with ⟨old,hold,rfl⟩ | rfl
    · obtain ⟨hother,hsame⟩ := supersede_active hactive
      rw [hsame] at hactive hi ⊢
      rcases mem_hello hrow' with ⟨old',hold',rfl⟩ | rfl
      · obtain ⟨-,hsame'⟩ := supersede_active hactive'
        rw [hsame'] at hactive' hi ⊢
        exact hp.single old hold old' hold' hactive hactive' hi
      · exact absurd hi hother
    · rcases mem_hello hrow' with ⟨old',hold',rfl⟩ | rfl
      · obtain ⟨hother,hsame⟩ := supersede_active hactive'
        rw [hsame] at hi
        exact absurd hi.symm hother
      · rfl
  · change connection ∈ Function.update p.connections instanceId _ i at hc
    by_cases heq : i = instanceId
    · subst heq
      rw [Function.update_self,Option.mem_some_iff] at hc
      subst hc
      exact List.mem_append_right _ (List.mem_singleton_self _)
    · rw [Function.update_of_ne heq] at hc
      have hlive := hp.live i connection hc
      apply List.mem_append_left
      have hkept : supersede instanceId ⟨connection.sessionId,i,.active,connection.socket⟩ =
          ⟨connection.sessionId,i,.active,connection.socket⟩ := supersede_other heq
      rw [← hkept]
      exact List.mem_map_of_mem hlive
  · change (Function.update p.sockets k _ row.socket).isSome = true
    by_cases heq : row.socket = k
    · rw [heq,Function.update_self]
      rfl
    · rw [Function.update_of_ne heq]
      rcases mem_hello hrow with ⟨old,hold,rfl⟩ | rfl
      · rw [(supersede_same _ _).2.2]
        exact hp.opened old hold
      · exact absurd rfl heq
  · change socket' ∈ Function.update p.sockets k _ k' at hsocket'
    by_cases heq : k' = k
    · subst heq
      rw [Function.update_self,Option.mem_some_iff] at hsocket'
      subst hsocket'
      obtain rfl : ConnectionContext.mk p.nextSession instanceId = context := Option.some.inj hc
      refine ⟨Nat.lt_succ_self _,fun row hrow hid => ?_,fun row hrow hactive _ hinstance => ?_⟩
      · rcases mem_hello hrow with ⟨old,hold,rfl⟩ | rfl
        · rw [(supersede_same _ _).1] at hid
          exact absurd hid (Nat.ne_of_lt (hp.fresh old hold))
        · rfl
      · rcases mem_hello hrow with ⟨old,hold,rfl⟩ | rfl
        · obtain ⟨hother,hsame⟩ := supersede_active hactive
          rw [hsame] at hinstance
          exact absurd hinstance hother
        · rfl
    · rw [Function.update_of_ne heq] at hsocket'
      obtain ⟨hfresh,hinstance,hlatest⟩ := hp.context k' socket' hsocket' context hc
      refine ⟨Nat.lt_succ_of_lt hfresh,fun row hrow hid => ?_,fun row hrow hactive hsocket hi => ?_⟩
      · rcases mem_hello hrow with ⟨old,hold,rfl⟩ | rfl
        · rw [(supersede_same _ _).1] at hid
          rw [(supersede_same _ _).2.1]
          exact hinstance old hold hid
        · exact absurd hid (Nat.ne_of_gt hfresh)
      · rcases mem_hello hrow with ⟨old,hold,rfl⟩ | rfl
        · have hsame := (supersede_active hactive).2
          rw [hsame] at hactive hsocket hi ⊢
          exact hlatest old hold hactive hsocket hi
        · exact absurd hsocket.symm heq

theorem released_hello (hp : Released p) : Released (handleHello k socket instanceId p) := by
  intro row hrow hactive socket' hsocket'
  change socket' ∈ Function.update p.sockets k _ row.socket at hsocket'
  by_cases heq : row.socket = k
  · rw [heq,Function.update_self,Option.mem_some_iff] at hsocket'
    rw [← hsocket']
    nofun
  · rw [Function.update_of_ne heq] at hsocket'
    rcases mem_hello hrow with ⟨old,hold,rfl⟩ | rfl
    · have hsame := (supersede_active hactive).2
      rw [hsame] at hactive hsocket'
      exact hp old hold hactive socket' hsocket'
    · exact absurd rfl heq

theorem closeSession_same (sessionId : ℕ) (row : AgentSession) :
    (closeSession sessionId row).sessionId = row.sessionId ∧
      (closeSession sessionId row).instanceId = row.instanceId ∧
        (closeSession sessionId row).socket = row.socket := by
  unfold closeSession
  split
  · exact ⟨rfl,rfl,rfl⟩
  · exact ⟨rfl,rfl,rfl⟩

theorem closeSession_active {sessionId : ℕ} (h : (closeSession sessionId row).status = .active) :
    row.sessionId ≠ sessionId ∧ closeSession sessionId row = row := by
  unfold closeSession at h ⊢
  split at h
  · cases h
  · next hother =>
      rw [if_neg hother]
      exact ⟨fun hid => hother ⟨hid,h⟩,rfl⟩

theorem closeSession_other {sessionId : ℕ} (h : row.sessionId ≠ sessionId) :
    closeSession sessionId row = row := if_neg fun hboth => h hboth.1

variable {context : ConnectionContext} {act : Act}

theorem unregister_some {connections : ℕ → Option LiveAgentConnection} {i : ℕ}
    {connection : LiveAgentConnection} (h : connection ∈ unregister context connections i) :
    connection ∈ connections i ∧
      ¬(i = context.instanceId ∧ connection.sessionId = context.sessionId) := by
  unfold unregister at h
  cases hcurrent : connections context.instanceId with
  | none =>
    rw [hcurrent] at h
    refine ⟨h,fun hboth => ?_⟩
    rw [hboth.1] at h
    change connections context.instanceId = some connection at h
    rw [hcurrent] at h
    cases h
  | some current =>
    rw [hcurrent] at h
    dsimp only at h
    by_cases hid : current.sessionId = context.sessionId
    · rw [if_pos hid] at h
      by_cases heq : i = context.instanceId
      · rw [heq,Function.update_self] at h
        cases h
      · rw [Function.update_of_ne heq] at h
        exact ⟨h,fun hboth => heq hboth.1⟩
    · rw [if_neg hid] at h
      refine ⟨h,fun hboth => hid ?_⟩
      rw [hboth.1] at h
      change connections context.instanceId = some connection at h
      rw [hcurrent] at h
      rw [Option.some.inj h]
      exact hboth.2

def closeContext (context : ConnectionContext) (p : Plane) : Plane :=
  {p with
    connections := unregister context p.connections
    sessions := p.sessions.map (closeSession context.sessionId)}

theorem finish_some (hsend : socket.sendFailed = false) (hdb : socket.dbFailed = false)
    (hcontext : socket.context = some context) :
    finish k socket p = closeContext context (setSocket p k {socket with phase := .closed}) := by
  rw [finish,hsend,hcontext]
  simp only [hdb,Bool.false_eq_true,if_false]
  rfl

/-- Otherwise the sessions stay as they are. -/
theorem finish_left (h : ¬(socket.sendFailed = false ∧ socket.dbFailed = false ∧
    ∃ context, socket.context = some context)) :
    finish k socket p = setSocket p k {socket with phase := .closed} ∨
      ∃ context, finish k socket p =
        {setSocket p k {socket with phase := .closed} with
          connections := unregister context p.connections} := by
  rw [finish]
  split
  · next context hsend hcontext =>
      have hdb : socket.dbFailed = true := by
        by_contra hdb
        exact h ⟨hsend,Bool.not_eq_true _ ▸ hdb,context,hcontext⟩
      rw [if_pos hdb]
      exact .inr ⟨context,rfl⟩
  · exact .inl rfl

theorem sound_unregister (hp : Sound p) (context : ConnectionContext) :
    Sound {p with connections := unregister context p.connections} where
  fresh := hp.fresh
  unique := hp.unique
  single := hp.single
  live i connection hc := hp.live i connection (unregister_some hc).1
  opened := hp.opened
  context := hp.context

theorem mem_close (h : row ∈ (closeContext context p).sessions) :
    ∃ old ∈ p.sessions, row = closeSession context.sessionId old := by
  obtain ⟨old,hold,rfl⟩ := List.mem_map.mp h
  exact ⟨old,hold,rfl⟩

theorem sound_close (hp : Sound p) (hk : socket ∈ p.sockets k)
    (hcontext : context ∈ socket.context) : Sound (closeContext context p) := by
  refine ⟨fun row hrow => ?_,?_,fun row hrow row' hrow' hactive hactive' hi => ?_,
    fun i connection hc => ?_,fun row hrow => ?_,fun k' socket' hsocket' context' hc => ?_⟩
  · obtain ⟨old,hold,rfl⟩ := mem_close hrow
    rw [(closeSession_same _ _).1]
    exact hp.fresh old hold
  · have hids : (p.sessions.map (closeSession context.sessionId)).map AgentSession.sessionId =
        p.sessions.map AgentSession.sessionId := by
      rw [List.map_map]
      exact List.map_congr_left fun row _ => (closeSession_same _ _).1
    change ((p.sessions.map (closeSession context.sessionId)).map AgentSession.sessionId).Nodup
    rw [hids]
    exact hp.unique
  · obtain ⟨old,hold,rfl⟩ := mem_close hrow
    obtain ⟨old',hold',rfl⟩ := mem_close hrow'
    obtain ⟨-,hsame⟩ := closeSession_active hactive
    obtain ⟨-,hsame'⟩ := closeSession_active hactive'
    rw [hsame] at hactive hi ⊢
    rw [hsame'] at hactive' hi ⊢
    exact hp.single old hold old' hold' hactive hactive' hi
  · obtain ⟨hold,hnot⟩ := unregister_some hc
    have hlive := hp.live i connection hold
    have hid : connection.sessionId ≠ context.sessionId := by
      intro hid
      exact hnot ⟨(hp.context k socket hk context hcontext).2.1 _ hlive hid,hid⟩
    have hkept : closeSession context.sessionId ⟨connection.sessionId,i,.active,connection.socket⟩ =
        ⟨connection.sessionId,i,.active,connection.socket⟩ := closeSession_other hid
    rw [← hkept]
    exact List.mem_map_of_mem hlive
  · obtain ⟨old,hold,rfl⟩ := mem_close hrow
    rw [(closeSession_same _ _).2.2]
    exact hp.opened old hold
  · obtain ⟨hfresh,hinstance,hlatest⟩ := hp.context k' socket' hsocket' context' hc
    refine ⟨hfresh,fun row hrow hid => ?_,fun row hrow hactive hsocket hi => ?_⟩
    · obtain ⟨old,hold,rfl⟩ := mem_close hrow
      rw [(closeSession_same _ _).1] at hid
      rw [(closeSession_same _ _).2.1]
      exact hinstance old hold hid
    · obtain ⟨old,hold,rfl⟩ := mem_close hrow
      have hsame := (closeSession_active hactive).2
      rw [hsame] at hactive hsocket hi ⊢
      exact hlatest old hold hactive hsocket hi

theorem released_finish (hp : Sound p) (hreleased : Released p) (hk : socket ∈ p.sockets k) :
    Released (finish k socket p) ↔ EndsClean p (.finish k) := by
  have hclosed : ∀ row ∈ p.sessions, row.socket ≠ k → row.status = .active →
      ∀ socket' ∈ Function.update p.sockets k (some {socket with phase := .closed}) row.socket,
        socket'.phase ≠ .closed := by
    intro row hrow hne hactive socket' hsocket'
    rw [Function.update_of_ne hne] at hsocket'
    exact hreleased row hrow hactive socket' hsocket'
  have hself : ∀ row : AgentSession, row.socket = k →
      {socket with phase := .closed} ∈
        Function.update p.sockets k (some {socket with phase := .closed}) row.socket := by
    intro row hrow
    rw [hrow,Function.update_self]
    rfl
  by_cases hend : socket.sendFailed = false ∧ socket.dbFailed = false ∧
      ∃ context, socket.context = some context
  · obtain ⟨hsend,hdb,context,hcontext⟩ := hend
    obtain ⟨-,hinstance,hlatest⟩ := hp.context k socket hk context hcontext
    rw [finish_some hsend hdb hcontext]
    constructor
    · intro h row hrow hactive hsocket
      refine ⟨socket,hk,hsend,hdb,context,hcontext,?_⟩
      by_contra hother
      have hid : row.sessionId ≠ context.sessionId := fun hid => hother (hinstance row hrow hid)
      have hmem : row ∈ (closeContext context
          (setSocket p k {socket with phase := .closed})).sessions := by
        rw [← closeSession_other hid]
        exact List.mem_map_of_mem hrow
      exact h row hmem hactive _ (hself row hsocket) rfl
    · intro h row hrow hactive socket' hsocket'
      obtain ⟨old,hold,rfl⟩ := mem_close hrow
      obtain ⟨hid,hsame⟩ := closeSession_active hactive
      rw [hsame] at hactive hsocket'
      by_cases hsocket : old.socket = k
      · obtain ⟨socket'',hk',-,-,context',hcontext',hi⟩ := h old hold hactive hsocket
        obtain rfl := Option.mem_unique hk hk'
        obtain rfl := Option.mem_unique hcontext hcontext'
        exact absurd (hlatest old hold hactive hsocket hi) hid
      · exact hclosed old hold hsocket hactive socket' hsocket'
  · have hsessions : (finish k socket p).sessions = p.sessions ∧ (finish k socket p).sockets =
        Function.update p.sockets k (some {socket with phase := .closed}) := by
      rcases finish_left (k := k) (p := p) hend with hleft | ⟨context,hleft⟩
      · rw [hleft]
        exact ⟨rfl,rfl⟩
      · rw [hleft]
        exact ⟨rfl,rfl⟩
    unfold Released
    rw [hsessions.1,hsessions.2]
    constructor
    · intro h row hrow hactive hsocket
      exact (h row hrow hactive _ (hself row hsocket) rfl).elim
    · intro h row hrow hactive socket' hsocket'
      by_cases hsocket : row.socket = k
      · obtain ⟨socket'',hk',hsend,hdb,context,hcontext,-⟩ := h row hrow hactive hsocket
        obtain rfl := Option.mem_unique hk hk'
        exact absurd ⟨hsend,hdb,context,hcontext⟩ hend
      · exact hclosed row hrow hsocket hactive socket' hsocket'

theorem sound_finish (hp : Sound p) (hk : socket ∈ p.sockets k) : Sound (finish k socket p) := by
  have hset : Sound (setSocket p k {socket with phase := .closed}) :=
    sound_setSocket hp fun context hc => ⟨socket,hk,hc⟩
  by_cases hend : socket.sendFailed = false ∧ socket.dbFailed = false ∧
      ∃ context, socket.context = some context
  · obtain ⟨hsend,hdb,context,hcontext⟩ := hend
    rw [finish_some hsend hdb hcontext]
    have hself : (setSocket p k {socket with phase := .closed}).sockets k =
        some {socket with phase := .closed} := Function.update_self _ _ _
    exact sound_close hset hself hcontext
  · rcases finish_left (k := k) (p := p) hend with hleft | ⟨context,hleft⟩
    · rw [hleft]
      exact hset
    · rw [hleft]
      exact sound_unregister hset context

theorem step_socket (h : performSocket p k socket act = some q) :
    (∃ socket', q = setSocket p k socket' ∧ socket'.context = socket.context ∧
        socket'.phase ≠ .closed ∧ ∀ k, act ≠ .finish k) ∨
      (∃ k' i, act = .hello k' i ∧ q = handleHello k socket i p) ∨
      ∃ k', act = .finish k' ∧ q = finish k socket p := by
  cases act with
  | «open» k' => cases h
  | hello k' i =>
    rw [performSocket] at h
    split at h
    · exact .inr (.inl ⟨k',i,rfl,(Option.some.inj h).symm⟩)
    · cases h
  | frame k' =>
    rw [performSocket] at h
    split at h
    · exact .inl ⟨_,(Option.some.inj h).symm,rfl,nofun,nofun⟩
    · cases h
  | handled k' =>
    rw [performSocket] at h
    split at h
    · exact .inl ⟨_,(Option.some.inj h).symm,rfl,nofun,nofun⟩
    · cases h
  | leave k' =>
    rw [performSocket] at h
    split at h
    · exact .inl ⟨_,(Option.some.inj h).symm,rfl,nofun,nofun⟩
    · cases h
  | sendRaises k' =>
    rw [performSocket] at h
    split at h
    · cases h
    · next hopen => exact .inl ⟨_,(Option.some.inj h).symm,rfl,hopen,nofun⟩
  | dbRaises k' =>
    rw [performSocket] at h
    split at h
    · exact .inl ⟨_,(Option.some.inj h).symm,rfl,nofun,nofun⟩
    · cases h
  | finish k' =>
    rw [performSocket] at h
    split at h
    · exact .inr (.inr ⟨k',rfl,(Option.some.inj h).symm⟩)
    · cases h

theorem step_cases (h : perform p act = some q) :
    (∃ k, act = .open k ∧ p.sockets k = none ∧ q = setSocket p k {}) ∨
      ∃ socket ∈ p.sockets act.socket, performSocket p act.socket socket act = some q := by
  unfold perform at h
  split at h
  · next hnone => exact .inl ⟨_,rfl,hnone,(Option.some.inj h).symm⟩
  · cases h
  · next socket hsome => exact .inr ⟨socket,hsome,h⟩

theorem sound_step (hp : Sound p) (h : perform p act = some q) : Sound q := by
  rcases step_cases h with ⟨k,rfl,-,rfl⟩ | ⟨socket,hk,hstep⟩
  · exact sound_setSocket hp nofun
  · rcases step_socket hstep with ⟨socket',rfl,hcontext,-⟩ | ⟨k',i,rfl,rfl⟩ | ⟨k',rfl,rfl⟩
    · apply sound_setSocket hp
      rw [hcontext]
      exact fun context hc => ⟨socket,hk,hc⟩
    · exact sound_hello hp hk
    · exact sound_finish hp hk

/-- All stays released exactly if a step ends clean. -/
theorem released_step (hp : Sound p) (hreleased : Released p) (h : perform p act = some q) :
    Released q ↔ EndsClean p act := by
  rcases step_cases h with ⟨k,rfl,-,rfl⟩ | ⟨socket,hk,hstep⟩
  · exact iff_of_true (released_setSocket hreleased nofun) trivial
  · rcases step_socket hstep with ⟨socket',rfl,-,hopen,hfinish⟩ | ⟨k',i,rfl,rfl⟩ | ⟨k',rfl,rfl⟩
    · refine iff_of_true (released_setSocket hreleased hopen) ?_
      cases act with
      | finish k => exact absurd rfl (hfinish k)
      | «open» k => trivial
      | hello k i => trivial
      | frame k => trivial
      | handled k => trivial
      | leave k => trivial
      | sendRaises k => trivial
      | dbRaises k => trivial
    · exact iff_of_true (released_hello hreleased) trivial
    · exact released_finish hp hreleased hk

/-- Over any interleaving of the sockets, there is one active session of an instance at most,
and no dead route or session is left, exactly if every task ends clean. -/
theorem sessions_clean_iff (acts : List Act) :
    Throughout perform Clean {} acts ↔ EachStep perform EndsClean {} acts := by
  apply throughout_iff (J := Sound)
  · exact fun p act q hp h => sound_step hp h
  · intro p act q hp hclean h
    rw [clean_iff (sound_step hp h)]
    exact released_step hp hclean.2.2 h
  · exact sound_empty
  · rw [clean_iff sound_empty]
    exact nofun

end Steps

section Example

/-- A socket says hello for two instances and is gone. -/
def twoHellos : List Act := [
  .open 0,
  .hello 0 0,
  .handled 0,
  .hello 0 1,
  .handled 0,
  .leave 0,
  .finish 0]

/-- The database refuses what a heartbeat is to write. -/
def refusedHeartbeat : List Act := [
  .open 0,
  .hello 0 0,
  .handled 0,
  .frame 0,
  .dbRaises 0,
  .finish 0]

/-- Both runs leave an active row behind a closed socket. -/
theorem sessions_left :
    (∃ p, runs perform (fun _ _ => true) {} twoHellos = some p ∧
      p.sessions = [⟨0,0,.active,0⟩,⟨1,1,.disconnected,0⟩] ∧ p.connections 0 = some ⟨0,0⟩ ∧
        (p.sockets 0).map Socket.phase = some .closed) ∧
    ∃ p, runs perform (fun _ _ => true) {} refusedHeartbeat = some p ∧
      p.sessions = [⟨0,0,.active,0⟩] ∧ p.connections 0 = none ∧
        (p.sockets 0).map Socket.phase = some .closed :=
  ⟨⟨_,rfl,rfl,rfl,rfl⟩,⟨_,rfl,rfl,rfl,rfl⟩⟩

end Example

end OneStep.AgentSessions
