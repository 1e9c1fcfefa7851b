import OneStep.WorkerAgent

/-!
# One process per deployment and one slot per process

Between commands the reserved slots are those of the children that run, exactly as long as
no start finds its deployment running, and no acknowledgement raises once a slot is taken.
-/
namespace OneStep.WorkerSlots
open Coroutine Transition WorkerAgent

section Slots

inductive Act where
  | command (faults : Faults) (command : Command)
  | restartAgent

variable (maxConcurrentDeployments : ℕ)

/-- A command is handled on a connection that is open. -/
def perform (agent : Agent) : Act → Option Agent
  | .command faults command =>
    some ((handleControlMessage maxConcurrentDeployments faults command).run (agent.link true)).state
  | .restartAgent => some (recoverRunningDeployments maxConcurrentDeployments agent)

structure OneProcess (agent : Agent) : Prop where
  one : (agent.live.map Prod.fst).Nodup
  slots : ∀ deploymentId, deploymentId ∈ agent.live.map Prod.fst ↔ deploymentId ∈ agent.reserved
  stops : ∀ child ∈ agent.live, child ∉ (stop child.1 agent).live
  capacity : agent.live.length ≤ maxConcurrentDeployments

/-- A start of a running deployment does not get past its acknowledgement, and any other
that gets a slot does. -/
def Clean (agent : Agent) : Act → Prop
  | .command faults command =>
    match command.kind with
    | .startDeployment =>
      if command.deploymentId ∈ agent.reserved then faults.raised .ack ≠ none
      else maxConcurrentDeployments ≤ agent.reserved.length ∨ faults.raised .ack = none
    | .restartDeployment =>
      command.deploymentId ∉ agent.reserved ∧ maxConcurrentDeployments ≤ agent.reserved.length ∨
        faults.raised .ack = none
    | .stopDeployment => True
  | .restartAgent => True

/-- What holds between commands, with the state file. -/
structure Settled (agent : Agent) : Prop extends Supervised agent where
  slots : ∀ deploymentId ∈ agent.reserved, agent.Alive deploymentId
  distinct : agent.reserved.Nodup
  capacity : agent.reserved.length ≤ maxConcurrentDeployments
  states : agent.states.Perm agent.live

/-- A slot is taken for a deployment that has no process yet. -/
structure Pending (deploymentId : String) (agent : Agent) : Prop extends Supervised agent where
  slots : ∀ other ∈ agent.reserved, other = deploymentId ∨ agent.Alive other
  distinct : agent.reserved.Nodup
  capacity : agent.reserved.length ≤ maxConcurrentDeployments
  states : agent.states.Perm agent.live
  held : deploymentId ∈ agent.reserved
  dead : ¬agent.Alive deploymentId

variable {maxConcurrentDeployments : ℕ} {agent : Agent} {deploymentId : String}

theorem Settled.perm (h : Settled maxConcurrentDeployments agent) :
    (agent.live.map Prod.fst).Perm agent.reserved := by
  rw [List.perm_ext_iff_of_nodup h.one h.distinct]
  intro id
  rw [← alive_iff]
  refine ⟨?_,h.slots id⟩
  rintro ⟨pid,hmem⟩
  exact h.reserved _ hmem

theorem oneProcess_of_settled (h : Settled maxConcurrentDeployments agent) :
    OneProcess maxConcurrentDeployments agent := by
  refine ⟨h.one,fun id => h.perm.mem_iff,fun child hchild hmem => ?_,?_⟩
  · rw [live_stop child.1 h.toSupervised] at hmem
    exact of_decide_eq_true (List.mem_filter.mp hmem).2 rfl
  · have hlength := h.perm.length_eq
    rw [List.length_map] at hlength
    rw [hlength]
    exact h.capacity

theorem settled_link (connected : Bool) (h : Settled maxConcurrentDeployments agent) :
    Settled maxConcurrentDeployments (agent.link connected) :=
  {supervised_link connected h.toSupervised with
    slots := h.slots
    distinct := h.distinct
    capacity := h.capacity
    states := h.states}

theorem pending_reserve {reserved : Agent} (h : Settled maxConcurrentDeployments agent)
    (hnew : deploymentId ∉ agent.reserved)
    (hreserve : reserveSlot maxConcurrentDeployments deploymentId agent = some reserved) :
    Pending maxConcurrentDeployments deploymentId reserved := by
  obtain ⟨hsupervised,hlive,hheld⟩ := supervised_reserve h.toSupervised hreserve
  rw [reserveSlot,if_neg hnew] at hreserve
  split at hreserve
  · cases hreserve
  · next hfull =>
      cases hreserve
      refine {hsupervised with
        slots := fun other hother => ?_
        distinct := List.nodup_cons.mpr ⟨hnew,h.distinct⟩
        capacity := Nat.lt_of_not_le hfull
        states := h.states
        held := hheld
        dead := ?_}
      · rcases List.mem_cons.mp hother with heq | hold
        · exact .inl heq
        · exact .inr (h.slots other hold)
      · rintro ⟨pid,hmem⟩
        exact hnew (h.reserved _ hmem)

theorem Pending.states_other (h : Pending maxConcurrentDeployments deploymentId agent) :
    removeState deploymentId agent.states = agent.states := by
  refine List.filter_eq_self.mpr fun state hstate => decide_eq_true ?_
  rintro rfl
  exact h.dead ⟨state.2,h.states.subset hstate⟩

theorem settled_release (h : Pending maxConcurrentDeployments deploymentId agent) :
    Settled maxConcurrentDeployments (releaseSlot deploymentId agent) := by
  refine {supervised_release h.toSupervised h.dead with
    slots := fun other hother => ?_
    distinct := h.distinct.sublist List.filter_sublist
    capacity := Nat.le_trans (List.length_filter_le _ _) h.capacity
    states := ?_}
  · obtain ⟨hmem,hne⟩ := List.mem_filter.mp hother
    rcases h.slots other hmem with heq | halive
    · exact absurd heq (of_decide_eq_true hne)
    · exact halive
  · change (removeState deploymentId agent.states).Perm agent.live
    rw [h.states_other]
    exact h.states

theorem settled_spawn (h : Pending maxConcurrentDeployments deploymentId agent) :
    Settled maxConcurrentDeployments (spawn deploymentId agent) := by
  refine {supervised_spawn h.toSupervised h.dead h.held with
    slots := fun other hother => ?_
    distinct := h.distinct
    capacity := h.capacity
    states := ?_}
  · rcases h.slots other hother with rfl | ⟨pid,hmem⟩
    · exact ⟨agent.nextPid,List.mem_append_right _ (List.mem_singleton.mpr rfl)⟩
    · exact ⟨pid,List.mem_append_left _ hmem⟩
  · change (upsertState deploymentId agent.nextPid agent.states).Perm _
    rw [upsertState,h.states_other]
    exact (List.mergeSort_perm _ _).trans (h.states.append_right _)

theorem reserved_stop (deploymentId : String) (agent : Agent) :
    (stop deploymentId agent).reserved = agent.reserved.filter (· ≠ deploymentId) ∧
      (stop deploymentId agent).states = removeState deploymentId agent.states := by
  rw [stop_eq]
  cases agent.target deploymentId <;> exact ⟨rfl,rfl⟩

theorem settled_stop (deploymentId : String) (h : Settled maxConcurrentDeployments agent) :
    Settled maxConcurrentDeployments (stop deploymentId agent) := by
  obtain ⟨hreserved,hstates⟩ := reserved_stop deploymentId agent
  have hlive := live_stop deploymentId h.toSupervised
  refine {supervised_stop deploymentId h.toSupervised with
    slots := fun other hother => ?_
    distinct := ?_
    capacity := ?_
    states := ?_}
  · rw [hreserved] at hother
    obtain ⟨hmem,hne⟩ := List.mem_filter.mp hother
    obtain ⟨pid,hpid⟩ := h.slots other hmem
    refine ⟨pid,?_⟩
    rw [hlive]
    exact List.mem_filter.mpr ⟨hpid,hne⟩
  · rw [hreserved]
    exact h.distinct.sublist List.filter_sublist
  · rw [hreserved]
    exact Nat.le_trans (List.length_filter_le _ _) h.capacity
  · rw [hstates,hlive]
    exact h.states.filter _

/-- The supervisor after some of the states, of which all processes run. -/
structure Recovered (agent : Agent) (done : List (String × ℕ)) (u : Agent) : Prop where
  reserved : u.reserved = (done.map Prod.fst).reverse
  processes : u.processes = fun _ => none
  external : ∀ deploymentId pid, u.externalPids deploymentId = some pid ↔ (deploymentId,pid) ∈ done
  live : u.live = agent.live
  states : u.states = agent.states
  nextPid : u.nextPid = agent.nextPid

theorem recovered_step {done : List (String × ℕ)} {u : Agent} {state : String × ℕ}
    (h : Recovered agent done u) (halive : state ∈ agent.live)
    (hnew : state.1 ∉ done.map Prod.fst) (hroom : done.length < maxConcurrentDeployments) :
    Recovered agent (done++[state]) (recoverState maxConcurrentDeployments u state) := by
  have hany : (u.live.any fun child => child.2 = state.2) = true := by
    rw [h.live,List.any_eq_true]
    exact ⟨state,halive,decide_eq_true rfl⟩
  have hfree : state.1 ∉ u.reserved := by
    rw [h.reserved,List.mem_reverse]
    exact hnew
  have hslot : reserveSlot maxConcurrentDeployments state.1 u =
      some {u with reserved := state.1::u.reserved} := by
    rw [reserveSlot,if_neg hfree,if_neg]
    rw [h.reserved,List.length_reverse,List.length_map]
    exact Nat.not_le_of_lt hroom
  rw [recoverState,if_pos hany,hslot]
  refine ⟨?_,h.processes,fun id pid => ?_,h.live,h.states,h.nextPid⟩
  · rw [h.reserved,List.map_append,List.reverse_append]
    rfl
  · change Function.update u.externalPids state.1 (some state.2) id = some pid ↔ _
    rw [List.mem_append,List.mem_singleton]
    by_cases heq : id = state.1
    · rw [heq,Function.update_self,Option.some.injEq]
      constructor
      · rintro rfl
        exact .inr rfl
      · rintro (hmem | hlast)
        · exact absurd (List.mem_map_of_mem hmem) hnew
        · exact (congrArg Prod.snd hlast).symm
    · rw [Function.update_of_ne heq]
      refine (h.external id pid).trans ⟨.inl,?_⟩
      rintro (hmem | hlast)
      · exact hmem
      · exact absurd (congrArg Prod.fst hlast) heq

theorem recovered_all {done rest : List (String × ℕ)} {u : Agent} (h : Recovered agent done u)
    (halive : ∀ state ∈ rest, state ∈ agent.live)
    (hdistinct : ((done++rest).map Prod.fst).Nodup)
    (hroom : (done++rest).length ≤ maxConcurrentDeployments) :
    Recovered agent (done++rest) (rest.foldl (recoverState maxConcurrentDeployments) u) := by
  induction rest generalizing done u with
  | nil =>
    rw [List.append_nil]
    exact h
  | cons state rest ih =>
    rw [List.append_cons] at hdistinct hroom ⊢
    refine ih (recovered_step h (halive state List.mem_cons_self) ?_ ?_)
      (fun other hother => halive other (List.mem_cons_of_mem _ hother)) hdistinct hroom
    · rw [List.map_append,List.map_append,List.append_assoc] at hdistinct
      intro hmem
      exact (List.nodup_append.mp hdistinct).2.2 _ hmem _ (List.mem_append_left _
        (List.mem_singleton.mpr rfl)) rfl
    · rw [List.length_append,List.length_append] at hroom
      exact Nat.lt_of_lt_of_le (Nat.lt_succ_self _) (Nat.le_trans (Nat.le_add_right _ _) hroom)

theorem settled_recover (h : Settled maxConcurrentDeployments agent) :
    Settled maxConcurrentDeployments (recoverRunningDeployments maxConcurrentDeployments agent) := by
  have hids : (agent.states.map Prod.fst).Nodup := (h.states.map Prod.fst).nodup_iff.mpr h.one
  have hlength : agent.states.length ≤ maxConcurrentDeployments := by
    rw [h.states.length_eq]
    exact (oneProcess_of_settled h).capacity
  have hstart : Recovered agent [] {agent with
      reserved := []
      processes := fun _ => none
      externalPids := fun _ => none} :=
    ⟨rfl,rfl,fun _ _ => iff_of_false nofun List.not_mem_nil,rfl,rfl,rfl⟩
  have hall := recovered_all hstart (fun state hstate => h.states.subset hstate) hids hlength
  rw [List.nil_append] at hall
  change Recovered agent agent.states (recoverRunningDeployments maxConcurrentDeployments agent) at hall
  have hreserved : ∀ id, id ∈ (recoverRunningDeployments maxConcurrentDeployments agent).reserved ↔
      agent.Alive id := by
    intro id
    rw [hall.reserved,List.mem_reverse,alive_iff]
    exact (h.states.map Prod.fst).mem_iff
  constructor
  · refine ⟨?_,fun child hchild => ?_,fun id pid => ?_,fun child hchild => ?_⟩
    · rw [hall.live]
      exact h.pids
    · rw [hall.live] at hchild
      rw [hall.nextPid]
      exact h.fresh child hchild
    · rw [hall.live,Agent.target,hall.processes,Option.none_or,hall.external]
      exact h.states.mem_iff
    · rw [hall.live] at hchild
      exact (hreserved child.1).mpr ⟨child.2,hchild⟩
  · intro id hid
    obtain ⟨pid,hpid⟩ := (hreserved id).mp hid
    refine ⟨pid,?_⟩
    rw [hall.live]
    exact hpid
  · rw [hall.reserved,List.nodup_reverse]
    exact hids
  · rw [hall.reserved,List.length_reverse,List.length_map]
    exact hlength
  · rw [hall.states,hall.live]
    exact h.states

variable {faults : Faults} {command : Command}

theorem start_fresh (h : Settled maxConcurrentDeployments agent)
    (hconnected : agent.connected = true) (hnew : command.deploymentId ∉ agent.reserved) :
    Leaves (startDeployment maxConcurrentDeployments faults command) agent fun _ t =>
      (maxConcurrentDeployments ≤ agent.reserved.length ∨ faults.raised .ack = none →
        Settled maxConcurrentDeployments t) ∧
      (OneProcess maxConcurrentDeployments t →
        maxConcurrentDeployments ≤ agent.reserved.length ∨ faults.raised .ack = none) := by
  apply leaves_startDeployment hconnected
  · intro hnone r connected
    refine ⟨fun _ => settled_link connected h,fun _ => .inl ?_⟩
    rw [reserveSlot,if_neg hnew] at hnone
    split at hnone
    · next hfull => exact hfull
    · cases hnone
  · intro reserved fault hreserve hack
    have hpending := pending_reserve h hnew hreserve
    constructor
    · rintro (hfull | hnone)
      · rw [reserveSlot,if_neg hnew,if_pos hfull] at hreserve
        cases hreserve
      · rw [hack] at hnone
        cases hnone
    · intro hone
      exact absurd (alive_iff.mpr ((hone.slots _).mpr hpending.held)) hpending.dead
  · intro reserved hreserve hack r connected
    exact ⟨fun _ => settled_link _ (settled_spawn (pending_reserve h hnew hreserve)),fun _ => .inr hack⟩
  · intro reserved hreserve hack r connected
    exact ⟨fun _ => settled_link _ (settled_release (pending_reserve h hnew hreserve)),fun _ => .inr hack⟩

/-- A start of a running deployment ends well only if its acknowledgement raises. -/
theorem start_running (h : Settled maxConcurrentDeployments agent)
    (hconnected : agent.connected = true) (hheld : command.deploymentId ∈ agent.reserved) :
    Leaves (startDeployment maxConcurrentDeployments faults command) agent fun _ t =>
      (faults.raised .ack ≠ none → Settled maxConcurrentDeployments t) ∧
      (OneProcess maxConcurrentDeployments t → faults.raised .ack ≠ none) := by
  have halive : command.deploymentId ∈ agent.live.map Prod.fst := h.perm.mem_iff.mpr hheld
  have hsame := @reserve_held maxConcurrentDeployments agent _ hheld
  apply leaves_startDeployment hconnected
  · intro hnone
    rw [hsame] at hnone
    cases hnone
  · intro reserved fault hreserve hack
    rw [hsame] at hreserve
    cases hreserve
    rw [hack]
    exact ⟨fun _ => settled_link _ h,fun _ => nofun⟩
  · intro reserved hreserve hack r connected
    rw [hsame] at hreserve
    cases hreserve
    refine ⟨fun hraised => absurd hack hraised,fun hone => ?_⟩
    have hnodup := hone.one
    change ((agent.live++[(command.deploymentId,agent.nextPid)]).map Prod.fst).Nodup at hnodup
    rw [List.map_append,List.nodup_append] at hnodup
    exact absurd rfl (hnodup.2.2 _ halive _ (List.mem_singleton.mpr rfl))
  · intro reserved hreserve hack r connected
    rw [hsame] at hreserve
    cases hreserve
    refine ⟨fun hraised => absurd hack hraised,fun hone => ?_⟩
    have hmem := (hone.slots command.deploymentId).mp halive
    exact absurd rfl (of_decide_eq_true (List.mem_filter.mp hmem).2)

/-- A clean command keeps the slots settled. -/
theorem command_step (h : Settled maxConcurrentDeployments agent) :
    Leaves (handleControlMessage maxConcurrentDeployments faults command) (agent.link true) fun _ t =>
      (Clean maxConcurrentDeployments agent (.command faults command) →
        Settled maxConcurrentDeployments t) ∧
      (OneProcess maxConcurrentDeployments t →
        Clean maxConcurrentDeployments agent (.command faults command)) := by
  have hlink := settled_link true h
  obtain ⟨commandId,deploymentId,kind⟩ := command
  cases kind with
  | startDeployment =>
    change Leaves (startDeployment _ _ _) _ fun _ t =>
      ((if deploymentId ∈ agent.reserved then _ else _) → _) ∧
        (_ → if deploymentId ∈ agent.reserved then _ else _)
    by_cases hheld : deploymentId ∈ agent.reserved
    · rw [if_pos hheld]
      exact start_running hlink rfl hheld
    · rw [if_neg hheld]
      exact start_fresh hlink rfl hheld
  | stopDeployment =>
    apply leaves_handleStop
    · exact fun r connected => ⟨fun _ => settled_link connected hlink,fun _ => trivial⟩
    · intro r connected
      rw [stop_link]
      exact ⟨fun _ => settled_link _ (settled_link _ (settled_stop _ h)),fun _ => trivial⟩
  | restartDeployment =>
    change Leaves (assign (stop deploymentId) >>= _) _ _
    rw [leaves_bind,leaves_assign,stop_link]
    obtain ⟨hreserved,-⟩ := reserved_stop deploymentId agent
    have hstopped := settled_link true (settled_stop deploymentId h)
    have hgone : deploymentId ∉ ((stop deploymentId agent).link true).reserved := by
      change deploymentId ∉ (stop deploymentId agent).reserved
      rw [hreserved]
      exact fun hmem => of_decide_eq_true (List.mem_filter.mp hmem).2 rfl
    have hroom : maxConcurrentDeployments ≤ (stop deploymentId agent).reserved.length ↔
        deploymentId ∉ agent.reserved ∧ maxConcurrentDeployments ≤ agent.reserved.length := by
      rw [hreserved]
      by_cases hheld : deploymentId ∈ agent.reserved
      · refine iff_of_false ?_ fun hboth => hboth.1 hheld
        rw [Nat.not_le]
        refine Nat.lt_of_lt_of_le (List.length_filter_lt_length_iff_exists.mpr ?_) h.capacity
        exact ⟨deploymentId,hheld,by simp⟩
      · have hsame : agent.reserved.filter (· ≠ deploymentId) = agent.reserved := by
          refine List.filter_eq_self.mpr fun other hother => decide_eq_true ?_
          rintro rfl
          exact hheld hother
        rw [hsame]
        exact ⟨fun hfull => ⟨hheld,hfull⟩,And.right⟩
    unfold Clean
    dsimp only
    rw [← hroom]
    exact start_fresh hstopped rfl hgone

/-- Over any sequence of commands and restarts of the agent, the children that run are one
for each reserved slot, and each is the one that a stop terminates, exactly if every start
is clean. -/
theorem one_process_iff (maxConcurrentDeployments : ℕ) (acts : List Act) :
    Throughout (perform maxConcurrentDeployments) (OneProcess maxConcurrentDeployments) {} acts ↔
      EachStep (perform maxConcurrentDeployments) (Clean maxConcurrentDeployments) {} acts := by
  apply throughout_iff_kept (J := Settled maxConcurrentDeployments)
  · exact fun agent h => oneProcess_of_settled h
  · intro agent act t h hstep hclean
    cases act with
    | command faults command =>
      cases hstep
      exact (command_step h).1 hclean
    | restartAgent =>
      cases hstep
      exact settled_recover h
  · intro agent act t h hstep hone
    cases act with
    | command faults command =>
      cases hstep
      exact (command_step h).2 hone
    | restartAgent => trivial
  · exact {
      pids := List.nodup_nil
      fresh := fun _ hmem => absurd hmem List.not_mem_nil
      target := fun _ _ => iff_of_false nofun List.not_mem_nil
      reserved := fun _ hmem => absurd hmem List.not_mem_nil
      slots := fun _ hmem => absurd hmem List.not_mem_nil
      distinct := List.nodup_nil
      capacity := Nat.zero_le _
      states := .refl _}

/-- A start that comes again while its deployment runs. -/
theorem started_twice : ∃ agent, runs (perform 2) (fun _ _ => true) {} [
      .command {} ⟨"c","d",.startDeployment⟩,
      .command {} ⟨"c","d",.startDeployment⟩] = some agent ∧
    agent.live = [("d",1),("d",2)] ∧ agent.reserved = ["d"] ∧
      (stop "d" agent).live = [("d",1)] ∧ ¬OneProcess 2 agent :=
  ⟨_,rfl,rfl,rfl,rfl,fun h => absurd h.one (by decide)⟩

end Slots

end OneStep.WorkerSlots
