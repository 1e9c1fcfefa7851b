import OneStep.AgentProcess

/-!
# The execution of accepted commands

A receipt is stored before the acknowledgement is sent and the task is created after it, so
the two agree as long as no such send raises.
-/
namespace OneStep.CommandExecution
open AgentCommands AgentProcess Transition

section Acceptance

/-- The send of the first acknowledgement of an accepted command raises. -/
def AcceptanceRaises (s : World) : Act → Prop
  | .receive i supported _ => supported = true ∧ s.connection = none ∧
      ∃ frame, s.toAgent[i]? = some frame ∧ s.receipts frame.2.commandId = none
  | .raises i => ∃ item command, s.sending[i]? = some item ∧ item.purpose = .accept command
  | _ => False

/-- What was recorded as accepted has its task, or will have it once a send returns. -/
def Executed (s : World) : Prop := ∀ commandId ∈ s.recorded, commandId ∈ s.created++awaited s

def Promised (s : World) : Prop :=
  ∀ commandId receipt, s.receipts commandId = some receipt → receipt.ack.status = .accepted →
    commandId ∈ s.created++awaited s

variable {setting : Setting} {s t : World} {item : Sending}

theorem executed_of_promised (hs : Sound setting s) (h : Promised s) : Executed s := by
  intro commandId hid
  obtain ⟨receipt,hreceipt,hstatus⟩ := hs.recorded commandId hid
  exact h commandId receipt hreceipt hstatus

theorem promised_startSend (purpose : Purpose) (frame : PlaneFrame) (h : Promised s) :
    Promised (startSend purpose frame s) := by
  rcases startSend_cases purpose frame s with ⟨-,hsame⟩ | ⟨k,-,hsend⟩
  · rw [hsame]
    exact h
  · rw [hsend]
    intro commandId receipt hreceipt hstatus
    rw [awaited_append,← List.append_assoc]
    exact List.mem_append_left _ (h commandId receipt hreceipt hstatus)

theorem promised_store {commandId : String} {receipt : Receipt} (h : Promised s)
    (hreceipt : receipt.ack.status = .accepted → commandId ∈ s.created++awaited s) :
    Promised (storeReceipt commandId receipt s) := by
  intro other receipt' hother hstatus
  by_cases heq : other = commandId
  · subst heq
    have hsame : some receipt' = some receipt := hother.symm.trans (Function.update_self _ _ _)
    cases hsame
    exact hreceipt hstatus
  · exact h other receipt' ((Function.update_of_ne heq _ _).symm.trans hother) hstatus

theorem promised_accept {command : CommandMessage} {ack : AckPayload} {k : ℕ} (h : Promised s)
    (hk : s.connection = some k) : Promised (startSend (.accept command) (.commandAck ack)
      (storeReceipt command.commandId ⟨ack,none⟩ s)) := by
  rcases startSend_cases (.accept command) (.commandAck ack)
    (storeReceipt command.commandId ⟨ack,none⟩ s) with ⟨hnone,-⟩ | ⟨k',-,hsend⟩
  · have hsome : s.connection = none := hnone
    rw [hk] at hsome
    cases hsome
  · rw [hsend]
    intro other receipt hreceipt hstatus
    rw [awaited_append,← List.append_assoc]
    by_cases heq : other = command.commandId
    · rw [heq]
      exact List.mem_append_right _ (List.mem_singleton.mpr rfl)
    · apply List.mem_append_left
      exact h other receipt ((Function.update_of_ne heq _ _).symm.trans hreceipt) hstatus

theorem promised_handleCommandMessage {supported : Bool} {receivedAt : ℤ} {command : CommandMessage}
    (h : Promised s) (hopen : supported = true → s.receipts command.commandId = none →
      ∃ k, s.connection = some k) :
    Promised (handleCommandMessage supported receivedAt command s) := by
  unfold handleCommandMessage
  cases hreceipt : s.receipts command.commandId with
  | some receipt => exact promised_startSend _ _ h
  | none =>
    dsimp only
    split
    · next hsupported =>
        obtain ⟨k,hk⟩ := hopen hsupported hreceipt
        exact promised_accept h hk
    · exact promised_startSend _ _ (promised_store h nofun)

theorem promised_erase {i : ℕ} (h : Promised s) (hitem : s.sending[i]? = some item)
    (hother : ∀ command, item.purpose ≠ .accept command) :
    Promised {s with sending := s.sending.eraseIdx i} := by
  have hnone : item.awaits = none := by
    unfold Sending.awaits
    split
    · next command hpurpose => exact absurd hpurpose (hother command)
    · rfl
  have hperm := awaited_erase hitem
  rw [hnone] at hperm
  intro commandId receipt hreceipt hstatus
  rcases List.mem_append.mp (h commandId receipt hreceipt hstatus) with hin | hin
  · exact List.mem_append_left _ hin
  · exact List.mem_append_right _ (hperm.mem_iff.mp hin)

theorem promised_return {i : ℕ} (h : Promised s) (hitem : s.sending[i]? = some item) :
    Promised (afterSend {s with sending := s.sending.eraseIdx i} item.purpose) := by
  cases hpurpose : item.purpose with
  | accept command =>
    have hsome : item.awaits = some command.commandId := by rw [Sending.awaits,hpurpose]
    have hperm := awaited_erase hitem
    rw [hsome] at hperm
    intro commandId receipt hreceipt hstatus
    rcases List.mem_append.mp (h commandId receipt hreceipt hstatus) with hin | hin
    · exact List.mem_append_left _ (List.mem_append_left _ hin)
    · rcases List.mem_cons.mp (hperm.mem_iff.mp hin) with rfl | hrest
      · exact List.mem_append_left _ (List.mem_append_right _ (List.mem_singleton.mpr rfl))
      · exact List.mem_append_right _ hrest
  | replay commandId =>
    have herased := promised_erase h hitem (by rw [hpurpose]; exact fun _ h => by cases h)
    unfold afterSend
    dsimp only
    split
    · exact promised_startSend _ _ herased
    · exact herased
  | last => exact promised_erase h hitem (by rw [hpurpose]; exact fun _ h => by cases h)

theorem promised_transmit {i : ℕ} (h : Promised s) (hitem : s.sending[i]? = some item) :
    Promised {s with
      sending := s.sending.eraseIdx i++[{item with transmitted := true}]
      toPlane := s.toPlane++[(item.connection,item.frame)]} := by
  intro commandId receipt hreceipt hstatus
  rcases List.mem_append.mp (h commandId receipt hreceipt hstatus) with hin | hin
  · exact List.mem_append_left _ hin
  · apply List.mem_append_right
    have happend := awaited_append {s with sending := s.sending.eraseIdx i} {item with transmitted := true}
    change commandId ∈ awaited {s with sending := s.sending.eraseIdx i++[{item with transmitted := true}]}
    rw [happend]
    rcases List.mem_append.mp ((awaited_erase hitem).mem_iff.mp hin) with hself | hrest
    · exact List.mem_append_right _ hself
    · exact List.mem_append_left _ hrest

theorem promised_finish (result : ResultPayload) (h : Promised s) :
    Promised (finishCommand result s) := by
  unfold finishCommand
  split
  · next receipt hreceipt =>
      exact promised_startSend _ _ (promised_store h fun hstatus => h _ receipt hreceipt hstatus)
  · exact h

theorem promised_frame {k : ℕ} {frame : PlaneFrame} (h : Promised s)
    (hstep : handleFrame setting k s frame = some t) : Promised t := by
  cases frame with
  | hello capabilities =>
    cases hstep
    exact h
  | commandAck payload =>
    rw [handleFrame] at hstep
    split at hstep
    · cases hstep
      exact h
    · cases hstep
  | commandResult payload =>
    rw [handleFrame] at hstep
    split at hstep
    · cases hstep
      exact h
    · cases hstep

theorem promised_createInstanceCommand {request : CreateRequest} (h : Promised s)
    (hstep : createInstanceCommand setting request s = some t) : Promised t := by
  unfold createInstanceCommand at hstep
  split at hstep
  · cases hstep
  · split at hstep
    · obtain ⟨table,-,rfl⟩ := Option.map_eq_some_iff.mp hstep
      exact h
    · split at hstep
      · obtain ⟨table,-,rfl⟩ := Option.map_eq_some_iff.mp hstep
        exact h
      · cases hstep

/-- Unless its ack raises, a command stays promised. -/
theorem promised_step {act : Act} (h : Promised s)
    (hstep : step setting s act = some t) (hact : ¬AcceptanceRaises s act) : Promised t := by
  cases act with
  | tick time =>
    rw [step] at hstep
    split at hstep
    · cases hstep
      exact h
    · cases hstep
  | create request => exact promised_createInstanceCommand h hstep
  | expire instanceId serviceId =>
    cases hstep
    exact h
  | connect capabilities =>
    rw [step] at hstep
    split at hstep
    · cases hstep
      exact h
    · cases hstep
  | lost =>
    cases hstep
    exact h
  | unregister =>
    cases hstep
    exact h
  | loseCommand i =>
    obtain ⟨frame,-,hstep⟩ := Option.bind_eq_some_iff.mp hstep
    split at hstep
    · cases hstep
    · cases hstep
      exact h
  | loseFrame i =>
    obtain ⟨frame,-,hstep⟩ := Option.bind_eq_some_iff.mp hstep
    split at hstep
    · cases hstep
    · cases hstep
      exact h
  | receive i supported receivedAt =>
    obtain ⟨frame,hframe,rfl⟩ := Option.map_eq_some_iff.mp hstep
    have herased : Promised {s with toAgent := s.toAgent.eraseIdx i} := h
    apply promised_handleCommandMessage herased
    intro hsupported hnone
    rw [← Option.isSome_iff_exists,← Option.ne_none_iff_isSome]
    exact fun hc => hact ⟨hsupported,hc,frame,hframe,hnone⟩
  | transmit i =>
    obtain ⟨item,hitem,hstep⟩ := Option.bind_eq_some_iff.mp hstep
    split at hstep
    · cases hstep
    · cases hstep
      exact promised_transmit h hitem
  | returns i =>
    obtain ⟨item,hitem,hstep⟩ := Option.bind_eq_some_iff.mp hstep
    split at hstep
    · cases hstep
      exact promised_return h hitem
    · cases hstep
  | raises i =>
    obtain ⟨item,hitem,rfl⟩ := Option.map_eq_some_iff.mp hstep
    have herased := promised_erase h hitem fun command hpurpose => hact ⟨item,command,hitem,hpurpose⟩
    unfold markDisconnected
    split
    · exact herased
    · exact herased
  | complete i outcome finishedAt durationMs =>
    obtain ⟨command,-,rfl⟩ := Option.map_eq_some_iff.mp hstep
    have herased : Promised {s with running := s.running.eraseIdx i} := h
    exact promised_finish _ herased
  | handle i =>
    obtain ⟨frame,-,hstep⟩ := Option.bind_eq_some_iff.mp hstep
    have herased : Promised {s with toPlane := s.toPlane.eraseIdx i} := h
    exact promised_frame herased hstep

/-- In every run no command has two tasks; and where no send of a first acknowledgement
raises, each command that the plane records as accepted has one, or will have it. -/
theorem executed_unless_raised (setting : Setting) (now : ℤ) (acts : List Act) :
    Throughout (step setting) (fun s => s.created.Nodup) {now := now} acts ∧
      (EachStep (step setting) (fun s act => ¬AcceptanceRaises s act) {now := now} acts →
        Throughout (step setting) Executed {now := now} acts) := by
  constructor
  · apply throughout_of_invariant (J := Sound setting)
    · exact fun s act t hs h => sound_step hs h
    · exact fun s hs => (List.nodup_append.mp hs.once).2.1
    · exact sound_init setting now
  · intro h
    apply throughout_of_eachStep h (J := fun s => Sound setting s ∧ Promised s)
    · rintro s act t ⟨hs,hp⟩ hstep hact
      exact ⟨sound_step hs hstep,promised_step hp hstep hact⟩
    · exact fun s hs => executed_of_promised hs.1 hs.2
    · refine ⟨sound_init setting now,fun _ _ hreceipt => ?_⟩
      cases hreceipt

end Acceptance

section Example

def pings : Setting := ⟨(· / 1000),fun k => String.ofList (Nat.toDigits 10 k),0⟩

/-- The connection is lost after the acknowledgement of a ping has returned, and before it
arrived; the ping is delivered again and answered from its receipt. -/
def lostAcceptance : List Act := [
  .connect ["command.ping"],
  .handle 0,
  .create firstPing,
  .receive 0 true 1,
  .transmit 0,
  .returns 0,
  .lost,
  .loseFrame 0,
  .connect ["command.ping"],
  .handle 0,
  .receive 0 true 2,
  .transmit 0,
  .returns 0,
  .handle 0]

/-- No send raises, and the agent is connected when it is told of a command. -/
def smooth (s : World) : Act → Bool
  | .receive _ _ _ => s.connection.isSome
  | .raises _ => false
  | _ => true

theorem smooth_accepts (s : World) (act : Act) (h : smooth s act = true) : ¬AcceptanceRaises s act := by
  cases act with
  | receive i supported receivedAt =>
    rintro ⟨-,hnone,-⟩
    rw [smooth,hnone] at h
    cases h
  | raises i => cases h
  | _ => exact id

/-- The redelivered command is executed once. -/
theorem redelivered_executed : ∃ s, runs (step pings) (fun _ _ => true) {now := 0} lostAcceptance =
    some s ∧ s.recorded = ["a"] ∧ s.created = ["a"] ∧ Executed s := by
  have h : (runs (step pings) (fun _ _ => true) {now := 0} lostAcceptance).map
      (fun s => (s.recorded,s.created)) = some (["a"],["a"]) := by decide +kernel
  obtain ⟨s,hs,hvalues⟩ := Option.map_eq_some_iff.mp h
  rw [Prod.mk.injEq] at hvalues
  have hsmooth : checks (step pings) smooth {now := 0} lostAcceptance = true := by decide +kernel
  have hall := (executed_unless_raised pings 0 lostAcceptance).2 (eachStep_of_checks smooth_accepts hsmooth)
  exact ⟨s,hs,hvalues.1,hvalues.2,hall.last hs⟩

/-- The acknowledgement of a ping raises; the ping is delivered again and answered from its
receipt. -/
def raisedAcceptance : List Act := [
  .connect ["command.ping"],
  .handle 0,
  .create firstPing,
  .receive 0 true 1,
  .raises 0,
  .connect ["command.ping"],
  .handle 0,
  .receive 0 true 2,
  .transmit 0,
  .returns 0,
  .handle 0]

/-- The command is recorded and never run. -/
theorem accepted_never_executed : ∃ s, runs (step pings) (fun _ _ => true) {now := 0} raisedAcceptance =
    some s ∧ s.recorded = ["a"] ∧ s.created = [] ∧ awaited s = [] := by
  have h : (runs (step pings) (fun _ _ => true) {now := 0} raisedAcceptance).map
      (fun s => (s.recorded,s.created,awaited s)) = some (["a"],[],[]) := by decide +kernel
  obtain ⟨s,hs,hvalues⟩ := Option.map_eq_some_iff.mp h
  rw [Prod.mk.injEq,Prod.mk.injEq] at hvalues
  exact ⟨s,hs,hvalues⟩

end Example

end OneStep.CommandExecution
