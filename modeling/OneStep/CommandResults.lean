import OneStep.AgentProcess

/-!
# The results of finished commands

While a connection is whole, a result that the agent holds for a command that is open is on
its way, or the command is, whose receipt will be sent again. A hello keeps that up exactly
for what it delivers again.
-/
namespace OneStep.CommandResults
open AgentCommands AgentProcess Transition

section Results

def Held (s : World) (commandId : String) (result : ResultPayload) : Prop :=
  ∃ receipt, s.receipts commandId = some receipt ∧ receipt.result = some result

/-- The row has ended with this result. -/
structure Bears (payload : ResultPayload) (command : AgentCommand) : Prop where
  status : command.status = payload.status.status
  finishedAt : command.finishedAt = some payload.finishedAt
  result : command.result = payload.result
  durationMs : command.durationMs = payload.durationMs
  errorCode : command.errorCode = payload.errorCode
  errorMessage : command.errorMessage = payload.errorMessage

/-- The connection is established on both sides, and nothing is under way. -/
structure Quiet (s : World) : Prop where
  intact : ∃ k, Intact s k
  sending : s.sending = []
  toAgent : s.toAgent = []
  toPlane : s.toPlane = []

/-- Each result of a command that is not late has reached its row. -/
def Reported (s : World) : Prop :=
  Quiet s → ∀ commandId result, Held s commandId result →
    ∃ command ∈ s.table, command.commandId = commandId ∧
      (s.now < commandDeadline command → Bears result command)

def Carries (commandId : String) : PlaneFrame → Prop
  | .commandResult payload => payload.commandId = commandId
  | _ => False

/-- The result is on its way over the connection. -/
def OnTheWay (s : World) (k : ℕ) (commandId : String) : Prop :=
  (∃ item ∈ s.sending, item.connection = k ∧ item.transmitted = false ∧ Carries commandId item.frame) ∨
    ∃ frame ∈ s.toPlane, frame.1 = k ∧ Carries commandId frame.2

/-- The agent has not been told of the command, and will not be, or it has rejected it. -/
def Unstarted (s : World) (commandId : String) : Prop :=
  (s.receipts commandId = none ∧ ∀ frame ∈ s.toAgent, frame.2.commandId ≠ commandId) ∨
    ∃ receipt, s.receipts commandId = some receipt ∧ receipt.ack.status = .rejected

/-- A hello gives up no command that the agent may work on, and what it does not deliver
again has no result that could get lost. -/
def LosesNothing (s : World) : Act → Prop
  | .handle i => ∀ k capabilities, s.toPlane[i]? = some (k,.hello capabilities) →
      ∀ command ∈ s.table, s.now < commandDeadline command →
        (command.status.redispatchable = true →
          getCommandCapability command.kind ∈ acceptedCapabilities capabilities ∨
            Unstarted s command.commandId) ∧
        (command.status = .accepted → s.connection = some k →
          ∀ result, Held s command.commandId result → OnTheWay s k command.commandId)
  | _ => True

/-- The result is on its way, or what makes the agent send it again is. -/
def Coming (s : World) (k : ℕ) (commandId : String) : Prop :=
  OnTheWay s k commandId ∨
    (∃ item ∈ s.sending, item.connection = k ∧ item.purpose = .replay commandId) ∨
      ∃ frame ∈ s.toAgent, frame.1 = k ∧ frame.2.commandId = commandId

structure Followed (s : World) : Prop where
  coming : ∀ k, Intact s k → ∀ command ∈ s.table, s.now < commandDeadline command →
    command.status.terminal = false → ∀ result, Held s command.commandId result →
      Coming s k command.commandId
  ended : ∀ command ∈ s.table, s.now < commandDeadline command → command.status.terminal = true →
    (∃ result, Held s command.commandId result ∧ Bears result command) ∨
      Unstarted s command.commandId

variable {setting : Setting} {s t : World} {commandId : String}

theorem Held.unique {a b : ResultPayload} (h : Held s commandId a) (h' : Held s commandId b) :
    a = b := by
  obtain ⟨receipt,hreceipt,ha⟩ := h
  obtain ⟨receipt',hreceipt',hb⟩ := h'
  obtain rfl := Option.mem_unique hreceipt hreceipt'
  exact Option.mem_unique ha hb

theorem not_unstarted {result : ResultPayload} (hs : Sound setting s) (h : Held s commandId result) :
    ¬Unstarted s commandId := by
  obtain ⟨receipt,hreceipt,hresult⟩ := h
  rintro (⟨hnone,-⟩ | ⟨receipt',hreceipt',hrejected⟩)
  · rw [hreceipt] at hnone
    cases hnone
  · obtain rfl := Option.mem_unique hreceipt hreceipt'
    rw [((hs.receipts _ _ hreceipt).result _ hresult).2] at hrejected
    cases hrejected

theorem reported_of_followed (hs : Sound setting s) (h : Followed s) : Reported s := by
  intro hquiet commandId result hheld
  obtain ⟨k,hintact⟩ := hquiet.intact
  obtain ⟨receipt,hreceipt,-⟩ := id hheld
  obtain ⟨command,hcommand,rfl⟩ := List.mem_map.mp (hs.receipts _ _ hreceipt).listed
  refine ⟨command,hcommand,rfl,fun hearly => ?_⟩
  cases hterminal : command.status.terminal with
  | false =>
    exfalso
    have hcoming := h.coming k hintact command hcommand hearly hterminal result hheld
    unfold Coming OnTheWay at hcoming
    rw [hquiet.sending,hquiet.toAgent,hquiet.toPlane] at hcoming
    simp only [List.not_mem_nil,false_and,exists_false,or_self] at hcoming
  | true =>
    rcases h.ended command hcommand hearly hterminal with ⟨result',hheld',hbears⟩ | hunstarted
    · rw [hheld.unique hheld']
      exact hbears
    · exact absurd hunstarted (not_unstarted hs hheld)

/-- What the agent does, and what befalls the connections, leaves the table as it is. -/
theorem followed_agent (h : Followed s) (htable : t.table = s.table) (hnow : s.now ≤ t.now)
    (hintact : ∀ k, Intact t k → Intact s k)
    (hheld : ∀ commandId result, Held t commandId result →
      (∃ result, Held s commandId result) ∨ ∀ k, Intact t k → Coming t k commandId)
    (hkept : ∀ commandId result, Held s commandId result → Held t commandId result)
    (hcoming : ∀ k commandId result, Intact t k → Held s commandId result →
      Coming s k commandId → Coming t k commandId)
    (hunstarted : ∀ commandId, Unstarted s commandId → Unstarted t commandId) : Followed t := by
  constructor
  · intro k hk command hcommand hearly hopen result hresult
    rw [htable] at hcommand
    rcases hheld _ _ hresult with ⟨result',hbefore⟩ | hnew
    · exact hcoming k _ result' hk hbefore
        (h.coming k (hintact k hk) command hcommand (hnow.trans_lt hearly) hopen result' hbefore)
    · exact hnew k hk
  · intro command hcommand hearly hterminal
    rw [htable] at hcommand
    rcases h.ended command hcommand (hnow.trans_lt hearly) hterminal with ⟨result,hresult,hbears⟩ | hun
    · exact .inl ⟨result,hkept _ _ hresult,hbears⟩
    · exact .inr (hunstarted _ hun)

variable {k : ℕ}

theorem coming_mono (h : Coming s k commandId) (hsending : ∀ item ∈ s.sending, item.connection = k →
      (item.transmitted = false ∧ Carries commandId item.frame) ∨ item.purpose = .replay commandId →
        item ∈ t.sending)
    (htoPlane : ∀ frame ∈ s.toPlane, frame.1 = k → Carries commandId frame.2 → frame ∈ t.toPlane)
    (htoAgent : ∀ frame ∈ s.toAgent, frame.1 = k → frame.2.commandId = commandId → frame ∈ t.toAgent) :
    Coming t k commandId := by
  rcases h with (⟨item,hitem,hk,hnot,hcarries⟩ | ⟨frame,hframe,hk,hcarries⟩) |
    ⟨item,hitem,hk,hpurpose⟩ | ⟨frame,hframe,hk,hid⟩
  · exact .inl (.inl ⟨item,hsending item hitem hk (.inl ⟨hnot,hcarries⟩),hk,hnot,hcarries⟩)
  · exact .inl (.inr ⟨frame,htoPlane frame hframe hk hcarries,hk,hcarries⟩)
  · exact .inr (.inl ⟨item,hsending item hitem hk (.inr hpurpose),hk,hpurpose⟩)
  · exact .inr (.inr ⟨frame,htoAgent frame hframe hk hid,hk,hid⟩)

theorem coming_startSend {purpose : Purpose} {frame : PlaneFrame} (h : Coming s k commandId) :
    Coming (startSend purpose frame s) k commandId := by
  rcases startSend_cases purpose frame s with ⟨-,hsame⟩ | ⟨k,-,hsend⟩
  · rw [hsame]
    exact h
  · rw [hsend]
    exact coming_mono h (fun item hitem _ _ => List.mem_append_left _ hitem) (fun _ hf _ _ => hf)
      fun _ hf _ _ => hf

variable (purpose : Purpose)

theorem startSend_same (frame : PlaneFrame) (s : World) :
    (startSend purpose frame s).receipts = s.receipts ∧
      (startSend purpose frame s).toAgent = s.toAgent ∧
      (startSend purpose frame s).table = s.table ∧ (startSend purpose frame s).now = s.now ∧
      (startSend purpose frame s).connection = s.connection ∧
        (startSend purpose frame s).session = s.session := by
  rcases startSend_cases purpose frame s with ⟨-,hsame⟩ | ⟨k,-,hsend⟩
  · rw [hsame]
    exact ⟨rfl,rfl,rfl,rfl,rfl,rfl⟩
  · rw [hsend]
    exact ⟨rfl,rfl,rfl,rfl,rfl,rfl⟩

theorem sent_startSend (frame : PlaneFrame) (hk : s.connection = some k) :
    ⟨purpose,frame,k,false⟩ ∈ (startSend purpose frame s).sending := by
  rcases startSend_cases purpose frame s with ⟨hnone,-⟩ | ⟨k',hk',hsend⟩
  · rw [hnone] at hk
    cases hk
  · obtain rfl := Option.mem_unique hk hk'
    rw [hsend]
    exact List.mem_append_right _ (List.mem_singleton.mpr rfl)

theorem followed_startSend (frame : PlaneFrame) (h : Followed s) :
    Followed (startSend purpose frame s) := by
  obtain ⟨hreceipts,htoAgent,htable,hnow,hconnection,hsession⟩ := startSend_same purpose frame s
  apply followed_agent h htable hnow.ge
  · intro k hk
    unfold Intact at hk ⊢
    rw [hconnection,hsession] at hk
    exact hk
  · intro commandId result hheld
    unfold Held at hheld
    rw [hreceipts] at hheld
    exact .inl ⟨result,hheld⟩
  · intro commandId result hheld
    unfold Held
    rw [hreceipts]
    exact hheld
  · exact fun k commandId result _ _ hcoming => coming_startSend hcoming
  · intro commandId hun
    unfold Unstarted
    rw [hreceipts,htoAgent]
    exact hun

variable {i : ℕ}

theorem followed_loseCommand {frame : ℕ × CommandMessage} (h : Followed s)
    (hframe : s.toAgent[i]? = some frame) (hbroken : ¬Intact s frame.1) :
    Followed {s with toAgent := s.toAgent.eraseIdx i} := by
  refine followed_agent h rfl le_rfl (fun _ => id) (fun _ _ hheld => .inl ⟨_,hheld⟩) (fun _ _ => id) ?_ ?_
  · intro k commandId result hk _ hcoming
    refine coming_mono hcoming (fun _ hitem _ _ => hitem) (fun _ hf _ _ => hf) ?_
    rintro other hother rfl -
    rcases mem_or_erased hframe hother with rfl | hrest
    · exact absurd hk hbroken
    · exact hrest
  · rintro commandId (⟨hnone,hframes⟩ | hrejected)
    · exact .inl ⟨hnone,fun frame hmem => hframes frame (List.mem_of_mem_eraseIdx hmem)⟩
    · exact .inr hrejected

theorem followed_loseFrame {frame : ℕ × PlaneFrame} (h : Followed s)
    (hframe : s.toPlane[i]? = some frame) (hbroken : ¬Intact s frame.1) :
    Followed {s with toPlane := s.toPlane.eraseIdx i} := by
  refine followed_agent h rfl le_rfl (fun _ => id) (fun _ _ hheld => .inl ⟨_,hheld⟩) (fun _ _ => id) ?_
    fun _ => id
  intro k commandId result hk _ hcoming
  refine coming_mono hcoming (fun _ hitem _ _ => hitem) ?_ fun _ hf _ _ => hf
  rintro other hother rfl -
  rcases mem_or_erased hframe hother with rfl | hrest
  · exact absurd hk hbroken
  · exact hrest

theorem followed_receive {frame : ℕ × CommandMessage} {supported : Bool} {receivedAt : ℤ}
    (h : Followed s) (hframe : s.toAgent[i]? = some frame) :
    Followed (handleCommandMessage supported receivedAt frame.2
      {s with toAgent := s.toAgent.eraseIdx i}) := by
  have hmem := List.mem_of_getElem? hframe
  unfold handleCommandMessage
  cases hreceipt : s.receipts frame.2.commandId with
  | some receipt =>
    dsimp only
    obtain ⟨hreceipts,htoAgent,htable,hnow,hconnection,hsession⟩ := startSend_same
      (.replay frame.2.commandId) (.commandAck receipt.ack) {s with toAgent := s.toAgent.eraseIdx i}
    apply followed_agent h htable hnow.ge
    · intro k hk
      unfold Intact at hk ⊢
      rw [hconnection,hsession] at hk
      exact hk
    · intro commandId result hheld
      unfold Held at hheld
      rw [hreceipts] at hheld
      exact .inl ⟨result,hheld⟩
    · intro commandId result hheld
      unfold Held
      rw [hreceipts]
      exact hheld
    · intro k commandId result hk _ hcoming
      unfold Intact at hk
      rw [hconnection] at hk
      by_cases hid : frame.2.commandId = commandId
      · have hsent := sent_startSend (.replay frame.2.commandId) (.commandAck receipt.ack) hk.1
        exact .inr (.inl ⟨_,hsent,rfl,by rw [hid]⟩)
      · apply coming_startSend
        refine coming_mono hcoming (fun _ hitem _ _ => hitem) (fun _ hf _ _ => hf) ?_
        rintro other hother - hother'
        rcases mem_or_erased hframe hother with rfl | hrest
        · exact absurd hother' hid
        · exact hrest
    · rintro commandId hun
      unfold Unstarted
      rw [hreceipts,htoAgent]
      rcases hun with ⟨hnone,hframes⟩ | hrejected
      · exact .inl ⟨hnone,fun frame hmem => hframes frame (List.mem_of_mem_eraseIdx hmem)⟩
      · exact .inr hrejected
  | none =>
    have hstored : ∀ ack, Followed (storeReceipt frame.2.commandId ⟨ack,none⟩
        {s with toAgent := s.toAgent.eraseIdx i}) := by
      intro ack
      refine followed_agent h rfl le_rfl (fun _ => id) ?_ ?_ ?_ ?_
      · rintro commandId result ⟨receipt,hstored,hresult⟩
        by_cases heq : commandId = frame.2.commandId
        · subst heq
          have hsame := hstored.symm.trans (Function.update_self _ _ _)
          cases hsame
          cases hresult
        · exact .inl ⟨result,receipt,(Function.update_of_ne heq _ _).symm.trans hstored,hresult⟩
      · rintro commandId result ⟨receipt,hstored,hresult⟩
        have hne : commandId ≠ frame.2.commandId := by
          rintro rfl
          rw [hreceipt] at hstored
          cases hstored
        exact ⟨receipt,(Function.update_of_ne hne _ _).trans hstored,hresult⟩
      · rintro k commandId result hk ⟨receipt,hstored,-⟩ hcoming
        refine coming_mono hcoming (fun _ hitem _ _ => hitem) (fun _ hf _ _ => hf) ?_
        rintro other hother - hid
        rcases mem_or_erased hframe hother with rfl | hrest
        · rw [← hid,hreceipt] at hstored
          cases hstored
        · exact hrest
      · rintro commandId (⟨hnone,hframes⟩ | ⟨receipt,hstored,hrejected⟩)
        · have hne : commandId ≠ frame.2.commandId := fun heq => hframes frame hmem heq.symm
          exact .inl ⟨(Function.update_of_ne hne _ _).trans hnone,
            fun other hother => hframes other (List.mem_of_mem_eraseIdx hother)⟩
        · have hne : commandId ≠ frame.2.commandId := by
            rintro rfl
            rw [hreceipt] at hstored
            cases hstored
          exact .inr ⟨receipt,(Function.update_of_ne hne _ _).trans hstored,hrejected⟩
    dsimp only
    split
    · exact followed_startSend _ _ (hstored _)
    · exact followed_startSend _ _ (hstored _)

variable {item : Sending}

theorem followed_transmit (h : Followed s) (hitem : s.sending[i]? = some item) :
    Followed {s with
      sending := s.sending.eraseIdx i++[{item with transmitted := true}]
      toPlane := s.toPlane++[(item.connection,item.frame)]} := by
  refine followed_agent h rfl le_rfl (fun _ => id) (fun _ _ hheld => .inl ⟨_,hheld⟩) (fun _ _ => id) ?_
    fun _ => id
  rintro k commandId result - - hcoming
  rcases hcoming with (⟨other,hother,hk,hnot,hcarries⟩ | ⟨frame,hframe,hk,hcarries⟩) |
    ⟨other,hother,hk,hpurpose⟩ | hframe
  · rcases mem_or_erased hitem hother with rfl | hrest
    · exact .inl (.inr ⟨_,List.mem_append_right _ (List.mem_singleton.mpr rfl),hk,hcarries⟩)
    · exact .inl (.inl ⟨other,List.mem_append_left _ hrest,hk,hnot,hcarries⟩)
  · exact .inl (.inr ⟨frame,List.mem_append_left _ hframe,hk,hcarries⟩)
  · rcases mem_or_erased hitem hother with rfl | hrest
    · exact .inr (.inl ⟨_,List.mem_append_right _ (List.mem_singleton.mpr rfl),hk,hpurpose⟩)
    · exact .inr (.inl ⟨other,List.mem_append_left _ hrest,hk,hpurpose⟩)
  · exact .inr (.inr hframe)

theorem followed_returns (hs : Sound setting s) (h : Followed s) (hitem : s.sending[i]? = some item)
    (hsent : item.transmitted = true) :
    Followed (afterSend {s with sending := s.sending.eraseIdx i} item.purpose) := by
  have hcarried : ∀ {k commandId}, (∀ id, item.purpose ≠ .replay id) → Coming s k commandId →
      Coming {s with sending := s.sending.eraseIdx i} k commandId := by
    intro k commandId hother hcoming
    refine coming_mono hcoming ?_ (fun _ hf _ _ => hf) fun _ hf _ _ => hf
    rintro other hmem - hneeded
    rcases mem_or_erased hitem hmem with rfl | hrest
    · rcases hneeded with ⟨hnot,-⟩ | hreplay
      · rw [hsent] at hnot
        cases hnot
      · exact absurd hreplay (hother _)
    · exact hrest
  cases hpurpose : item.purpose with
  | accept command =>
    refine followed_agent h rfl le_rfl (fun _ => id) (fun _ _ hheld => .inl ⟨_,hheld⟩) (fun _ _ => id)
      (fun k commandId result _ _ hcoming => ?_) fun _ => id
    exact hcarried (by rw [hpurpose]; exact fun _ => nofun) hcoming
  | last =>
    refine followed_agent h rfl le_rfl (fun _ => id) (fun _ _ hheld => .inl ⟨_,hheld⟩) (fun _ _ => id)
      (fun k commandId result _ _ hcoming => ?_) fun _ => id
    exact hcarried (by rw [hpurpose]; exact fun _ => nofun) hcoming
  | replay replayed =>
    have hrest : ∀ {k commandId}, commandId ≠ replayed → Coming s k commandId →
        Coming {s with sending := s.sending.eraseIdx i} k commandId := by
      intro k commandId hne hcoming
      refine coming_mono hcoming ?_ (fun _ hf _ _ => hf) fun _ hf _ _ => hf
      rintro other hmem - hneeded
      rcases mem_or_erased hitem hmem with rfl | hrest
      · rcases hneeded with ⟨hnot,-⟩ | hreplay
        · rw [hsent] at hnot
          cases hnot
        · rw [hpurpose] at hreplay
          cases hreplay
          exact absurd rfl hne
      · exact hrest
    unfold afterSend
    dsimp only
    split
    · next result hresult =>
        obtain ⟨receipt,hreceipt,hresult⟩ := Option.bind_eq_some_iff.mp hresult
        have hid := ((hs.receipts _ _ hreceipt).result _ hresult).1
        obtain ⟨hreceipts,htoAgent,htable,hnow,hconnection,hsession⟩ := startSend_same
          .last (.commandResult result) {s with sending := s.sending.eraseIdx i}
        apply followed_agent h htable hnow.ge
        · intro k hk
          unfold Intact at hk ⊢
          rw [hconnection,hsession] at hk
          exact hk
        · intro commandId result hheld
          unfold Held at hheld
          rw [hreceipts] at hheld
          exact .inl ⟨result,hheld⟩
        · intro commandId result hheld
          unfold Held
          rw [hreceipts]
          exact hheld
        · intro k commandId result' hk _ hcoming
          unfold Intact at hk
          rw [hconnection] at hk
          by_cases heq : commandId = replayed
          · have hsent := sent_startSend .last (.commandResult result) hk.1
            exact .inl (.inl ⟨_,hsent,rfl,rfl,hid.trans heq.symm⟩)
          · exact coming_startSend (hrest heq hcoming)
        · intro commandId hun
          unfold Unstarted
          rw [hreceipts,htoAgent]
          exact hun
    · next hnone =>
        refine followed_agent h rfl le_rfl (fun _ => id) (fun _ _ hheld => .inl ⟨_,hheld⟩) (fun _ _ => id)
          (fun k commandId result _ hheld hcoming => ?_) fun _ => id
        apply hrest _ hcoming
        rintro rfl
        obtain ⟨receipt,hreceipt,hresult⟩ := hheld
        rw [Option.bind_eq_some_iff.mpr ⟨receipt,hreceipt,hresult⟩] at hnone
        cases hnone

theorem followed_raises (h : Followed s) (hitem : s.sending[i]? = some item) :
    Followed (markDisconnected item.connection {s with sending := s.sending.eraseIdx i}) := by
  unfold markDisconnected
  split
  · refine followed_agent h rfl le_rfl ?_ (fun _ _ hheld => .inl ⟨_,hheld⟩) (fun _ _ => id) ?_ fun _ => id
    · rintro k ⟨hnone,-⟩
      cases hnone
    · rintro k commandId result ⟨hnone,-⟩
      cases hnone
  · next hother =>
      refine followed_agent h rfl le_rfl (fun _ => id) (fun _ _ hheld => .inl ⟨_,hheld⟩) (fun _ _ => id)
        ?_ fun _ => id
      intro k commandId result hk _ hcoming
      refine coming_mono hcoming ?_ (fun _ hf _ _ => hf) fun _ hf _ _ => hf
      rintro other hmem hconnection -
      rcases mem_or_erased hitem hmem with rfl | hrest
      · rw [hconnection] at hother
        exact absurd hk.1 hother
      · exact hrest

theorem followed_finish {command : CommandMessage} {result : ResultPayload} (hs : Sound setting s)
    (h : Followed s) (hcommand : s.running[i]? = some command)
    (hid : result.commandId = command.commandId) :
    Followed (finishCommand result {s with running := s.running.eraseIdx i}) := by
  obtain ⟨receipt,hreceipt,hstatus,hnone⟩ := hs.working command (List.mem_of_getElem? hcommand)
  unfold finishCommand
  rw [hid]
  have hsame : ({s with running := s.running.eraseIdx i} : World).receipts command.commandId =
      some receipt := hreceipt
  rw [hsame]
  dsimp only
  obtain ⟨hreceipts,htoAgent,htable,hnow,hconnection,hsession⟩ := startSend_same .last
    (.commandResult result) (storeReceipt command.commandId {receipt with result := some result}
      {s with running := s.running.eraseIdx i})
  apply followed_agent h htable hnow.ge
  · intro k hk
    unfold Intact at hk ⊢
    rw [hconnection,hsession] at hk
    exact hk
  · rintro commandId result' ⟨receipt',hreceipt',hresult'⟩
    rw [hreceipts] at hreceipt'
    by_cases heq : commandId = command.commandId
    · refine .inr fun k hk => ?_
      unfold Intact at hk
      rw [hconnection] at hk
      have hsent := sent_startSend .last (.commandResult result) hk.1
      exact .inl (.inl ⟨_,hsent,rfl,rfl,hid.trans heq.symm⟩)
    · exact .inl ⟨result',receipt',(Function.update_of_ne heq _ _).symm.trans hreceipt',hresult'⟩
  · rintro commandId result' ⟨receipt',hreceipt',hresult'⟩
    have hne : commandId ≠ command.commandId := by
      rintro rfl
      obtain rfl := Option.mem_unique hreceipt hreceipt'
      rw [hnone] at hresult'
      cases hresult'
    refine ⟨receipt',?_,hresult'⟩
    rw [hreceipts]
    exact (Function.update_of_ne hne _ _).trans hreceipt'
  · exact fun k commandId result' _ _ hcoming => coming_startSend hcoming
  · intro commandId hun
    unfold Unstarted
    rw [hreceipts,htoAgent]
    have hne : commandId ≠ command.commandId := by
      rintro rfl
      rcases hun with ⟨hnone,-⟩ | ⟨receipt',hreceipt',hrejected⟩
      · rw [hreceipt] at hnone
        cases hnone
      · obtain rfl := Option.mem_unique hreceipt hreceipt'
        rw [hstatus] at hrejected
        cases hrejected
    have hkept : (storeReceipt command.commandId {receipt with result := some result}
        {s with running := s.running.eraseIdx i}).receipts commandId = s.receipts commandId :=
      Function.update_of_ne hne _ _
    rw [hkept]
    exact hun

theorem followed_expire (instanceId serviceId : Option ℕ) (h : Followed s) : Followed {s with
    table := expireStaleCommands setting.milliseconds instanceId serviceId s.now s.table} := by
  have hrow : ∀ command' ∈ expireStaleCommands setting.milliseconds instanceId serviceId s.now s.table,
      s.now < commandDeadline command' → command' ∈ s.table := by
    intro command' hcommand' hearly
    obtain ⟨command,hcommand,rfl⟩ := List.mem_map.mp hcommand'
    rw [(fixed_expire setting.milliseconds instanceId serviceId s.now command).deadline] at hearly
    rw [expireSelected_early setting.milliseconds _ _ hearly]
    exact hcommand
  constructor
  · intro k hk command hcommand hearly hopen result hheld
    exact h.coming k hk command (hrow command hcommand hearly) hearly hopen result hheld
  · intro command hcommand hearly hterminal
    exact h.ended command (hrow command hcommand hearly) hearly hterminal

theorem followed_create {request : CreateRequest} {delivery : Delivery} {table : Table}
    {frames : List (ℕ × CommandMessage)} (hs : Sound setting s) (h : Followed s)
    (hopen : (delivery.perform (createCommand request s.now)).status.terminal = false)
    (hframes : ∀ frame ∈ frames, frame.2.commandId = request.commandId)
    (hcreate : perform setting.milliseconds s.table (.create request s.now delivery) = some table) :
    Followed {s with table := table, toAgent := s.toAgent++frames} := by
  rw [perform] at hcreate
  split at hcreate
  · cases hcreate
  · next hnew =>
      cases hcreate
      have hfresh : request.commandId ∉ s.table.map AgentCommand.commandId := by
        intro hid
        obtain ⟨command,hcommand,hid⟩ := List.mem_map.mp hid
        exact hnew (List.any_eq_true.mpr ⟨command,hcommand,decide_eq_true hid⟩)
      constructor
      · intro k hk command hcommand hearly hnot result hheld
        rcases List.mem_append.mp hcommand with hold | hlast
        · refine coming_mono (h.coming k hk command hold hearly hnot result hheld)
            (fun _ hitem _ _ => hitem) (fun _ hf _ _ => hf) fun _ hf _ _ => List.mem_append_left _ hf
        · exfalso
          rw [List.mem_singleton.mp hlast,(fixed_delivery _ _).commandId] at hheld
          obtain ⟨receipt,hreceipt,-⟩ := hheld
          exact hfresh (hs.receipts _ _ hreceipt).listed
      · intro command hcommand hearly hterminal
        rcases List.mem_append.mp hcommand with hold | hlast
        · refine (h.ended command hold hearly hterminal).imp_right fun hun => ?_
          rcases hun with ⟨hnone,hnot⟩ | hrejected
          · refine .inl ⟨hnone,fun frame hframe => ?_⟩
            rcases List.mem_append.mp hframe with hin | hin
            · exact hnot frame hin
            · rw [hframes frame hin]
              rintro hid
              exact hfresh (hid ▸ List.mem_map_of_mem hold)
          · exact .inr hrejected
        · rw [List.mem_singleton.mp hlast,hopen] at hterminal
          cases hterminal

theorem followed_createInstanceCommand {request : CreateRequest} (hs : Sound setting s)
    (h : Followed s) (hstep : createInstanceCommand setting request s = some t) : Followed t := by
  unfold createInstanceCommand at hstep
  split at hstep
  · cases hstep
  · split at hstep
    · obtain ⟨table,htable,rfl⟩ := Option.map_eq_some_iff.mp hstep
      have hfollowed := followed_create hs h rfl (fun _ hf => absurd hf List.not_mem_nil) htable
      rw [List.append_nil] at hfollowed
      exact hfollowed
    · split at hstep
      · obtain ⟨table,htable,rfl⟩ := Option.map_eq_some_iff.mp hstep
        refine followed_create hs h rfl (fun frame hf => ?_) htable
        rw [List.mem_singleton.mp hf]
        rfl
      · cases hstep

theorem coming_eraseFrame {frame : ℕ × PlaneFrame} (h : Coming s k commandId)
    (hframe : s.toPlane[i]? = some frame) (hnot : ¬Carries commandId frame.2) :
    Coming {s with toPlane := s.toPlane.eraseIdx i} k commandId := by
  refine coming_mono h (fun _ hitem _ _ => hitem) ?_ fun _ hf _ _ => hf
  rintro other hother - hcarries
  rcases mem_or_erased hframe hother with rfl | hrest
  · exact absurd hcarries hnot
  · exact hrest

variable {command : AgentCommand}

theorem finished_of_terminal (hok : RowOk command) (h : command.status.terminal = true) :
    command.finishedAt.isSome = true := by
  rw [hok.finished,h]

theorem followed_ack {payload : AckPayload} {recorded : List String} (hs : Sound setting s)
    (h : Followed s) (hframe : s.toPlane[i]? = some (k,.commandAck payload)) : Followed {s with
      toPlane := s.toPlane.eraseIdx i
      table := handleCommandAck (setting.context k) payload s.now s.table
      recorded := recorded} := by
  have hrow : ∀ command' ∈ handleCommandAck (setting.context k) payload s.now s.table,
      ∃ command ∈ s.table, Fixed command command' ∧ (command.status.terminal = true → command' = command) ∧
        (command'.status.terminal = true → command' = command ∨
          payload.commandId = command.commandId ∧ payload.status = .rejected) := by
    intro command' hcommand'
    obtain ⟨command,hcommand,rfl⟩ := List.mem_map.mp hcommand'
    refine ⟨command,hcommand,?_⟩
    split
    · next hselected =>
        rw [Bool.and_eq_true,decide_eq_true_eq] at hselected
        refine ⟨fixed_ack _ _ _ _,fun hterminal => ?_,fun hterminal => ?_⟩
        · rw [ackCommand,finished_of_terminal (hs.table.rows command hcommand) hterminal]
          rfl
        · unfold ackCommand at hterminal ⊢
          split at hterminal
          · next hend => exact .inl (if_pos hend)
          · cases hstatus : payload.status with
            | accepted =>
              rw [hstatus] at hterminal
              cases hterminal
            | rejected => exact .inr ⟨hselected.1.symm,rfl⟩
    · exact ⟨fixed_refl command,fun _ => rfl,fun _ => .inl rfl⟩
  constructor
  · intro k' hk command' hcommand' hearly hopen result hheld
    obtain ⟨command,hcommand,hfixed,hkept,-⟩ := hrow command' hcommand'
    rw [hfixed.deadline] at hearly
    rw [hfixed.commandId] at hheld ⊢
    have hbefore : command.status.terminal = false := by
      rw [← Bool.not_eq_true]
      intro hterminal
      rw [hkept hterminal,hterminal] at hopen
      cases hopen
    exact coming_eraseFrame (h.coming k' hk command hcommand hearly hbefore result hheld) hframe id
  · intro command' hcommand' hearly hterminal
    obtain ⟨command,hcommand,hfixed,-,hended⟩ := hrow command' hcommand'
    rw [hfixed.deadline] at hearly
    rcases hended hterminal with hsame | ⟨hid,hrejected⟩
    · rw [hsame] at hterminal ⊢
      exact h.ended command hcommand hearly hterminal
    · obtain ⟨receipt,hreceipt,hack⟩ := hs.toPlane _ (List.mem_of_getElem? hframe)
      rw [hfixed.commandId,← hid]
      exact .inr (.inr ⟨receipt,hreceipt,by rw [hack,hrejected]⟩)

theorem bears_result {context : ConnectionContext} {payload : ResultPayload} {receivedAt : ℤ}
    (h : command.finishedAt = none) :
    Bears payload (resultCommand context payload receivedAt command) := by
  unfold resultCommand
  rw [h]
  dsimp only [Option.isSome_none]
  rw [if_neg Bool.false_ne_true]
  split
  · exact ⟨rfl,rfl,rfl,rfl,rfl,rfl⟩
  · exact ⟨rfl,rfl,rfl,rfl,rfl,rfl⟩

theorem followed_result {payload : ResultPayload} (hs : Sound setting s) (h : Followed s)
    (hframe : s.toPlane[i]? = some (k,.commandResult payload)) : Followed {s with
      toPlane := s.toPlane.eraseIdx i
      table := handleCommandResult (setting.context k) payload s.now s.table} := by
  have hrow : ∀ command' ∈ handleCommandResult (setting.context k) payload s.now s.table,
      ∃ command ∈ s.table, Fixed command command' ∧ (command' = command ∧
        (command.status.terminal = true ∨ command.commandId ≠ payload.commandId) ∨
          command.commandId = payload.commandId ∧ command'.status.terminal = true ∧
            Bears payload command') := by
    intro command' hcommand'
    obtain ⟨command,hcommand,rfl⟩ := List.mem_map.mp hcommand'
    refine ⟨command,hcommand,?_⟩
    have hok := hs.table.rows command hcommand
    split
    · next hselected =>
        rw [Bool.and_eq_true,decide_eq_true_eq] at hselected
        refine ⟨fixed_result _ _ _ _,?_⟩
        cases hfinished : command.finishedAt with
        | some finishedAt =>
          left
          constructor
          · rw [resultCommand,hfinished]
            rfl
          · rw [← hok.finished,hfinished]
            exact .inl rfl
        | none =>
          have hbears : Bears payload (resultCommand (setting.context k) payload s.now command) :=
            bears_result hfinished
          refine .inr ⟨hselected.1,?_,hbears⟩
          rw [hbears.status]
          exact (status_reported payload.status).1
    · next hother =>
        refine ⟨fixed_refl command,.inl ⟨rfl,.inr fun hid => hother ?_⟩⟩
        rw [Bool.and_eq_true]
        exact ⟨decide_eq_true hid,decide_eq_true (hs.rows command hcommand)⟩
  constructor
  · intro k' hk command' hcommand' hearly hopen result hheld
    obtain ⟨command,hcommand,hfixed,hcases⟩ := hrow command' hcommand'
    rcases hcases with ⟨rfl,hterminal | hid⟩ | ⟨-,hterminal,-⟩
    · rw [hterminal] at hopen
      cases hopen
    · refine coming_eraseFrame (h.coming k' hk command' hcommand hearly hopen result hheld) hframe ?_
      exact fun hcarries => hid hcarries.symm
    · rw [hterminal] at hopen
      cases hopen
  · intro command' hcommand' hearly hterminal
    obtain ⟨command,hcommand,hfixed,hcases⟩ := hrow command' hcommand'
    rcases hcases with ⟨rfl,-⟩ | ⟨hid,-,hbears⟩
    · exact h.ended command' hcommand hearly hterminal
    · rw [hfixed.commandId,hid]
      exact .inl ⟨payload,hs.toPlane _ (List.mem_of_getElem? hframe),hbears⟩

variable {capabilities : List String}

theorem mem_redelivered_iff (hs : Sound setting s) :
    command ∈ redelivered setting capabilities s ↔ command ∈ s.table ∧
      command.status.redispatchable = true ∧ s.now < commandDeadline command ∧
        getCommandCapability command.kind ∈ capabilities := by
  rw [redelivered,List.mem_filter,(listed_perm _ _ _ hs.table).mem_iff,List.mem_filter,deliverable,
    redeliverable,Bool.and_eq_true,Bool.and_eq_true,decide_eq_true_eq,decide_eq_true_eq,decide_eq_true_eq]
  constructor
  · rintro ⟨⟨hmem,⟨-,hwaiting⟩,hearly⟩,hcapability⟩
    exact ⟨hmem,hwaiting,hearly,hcapability⟩
  · rintro ⟨hmem,hwaiting,hearly,hcapability⟩
    exact ⟨⟨hmem,⟨hs.rows command hmem,hwaiting⟩,hearly⟩,hcapability⟩

theorem open_cases {status : AgentCommandStatus} (h : status.terminal = false) :
    status.redispatchable = true ∨ status = .accepted := by
  cases status <;> first | exact .inl rfl | exact .inr rfl | cases h

theorem hello_row (hs : Sound setting s) {command' : AgentCommand}
    (h : command' ∈ (handleHello setting k capabilities s).table) :
    ∃ command ∈ s.table, Fixed command command' ∧ (s.now < commandDeadline command →
      (command.status.redispatchable = true ∧ getCommandCapability command.kind ∈ capabilities ∧
        command'.status = .dispatched) ∨
      (command.status.redispatchable = true ∧ getCommandCapability command.kind ∉ capabilities ∧
        command'.status = .rejected) ∨
      (command.status.redispatchable = false ∧ command' = command)) := by
  obtain ⟨command,hcommand,hfixed,hearly⟩ := redeliver_row hs.table h
  refine ⟨command,hcommand,hfixed,fun hbefore => ?_⟩
  have hrow := hearly hbefore
  have hinstance := decide_eq_true (hs.rows command hcommand)
  rw [redeliverable,hinstance,Bool.true_and] at hrow
  cases hwaiting : command.status.redispatchable with
  | true =>
    rw [if_pos hwaiting] at hrow
    have hstatus := @enqueuePending_status command capabilities (setting.sessionId k)
      (fun _ => s.now) hwaiting
    rw [← hrow] at hstatus
    by_cases hcapability : getCommandCapability command.kind ∈ capabilities
    · rw [if_pos hcapability] at hstatus
      exact .inl ⟨rfl,hcapability,hstatus⟩
    · rw [if_neg hcapability] at hstatus
      exact .inr (.inl ⟨rfl,hcapability,hstatus⟩)
  | false =>
    rw [hwaiting,if_neg Bool.false_ne_true] at hrow
    exact .inr (.inr ⟨rfl,hrow⟩)

theorem followed_hello (hs : Sound setting s) (h : Followed s)
    (hframe : s.toPlane[i]? = some (k,.hello capabilities)) (hact : LosesNothing s (.handle i)) :
    Followed (handleHello setting k (acceptedCapabilities capabilities)
      {s with toPlane := s.toPlane.eraseIdx i}) := by
  have hall := hact k capabilities hframe
  have herased := sound_eraseFrame i hs
  have hunstarted : ∀ command ∈ s.table, Unstarted s command.commandId →
      (∀ row ∈ redelivered setting (acceptedCapabilities capabilities)
        {s with toPlane := s.toPlane.eraseIdx i}, row.commandId ≠ command.commandId) →
      Unstarted (handleHello setting k (acceptedCapabilities capabilities)
        {s with toPlane := s.toPlane.eraseIdx i}) command.commandId := by
    intro command hcommand hun hnot
    rcases hun with ⟨hnone,hframes⟩ | hrejected
    · refine .inl ⟨hnone,fun frame hmem => ?_⟩
      rcases List.mem_append.mp hmem with hin | hin
      · exact hframes frame hin
      · obtain ⟨row,hrow,rfl⟩ := List.mem_map.mp hin
        exact hnot row hrow
    · exact .inr hrejected
  constructor
  · rintro k' ⟨hconnection,hsession⟩ command' hcommand' hearly hopen result hheld
    obtain rfl : k = k' := Option.some.inj hsession
    obtain ⟨command,hcommand,hfixed,hcases⟩ := hello_row herased hcommand'
    rw [hfixed.deadline] at hearly
    rw [hfixed.commandId] at hheld ⊢
    rcases hcases hearly with ⟨hwaiting,hcapability,-⟩ | ⟨-,-,hstatus⟩ | ⟨hwaiting,rfl⟩
    · refine .inr (.inr ⟨(k,buildCommandMessage command),List.mem_append_right _ ?_,rfl,rfl⟩)
      exact List.mem_map_of_mem ((mem_redelivered_iff herased).mpr ⟨hcommand,hwaiting,hearly,hcapability⟩)
    · rw [hstatus] at hopen
      cases hopen
    · rcases open_cases hopen with hredispatch | haccepted
      · rw [hwaiting] at hredispatch
        cases hredispatch
      · have honway := (hall command' hcommand hearly).2 haccepted hconnection result hheld
        have hcoming := coming_eraseFrame (.inl honway) hframe id
        refine coming_mono hcoming (fun _ hitem _ _ => hitem) (fun _ hf _ _ => hf)
          fun _ hf _ _ => List.mem_append_left _ hf
  · intro command' hcommand' hearly hterminal
    obtain ⟨command,hcommand,hfixed,hcases⟩ := hello_row herased hcommand'
    rw [hfixed.deadline] at hearly
    have hsame : ∀ row ∈ redelivered setting (acceptedCapabilities capabilities)
        {s with toPlane := s.toPlane.eraseIdx i}, row.commandId = command.commandId →
          command.status.redispatchable = true ∧
            getCommandCapability command.kind ∈ acceptedCapabilities capabilities := by
      intro row hrow hid
      obtain ⟨hmem,hwaiting,-,hcapability⟩ := (mem_redelivered_iff herased).mp hrow
      obtain rfl := eq_of_commandId hs.table hmem hcommand hid
      exact ⟨hwaiting,hcapability⟩
    rcases hcases hearly with ⟨-,-,hstatus⟩ | ⟨hwaiting,hcapability,-⟩ | ⟨hwaiting,rfl⟩
    · rw [hstatus] at hterminal
      cases hterminal
    · rw [hfixed.commandId]
      rcases (hall command hcommand hearly).1 hwaiting with hin | hun
      · exact absurd hin hcapability
      · exact .inr (hunstarted command hcommand hun fun row hrow hid =>
          hcapability (hsame row hrow hid).2)
    · refine (h.ended command' hcommand hearly hterminal).imp_right fun hun => ?_
      refine hunstarted command' hcommand hun fun row hrow hid => ?_
      rw [(hsame row hrow hid).1] at hwaiting
      cases hwaiting

/-- A step that loses nothing keeps results followed. -/
theorem followed_step {act : Act} (hs : Sound setting s) (h : Followed s)
    (hstep : step setting s act = some t) (hact : LosesNothing s act) : Followed t := by
  cases act with
  | tick time =>
    rw [step] at hstep
    split at hstep
    · next htime =>
        cases hstep
        exact followed_agent h rfl htime (fun _ => id) (fun _ _ hheld => .inl ⟨_,hheld⟩) (fun _ _ => id)
          (fun _ _ _ _ _ => id) fun _ => id
    · cases hstep
  | create request => exact followed_createInstanceCommand hs h hstep
  | expire instanceId serviceId =>
    cases hstep
    exact followed_expire instanceId serviceId h
  | connect capabilities =>
    rw [step] at hstep
    split at hstep
    · cases hstep
      have hnever : ∀ k, ¬(some s.opened = some k ∧ s.session.map Prod.fst = some k) := by
        rintro k ⟨hk,hsession⟩
        obtain rfl := Option.some.inj hk
        obtain ⟨session,hsome,hfirst⟩ := Option.map_eq_some_iff.mp hsession
        exact absurd hfirst (Nat.ne_of_lt (hs.tags.session session hsome))
      exact followed_agent h rfl le_rfl (fun k hk => absurd hk (hnever k))
        (fun _ _ hheld => .inl ⟨_,hheld⟩) (fun _ _ => id) (fun k _ _ hk => absurd hk (hnever k)) fun _ => id
    · cases hstep
  | lost =>
    cases hstep
    have hnever : ∀ k, ¬((none : Option ℕ) = some k ∧ s.session.map Prod.fst = some k) := fun _ hk => by cases hk.1
    exact followed_agent h rfl le_rfl (fun k hk => absurd hk (hnever k))
      (fun _ _ hheld => .inl ⟨_,hheld⟩) (fun _ _ => id) (fun k _ _ hk => absurd hk (hnever k)) fun _ => id
  | unregister =>
    cases hstep
    have hnever : ∀ k, ¬(s.connection = some k ∧ (none : Option ℕ) = some k) := fun _ hk => by cases hk.2
    exact followed_agent h rfl le_rfl (fun k hk => absurd hk (hnever k))
      (fun _ _ hheld => .inl ⟨_,hheld⟩) (fun _ _ => id) (fun k _ _ hk => absurd hk (hnever k)) fun _ => id
  | loseCommand i =>
    obtain ⟨frame,hframe,hstep⟩ := Option.bind_eq_some_iff.mp hstep
    split at hstep
    · cases hstep
    · next hbroken =>
        cases hstep
        exact followed_loseCommand h hframe hbroken
  | loseFrame i =>
    obtain ⟨frame,hframe,hstep⟩ := Option.bind_eq_some_iff.mp hstep
    split at hstep
    · cases hstep
    · next hbroken =>
        cases hstep
        exact followed_loseFrame h hframe hbroken
  | receive i supported receivedAt =>
    obtain ⟨frame,hframe,rfl⟩ := Option.map_eq_some_iff.mp hstep
    exact followed_receive h hframe
  | transmit i =>
    obtain ⟨item,hitem,hstep⟩ := Option.bind_eq_some_iff.mp hstep
    split at hstep
    · cases hstep
    · cases hstep
      exact followed_transmit h hitem
  | returns i =>
    obtain ⟨item,hitem,hstep⟩ := Option.bind_eq_some_iff.mp hstep
    split at hstep
    · next hsent =>
        cases hstep
        exact followed_returns hs h hitem hsent
    · cases hstep
  | raises i =>
    obtain ⟨item,hitem,rfl⟩ := Option.map_eq_some_iff.mp hstep
    exact followed_raises h hitem
  | complete i outcome finishedAt durationMs =>
    obtain ⟨command,hcommand,rfl⟩ := Option.map_eq_some_iff.mp hstep
    exact followed_finish hs h hcommand (commandId_result _ _ _ _)
  | handle i =>
    obtain ⟨⟨k,frame⟩,hframe,hstep⟩ := Option.bind_eq_some_iff.mp hstep
    cases frame with
    | hello capabilities =>
      cases hstep
      exact followed_hello hs h hframe hact
    | commandAck payload =>
      rw [handleFrame] at hstep
      split at hstep
      · cases hstep
        exact followed_ack hs h hframe
      · cases hstep
    | commandResult payload =>
      rw [handleFrame] at hstep
      split at hstep
      · cases hstep
        exact followed_result hs h hframe
      · cases hstep

/-- In every run whose hellos lose nothing, each result of a command that is not late has
reached its row whenever the connection is established and nothing is under way. -/
theorem results_reported (setting : Setting) (now : ℤ) (acts : List Act)
    (h : EachStep (step setting) LosesNothing {now := now} acts) :
    Throughout (step setting) Reported {now := now} acts := by
  apply throughout_of_eachStep h (J := fun s => Sound setting s ∧ Followed s)
  · rintro s act t ⟨hs,hf⟩ hstep hact
    exact ⟨sound_step hs hstep,followed_step hs hf hstep hact⟩
  · exact fun s hs => reported_of_followed hs.1 hs.2
  · refine ⟨sound_init setting now,fun _ _ _ hmem => absurd hmem List.not_mem_nil,
      fun _ hmem => absurd hmem List.not_mem_nil⟩

end Results

section Example

def pings : Setting := ⟨(· / 1000),fun k => String.ofList (Nat.toDigits 10 k),0⟩

/-- A ping ends while the agent is not connected, before its acknowledgement arrived. -/
def unackedPing : List Act := [
  .connect ["command.ping"],
  .handle 0,
  .create firstPing,
  .receive 0 true 1,
  .transmit 0,
  .returns 0,
  .lost,
  .loseFrame 0,
  .complete 0 (.succeeded []) 2 1,
  .connect ["command.ping"],
  .handle 0,
  .receive 0 true 3,
  .transmit 0,
  .returns 0,
  .handle 0,
  .transmit 0,
  .returns 0,
  .handle 0]

/-- Every command that is open when a hello is handled waits, and its capability is there. -/
def deliversAll (s : World) : Act → Bool
  | .handle i =>
    match s.toPlane[i]? with
    | some (_,.hello capabilities) => s.table.all fun command =>
      command.status.redispatchable &&
        getCommandCapability command.kind ∈ acceptedCapabilities capabilities
    | _ => true
  | _ => true

theorem losesNothing_of_deliversAll (s : World) (act : Act) (h : deliversAll s act = true) :
    LosesNothing s act := by
  cases act with
  | handle i =>
    intro k capabilities hframe command hcommand _
    rw [deliversAll,hframe] at h
    have hall := List.all_eq_true.mp h command hcommand
    rw [Bool.and_eq_true,decide_eq_true_eq] at hall
    refine ⟨fun _ => .inl hall.2,fun haccepted => ?_⟩
    rw [haccepted] at hall
    cases hall.1
  | _ => trivial

/-- The result arrives over the second connection. -/
theorem unacked_reported : ∃ s, runs (step pings) (fun _ _ => true) {now := 0} unackedPing = some s ∧
    s.table.map AgentCommand.status = [.succeeded] ∧ Reported s := by
  have h : (runs (step pings) (fun _ _ => true) {now := 0} unackedPing).map
      (fun s => s.table.map AgentCommand.status) = some [.succeeded] := by decide +kernel
  obtain ⟨s,hs,hstatus⟩ := Option.map_eq_some_iff.mp h
  have hchecks : checks (step pings) deliversAll {now := 0} unackedPing = true := by decide +kernel
  have hall := results_reported pings 0 unackedPing
    (eachStep_of_checks losesNothing_of_deliversAll hchecks)
  exact ⟨s,hs,hstatus,hall.last hs⟩

/-- A ping ends while the agent is not connected, after its acknowledgement arrived. -/
def ackedPing : List Act := [
  .connect ["command.ping"],
  .handle 0,
  .create firstPing,
  .receive 0 true 1,
  .transmit 0,
  .returns 0,
  .handle 0,
  .lost,
  .complete 0 (.succeeded []) 2 1,
  .connect ["command.ping"],
  .handle 0]

/-- The result is never sent again. -/
theorem acked_left : ∃ s, runs (step pings) (fun _ _ => true) {now := 0} ackedPing = some s ∧ Quiet s ∧
    (∃ result, Held s "a" result) ∧ s.table.map AgentCommand.status = [.accepted] ∧ ¬Reported s := by
  have h : (runs (step pings) (fun _ _ => true) {now := 0} ackedPing).map (fun s =>
      decide (Intact s 1) && s.sending.isEmpty && s.toAgent.isEmpty && s.toPlane.isEmpty &&
        ((s.receipts "a").bind Receipt.result).isSome &&
          decide ((s.table.map fun command => (command.status,decide (s.now < commandDeadline command))) =
            [(.accepted,true)])) = some true := by decide +kernel
  obtain ⟨s,hs,hvalues⟩ := Option.map_eq_some_iff.mp h
  simp only [Bool.and_eq_true,decide_eq_true_eq,List.isEmpty_iff,Option.isSome_iff_exists] at hvalues
  obtain ⟨⟨⟨⟨⟨hintact,hsending⟩,htoAgent⟩,htoPlane⟩,result,hresult⟩,hrows⟩ := hvalues
  have hquiet : Quiet s := ⟨⟨1,hintact⟩,hsending,htoAgent,htoPlane⟩
  obtain ⟨receipt,hreceipt,hheld⟩ := Option.bind_eq_some_iff.mp hresult
  have hstatus : s.table.map AgentCommand.status = [.accepted] := by
    have hfst := congrArg (List.map Prod.fst) hrows
    rw [List.map_map] at hfst
    exact hfst
  refine ⟨s,hs,hquiet,⟨result,receipt,hreceipt,hheld⟩,hstatus,fun hreported => ?_⟩
  obtain ⟨command,hcommand,-,hbears⟩ := hreported hquiet "a" result ⟨receipt,hreceipt,hheld⟩
  have hrow : (command.status,decide (s.now < commandDeadline command)) ∈
      s.table.map fun command => (command.status,decide (s.now < commandDeadline command)) :=
    List.mem_map_of_mem hcommand
  rw [hrows,List.mem_singleton,Prod.mk.injEq,decide_eq_true_eq] at hrow
  have hended := (hbears hrow.2).status
  rw [hrow.1] at hended
  exact (status_reported result.status).2.2.1 hended.symm

end Example

end OneStep.CommandResults
