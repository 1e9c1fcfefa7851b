import OneStep.SharedConnections
import OneStep.Transition

/-!
# The references to a shared connection are counted

The count is that of the open queues and of the references in the hands of operations, as
long as an operation marks a queue open that is not, and gives up for a queue what is marked.
The connection is then there while anything is counted, and is closed when nothing is.
-/
namespace OneStep.ConnectionCounts
open ReferenceLedger SharedConnections Transition

variable {Q : Type}

section Redis

def redisHeld (op : RedisOp Q) : ℕ :=
  match op.phase with
  | .creatingGroup => 1
  | .releasing => 1
  | _ => 0

def redisCloses (op : RedisOp Q) : ℕ :=
  match op.phase with
  | .closingRedis => 1
  | .closingPool => 1
  | _ => 0

/-- An operation marks a queue open that is not, gives up one that is, loses no reference it
holds, and closing the connection succeeds. -/
def RedisCareful [DecidableEq Q] (createGroup : Q → Bool) (s : RedisState Q) : Op Q → Prop
  | .call _ _ => True
  | .resume i a => ∀ op, s.ops[i]? = some op →
      match op.phase,a with
      | .acquiring,.returned => createGroup op.queue = false → op.queue ∉ s.opened
      | .creatingGroup,.returned => op.queue ∉ s.opened
      | .creatingGroup,_ => False
      | .working,.failed true => op.queue ∈ s.opened
      | .releasing,.cancelled => False
      | .closingRedis,.returned => True
      | .closingRedis,_ => False
      | .closingPool,.returned => True
      | .closingPool,_ => False
      | _,_ => True

structure RedisCounted (s : RedisState Q) : Prop where
  balanced : Balanced redisHeld s.toLedger
  closers : load redisCloses s.ops = if s.locked then 1 else 0
  busy : s.locked = true → s.count = 0
  shared : 0 < s.count → s.redis = true ∧ s.pool = true
  idle : s.locked = false → s.count = 0 → s.redis = false ∧ s.pool = false
  poolLast : ∀ op ∈ s.ops, op.phase = .closingPool → s.redis = false

variable {createGroup : Q → Bool} {s t : RedisState Q} {i : ℕ} {op : RedisOp Q}

theorem RedisCounted.none_closes (h : RedisCounted s) (hlocked : s.locked = false) :
    ∀ op ∈ s.ops, redisCloses op = 0 := by
  intro op hop
  have hle : redisCloses op ≤ load redisCloses s.ops := weight_le_load hop
  have hclosers := h.closers
  rw [hlocked] at hclosers
  exact Nat.le_zero.mp (hle.trans hclosers.le)

theorem RedisCounted.locked (h : RedisCounted s) (hop : op ∈ s.ops) (hcloses : redisCloses op = 1) :
    s.locked = true := by
  cases hlocked : s.locked with
  | true => rfl
  | false =>
    rw [h.none_closes hlocked op hop] at hcloses
    cases hcloses

theorem RedisCounted.pos (h : RedisCounted s) (hop : op ∈ s.ops) (hheld : redisHeld op = 1) :
    0 < s.count := by
  have hle : redisHeld op ≤ load redisHeld s.ops := weight_le_load hop
  have hbalanced := h.balanced
  unfold ReferenceLedger.Balanced at hbalanced
  omega

theorem closers_set (h : RedisCounted s) (hop : s.ops[i]? = some op) {op' : RedisOp Q} {b : Bool}
    (he : (if b then 1 else 0)+redisCloses op = (if s.locked then 1 else 0)+redisCloses op') :
    load redisCloses (s.ops.set i op') = if b then 1 else 0 := by
  have hload : load redisCloses (s.ops.set i op')+redisCloses op =
      load redisCloses s.ops+redisCloses op' := load_set hop
  have hclosers := h.closers
  omega

theorem poolLast_set {ops : List (RedisOp Q)} {redis : Bool} {op' : RedisOp Q}
    (h : ∀ op ∈ ops, op.phase = .closingPool → redis = false)
    (hop : op'.phase = .closingPool → redis = false) :
    ∀ op ∈ ops.set i op', op.phase = .closingPool → redis = false := by
  intro o ho hphase
  rcases List.mem_or_eq_of_mem_set ho with hold | rfl
  · exact h o hold hphase
  · exact hop hphase

theorem RedisCounted.goto (h : RedisCounted s) (hop : s.ops[i]? = some op) {phase : RedisPhase}
    (hheld : redisHeld {op with phase := phase} = redisHeld op)
    (hcloses : redisCloses {op with phase := phase} = redisCloses op)
    (hphase : phase ≠ .closingPool) : RedisCounted (s.goto i op phase) := by
  refine ⟨h.balanced.update hop ?_,closers_set h hop ?_,h.busy,h.shared,h.idle,?_⟩
  · rw [hheld]
  · rw [hcloses]
    rfl
  · exact poolLast_set h.poolLast fun he => absurd he hphase

theorem afterOpen_eq (s : RedisState Q) (i : ℕ) (op : RedisOp Q) :
    ∃ phase, s.afterOpen i op = s.goto i op phase ∧
    redisHeld {op with phase := phase} = 0 ∧ redisCloses {op with phase := phase} = 0 ∧
    phase ≠ .closingPool := by
  unfold RedisState.afterOpen
  cases op.kind with
  | opening => exact ⟨.done,rfl,rfl,rfl,nofun⟩
  | closing => exact ⟨.working,rfl,rfl,rfl,nofun⟩
  | fetching => exact ⟨.working,rfl,rfl,rfl,nofun⟩
  | sending => exact ⟨.working,rfl,rfl,rfl,nofun⟩

theorem redisCounted_release (h : RedisCounted s) (hop : s.ops[i]? = some op)
    (hphase : op.phase = .releasing) (hlocked : s.locked = false) :
    RedisCounted (s.release i op) := by
  have hheld : redisHeld op = 1 := by rw [redisHeld,hphase]
  have hcloses : redisCloses op = 0 := by rw [redisCloses,hphase]
  have hpos := h.pos (List.mem_of_getElem? hop) hheld
  have hbalanced : ∀ phase, redisHeld {op with phase := phase} = 0 →
      Balanced redisHeld ⟨s.count-1,s.opened,s.ops.set i {op with phase := phase}⟩ := by
    intro phase hzero
    refine h.balanced.update hop ?_
    rw [hzero,hheld]
    omega
  unfold RedisState.release
  dsimp only
  split
  · next hzero =>
      unfold RedisState.closeConnection
      dsimp only
      rw [if_pos (h.shared hpos).1]
      refine ⟨hbalanced .closingRedis rfl,closers_set h hop ?_,fun _ => hzero,fun hcount => ?_,
        nofun,poolLast_set h.poolLast nofun⟩
      · rw [hcloses,hlocked]
        rfl
      · exact absurd hzero (Nat.pos_iff_ne_zero.mp hcount)
  · next hzero =>
      refine ⟨hbalanced .done rfl,closers_set h hop ?_,fun hl => ?_,fun _ => h.shared hpos,
        fun _ hcount => absurd hcount hzero,poolLast_set h.poolLast nofun⟩
      · rw [hcloses]
        rfl
      · exact absurd (hlocked.symm.trans hl) Bool.false_ne_true

theorem redisCounted_redisClosed (h : RedisCounted s) (hop : s.ops[i]? = some op)
    (hphase : op.phase = .closingRedis) : RedisCounted (s.redisClosed i op) := by
  have hheld : redisHeld op = 0 := by rw [redisHeld,hphase]
  have hcloses : redisCloses op = 1 := by rw [redisCloses,hphase]
  have hlocked := h.locked (List.mem_of_getElem? hop) hcloses
  have hzero := h.busy hlocked
  have hnone : 0 < s.count → False := fun hpos => Nat.ne_of_gt hpos hzero
  unfold RedisState.redisClosed RedisState.unlock
  split
  · refine ⟨h.balanced.update hop ?_,closers_set h hop ?_,h.busy,fun hpos => (hnone hpos).elim,
      fun hl => ?_,fun _ _ _ => rfl⟩
    · rw [hheld]
      rfl
    · rw [hcloses]
      rfl
    · exact absurd (hl.symm.trans hlocked) Bool.false_ne_true
  · next hpool =>
      refine ⟨h.balanced.update hop ?_,closers_set h hop ?_,nofun,fun hpos => (hnone hpos).elim,
        fun _ _ => ⟨rfl,Bool.eq_false_iff.mpr hpool⟩,fun _ _ _ => rfl⟩
      · rw [hheld]
        rfl
      · rw [hcloses,hlocked]
        rfl

theorem redisCounted_poolClosed (h : RedisCounted s) (hop : s.ops[i]? = some op)
    (hphase : op.phase = .closingPool) :
    RedisCounted (RedisState.unlock {s with pool := false} i op) := by
  have hheld : redisHeld op = 0 := by rw [redisHeld,hphase]
  have hcloses : redisCloses op = 1 := by rw [redisCloses,hphase]
  have hmem := List.mem_of_getElem? hop
  have hlocked := h.locked hmem hcloses
  have hzero := h.busy hlocked
  refine ⟨h.balanced.update hop ?_,closers_set h hop ?_,nofun,fun hpos => ?_,
    fun _ _ => ⟨h.poolLast op hmem hphase,rfl⟩,poolLast_set h.poolLast nofun⟩
  · rw [hheld]
    rfl
  · rw [hcloses,hlocked]
    rfl
  · exact absurd hzero (Nat.pos_iff_ne_zero.mp hpos)

variable [DecidableEq Q]

theorem redisCounted_setOpened (h : RedisCounted s) (hop : s.ops[i]? = some op)
    (hphase : op.phase = .creatingGroup) (hclosed : op.queue ∉ s.opened) :
    RedisCounted (s.setOpened i op) := by
  have hheld : redisHeld op = 1 := by rw [redisHeld,hphase]
  have hcloses : redisCloses op = 0 := by rw [redisCloses,hphase]
  obtain ⟨phase,he,hheld',hcloses',hne⟩ :=
    afterOpen_eq {s with opened := insert op.queue s.opened} i _
  unfold RedisState.setOpened
  rw [he]
  refine ⟨h.balanced.update hop ?_,closers_set h hop ?_,h.busy,h.shared,h.idle,?_⟩
  · change s.count+s.opened.card+redisHeld op = s.count+(insert op.queue s.opened).card+_
    rw [Finset.card_insert_of_notMem hclosed,hheld,hheld']
    omega
  · rw [hcloses,hcloses']
    rfl
  · exact poolLast_set h.poolLast fun hp => absurd hp hne

theorem redisCounted_acquire (h : RedisCounted s) (hop : s.ops[i]? = some op)
    (hphase : op.phase = .acquiring) (hlocked : s.locked = false)
    (hcareful : createGroup op.queue = false → op.queue ∉ s.opened) :
    RedisCounted (s.acquire i op createGroup) := by
  have hheld : redisHeld op = 0 := by rw [redisHeld,hphase]
  have hcloses : redisCloses op = 0 := by rw [redisCloses,hphase]
  have hshared : s.pool || !s.redis := by
    cases hcount : s.count with
    | zero => rw [(h.idle hlocked hcount).1,Bool.not_false,Bool.or_true]
    | succ n => rw [(h.shared (by omega)).2,Bool.true_or]
  have hpool : ∀ op ∈ s.ops, op.phase = .closingPool → true = false := by
    intro o ho hp
    have hnone := h.none_closes hlocked o ho
    rw [redisCloses,hp] at hnone
    cases hnone
  unfold RedisState.acquire
  dsimp only
  split
  · refine ⟨h.balanced.update hop ?_,closers_set h hop ?_,fun hl => ?_,fun _ => ⟨rfl,hshared⟩,
      fun _ hzero => absurd hzero (Nat.succ_ne_zero _),poolLast_set hpool nofun⟩
    · change s.count+1+s.opened.card+redisHeld op = s.count+s.opened.card+1
      rw [hheld]
      omega
    · rw [hcloses]
      rfl
    · exact absurd (hlocked.symm.trans hl) Bool.false_ne_true
  · next hgroup =>
      have hclosed := hcareful (Bool.eq_false_iff.mpr hgroup)
      unfold RedisState.setOpened
      obtain ⟨phase,he,hheld',hcloses',hne⟩ := afterOpen_eq
        {s with
          count := s.count+1, redis := true, pool := s.pool || !s.redis
          opened := insert op.queue s.opened} i op
      rw [he]
      refine ⟨h.balanced.update hop ?_,closers_set h hop ?_,fun hl => ?_,fun _ => ⟨rfl,hshared⟩,
        fun _ hzero => absurd hzero (Nat.succ_ne_zero _),
        poolLast_set hpool fun hp => absurd hp hne⟩
      · change s.count+1+s.opened.card+redisHeld op = s.count+(insert op.queue s.opened).card+_
        rw [Finset.card_insert_of_notMem hclosed,hheld,hheld']
        omega
      · rw [hcloses,hcloses']
        rfl
      · exact absurd (hlocked.symm.trans hl) Bool.false_ne_true

theorem redisCounted_reset (h : RedisCounted s) (hop : s.ops[i]? = some op)
    (hphase : op.phase = .working) (hopened : op.queue ∈ s.opened) :
    RedisCounted (s.resetTransportState i op) := by
  have hheld : redisHeld op = 0 := by rw [redisHeld,hphase]
  have hcloses : redisCloses op = 0 := by rw [redisCloses,hphase]
  have hcard := Finset.card_erase_add_one hopened
  refine ⟨h.balanced.update hop ?_,closers_set h hop ?_,h.busy,h.shared,h.idle,
    poolLast_set h.poolLast nofun⟩
  · change s.count+s.opened.card+redisHeld op = s.count+(s.opened.erase op.queue).card+1
    omega
  · rw [hcloses]
    rfl

theorem redisCounted_call (h : RedisCounted s) (q : Q) (kind : Kind) :
    RedisCounted (redisCall s q kind) := by
  have hplain : ∀ phase, redisHeld ⟨q,kind,phase⟩ = 0 → redisCloses ⟨q,kind,phase⟩ = 0 →
      phase ≠ .closingPool → RedisCounted {s with ops := s.ops++[⟨q,kind,phase⟩]} := by
    intro phase hheld hcloses hne
    refine ⟨h.balanced.start ?_,?_,h.busy,h.shared,h.idle,?_⟩
    · rw [hheld,Nat.add_zero]
    · rw [load_append,hcloses]
      exact h.closers
    · intro o ho hp
      rcases List.mem_append.mp ho with hold | hnew
      · exact h.poolLast o hold hp
      · rw [List.mem_singleton.mp hnew] at hp
        exact absurd hp hne
  unfold redisCall
  cases kind with
  | closing =>
    dsimp only
    split
    · next hq =>
        have hcard := Finset.card_erase_add_one hq
        refine ⟨h.balanced.start ?_,?_,h.busy,h.shared,h.idle,?_⟩
        · change s.count+s.opened.card = s.count+(s.opened.erase q).card+1
          omega
        · rw [load_append]
          exact h.closers
        · intro o ho hp
          rcases List.mem_append.mp ho with hold | hnew
          · exact h.poolLast o hold hp
          · rw [List.mem_singleton.mp hnew] at hp
            cases hp
    · exact hplain .done rfl rfl nofun
  | opening =>
    dsimp only
    split
    · exact hplain .done rfl rfl nofun
    · exact hplain .acquiring rfl rfl nofun
  | fetching | sending =>
    dsimp only
    split
    · exact hplain .working rfl rfl nofun
    · exact hplain .acquiring rfl rfl nofun

/-- A careful step keeps the count. -/
theorem redisCounted_step {l : Op Q} (h : RedisCounted s)
    (hstep : redisPerform createGroup s l = some t) (hcareful : RedisCareful createGroup s l) :
    RedisCounted t := by
  cases l with
  | call q kind =>
    cases hstep
    exact redisCounted_call h q kind
  | resume i a =>
    obtain ⟨op,hop,hresume⟩ := Option.bind_eq_some_iff.mp hstep
    have hmay := hcareful op hop
    clear hcareful
    unfold RedisState.resume at hresume
    have hgoto : ∀ phase, redisHeld {op with phase := phase} = redisHeld op →
        redisCloses {op with phase := phase} = redisCloses op → phase ≠ .closingPool →
        some (s.goto i op phase) = some t → RedisCounted t := by
      intro phase hheld hcloses hne he
      cases he
      exact h.goto hop hheld hcloses hne
    cases hphase : op.phase
    all_goals
      rw [hphase] at hresume hmay
      cases a
    case acquiring.returned =>
      dsimp only at hresume hmay
      split at hresume
      · cases hresume
      · next hlocked =>
          cases hresume
          exact redisCounted_acquire h hop hphase (Bool.eq_false_iff.mpr hlocked) hmay
    case acquiring.failed =>
      dsimp only at hresume
      split at hresume
      · cases hresume
      · exact hgoto .done (by rw [redisHeld,redisHeld,hphase])
          (by rw [redisCloses,redisCloses,hphase]) nofun hresume
    case acquiring.cancelled | working.returned | working.cancelled =>
      exact hgoto .done (by rw [redisHeld,redisHeld,hphase])
        (by rw [redisCloses,redisCloses,hphase]) nofun hresume
    case creatingGroup.returned =>
      cases hresume
      exact redisCounted_setOpened h hop hphase hmay
    case working.failed connectorError =>
      cases connectorError with
      | true =>
        cases hresume
        exact redisCounted_reset h hop hphase hmay
      | false =>
        exact hgoto .done (by rw [redisHeld,redisHeld,hphase])
          (by rw [redisCloses,redisCloses,hphase]) nofun hresume
    case releasing.returned =>
      dsimp only at hresume
      split at hresume
      · cases hresume
      · next hlocked =>
          cases hresume
          exact redisCounted_release h hop hphase (Bool.eq_false_iff.mpr hlocked)
    case releasing.failed => cases hresume
    case closingRedis.returned =>
      cases hresume
      exact redisCounted_redisClosed h hop hphase
    case closingPool.returned =>
      cases hresume
      exact redisCounted_poolClosed h hop hphase
    case done.returned | done.failed | done.cancelled => cases hresume
    all_goals exact hmay.elim

end Redis

section RabbitMQ

def rabbitHeld (op : RabbitOp Q) : ℕ :=
  match op.phase with
  | .declaring => 1
  | .resetting acquired _ => if acquired then 1 else 0
  | .releasing _ _ => 1
  | _ => 0

def rabbitLocks (op : RabbitOp Q) : ℕ :=
  match op.phase with
  | .connecting => 1
  | .closingConnection _ _ => 1
  | _ => 0

/-- An operation marks a queue open that is not, a reset gives up either the reference it holds
or that of an open queue, and no reference that is held or owed is lost by a cancellation. -/
def RabbitCareful [DecidableEq Q] (s : RabbitState Q) : Option (Op Q) → Prop
  | some (.resume i a) => ∀ op, s.ops[i]? = some op →
      match op.phase,a with
      | .declaring,.returned => op.queue ∉ s.opened
      | .declaring,.cancelled => op.kind = .fetching
      | .resetting acquired _,_ => (op.queue ∈ s.opened ↔ acquired = false)
      | .releasing nested _,.cancelled => nested = true
      | _,_ => True
  | _ => True

structure RabbitCounted (s : RabbitState Q) : Prop where
  balanced : Balanced rabbitHeld s.toLedger
  lockers : load rabbitLocks s.ops = if s.locked then 1 else 0
  shared : s.connection = none ↔ s.count = 0
  closing : ∀ op ∈ s.ops, ∀ nested cancelled,
    op.phase = .closingConnection nested cancelled → s.count = 0

variable {s t : RabbitState Q} {i : ℕ} {op : RabbitOp Q}

theorem RabbitCounted.none_locks (h : RabbitCounted s) (hlocked : s.locked = false) :
    ∀ op ∈ s.ops, rabbitLocks op = 0 := by
  intro op hop
  have hle : rabbitLocks op ≤ load rabbitLocks s.ops := weight_le_load hop
  have hlockers := h.lockers
  rw [hlocked] at hlockers
  exact Nat.le_zero.mp (hle.trans hlockers.le)

theorem RabbitCounted.locked (h : RabbitCounted s) (hop : op ∈ s.ops) (hlocks : rabbitLocks op = 1) :
    s.locked = true := by
  cases hlocked : s.locked with
  | true => rfl
  | false =>
    rw [h.none_locks hlocked op hop] at hlocks
    cases hlocks

theorem RabbitCounted.pos (h : RabbitCounted s) (hop : op ∈ s.ops) (hheld : rabbitHeld op = 1) :
    0 < s.count := by
  have hle : rabbitHeld op ≤ load rabbitHeld s.ops := weight_le_load hop
  have hbalanced := h.balanced
  unfold ReferenceLedger.Balanced at hbalanced
  omega

theorem lockers_set (h : RabbitCounted s) (hop : s.ops[i]? = some op) {op' : RabbitOp Q} {b : Bool}
    (he : (if b then 1 else 0)+rabbitLocks op = (if s.locked then 1 else 0)+rabbitLocks op') :
    load rabbitLocks (s.ops.set i op') = if b then 1 else 0 := by
  have hload : load rabbitLocks (s.ops.set i op')+rabbitLocks op =
      load rabbitLocks s.ops+rabbitLocks op' := load_set hop
  have hlockers := h.lockers
  omega

theorem closing_set {ops : List (RabbitOp Q)} {count : ℕ} {op' : RabbitOp Q}
    (h : ∀ op ∈ ops, ∀ nested cancelled,
      op.phase = .closingConnection nested cancelled → count = 0)
    (hop : ∀ nested cancelled, op'.phase = .closingConnection nested cancelled → count = 0) :
    ∀ op ∈ ops.set i op', ∀ nested cancelled,
      op.phase = .closingConnection nested cancelled → count = 0 := by
  intro o ho
  rcases List.mem_or_eq_of_mem_set ho with hold | rfl
  · exact h o hold
  · exact hop

theorem closing_unlocked {ops : List (RabbitOp Q)} (h : load rabbitLocks ops = 0) (count : ℕ) :
    ∀ op ∈ ops, ∀ nested cancelled,
      op.phase = .closingConnection nested cancelled → count = 0 := by
  intro o ho nested cancelled hphase
  have hle : rabbitLocks o ≤ load rabbitLocks ops := weight_le_load ho
  rw [h,rabbitLocks,hphase] at hle
  exact absurd hle (Nat.not_succ_le_zero 0)

theorem RabbitCounted.goto (h : RabbitCounted s) (hop : s.ops[i]? = some op) {phase : RabbitPhase}
    {locked : Bool} (hheld : rabbitHeld {op with phase := phase} = rabbitHeld op)
    (hlocks : (if locked then 1 else 0)+rabbitLocks op =
      (if s.locked then 1 else 0)+rabbitLocks {op with phase := phase})
    (hphase : ∀ nested cancelled, phase ≠ .closingConnection nested cancelled) :
    RabbitCounted (RabbitState.goto {s with locked := locked} i op phase) := by
  refine ⟨h.balanced.update hop ?_,lockers_set h hop hlocks,h.shared,?_⟩
  · rw [hheld]
  · exact closing_set h.closing fun nested cancelled he => absurd he (hphase nested cancelled)

theorem RabbitCounted.move (h : RabbitCounted s) (hop : s.ops[i]? = some op) {phase : RabbitPhase}
    (hheld : rabbitHeld {op with phase := phase} = rabbitHeld op)
    (hlocks : rabbitLocks {op with phase := phase} = rabbitLocks op)
    (hphase : ∀ nested cancelled, phase ≠ .closingConnection nested cancelled) :
    RabbitCounted (s.goto i op phase) :=
  h.goto hop hheld (by rw [hlocks]) hphase

theorem rabbitCounted_acquire (h : RabbitCounted s) (hop : s.ops[i]? = some op)
    (hphase : op.phase = .acquiring) (hlocked : s.locked = false) :
    RabbitCounted (s.acquire i op) := by
  have hheld : rabbitHeld op = 0 := by rw [rabbitHeld,hphase]
  have hlocks : rabbitLocks op = 0 := by rw [rabbitLocks,hphase]
  unfold RabbitState.acquire
  split
  · next hconnection =>
      have hload : load rabbitLocks (s.ops.set i {op with phase := .declaring}) =
          if s.locked then 1 else 0 := lockers_set h hop (by rw [hlocks]; rfl)
      refine ⟨h.balanced.update hop ?_,hload,?_,?_⟩
      · change s.count+1+s.opened.card+rabbitHeld op = s.count+s.opened.card+1
        rw [hheld]
        omega
      · refine iff_of_false ?_ (Nat.succ_ne_zero _)
        change ¬s.connection = none
        rw [hconnection]
        exact nofun
      · rw [hlocked] at hload
        exact closing_unlocked hload _
  · refine h.goto hop ?_ ?_ nofun
    · rw [hheld]
      rfl
    · rw [hlocks,hlocked]
      rfl

theorem rabbitCounted_connected (h : RabbitCounted s) (hop : s.ops[i]? = some op)
    (hphase : op.phase = .connecting) : RabbitCounted (s.connected i op) := by
  have hheld : rabbitHeld op = 0 := by rw [rabbitHeld,hphase]
  have hlocks : rabbitLocks op = 1 := by rw [rabbitLocks,hphase]
  have hlocked := h.locked (List.mem_of_getElem? hop) hlocks
  have hload : load rabbitLocks (s.ops.set i {op with phase := .declaring}) =
      if false then 1 else 0 := lockers_set h hop (by rw [hlocks,hlocked]; rfl)
  refine ⟨h.balanced.update hop ?_,hload,?_,closing_unlocked hload _⟩
  · change s.count+1+s.opened.card+rabbitHeld op = s.count+s.opened.card+1
    rw [hheld]
    omega
  · exact iff_of_false nofun (Nat.succ_ne_zero _)

variable {nested : Bool}

theorem rabbitCounted_release (h : RabbitCounted s) (hop : s.ops[i]? = some op) {cancelled : Bool}
    (hphase : op.phase = .releasing nested cancelled) (hlocked : s.locked = false) :
    RabbitCounted (s.release i op nested cancelled) := by
  have hheld : rabbitHeld op = 1 := by rw [rabbitHeld,hphase]
  have hlocks : rabbitLocks op = 0 := by rw [rabbitLocks,hphase]
  have hpos := h.pos (List.mem_of_getElem? hop) hheld
  have hsome : s.connection ≠ none := fun hnone => Nat.ne_of_gt hpos (h.shared.mp hnone)
  have hbalanced : ∀ phase, rabbitHeld {op with phase := phase} = 0 →
      Balanced rabbitHeld ⟨s.count-1,s.opened,s.ops.set i {op with phase := phase}⟩ := by
    intro phase hzero
    refine h.balanced.update hop ?_
    rw [hzero,hheld]
    omega
  unfold RabbitState.release
  dsimp only
  split
  · next hzero =>
      refine ⟨hbalanced (.closingConnection nested cancelled) rfl,lockers_set h hop ?_,
        iff_of_true rfl hzero.1,fun _ _ _ _ _ => hzero.1⟩
      rw [hlocks,hlocked]
      rfl
  · next hzero =>
      have hcount : s.count-1 ≠ 0 := fun he => hzero ⟨he,Option.isSome_iff_ne_none.mpr hsome⟩
      have hdone : ∀ phase, rabbitHeld {op with phase := phase} = 0 →
          rabbitLocks {op with phase := phase} = 0 →
          RabbitCounted (RabbitState.goto {s with count := s.count-1} i op phase) := by
        intro phase hzero hfree
        have hload : load rabbitLocks (s.ops.set i {op with phase := phase}) =
            if s.locked then 1 else 0 := lockers_set h hop (by rw [hlocks,hfree])
        refine ⟨hbalanced phase hzero,hload,iff_of_false hsome hcount,?_⟩
        rw [hlocked] at hload
        exact closing_unlocked hload _
      unfold RabbitState.finish
      split
      · exact hdone _ rfl rfl
      · exact hdone _ rfl rfl

theorem rabbitCounted_closed (h : RabbitCounted s) (hop : s.ops[i]? = some op) {cancelled : Bool}
    (hphase : op.phase = .closingConnection nested cancelled) (nested' cancelled' : Bool) :
    RabbitCounted (s.unlock.finish i op nested' cancelled') := by
  have hheld : rabbitHeld op = 0 := by rw [rabbitHeld,hphase]
  have hlocks : rabbitLocks op = 1 := by rw [rabbitLocks,hphase]
  have hlocked := h.locked (List.mem_of_getElem? hop) hlocks
  unfold RabbitState.finish RabbitState.unlock
  split
  all_goals
    refine h.goto hop ?_ ?_ nofun
    · rw [hheld]
      rfl
    · rw [hlocks,hlocked]
      rfl

theorem failOpen_eq (s : RabbitState Q) (i : ℕ) (op : RabbitOp Q) :
    ∃ nested, s.failOpen i op = s.goto i op (.resetting true nested) := by
  unfold RabbitState.failOpen
  cases op.kind with
  | fetching => exact ⟨true,rfl⟩
  | opening => exact ⟨false,rfl⟩
  | closing => exact ⟨false,rfl⟩
  | sending => exact ⟨false,rfl⟩

theorem cancel_eq {acquired : Bool} : s.cancel i op acquired = s.goto i op .done ∨
    s.cancel i op acquired = s.goto i op (.resetting acquired false) := by
  unfold RabbitState.cancel
  cases op.kind with
  | fetching => exact .inr rfl
  | opening => exact .inl rfl
  | closing => exact .inl rfl
  | sending => exact .inl rfl

theorem rabbitAfterOpen_eq : ∃ phase, s.afterOpen i op = s.goto i op phase ∧
    rabbitHeld {op with phase := phase} = 0 ∧ rabbitLocks {op with phase := phase} = 0 ∧
    ∀ nested cancelled, phase ≠ .closingConnection nested cancelled := by
  unfold RabbitState.afterOpen
  cases op.kind with
  | opening => exact ⟨.done,rfl,rfl,rfl,nofun⟩
  | closing => exact ⟨.working,rfl,rfl,rfl,nofun⟩
  | fetching => exact ⟨.working,rfl,rfl,rfl,nofun⟩
  | sending => exact ⟨.working,rfl,rfl,rfl,nofun⟩

variable [DecidableEq Q]

theorem rabbitCounted_setOpened (h : RabbitCounted s) (hop : s.ops[i]? = some op)
    (hphase : op.phase = .declaring) (hclosed : op.queue ∉ s.opened) :
    RabbitCounted (s.setOpened i op) := by
  have hheld : rabbitHeld op = 1 := by rw [rabbitHeld,hphase]
  have hlocks : rabbitLocks op = 0 := by rw [rabbitLocks,hphase]
  obtain ⟨phase,he,hheld',hlocks',hne⟩ :=
    rabbitAfterOpen_eq (s := {s with opened := insert op.queue s.opened}) (i := i)
  unfold RabbitState.setOpened
  rw [he]
  refine ⟨h.balanced.update hop ?_,lockers_set h hop ?_,h.shared,
    closing_set h.closing fun nested cancelled hc => absurd hc (hne nested cancelled)⟩
  · change s.count+s.opened.card+rabbitHeld op = s.count+(insert op.queue s.opened).card+_
    rw [Finset.card_insert_of_notMem hclosed,hheld,hheld']
    omega
  · rw [hlocks,hlocks']
    rfl

theorem rabbitCounted_clear (h : RabbitCounted s) (hop : s.ops[i]? = some op) {acquired : Bool}
    (hphase : op.phase = .resetting acquired nested)
    (howner : op.queue ∈ s.opened ↔ acquired = false) (nested' cancelled : Bool) :
    RabbitCounted (s.clearTransportState i op nested' cancelled) := by
  have hlocks : rabbitLocks op = 0 := by rw [rabbitLocks,hphase]
  have hcount : s.count+s.opened.card+rabbitHeld op =
      s.count+(s.opened.erase op.queue).card+1 := by
    cases acquired with
    | true =>
      have hnot : op.queue ∉ s.opened := fun hq => Bool.noConfusion (howner.mp hq)
      rw [Finset.erase_eq_of_notMem hnot,rabbitHeld,hphase]
      rfl
    | false =>
      have hcard := Finset.card_erase_add_one (howner.mpr rfl)
      rw [rabbitHeld,hphase]
      dsimp only
      rw [if_neg Bool.false_ne_true]
      omega
  refine ⟨h.balanced.update hop hcount,lockers_set h hop ?_,h.shared,closing_set h.closing nofun⟩
  rw [hlocks]
  rfl

theorem rabbitCounted_call (h : RabbitCounted s) (q : Q) (kind : Kind) :
    RabbitCounted (rabbitCall s q kind) := by
  have hplain : ∀ phase, rabbitHeld ⟨q,kind,phase⟩ = 0 → rabbitLocks ⟨q,kind,phase⟩ = 0 →
      (∀ nested cancelled, phase ≠ .closingConnection nested cancelled) →
      RabbitCounted {s with ops := s.ops++[⟨q,kind,phase⟩]} := by
    intro phase hheld hlocks hne
    refine ⟨h.balanced.start ?_,?_,h.shared,?_⟩
    · rw [hheld,Nat.add_zero]
    · rw [load_append,hlocks]
      exact h.lockers
    · intro o ho nested cancelled hp
      rcases List.mem_append.mp ho with hold | hnew
      · exact h.closing o hold nested cancelled hp
      · rw [List.mem_singleton.mp hnew] at hp
        exact absurd hp (hne nested cancelled)
  unfold rabbitCall
  cases kind with
  | closing =>
    dsimp only
    split
    · exact hplain (.resetting false false) rfl rfl nofun
    · exact hplain .done rfl rfl nofun
  | opening =>
    dsimp only
    split
    · exact hplain .done rfl rfl nofun
    · exact hplain .acquiring rfl rfl nofun
  | fetching | sending =>
    dsimp only
    split
    · exact hplain .working rfl rfl nofun
    · exact hplain .acquiring rfl rfl nofun

theorem rabbitCounted_resume (h : RabbitCounted s) (hop : s.ops[i]? = some op) {a : Await}
    (hresume : s.resume i op a = some t) (hcareful : RabbitCareful s (some (.resume i a))) :
    RabbitCounted t := by
  have hmay := hcareful op hop
  clear hcareful
  have hmove : ∀ phase, rabbitHeld {op with phase := phase} = rabbitHeld op →
      rabbitLocks {op with phase := phase} = rabbitLocks op →
      (∀ nested cancelled, phase ≠ .closingConnection nested cancelled) →
      some (s.goto i op phase) = some t → RabbitCounted t := by
    intro phase hheld hlocks hne he
    cases he
    exact h.move hop hheld hlocks hne
  have hcancel : op.phase = .acquiring ∨ op.phase = .working →
      some (s.cancel i op false) = some t → RabbitCounted t := by
    intro hphase he
    have hzero : rabbitHeld op = 0 ∧ rabbitLocks op = 0 := by
      rcases hphase with hphase | hphase <;> simp [rabbitHeld,rabbitLocks,hphase]
    rcases cancel_eq (s := s) (i := i) with hdone | hresets
    · rw [hdone] at he
      exact hmove .done hzero.1.symm hzero.2.symm nofun he
    · rw [hresets] at he
      exact hmove (.resetting false false) hzero.1.symm hzero.2.symm nofun he
  unfold RabbitState.resume at hresume
  cases hphase : op.phase
  all_goals rw [hphase] at hresume hmay
  case acquiring =>
    cases a
    case returned =>
      dsimp only at hresume
      split at hresume
      · cases hresume
      · next hlocked =>
          cases hresume
          exact rabbitCounted_acquire h hop hphase (Bool.eq_false_iff.mpr hlocked)
    case failed => cases hresume
    case cancelled => exact hcancel (.inl hphase) hresume
  case connecting =>
    have hheld : rabbitHeld op = 0 := by rw [rabbitHeld,hphase]
    have hlocks : rabbitLocks op = 1 := by rw [rabbitLocks,hphase]
    have hlocked := h.locked (List.mem_of_getElem? hop) hlocks
    have hfree : ∀ phase, rabbitHeld {op with phase := phase} = 0 →
        rabbitLocks {op with phase := phase} = 0 →
        (∀ nested cancelled, phase ≠ .closingConnection nested cancelled) →
        RabbitCounted (s.unlock.goto i op phase) := by
      intro phase hzero hnolock hne
      refine h.goto hop (by rw [hzero,hheld]) ?_ hne
      rw [hlocks,hlocked,hnolock]
      rfl
    cases a
    case returned =>
      cases hresume
      exact rabbitCounted_connected h hop hphase
    case failed =>
      cases hresume
      exact hfree .done rfl rfl nofun
    case cancelled =>
      cases hresume
      rcases cancel_eq (s := s.unlock) (i := i) with hdone | hresets
      · rw [hdone]
        exact hfree .done rfl rfl nofun
      · rw [hresets]
        exact hfree (.resetting false false) rfl rfl nofun
  case declaring =>
    have hheld : rabbitHeld op = 1 := by rw [rabbitHeld,hphase]
    have hlocks : rabbitLocks op = 0 := by rw [rabbitLocks,hphase]
    cases a
    case returned =>
      cases hresume
      exact rabbitCounted_setOpened h hop hphase hmay
    case failed =>
      obtain ⟨nested,he⟩ := failOpen_eq s i op
      dsimp only at hresume
      rw [he] at hresume
      exact hmove (.resetting true nested) hheld.symm hlocks.symm nofun hresume
    case cancelled =>
      unfold RabbitState.cancel at hresume
      dsimp only at hresume hmay
      rw [hmay] at hresume
      exact hmove (.resetting true false) hheld.symm hlocks.symm nofun hresume
  case working =>
    have hheld : rabbitHeld op = 0 := by rw [rabbitHeld,hphase]
    have hlocks : rabbitLocks op = 0 := by rw [rabbitLocks,hphase]
    cases a
    case returned => exact hmove .done hheld.symm hlocks.symm nofun hresume
    case failed connectorError =>
      cases connectorError with
      | true => exact hmove (.resetting false false) hheld.symm hlocks.symm nofun hresume
      | false => exact hmove .done hheld.symm hlocks.symm nofun hresume
    case cancelled => exact hcancel (.inr hphase) hresume
  case resetting acquired nested =>
    cases hresume
    exact rabbitCounted_clear h hop hphase hmay nested _
  case releasing nested cancelled =>
    cases a
    case returned =>
      dsimp only at hresume
      split at hresume
      · cases hresume
      · next hlocked =>
          cases hresume
          exact rabbitCounted_release h hop hphase (Bool.eq_false_iff.mpr hlocked)
    case failed => cases hresume
    case cancelled =>
      dsimp only at hresume hmay
      rw [if_pos hmay] at hresume
      refine hmove (.resetting true false) ?_ ?_ nofun hresume
      · rw [rabbitHeld,rabbitHeld,hphase]
        rfl
      · rw [rabbitLocks,rabbitLocks,hphase]
  case closingConnection nested cancelled =>
    cases hresume
    exact rabbitCounted_closed h hop hphase nested _
  case done => cases hresume

theorem rabbitCounted_step {l : Option (Op Q)} (h : RabbitCounted s)
    (hstep : rabbitPerform s l = some t) (hcareful : RabbitCareful s l) : RabbitCounted t := by
  cases l with
  | none =>
    cases hstep
    refine ⟨h.balanced,h.lockers,?_,h.closing⟩
    rw [← h.shared]
    exact Option.map_eq_none_iff
  | some op =>
    cases op with
    | call q kind =>
      cases hstep
      exact rabbitCounted_call h q kind
    | resume i a =>
      obtain ⟨op,hop,hresume⟩ := Option.bind_eq_some_iff.mp hstep
      exact rabbitCounted_resume h hop hresume hcareful

end RabbitMQ

section Counts
variable [DecidableEq Q]

def RedisQuiet (s : RedisState Q) : Prop := ∀ op ∈ s.ops, op.phase = .done

def RabbitQuiet (s : RabbitState Q) : Prop := ∀ op ∈ s.ops, op.phase = .done

omit [DecidableEq Q] in
instance (s : RedisState Q) : Decidable (RedisQuiet s) :=
  inferInstanceAs (Decidable (∀ op ∈ s.ops, op.phase = .done))

omit [DecidableEq Q] in
instance (s : RabbitState Q) : Decidable (RabbitQuiet s) :=
  inferInstanceAs (Decidable (∀ op ∈ s.ops, op.phase = .done))

/-- In a quiescent state the count is that of the open queues, and a connection is there exactly
if there is one; and while the connection is being closed no queue is open. -/
structure RedisExact (s : RedisState Q) : Prop where
  count : RedisQuiet s → s.count = s.opened.card
  connection : RedisQuiet s → ((s.redis = false ∧ s.pool = false) ↔ s.opened = ∅)
  closing : ∀ op ∈ s.ops, redisCloses op = 1 → s.opened = ∅

structure RabbitExact (s : RabbitState Q) : Prop where
  count : RabbitQuiet s → s.count = s.opened.card
  connection : RabbitQuiet s → (s.connection = none ↔ s.opened = ∅)
  closing : ∀ op ∈ s.ops, ∀ nested cancelled,
    op.phase = .closingConnection nested cancelled → s.opened = ∅

omit [DecidableEq Q] in
theorem RedisCounted.exact {s : RedisState Q} (h : RedisCounted s) : RedisExact s := by
  have hcount : RedisQuiet s → s.count = s.opened.card := by
    intro hquiet
    refine h.balanced.quiet fun op hop => ?_
    rw [redisHeld,hquiet op hop]
  refine ⟨hcount,fun hquiet => ?_,fun op hop hcloses => ?_⟩
  · have hfree : s.locked = false := by
      cases hlocked : s.locked with
      | false => rfl
      | true =>
        have hclosers := h.closers
        rw [hlocked,load_eq_zero fun op hop => by rw [redisCloses,hquiet op hop]] at hclosers
        cases hclosers
    constructor
    · rintro ⟨hredis,-⟩
      refine Finset.card_eq_zero.mp ?_
      rw [← hcount hquiet]
      refine Nat.eq_zero_of_not_pos fun hpos => ?_
      rw [(h.shared hpos).1] at hredis
      cases hredis
    · intro hempty
      refine h.idle hfree ?_
      rw [hcount hquiet,hempty]
      rfl
  · exact (h.balanced.none_held (h.busy (h.locked hop hcloses))).1

omit [DecidableEq Q] in
theorem RabbitCounted.exact {s : RabbitState Q} (h : RabbitCounted s) : RabbitExact s := by
  have hcount : RabbitQuiet s → s.count = s.opened.card := by
    intro hquiet
    refine h.balanced.quiet fun op hop => ?_
    rw [rabbitHeld,hquiet op hop]
  refine ⟨hcount,fun hquiet => ?_,fun op hop nested cancelled hphase => ?_⟩
  · rw [h.shared,hcount hquiet,Finset.card_eq_zero]
  · exact (h.balanced.none_held (h.closing op hop nested cancelled hphase)).1

def RedisStep (createGroup : Q → Bool) (s : RedisState Q) (l : Op Q) (t : RedisState Q) : Prop :=
  redisPerform createGroup s l = some t ∧ RedisCareful createGroup s l

def RabbitStep (s : RabbitState Q) (l : Option (Op Q)) (t : RabbitState Q) : Prop :=
  rabbitPerform s l = some t ∧ RabbitCareful s l

/-- Two queues are opened. -/
def redisOpened : List (Op ℕ) :=
  [.call 0 .opening,.resume 0 .returned,.resume 0 .returned,.call 1 .opening,.resume 1 .returned,
    .resume 1 .returned]

def rabbitOpened : List (Option (Op ℕ)) :=
  [some (.call 0 .opening),some (.resume 0 .returned),some (.resume 0 .returned),
    some (.resume 0 .returned),some (.call 1 .opening),some (.resume 1 .returned),
    some (.resume 1 .returned)]

def redisRun : List (Op ℕ) → Option (RedisState ℕ) :=
  runs (redisPerform fun _ => true) (fun _ _ => true) redisStart

def rabbitRun : List (Option (Op ℕ)) → Option (RabbitState ℕ) :=
  runs rabbitPerform (fun _ _ => true) rabbitStart

end Counts

end OneStep.ConnectionCounts
