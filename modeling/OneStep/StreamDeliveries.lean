import OneStep.BrokerWorkers
import OneStep.Transition

/-!
# Deliveries of a Redis stream

A fetch reads the oldest pending entries of its consumer first, and new ones when
none of those can be decoded. The pending list does not tell an entry that waits
for a retry from one whose delivery is still under way, and an entry that cannot
be decoded stays in it for good. So a fetch hands an entry out again while it is
processed exactly when the entry is among the oldest that the fetch reads, and a
retried entry comes back exactly when a later fetch reads as far as to it.
-/
namespace OneStep.StreamDeliveries
open BrokerWorkers Transition

/-- One queue object: its consumer group, the fetch calls between their two reads,
by the count each of them reads, and the entries of the unsettled deliveries. -/
structure Consumer where
  stream : RedisStream := {}
  waiting : List ℕ := []
  underWay : List ℕ := []

/-- A fetch call is a read of pending entries and, when these give no delivery, a
read of new ones; `ok` tells whether the command of a settlement succeeds. -/
inductive Op where
  | add
  | readPending (limit : ℕ)
  | readNew (count : ℕ)
  | start (m : ℕ)
  | ack (m : ℕ) (ok : Bool)
  | fail (m : ℕ) (ok : Bool)
  | retry (m : ℕ)

/-- What was done in which state, and the entries handed out. -/
structure Event where
  before : Consumer
  op : Op
  reply : List ℕ

section Model
variable (batchSize : ℕ) (data : ℕ → Option Raw)

def fetchLimit (limit : ℕ) : ℕ := max 1 (min limit batchSize)

/-- Settles a delivery by XACK; when that raises, the delivery is not settled. -/
def settle (c : Consumer) (m : ℕ) (ok : Bool) : Option (List ℕ × Consumer) :=
  if m ∈ c.underWay then
    some ([],if ok then {c with stream := c.stream.xack m ok, underWay := c.underWay.erase m} else c)
  else none

def perform (c : Consumer) : Op → Option (List ℕ × Consumer)
  | .add => some ([],{c with stream := {c.stream with
      added := c.stream.added+1, unread := c.stream.unread++[c.stream.added]}})
  | .readPending limit =>
    let deliveries := processMessages data (c.stream.pending.take (fetchLimit batchSize limit))
    if deliveries ≠ [] then some (deliveries,{c with underWay := c.underWay++deliveries})
    else some ([],{c with waiting := fetchLimit batchSize limit::c.waiting})
  | .readNew count =>
    if count ∈ c.waiting then
      let deliveries := processMessages data (c.stream.unread.take count)
      some (deliveries,{
        stream := {c.stream with
          pending := c.stream.pending++c.stream.unread.take count
          unread := c.stream.unread.drop count}
        waiting := c.waiting.erase count
        underWay := c.underWay++deliveries})
    else none
  | .start m => if m ∈ c.underWay then some ([],c) else none
  | .ack m ok => settle c m ok
  | .fail m ok => settle c m ok
  | .retry m =>
    if m ∈ c.underWay then some ([],{c with underWay := c.underWay.erase m}) else none

def Step (c : Consumer) (e : Event) (c' : Consumer) : Prop :=
  e.before = c ∧ perform batchSize data c e.op = some (e.reply,c')

/-- The fetch does not read the entry of a delivery that is under way. -/
def Timely (e : Event) : Prop :=
  ∀ limit, e.op = .readPending limit →
    ∀ m ∈ e.before.stream.pending.take (fetchLimit batchSize limit), m ∉ e.before.underWay

end Model

section Steps
variable {batchSize : ℕ} {data : ℕ → Option Raw} {c c' : Consumer} {e : Event} {m : ℕ}

theorem mem_processMessages {entries : List ℕ} :
    m ∈ processMessages data entries ↔ m ∈ entries ∧ (decodeEntry data m).isSome = true :=
  List.mem_filter

/-- What one operation can do. -/
inductive Does (batchSize : ℕ) (data : ℕ → Option Raw) (c : Consumer) :
    Op → List ℕ → Consumer → Prop
  | add : Does batchSize data c .add [] {c with stream := {c.stream with
      added := c.stream.added+1, unread := c.stream.unread++[c.stream.added]}}
  | again (limit : ℕ) : processMessages data (c.stream.pending.take (fetchLimit batchSize limit)) ≠ [] →
      Does batchSize data c (.readPending limit)
        (processMessages data (c.stream.pending.take (fetchLimit batchSize limit)))
        {c with underWay := c.underWay++
          processMessages data (c.stream.pending.take (fetchLimit batchSize limit))}
  | nothing (limit : ℕ) : processMessages data (c.stream.pending.take (fetchLimit batchSize limit)) = [] →
      Does batchSize data c (.readPending limit) []
        {c with waiting := fetchLimit batchSize limit::c.waiting}
  | readNew (count : ℕ) : count ∈ c.waiting →
      Does batchSize data c (.readNew count) (processMessages data (c.stream.unread.take count)) {
        stream := {c.stream with
          pending := c.stream.pending++c.stream.unread.take count
          unread := c.stream.unread.drop count}
        waiting := c.waiting.erase count
        underWay := c.underWay++processMessages data (c.stream.unread.take count)}
  | idle (op : Op) : (∀ limit, op ≠ .readPending limit) → Does batchSize data c op [] c
  | settle (op : Op) (m : ℕ) : (∀ limit, op ≠ .readPending limit) → m ∈ c.underWay →
      Does batchSize data c op []
        {c with
          stream := {c.stream with pending := c.stream.pending.erase m}
          underWay := c.underWay.erase m}
  | retry (m : ℕ) : m ∈ c.underWay →
      Does batchSize data c (.retry m) [] {c with underWay := c.underWay.erase m}

theorem does_of_settle {op : Op} {ok : Bool} {reply : List ℕ}
    (hop : ∀ limit, op ≠ .readPending limit) (h : settle c m ok = some (reply,c')) :
    Does batchSize data c op reply c' := by
  unfold settle at h
  split at h
  · next hm =>
      cases ok with
      | true =>
        cases h
        exact .settle op m hop hm
      | false =>
        cases h
        exact .idle op hop
  · cases h

theorem step_does (h : Step batchSize data c e c') :
    e.before = c ∧ Does batchSize data c e.op e.reply c' := by
  obtain ⟨hbefore,hperform⟩ := h
  refine ⟨hbefore,?_⟩
  generalize e.op = op at hperform
  generalize e.reply = reply at hperform
  cases op with
  | add =>
    cases hperform
    exact .add
  | readPending limit =>
    simp only [perform] at hperform
    split at hperform
    · next hsome =>
        cases hperform
        exact .again limit hsome
    · next hnone =>
        cases hperform
        exact .nothing limit (not_not.mp hnone)
  | readNew count =>
    simp only [perform] at hperform
    split at hperform
    · next hmem =>
        cases hperform
        exact .readNew count hmem
    · cases hperform
  | start m =>
    simp only [perform] at hperform
    split at hperform
    · cases hperform
      exact .idle _ (fun _ => Op.noConfusion)
    · cases hperform
  | ack m ok => exact does_of_settle (fun _ => Op.noConfusion) hperform
  | fail m ok => exact does_of_settle (fun _ => Op.noConfusion) hperform
  | retry m =>
    simp only [perform] at hperform
    split at hperform
    · next hm =>
        cases hperform
        exact .retry m hm
    · cases hperform

/-- Entries are numbered as they are added, and those under way were read and decoded. -/
structure Sound (data : ℕ → Option Raw) (c : Consumer) : Prop where
  distinct : (c.stream.pending++c.stream.unread).Nodup
  added : ∀ m ∈ c.stream.pending++c.stream.unread, m < c.stream.added
  decoded : ∀ m ∈ c.underWay, (decodeEntry data m).isSome = true
  read : ∀ m ∈ c.underWay, m < c.stream.added ∧ m ∉ c.stream.unread

theorem sound_start : Sound data {} := ⟨by simp,by simp,by simp,by simp⟩

theorem mem_of_again {k : ℕ} (h : m ∈ processMessages data (c.stream.pending.take k)) :
    m ∈ c.stream.pending ∧ (decodeEntry data m).isSome = true :=
  ⟨List.mem_of_mem_take (mem_processMessages.mp h).1,(mem_processMessages.mp h).2⟩

theorem mem_of_new {k : ℕ} (h : m ∈ processMessages data (c.stream.unread.take k)) :
    m ∈ c.stream.unread ∧ (decodeEntry data m).isSome = true :=
  ⟨List.mem_of_mem_take (mem_processMessages.mp h).1,(mem_processMessages.mp h).2⟩

theorem Sound.pending_read (hc : Sound data c) (hm : m ∈ c.stream.pending) :
    m < c.stream.added ∧ m ∉ c.stream.unread := by
  refine ⟨hc.added m (List.mem_append_left _ hm),fun hu => ?_⟩
  exact (List.nodup_append.mp hc.distinct).2.2 m hm m hu rfl

/-- Every step keeps the consumer sound. -/
theorem sound_step (hc : Sound data c) (h : Step batchSize data c e c') : Sound data c' := by
  obtain ⟨-,hdoes⟩ := step_does h
  generalize e.op = op at hdoes
  generalize e.reply = reply at hdoes
  cases hdoes with
  | add =>
    have hfresh : ∀ m ∈ c.stream.pending++c.stream.unread, m ≠ c.stream.added := by
      intro m hm
      exact (hc.added m hm).ne
    refine ⟨?_,?_,hc.decoded,?_⟩
    · dsimp only
      rw [← List.append_assoc]
      refine List.nodup_append.mpr ⟨hc.distinct,List.nodup_singleton _,?_⟩
      intro m hm n hn
      rw [List.mem_singleton.mp hn]
      exact hfresh m hm
    · intro m hm
      dsimp only at hm ⊢
      rw [← List.append_assoc] at hm
      rcases List.mem_append.mp hm with hm | hm
      · exact (hc.added m hm).trans (Nat.lt_succ_self _)
      · rw [List.mem_singleton.mp hm]
        exact Nat.lt_succ_self _
    · intro m hm
      obtain ⟨hlt,hnot⟩ := hc.read m hm
      refine ⟨hlt.trans (Nat.lt_succ_self _),?_⟩
      dsimp only
      rw [List.mem_append,List.mem_singleton]
      exact fun hor => hor.elim hnot hlt.ne
  | again limit hsome =>
    refine ⟨hc.distinct,hc.added,?_,?_⟩
    · intro m hm
      exact (List.mem_append.mp hm).elim (hc.decoded m) fun hm => (mem_of_again hm).2
    · intro m hm
      exact (List.mem_append.mp hm).elim (hc.read m) fun hm =>
        hc.pending_read (mem_of_again hm).1
  | nothing limit hnone => exact ⟨hc.distinct,hc.added,hc.decoded,hc.read⟩
  | readNew count hmem =>
    have hsplit : (c.stream.pending++c.stream.unread.take count)++c.stream.unread.drop count =
        c.stream.pending++c.stream.unread := by
      rw [List.append_assoc,List.take_append_drop]
    have hleft : ∀ m, m ∈ c.stream.unread.take count → m ∉ c.stream.unread.drop count := by
      intro m hm hm'
      have hunread := (List.nodup_append.mp hc.distinct).2.1
      rw [← List.take_append_drop count c.stream.unread] at hunread
      exact (List.nodup_append.mp hunread).2.2 m hm m hm' rfl
    refine ⟨?_,?_,?_,?_⟩
    · dsimp only
      rw [hsplit]
      exact hc.distinct
    · dsimp only
      rw [hsplit]
      exact hc.added
    · intro m hm
      exact (List.mem_append.mp hm).elim (hc.decoded m) fun hm => (mem_of_new hm).2
    · intro m hm
      rcases List.mem_append.mp hm with hm | hm
      · obtain ⟨hlt,hnot⟩ := hc.read m hm
        exact ⟨hlt,fun hm => hnot (List.mem_of_mem_drop hm)⟩
      · exact ⟨hc.added m (List.mem_append_right _ (mem_of_new hm).1),
          hleft m (mem_processMessages.mp hm).1⟩
  | idle op hop => exact hc
  | settle op m hop hm =>
    refine ⟨?_,?_,?_,?_⟩
    · exact hc.distinct.sublist (List.Sublist.append List.erase_sublist (List.Sublist.refl _))
    · intro n hn
      apply hc.added n
      rcases List.mem_append.mp hn with hn | hn
      · exact List.mem_append_left _ (List.mem_of_mem_erase hn)
      · exact List.mem_append_right _ hn
    · exact fun n hn => hc.decoded n (List.mem_of_mem_erase hn)
    · exact fun n hn => hc.read n (List.mem_of_mem_erase hn)
  | retry m hm =>
    exact ⟨hc.distinct,hc.added,fun n hn => hc.decoded n (List.mem_of_mem_erase hn),
      fun n hn => hc.read n (List.mem_of_mem_erase hn)⟩

/-- New entries are never under way, so only the read of pending ones matters. -/
theorem idle_iff_timely (hc : Sound data c) (h : Step batchSize data c e c') :
    (∀ m ∈ e.reply, m ∉ e.before.underWay) ↔ Timely batchSize e := by
  obtain ⟨hbefore,hdoes⟩ := step_does h
  unfold Timely
  rw [hbefore]
  generalize e.op = op at hdoes
  generalize e.reply = reply at hdoes
  cases hdoes with
  | add => exact ⟨fun _ _ => Op.noConfusion,fun _ m hm => by cases hm⟩
  | again limit hsome =>
    constructor
    · intro hidle l hl m hm hunder
      cases hl
      exact hidle m (mem_processMessages.mpr ⟨hm,hc.decoded m hunder⟩) hunder
    · intro htimely m hm
      exact htimely limit rfl m (mem_processMessages.mp hm).1
  | nothing limit hnone =>
    constructor
    · intro _ l hl m hm hunder
      cases hl
      have hmem : m ∈ processMessages data (c.stream.pending.take (fetchLimit batchSize limit)) :=
        mem_processMessages.mpr ⟨hm,hc.decoded m hunder⟩
      rw [hnone] at hmem
      cases hmem
    · intro _ m hm
      cases hm
  | readNew count hmem =>
    constructor
    · exact fun _ _ => Op.noConfusion
    · intro _ m hm hunder
      exact (hc.read m hunder).2 (mem_of_new hm).1
  | idle op hop => exact ⟨fun _ l hl => absurd hl (hop l),fun _ m hm => by cases hm⟩
  | settle op m hop hm => exact ⟨fun _ l hl => absurd hl (hop l),fun _ m hm => by cases hm⟩
  | retry m hm => exact ⟨fun _ _ => Op.noConfusion,fun _ m hm => by cases hm⟩

theorem nodup_again {l : List ℕ} (h : l.Nodup) (k : ℕ) :
    (processMessages data (l.take k)).Nodup := (h.sublist (List.take_sublist k l)).filter _

/-- One delivery at a time is kept by a fetch that hands out idle entries. -/
theorem nodup_step (hc : Sound data c) (h : Step batchSize data c e c')
    (hidle : ∀ m ∈ e.reply, m ∉ e.before.underWay) (hn : c.underWay.Nodup) :
    c'.underWay.Nodup := by
  obtain ⟨hbefore,hdoes⟩ := step_does h
  rw [hbefore] at hidle
  obtain ⟨hpending,hunread,-⟩ := List.nodup_append.mp hc.distinct
  have hextend : ∀ l : List ℕ, l.Nodup → (∀ m ∈ l, m ∉ c.underWay) → (c.underWay++l).Nodup := by
    intro l hl hout
    refine List.nodup_append.mpr ⟨hn,hl,?_⟩
    intro m hm n hn' heq
    rw [heq] at hm
    exact hout n hn' hm
  generalize e.op = op at hdoes
  generalize e.reply = reply at hdoes hidle
  cases hdoes with
  | add => exact hn
  | again limit hsome => exact hextend _ (nodup_again hpending _) hidle
  | nothing limit hnone => exact hn
  | readNew count hmem => exact hextend _ (nodup_again hunread _) hidle
  | idle op hop => exact hn
  | settle op m hop hm => exact hn.erase m
  | retry m hm => exact hn.erase m

/-- Added, and no longer to be read as new. -/
def WasRead (c : Consumer) (m : ℕ) : Prop := m < c.stream.added ∧ m ∉ c.stream.unread

theorem wasRead_step (hm : WasRead c m) (h : Step batchSize data c e c') : WasRead c' m := by
  obtain ⟨-,hdoes⟩ := step_does h
  obtain ⟨hlt,hnot⟩ := hm
  generalize e.op = op at hdoes
  generalize e.reply = reply at hdoes
  cases hdoes with
  | add =>
    refine ⟨hlt.trans (Nat.lt_succ_self _),?_⟩
    dsimp only
    rw [List.mem_append,List.mem_singleton]
    exact fun hor => hor.elim hnot hlt.ne
  | readNew count hmem => exact ⟨hlt,fun hm => hnot (List.mem_of_mem_drop hm)⟩
  | again limit hsome => exact ⟨hlt,hnot⟩
  | nothing limit hnone => exact ⟨hlt,hnot⟩
  | idle op hop => exact ⟨hlt,hnot⟩
  | settle op m hop hm => exact ⟨hlt,hnot⟩
  | retry m hm => exact ⟨hlt,hnot⟩

theorem reply_iff (h : Step batchSize data c e c') (hdecoded : (decodeEntry data m).isSome = true)
    (hread : WasRead c m) :
    m ∈ e.reply ↔ ∃ limit, e.op = .readPending limit ∧
      m ∈ e.before.stream.pending.take (fetchLimit batchSize limit) := by
  obtain ⟨hbefore,hdoes⟩ := step_does h
  rw [hbefore]
  have hother : ∀ op : Op, (∀ limit, op ≠ .readPending limit) →
      ¬∃ limit, op = .readPending limit ∧
        m ∈ c.stream.pending.take (fetchLimit batchSize limit) :=
    fun op hop ⟨limit,hlimit,_⟩ => hop limit hlimit
  generalize e.op = op at hdoes
  generalize e.reply = reply at hdoes
  cases hdoes with
  | add => exact iff_of_false List.not_mem_nil (hother _ fun _ => Op.noConfusion)
  | again limit hsome =>
    constructor
    · intro hm
      exact ⟨limit,rfl,(mem_processMessages.mp hm).1⟩
    · rintro ⟨l,hl,hm⟩
      cases hl
      exact mem_processMessages.mpr ⟨hm,hdecoded⟩
  | nothing limit hnone =>
    apply iff_of_false List.not_mem_nil
    rintro ⟨l,hl,hm⟩
    cases hl
    have hmem : m ∈ processMessages data (c.stream.pending.take (fetchLimit batchSize limit)) :=
      mem_processMessages.mpr ⟨hm,hdecoded⟩
    rw [hnone] at hmem
    cases hmem
  | readNew count hmem =>
    refine iff_of_false (fun hm => ?_) (hother _ fun _ => Op.noConfusion)
    exact hread.2 (mem_of_new hm).1
  | idle op hop => exact iff_of_false List.not_mem_nil (hother op hop)
  | settle op m hop hm => exact iff_of_false List.not_mem_nil (hother op hop)
  | retry m hm => exact iff_of_false List.not_mem_nil (hother _ fun _ => Op.noConfusion)

end Steps

section Runs
variable {batchSize : ℕ} {data : ℕ → Option Raw} {c c' : Consumer} {es : List Event}

theorem run_idle_iff (hc : Sound data c) (h : Run (Step batchSize data) c es c') :
    (∀ e ∈ es, ∀ m ∈ e.reply, m ∉ e.before.underWay) ↔ ∀ e ∈ es, Timely batchSize e := by
  induction h with
  | nil c => simp
  | cons hstep _ ih =>
    rw [List.forall_mem_cons,List.forall_mem_cons,idle_iff_timely hc hstep,
      ih (sound_step hc hstep)]

theorem run_nodup (hc : Sound data c) (h : Run (Step batchSize data) c es c')
    (htimely : ∀ e ∈ es, Timely batchSize e) (hn : c.underWay.Nodup) : c'.underWay.Nodup := by
  induction h with
  | nil c => exact hn
  | cons hstep _ ih =>
    rw [List.forall_mem_cons] at htimely
    exact ih (sound_step hc hstep) htimely.2
      (nodup_step hc hstep ((idle_iff_timely hc hstep).mpr htimely.1) hn)

theorem run_reply_iff (h : Run (Step batchSize data) c es c') {m : ℕ}
    (hdecoded : (decodeEntry data m).isSome = true) (hread : WasRead c m) :
    (∃ e ∈ es, m ∈ e.reply) ↔ ∃ e ∈ es, ∃ limit, e.op = .readPending limit ∧
      m ∈ e.before.stream.pending.take (fetchLimit batchSize limit) := by
  induction h with
  | nil c => simp
  | cons hstep _ ih =>
    simp only [List.exists_mem_cons_iff]
    rw [reply_iff hstep hdecoded hread,ih (wasRead_step hread hstep)]

/-- A fetch hands out no entry that is under way exactly when it reads none among
the oldest pending ones, and then there is one delivery at a time; a retried entry
comes back exactly when a later fetch finds it among the oldest pending ones it reads. -/
theorem oneAtATime_iff {w : Consumer} (h : Run (Step batchSize data) {} es w) :
    ((∀ e ∈ es, ∀ m ∈ e.reply, m ∉ e.before.underWay) ↔ ∀ e ∈ es, Timely batchSize e) ∧
    ((∀ e ∈ es, Timely batchSize e) → w.underWay.Nodup) ∧
    ∀ before e after m, es = before++e::after → e.op = .retry m →
      ((∃ e' ∈ after, m ∈ e'.reply) ↔ ∃ e' ∈ after, ∃ limit, e'.op = .readPending limit ∧
        m ∈ e'.before.stream.pending.take (fetchLimit batchSize limit)) := by
  refine ⟨run_idle_iff sound_start h,fun htimely => run_nodup sound_start h htimely (by simp),?_⟩
  intro before e after m hes hretry
  rw [hes] at h
  obtain ⟨c₁,hfront,hback⟩ := h.split
  have hc : Sound data c₁ := hfront.invariant (fun _ _ _ hs hstep => sound_step hs hstep) sound_start
  cases hback with
  | cons hstep hrest =>
    have hm : m ∈ c₁.underWay := by
      obtain ⟨-,hperform⟩ := hstep
      rw [hretry] at hperform
      simp only [perform] at hperform
      split at hperform
      · next hm => exact hm
      · cases hperform
    exact run_reply_iff hrest (hc.decoded m hm) (wasRead_step (hc.read m hm) hstep)

/-- What a list of operations does from a state. -/
def trace (batchSize : ℕ) (data : ℕ → Option Raw) (c : Consumer) :
    List Op → Option (List Event × Consumer)
  | [] => some ([],c)
  | op::ops => (perform batchSize data c op).bind fun r =>
    (trace batchSize data r.2 ops).map fun t => (⟨c,op,r.1⟩::t.1,t.2)

theorem run_trace {ops : List Op} (h : trace batchSize data c ops = some (es,c')) :
    Run (Step batchSize data) c es c' := by
  induction ops generalizing c es with
  | nil =>
    cases h
    exact .nil _
  | cons op ops ih =>
    obtain ⟨r,hr,h⟩ := Option.bind_eq_some_iff.mp h
    obtain ⟨t,ht,h⟩ := Option.map_eq_some_iff.mp h
    cases h
    exact .cons ⟨rfl,hr⟩ (ih ht)

end Runs

section Samples

/-- A first entry that is no envelope, and others that are. -/
def spoiled (m : ℕ) : Option Raw :=
  some (if m = 0 then .undecodable else .json (.obj [("body",.int 7)]))

def retried : List Op := [.add,.add,.readPending 2,.readNew 2,.retry 1,.readPending 2,.ack 1 true]

/-- An entry that is retried, handed out again and acknowledged. -/
theorem retried_oneAtATime : ∃ es w, Run (Step 100 spoiled) {} es w ∧
    (∀ e ∈ es, ∀ m ∈ e.reply, m ∉ e.before.underWay) ∧ es.map Event.reply =
      [[],[],[],[1],[],[1],[]] := by
  obtain ⟨es,w,htrace,hreply,htimely⟩ : ∃ es w, trace 100 spoiled {} retried = some (es,w) ∧
      es.map Event.reply = [[],[],[],[1],[],[1],[]] ∧ ∀ e ∈ es, Timely 100 e := by
    refine ⟨_,_,rfl,rfl,?_⟩
    simp only [List.forall_mem_cons]
    refine ⟨?_,?_,?_,?_,?_,?_,?_,by simp⟩ <;> intro limit hlimit <;> cases hlimit <;> decide
  exact ⟨es,w,run_trace htrace,(oneAtATime_iff (run_trace htrace)).1.mpr htimely,hreply⟩

/-- A second fetch hands out the entry whose delivery is under way; and behind the
entry that is no envelope, a retried one never comes back to fetches of one entry. -/
theorem spoiled_twice : (∃ es w, Run (Step 100 spoiled) {} es w ∧
      ∃ e ∈ es, ∃ m ∈ e.reply, m ∈ e.before.underWay) ∧
    ∃ es w, Run (Step 100 spoiled) {} es w ∧ es.getLast?.map Event.op = some (.retry 1) ∧
      ∀ n, ∃ es', Run (Step 100 spoiled) w es' w ∧ es'.length = 2*n ∧
        ∀ e ∈ es', (e.op = .readPending 1 ∨ e.op = .readNew 1) ∧ 1 ∉ e.reply := by
  constructor
  · obtain ⟨es,w,htrace,hagain⟩ : ∃ es w, trace 100 spoiled {}
        [.add,.add,.readPending 2,.readNew 2,.readPending 2] = some (es,w) ∧
          ∃ e ∈ es, ∃ m ∈ e.reply, m ∈ e.before.underWay := by
      refine ⟨_,_,rfl,?_⟩
      simp only [List.exists_mem_cons_iff]
      exact .inr (.inr (.inr (.inr (.inl ⟨1,by decide,by decide⟩))))
    exact ⟨es,w,run_trace htrace,hagain⟩
  · obtain ⟨es,w,htrace,hlast,es₁,htrace₁,hlength,hnone⟩ : ∃ es w, trace 100 spoiled {}
        [.add,.add,.readPending 2,.readNew 2,.retry 1] = some (es,w) ∧
          es.getLast?.map Event.op = some (.retry 1) ∧ ∃ es₁,
            trace 100 spoiled w [.readPending 1,.readNew 1] = some (es₁,w) ∧ es₁.length = 2 ∧
              ∀ e ∈ es₁, (e.op = .readPending 1 ∨ e.op = .readNew 1) ∧ 1 ∉ e.reply := by
      refine ⟨_,_,rfl,rfl,_,rfl,rfl,?_⟩
      intro e he
      rcases List.mem_cons.mp he with rfl | he
      · exact ⟨.inl rfl,List.not_mem_nil⟩
      · rw [List.mem_singleton.mp he]
        exact ⟨.inr rfl,List.not_mem_nil⟩
    refine ⟨es,w,run_trace htrace,hlast,fun n => ?_⟩
    refine ⟨_,(run_trace htrace₁).again n,?_,?_⟩
    · simp [hlength,Nat.mul_comm]
    · intro e he
      obtain ⟨l,hl,hel⟩ := List.mem_flatten.mp he
      rw [List.eq_of_mem_replicate hl] at hel
      exact hnone e hel

end Samples

end OneStep.StreamDeliveries
