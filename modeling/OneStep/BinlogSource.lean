import Mathlib.Data.Finset.Basic
import Mathlib.Tactic
import OneStep.Transition

/-!
# The MySQL binlog source

A fetch reads row events from the replication stream in a worker thread. Rows of
an event beyond the limit wait in a buffer for the next fetch; the rows returned
enter the queue of pending tokens, and an ack saves the position of the last
acked token at the head of the queue once its event is complete.

The replication stream is a list of events in the order of their positions. A
fetch that raises in the stream, or is cancelled while its thread runs, has read
rows that are never returned. Settled as long as no fetch loses rows so, the
saved positions pass acked rows only.
-/
namespace OneStep.BinlogSource
open Transition

/-- A row event; `selected` tells whether its kind is among the configured ones
and the stream reports where it stands. -/
structure Event (π : Type) where
  position : π
  rows : ℕ
  selected : Bool := true
  deriving DecidableEq, Repr

/-- One row of an event: its number, and how many there are. -/
structure Token (π : Type) where
  position : π
  row : ℕ
  rows : ℕ
  deriving DecidableEq, Repr

def Event.tokens {π : Type} (e : Event π) : List (Token π) :=
  if e.selected then (List.range e.rows).map fun row => ⟨e.position,row,e.rows⟩ else []

theorem tokens_position {π : Type} {e : Event π} {t : Token π} (h : t ∈ e.tokens) :
    t.position = e.position := by
  unfold Event.tokens at h
  split at h
  · obtain ⟨row,-,rfl⟩ := List.mem_map.mp h
    rfl
  · cases h

/-- How the reading loop of a fetch ends. -/
inductive Ending where
  | full
  | empty
  | raised
  deriving DecidableEq, Repr

structure Source (π : Type) where
  next : ℕ := 0
  buffered : List (Token π) := []
  pending : List (Token π) := []
  acked : Finset (Token π) := ∅
  committed : Option π := none
  handed : List (Token π) := []
  read : List (Token π) := []
  called : Finset (Token π) := ∅
  saves : List π := []

/-- A fetch reads `count` events; retries and fails change nothing. -/
inductive Op where
  | fetch (limit count : ℕ) (ending : Ending) (cancelled : Bool)
  | ack (i : ℕ) (ok : Bool)
  | retry (i : ℕ)
  | fail (i : ℕ)
  deriving DecidableEq, Repr

section Reading
variable {π : Type}

/-- The second loop of `_fetch_sync` over the events it reads; none if the limit
was reached before the last of them. -/
def fetchLoop (limit : ℕ) : List (Event π) → List (Token π) → List (Token π) →
    Option (List (Token π) × List (Token π))
  | [],rows,buffered => some (rows,buffered)
  | e::events,rows,buffered =>
    if limit ≤ rows.length then none
    else fetchLoop limit events (rows++e.tokens.take (limit-rows.length))
      (buffered++e.tokens.drop (limit-rows.length))

theorem fetchLoop_eq {limit : ℕ} {events : List (Event π)}
    {rows buffered rows' buffered' : List (Token π)}
    (h : fetchLoop limit events rows buffered = some (rows',buffered'))
    (hfull : buffered ≠ [] → limit ≤ rows.length) :
    rows'++buffered' = rows++buffered++events.flatMap Event.tokens := by
  induction events generalizing rows buffered with
  | nil =>
    cases h
    simp
  | cons e events ih =>
    rw [fetchLoop] at h
    split at h
    · cases h
    · next hroom =>
        have hnil : buffered = [] := by
          by_contra hne
          exact hroom (hfull hne)
        subst hnil
        rw [ih h]
        · simp only [List.nil_append,List.append_nil,List.flatMap_cons,List.append_assoc]
          rw [← List.append_assoc (e.tokens.take _),List.take_append_drop]
        · intro hne
          have hlong : limit-rows.length < e.tokens.length := by
            by_contra hshort
            exact hne (by simpa using hshort)
          rw [List.length_append,List.length_take]
          omega

end Reading

section Steps
variable {π : Type} [DecidableEq π]

def Source.fetch (stream : List (Event π)) (s : Source π) (limit count : ℕ) (ending : Ending)
    (cancelled : Bool) : Option (Source π) :=
  let events := (stream.drop s.next).take count
  if events.length = count then
    match fetchLoop limit events (s.buffered.take limit) (s.buffered.drop limit) with
    | none => none
    | some (rows,buffered) =>
      if ending = .full ↔ limit ≤ rows.length then
        let kept := if ending = .raised ∨ cancelled then [] else rows
        some {s with
          next := s.next+count
          buffered := buffered
          pending := s.pending++kept
          handed := s.handed++kept
          read := s.read++events.flatMap Event.tokens}
      else none
  else none

/-- The loop of `ack_token`: what stays pending and acked, and the last token
that left. -/
def popAcked : List (Token π) → Finset (Token π) → Option (Token π) →
    List (Token π) × Finset (Token π) × Option (Token π)
  | [],acked,advanced => ([],acked,advanced)
  | t::pending,acked,advanced =>
    if t ∈ acked then popAcked pending (acked.erase t) (some t)
    else (t::pending,acked,advanced)

def Source.ackToken (s : Source π) (t : Token π) (ok : Bool) : Source π :=
  let popped := popAcked s.pending (insert t s.acked) none
  let s := {s with
    pending := popped.1
    acked := popped.2.1
    called := insert t s.called}
  match popped.2.2 with
  | none => s
  | some advanced =>
    if advanced.rows ≤ advanced.row+1 then
      {s with
        committed := some advanced.position
        saves := if ok then s.saves++[advanced.position] else s.saves}
    else s

def perform (stream : List (Event π)) (batchSize : ℕ) (s : Source π) : Op → Option (Source π)
  | .fetch limit count ending cancelled =>
    s.fetch stream (max 1 (min limit batchSize)) count ending cancelled
  | .ack i ok => s.handed[i]?.map fun t => s.ackToken t ok
  | .retry i | .fail i => s.handed[i]?.map fun _ => s

/-- A fetch that raises or is cancelled has no row to lose. -/
def Lossless (stream : List (Event π)) (s : Source π) : Op → Prop
  | .fetch _ count ending cancelled => ending = .raised ∨ cancelled = true →
      s.buffered = [] ∧ ∀ e ∈ (stream.drop s.next).take count, e.tokens = []
  | _ => True

instance (stream : List (Event π)) (s : Source π) (op : Op) : Decidable (Lossless stream s op) := by
  unfold Lossless
  split <;> infer_instance

def Step (stream : List (Event π)) (batchSize : ℕ) (allowed : Source π → Op → Prop)
    (s : Source π) (op : Op) (s' : Source π) : Prop :=
  perform stream batchSize s op = some s' ∧ allowed s op

end Steps

section Saves
variable {π : Type} [LinearOrder π]

/-- Every row read whose event is at or before a saved position has been acked. -/
def SavesAcked (s : Source π) : Prop :=
  ∀ p ∈ s.saves, ∀ t ∈ s.read, t.position ≤ p → t ∈ s.called

instance (s : Source π) : Decidable (SavesAcked s) :=
  inferInstanceAs (Decidable (∀ p ∈ s.saves, ∀ t ∈ s.read, t.position ≤ p → t ∈ s.called))

/-- The order in which rows are read. -/
def Before (a b : Token π) : Prop :=
  a.position < b.position ∨ (a.position = b.position ∧ a.row < b.row ∧ b.row < a.rows)

theorem Before.of_complete {a b : Token π} (h : Before a b) (ha : a.rows ≤ a.row+1) :
    a.position < b.position := by
  rcases h with h | ⟨-,hlt,hrow⟩
  · exact h
  · omega

theorem tokens_before (e : Event π) : e.tokens.Pairwise Before := by
  unfold Event.tokens
  split
  · refine List.pairwise_map.mpr (List.Pairwise.imp_of_mem ?_ List.pairwise_lt_range)
    intro i j hi hj hij
    exact .inr ⟨rfl,hij,List.mem_range.mp hj⟩
  · exact List.Pairwise.nil

theorem flatMap_before {events : List (Event π)}
    (h : events.Pairwise fun a b => a.position < b.position) :
    (events.flatMap Event.tokens).Pairwise Before := by
  induction events with
  | nil => exact List.Pairwise.nil
  | cons e events ih =>
    obtain ⟨hfirst,hrest⟩ := List.pairwise_cons.mp h
    rw [List.flatMap_cons]
    refine List.pairwise_append.mpr ⟨tokens_before e,ih hrest,?_⟩
    intro a ha b hb
    obtain ⟨f,hf,hb⟩ := List.mem_flatMap.mp hb
    refine .inl ?_
    rw [tokens_position ha,tokens_position hb]
    exact hfirst f hf

theorem popAcked_spec (pending : List (Token π)) (acked : Finset (Token π))
    (advanced : Option (Token π)) : ∃ popped,
      pending = popped++(popAcked pending acked advanced).1 ∧ (∀ t ∈ popped, t ∈ acked) ∧
      (popAcked pending acked advanced).2.1 ⊆ acked ∧
      (popAcked pending acked advanced).2.2 = popped.getLast?.orElse fun _ => advanced := by
  induction pending generalizing acked advanced with
  | nil => exact ⟨[],rfl,by simp,Finset.Subset.refl _,rfl⟩
  | cons t pending ih =>
    rw [popAcked]
    split
    · next hin =>
        obtain ⟨popped,hsplit,hacked,hsub,hlast⟩ := ih (acked.erase t) (some t)
        refine ⟨t::popped,?_,?_,hsub.trans (Finset.erase_subset _ _),?_⟩
        · rw [List.cons_append,← hsplit]
        · intro u hu
          rcases List.mem_cons.mp hu with rfl | hu
          · exact hin
          · exact Finset.mem_of_mem_erase (hacked u hu)
        · rw [hlast,List.getLast?_cons]
          cases popped.getLast? <;> rfl
    · exact ⟨[],rfl,by simp,Finset.Subset.refl _,rfl⟩

variable {stream : List (Event π)} {s s' : Source π} {batchSize : ℕ} {op : Op}

structure Invariant (stream : List (Event π)) (s : Source π) : Prop where
  split : ∃ committed, s.read = committed++s.pending++s.buffered ∧ ∀ t ∈ committed, t ∈ s.called
  acked : s.acked ⊆ s.called
  ordered : s.read.Pairwise Before
  upcoming : ∀ t ∈ s.read, ∀ e ∈ stream.drop s.next, t.position < e.position
  saved : ∀ p ∈ s.saves, ∀ e ∈ stream.drop s.next, p < e.position
  safe : SavesAcked s

theorem opened_invariant : Invariant stream {} where
  split := ⟨[],rfl,by simp⟩
  acked := Finset.Subset.refl _
  ordered := List.Pairwise.nil
  upcoming := by simp
  saved := by simp
  safe := by simp [SavesAcked]

theorem Invariant.fetch {limit count : ℕ} {ending : Ending} {cancelled : Bool}
    (hstream : stream.Pairwise fun a b => a.position < b.position) (h : Invariant stream s)
    (hs : s.fetch stream limit count ending cancelled = some s')
    (hlossless : ending = .raised ∨ cancelled = true →
      s.buffered = [] ∧ ∀ e ∈ (stream.drop s.next).take count, e.tokens = []) :
    Invariant stream s' := by
  unfold Source.fetch at hs
  dsimp only at hs
  split at hs
  · split at hs
    · cases hs
    · next rows buffered hloop =>
        split at hs
        · cases hs
          have hall : rows++buffered =
              s.buffered++((stream.drop s.next).take count).flatMap Event.tokens := by
            rw [fetchLoop_eq hloop,List.take_append_drop]
            intro hne
            by_contra hshort
            refine hne (List.drop_eq_nil_of_le ?_)
            rw [List.length_take] at hshort
            omega
          have hdropped := hstream.sublist (List.drop_sublist s.next stream)
          have hsuffix : stream.drop (s.next+count) = (stream.drop s.next).drop count := by
            rw [List.drop_drop]
          have hlater : ∀ e ∈ (stream.drop s.next).take count, ∀ f ∈ stream.drop (s.next+count),
              e.position < f.position := by
            intro e he f hf
            rw [hsuffix] at hf
            rw [← List.take_append_drop count (stream.drop s.next)] at hdropped
            exact (List.pairwise_append.mp hdropped).2.2 e he f hf
          have hkept : ∀ f ∈ stream.drop (s.next+count), f ∈ stream.drop s.next := by
            intro f hf
            rw [hsuffix] at hf
            exact List.mem_of_mem_drop hf
          constructor
          · obtain ⟨committed,hread,hcalled⟩ := h.split
            refine ⟨committed,?_,hcalled⟩
            dsimp only
            split
            · next hlost =>
                obtain ⟨hnil,hnone⟩ := hlossless hlost
                have hnew : ((stream.drop s.next).take count).flatMap Event.tokens = [] :=
                  List.flatMap_eq_nil_iff.mpr hnone
                rw [hnil,hnew,List.append_nil] at hall
                obtain ⟨-,hbuffered⟩ := List.append_eq_nil_iff.mp hall
                rw [hread,hnil,hnew,hbuffered]
                simp
            · rw [hread]
              simp only [List.append_assoc]
              rw [hall]
          · exact h.acked
          · refine List.pairwise_append.mpr ⟨h.ordered,?_,?_⟩
            · exact flatMap_before (hdropped.sublist (List.take_sublist _ _))
            · intro a ha b hb
              obtain ⟨e,he,hb⟩ := List.mem_flatMap.mp hb
              refine .inl ?_
              rw [tokens_position hb]
              exact h.upcoming a ha e (List.mem_of_mem_take he)
          · intro t ht f hf
            rcases List.mem_append.mp ht with ht | ht
            · exact h.upcoming t ht f (hkept f hf)
            · obtain ⟨e,he,ht⟩ := List.mem_flatMap.mp ht
              rw [tokens_position ht]
              exact hlater e he f hf
          · exact fun p hp f hf => h.saved p hp f (hkept f hf)
          · intro p hp t ht hle
            rcases List.mem_append.mp ht with ht | ht
            · exact h.safe p hp t ht hle
            · obtain ⟨e,he,ht⟩ := List.mem_flatMap.mp ht
              rw [tokens_position ht] at hle
              have hlt := h.saved p hp e (List.mem_of_mem_take he)
              exact absurd hle (not_le.mpr hlt)
        · cases hs
  · cases hs

theorem Invariant.ack (h : Invariant stream s) (t : Token π) (ok : Bool) :
    Invariant stream (s.ackToken t ok) := by
  obtain ⟨popped,hsplit,hpopped,hsub,hlast⟩ := popAcked_spec s.pending (insert t s.acked) none
  obtain ⟨committed,hread,hcalled⟩ := h.split
  have hinsert : insert t s.acked ⊆ insert t s.called := Finset.insert_subset_insert _ h.acked
  have hdone : ∀ u ∈ committed++popped, u ∈ insert t s.called := by
    intro u hu
    rcases List.mem_append.mp hu with hu | hu
    · exact Finset.mem_insert_of_mem (hcalled u hu)
    · exact hinsert (hpopped u hu)
  set rest := (popAcked s.pending (insert t s.acked) none).1 with hrest
  have hread' : s.read = (committed++popped)++rest++s.buffered := by
    rw [hread,hsplit]
    simp
  have hsafe : ∀ p ∈ s.saves, ∀ u ∈ s.read, u.position ≤ p → u ∈ insert t s.called :=
    fun p hp u hu hle => Finset.mem_insert_of_mem (h.safe p hp u hu hle)
  unfold Source.ackToken
  dsimp only
  rw [hlast]
  split
  · exact ⟨⟨committed++popped,hread',hdone⟩,hsub.trans hinsert,h.ordered,h.upcoming,h.saved,hsafe⟩
  · next advanced hadvanced =>
      split
      · next hcomplete =>
          refine ⟨⟨committed++popped,hread',hdone⟩,hsub.trans hinsert,h.ordered,h.upcoming,?_,?_⟩
          · intro p hp e he
            cases ok with
            | false => exact h.saved p hp e he
            | true =>
              rcases List.mem_append.mp hp with hp | hp
              · exact h.saved p hp e he
              · rw [List.mem_singleton.mp hp]
                refine h.upcoming advanced ?_ e he
                rw [hread']
                simp [show advanced ∈ popped from List.mem_of_getLast? (by simpa using hadvanced)]
          · intro p hp u hu hle
            cases ok with
            | false => exact hsafe p hp u hu hle
            | true =>
              rcases List.mem_append.mp hp with hp | hp
              · exact hsafe p hp u hu hle
              · rw [List.mem_singleton.mp hp] at hle
                have hu' : u ∈ s.read := hu
                rw [hread',List.append_assoc] at hu'
                rcases List.mem_append.mp hu' with hin | hin
                · exact hdone u hin
                · have hordered := h.ordered
                  rw [hread',List.append_assoc] at hordered
                  have hbefore := (List.pairwise_append.mp hordered).2.2 advanced
                    (List.mem_append.mpr (.inr (List.mem_of_getLast? (by simpa using hadvanced))))
                    u hin
                  exact absurd hle (not_le.mpr (hbefore.of_complete hcomplete))
      · exact ⟨⟨committed++popped,hread',hdone⟩,hsub.trans hinsert,h.ordered,h.upcoming,h.saved,
          hsafe⟩

theorem Invariant.step (hstream : stream.Pairwise fun a b => a.position < b.position)
    (h : Invariant stream s) (hs : perform stream batchSize s op = some s')
    (hlossless : Lossless stream s op) : Invariant stream s' := by
  cases op with
  | fetch limit count ending cancelled => exact h.fetch hstream hs hlossless
  | ack i ok =>
    obtain ⟨t,-,rfl⟩ := Option.map_eq_some_iff.mp hs
    exact h.ack t ok
  | retry i =>
    obtain ⟨t,-,rfl⟩ := Option.map_eq_some_iff.mp hs
    exact h
  | fail i =>
    obtain ⟨t,-,rfl⟩ := Option.map_eq_some_iff.mp hs
    exact h

/-- When no fetch loses rows, a saved position passes acked rows only. -/
theorem positions_pass_acked (stream : List (Event π)) (batchSize : ℕ) (s : Source π)
    (hstream : stream.Pairwise fun a b => a.position < b.position)
    (h : Reachable {} (Step stream batchSize fun s op => Lossless stream s op) s) :
    SavesAcked s := by
  have hinv := h.invariant (I := Invariant stream) opened_invariant
    fun s op s' h hstep => h.step hstream hstep.1 hstep.2
  exact hinv.safe

end Saves

section Samples

theorem binlog_reachable {stream : List (Event ℕ)} {allowed : Source ℕ → Op → Prop}
    [∀ s op, Decidable (allowed s op)] {batchSize : ℕ} {s t : Source ℕ} {ops : List Op}
    (h : runs (perform stream batchSize) (fun s op => decide (allowed s op)) s ops = some t) :
    Reachable s (Step stream batchSize allowed) t :=
  ⟨ops,run_of_runs (fun _ _ => of_decide_eq_true) h⟩

def twoEvents : List (Event ℕ) := [⟨4,2,true⟩,⟨9,1,true⟩]

/-- The first event is split by the limit, and its rows are acked in turn. -/
theorem splitEvent_passes_acked : ∃ s, Reachable {}
    (Step twoEvents 10 fun s op => Lossless twoEvents s op) s ∧ s.saves = [4,9] ∧
      SavesAcked s := by
  have hrun : ((runs (perform twoEvents 10) (fun s op => decide (Lossless twoEvents s op)) {}
      [.fetch 1 1 .full false,.fetch 2 1 .full false,.ack 1 true,.ack 0 true,.ack 2 true]).map
        fun s => s.saves) = some [4,9] := by
    decide
  obtain ⟨s,hs,hsaves⟩ := Option.map_eq_some_iff.mp hrun
  have hreach := binlog_reachable hs
  exact ⟨s,hreach,hsaves,positions_pass_acked twoEvents 10 s (by decide) hreach⟩

/-- The second event is acked after a fetch that read the first. -/
def acksSecond (lost : Op) : List Op := [lost,.fetch 1 1 .full false,.ack 0 true]

/-- The rows of the first event are lost to an error of the stream, or to a
cancellation. -/
theorem lostRows_passed :
    (∃ s, Run (Step twoEvents 10 fun _ _ => True) {} (acksSecond (.fetch 5 1 .raised false)) s ∧
      s.saves = [9] ∧ ¬SavesAcked s) ∧
    ∃ s, Run (Step twoEvents 10 fun _ _ => True) {} (acksSecond (.fetch 2 1 .full true)) s ∧
      s.saves = [9] ∧ ¬SavesAcked s := by
  have hlost : ∀ lost ∈ [Op.fetch 5 1 .raised false,Op.fetch 2 1 .full true],
      ((runs (perform twoEvents 10) (fun _ _ => decide True) {} (acksSecond lost)).map
        fun s => (s.saves,decide (SavesAcked s))) = some ([9],false) := by
    decide
  have hpassed : ∀ lost ∈ [Op.fetch 5 1 .raised false,Op.fetch 2 1 .full true],
      ∃ s, Run (Step twoEvents 10 fun _ _ => True) {} (acksSecond lost) s ∧
        s.saves = [9] ∧ ¬SavesAcked s := by
    intro lost hin
    obtain ⟨s,hs,he⟩ := Option.map_eq_some_iff.mp (hlost lost hin)
    simp only [Prod.mk.injEq] at he
    exact ⟨s,run_of_runs (fun _ _ => of_decide_eq_true) hs,he.1,of_decide_eq_false he.2⟩
  exact ⟨hpassed _ (by simp),hpassed _ (by simp)⟩

end Samples

end OneStep.BinlogSource
