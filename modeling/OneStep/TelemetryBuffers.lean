import Mathlib.Data.List.Basic
import Mathlib.Data.List.Nodup
import Mathlib.Tactic.Push

/-!
# Buffers that are sent from the front

Entries are added behind the others; those that are too many are dropped from the front.
A flush takes the first entries and awaits their send. When it returns, as many entries
are removed from the front, whatever stands there by then, and the flush goes on with what
is left. Any number of flushes may await a send. What leaves the front was in the payload
of a send that returned exactly if the batch is still the front of the buffer, or nothing
but a rest of the batch is in it.
-/
namespace OneStep.TelemetryBuffers

variable {α : Type}

/-- The entries, the batches that are being sent, and what became of the entries before. -/
structure Buffer (α : Type) where
  pending : List α := []
  sending : ℕ → Option (List α) := fun _ => none
  returned : List α := []
  dropped : List α := []

namespace Buffer

def add (limit : ℕ) (x : α) (b : Buffer α) : Buffer α :=
  let pending := b.pending++[x]
  let overflow := pending.length-limit
  {b with pending := pending.drop overflow, dropped := b.dropped++pending.take overflow}

/-- The batch that a flush sends next; none when it is done. -/
def nextBatch (size : ℕ) : List α → Option (List α)
  | [] => none
  | x::xs => some ((x::xs).take size)

def flush (size k : ℕ) (b : Buffer α) : Buffer α :=
  {b with sending := Function.update b.sending k (nextBatch size b.pending)}

/-- The send of a batch has returned. -/
def finish (size k : ℕ) (batch : List α) (b : Buffer α) : Buffer α :=
  let pending := b.pending.drop batch.length
  {b with
    pending := pending
    sending := Function.update b.sending k (nextBatch size pending)
    returned := b.returned++batch}

/-- The send of a batch has raised. -/
def fail (k : ℕ) (b : Buffer α) : Buffer α := {b with sending := Function.update b.sending k none}

/-- What left the buffer was sent, or was dropped. -/
def Accounted (b b' : Buffer α) : Prop :=
  ∀ x ∈ b.pending, x ∉ b'.pending → x ∈ b'.returned ∨ x ∈ b'.dropped

/-- The batch stands at the front, or nothing else is left. -/
def InFront (batch pending : List α) : Prop := batch <+: pending ∨ pending <:+ batch

/-- A batch was taken from the entries behind some that have left since. -/
def TakenFrom (log pending batch : List α) : Prop :=
  batch ≠ [] ∧ ∃ front rest left, log = front++batch++rest ∧ log = left++pending ∧
    front.length ≤ left.length

/-- The entries are the last of all that were ever added. -/
structure Traced (log : List α) (b : Buffer α) : Prop where
  nodup : log.Nodup
  pending : b.pending <:+ log
  sending : ∀ k, ∀ batch ∈ b.sending k, TakenFrom log b.pending batch
  gone : ∀ x, x ∈ b.returned ∨ x ∈ b.dropped → x ∈ log ∧ x ∉ b.pending

theorem traced_empty : Traced ([] : List α) {} :=
  ⟨List.nodup_nil,List.suffix_rfl,nofun,fun _ h => by simp at h⟩

theorem add_length (limit : ℕ) (x : α) (b : Buffer α) : (b.add limit x).pending.length ≤ limit := by
  rw [add]
  simp only [List.length_drop]
  omega

theorem finish_length (size k : ℕ) (batch : List α) (b : Buffer α) :
    (b.finish size k batch).pending.length ≤ b.pending.length := by
  rw [finish,List.length_drop]
  omega

variable {log : List α} {b : Buffer α} {pending : List α}

theorem apart (hlog : log.Nodup) {left : List α} (h : log = left++pending) :
    ∀ x ∈ left, x ∉ pending := by
  rw [h] at hlog
  intro x hx hmem
  exact (List.nodup_append.mp hlog).2.2 x hx x hmem rfl

theorem TakenFrom.shift {batch : List α} (h : TakenFrom log pending batch) (n : ℕ) :
    TakenFrom log (pending.drop n) batch := by
  obtain ⟨hne,front,rest,left,hlog,hpending,hle⟩ := h
  refine ⟨hne,front,rest,left++pending.take n,hlog,?_,?_⟩
  · rw [List.append_assoc,List.take_append_drop,← hpending]
  · rw [List.length_append]
    omega

theorem TakenFrom.grow {batch : List α} (h : TakenFrom log pending batch) (x : α) :
    TakenFrom (log++[x]) (pending++[x]) batch := by
  obtain ⟨hne,front,rest,left,hlog,hpending,hle⟩ := h
  refine ⟨hne,front,rest++[x],left,?_,?_,hle⟩
  · rw [hlog,List.append_assoc]
  · rw [hpending,List.append_assoc]

variable {size : ℕ}

theorem takenFrom_next (hsize : 1 ≤ size) (h : pending <:+ log) :
    ∀ batch ∈ nextBatch size pending, TakenFrom log pending batch := by
  obtain ⟨left,hlog⟩ := h
  cases pending with
  | nil => nofun
  | cons x xs =>
    intro batch hbatch
    obtain rfl : (x::xs).take size = batch := Option.some.inj hbatch
    refine ⟨?_,left,(x::xs).drop size,left,?_,hlog.symm,Nat.le_refl _⟩
    · obtain ⟨n,rfl⟩ := Nat.exists_eq_add_of_le hsize
      rw [Nat.add_comm,List.take_succ_cons]
      exact List.cons_ne_nil _ _
    · rw [List.append_assoc,List.take_append_drop,hlog]

theorem taken_apart (hnodup : pending.Nodup) (n : ℕ) :
    ∀ x ∈ pending.take n, x ∉ pending.drop n := by
  apply apart hnodup
  rw [List.take_append_drop]

theorem nodup_suffix (hlog : log.Nodup) (h : pending <:+ log) : pending.Nodup :=
  hlog.sublist h.sublist

variable {x : α}

theorem traced_add (limit : ℕ) (h : Traced log b) (hx : x ∉ log) :
    Traced (log++[x]) (b.add limit x) := by
  have hnodup : (log++[x]).Nodup := by
    rw [List.nodup_append]
    refine ⟨h.nodup,List.nodup_singleton x,?_⟩
    rintro y hy z hz rfl
    rw [List.mem_singleton.mp hz] at hy
    exact hx hy
  have hsuffix : b.pending++[x] <:+ log++[x] := by
    obtain ⟨left,hlog⟩ := h.pending
    refine ⟨left,?_⟩
    rw [← hlog,List.append_assoc]
  refine ⟨hnodup,(List.drop_suffix _ _).trans hsuffix,fun k batch hbatch => ?_,?_⟩
  · exact ((h.sending k batch hbatch).grow x).shift _
  · intro y hy
    have hold (hgone : y ∈ log ∧ y ∉ b.pending) :
        y ∈ log++[x] ∧ y ∉ (b.add limit x).pending := by
      refine ⟨List.mem_append_left _ hgone.1,fun hmem => ?_⟩
      rcases List.mem_append.mp (List.mem_of_mem_drop hmem) with hp | hp
      · exact hgone.2 hp
      · rw [List.mem_singleton.mp hp] at hgone
        exact hx hgone.1
    rcases hy with hr | hd
    · exact hold (h.gone y (.inl hr))
    · rcases List.mem_append.mp hd with hd | ht
      · exact hold (h.gone y (.inr hd))
      · exact ⟨hsuffix.subset (List.mem_of_mem_take ht),
          taken_apart (nodup_suffix hnodup hsuffix) _ y ht⟩

variable {k : ℕ}

theorem update_taken {sending : ℕ → Option (List α)} {next : Option (List α)}
    (h : ∀ k, ∀ batch ∈ sending k, TakenFrom log pending batch)
    (hnext : ∀ batch ∈ next, TakenFrom log pending batch) :
    ∀ k', ∀ batch ∈ Function.update sending k next k', TakenFrom log pending batch := by
  intro k' batch hbatch
  by_cases heq : k' = k
  · rw [heq,Function.update_self] at hbatch
    exact hnext batch hbatch
  · rw [Function.update_of_ne heq] at hbatch
    exact h k' batch hbatch

theorem traced_flush (hsize : 1 ≤ size) (k : ℕ) (h : Traced log b) : Traced log (b.flush size k) :=
  ⟨h.nodup,h.pending,update_taken h.sending (takenFrom_next hsize h.pending),h.gone⟩

theorem traced_fail (k : ℕ) (h : Traced log b) : Traced log (b.fail k) :=
  ⟨h.nodup,h.pending,update_taken h.sending nofun,h.gone⟩

/-- A batch is behind no entry that is left: it stands where they begin, or before. -/
theorem TakenFrom.overlap {batch : List α} (h : TakenFrom log pending batch) :
    ∃ mid rest, mid++pending = batch++rest ∧ ∃ front, log = front++mid++pending := by
  obtain ⟨-,front,rest,left,hlog,hpending,hle⟩ := h
  have hfront : front <+: log := by
    rw [hlog,List.append_assoc]
    exact List.prefix_append _ _
  have hleft : left <+: log := by
    rw [hpending]
    exact List.prefix_append _ _
  obtain ⟨mid,rfl⟩ := List.prefix_of_prefix_length_le hfront hleft hle
  refine ⟨mid,rest,?_,front,hpending⟩
  rw [hlog,List.append_assoc,List.append_assoc] at hpending
  exact (List.append_cancel_left hpending).symm

theorem TakenFrom.gone {batch : List α} (hlog : log.Nodup) (h : TakenFrom log pending batch) :
    ∀ x ∈ batch, x ∈ log ∧ x ∉ pending.drop batch.length := by
  obtain ⟨mid,rest,hsame,front,hfront⟩ := h.overlap
  have hall : log = front++batch++rest := by
    rw [hfront,List.append_assoc,hsame,List.append_assoc]
  have hlater : pending.drop batch.length <:+ rest := by
    have hpending : pending.drop batch.length <:+ mid++pending :=
      (List.drop_suffix _ _).trans (List.suffix_append _ _)
    have hrest : rest <:+ mid++pending := by
      rw [hsame]
      exact List.suffix_append _ _
    apply List.suffix_of_suffix_length_le hpending hrest
    have hlength := congrArg List.length hsame
    rw [List.length_append,List.length_append] at hlength
    rw [List.length_drop]
    omega
  intro x hx
  refine ⟨?_,fun hmem => ?_⟩
  · rw [hall]
    exact List.mem_append_left _ (List.mem_append_right _ hx)
  · exact apart hlog hall x (List.mem_append_right _ hx) (hlater.subset hmem)

variable {batch : List α}

theorem traced_finish (hsize : 1 ≤ size) (hbatch : batch ∈ b.sending k) (h : Traced log b) :
    Traced log (b.finish size k batch) := by
  have hpending : b.pending.drop batch.length <:+ log := (List.drop_suffix _ _).trans h.pending
  have hsending : ∀ k, ∀ batch' ∈ b.sending k, TakenFrom log (b.pending.drop batch.length) batch' :=
    fun k batch' hbatch' => (h.sending k batch' hbatch').shift _
  refine ⟨h.nodup,hpending,update_taken hsending (takenFrom_next hsize hpending),fun x hx => ?_⟩
  have hold (hgone : x ∈ log ∧ x ∉ b.pending) : x ∈ log ∧ x ∉ (b.finish size k batch).pending :=
    ⟨hgone.1,fun hmem => hgone.2 (List.mem_of_mem_drop hmem)⟩
  rcases hx with hr | hd
  · rcases List.mem_append.mp hr with hr | hr
    · exact hold (h.gone x (.inl hr))
    · exact (h.sending k batch hbatch).gone h.nodup x hr
  · exact hold (h.gone x (.inr hd))

theorem accounted_add (limit : ℕ) (x : α) (b : Buffer α) : Accounted b (b.add limit x) := by
  intro y hy hgone
  right
  have hmem : y ∈ b.pending++[x] := List.mem_append_left _ hy
  rw [← List.take_append_drop ((b.pending++[x]).length-limit) (b.pending++[x])] at hmem
  rcases List.mem_append.mp hmem with ht | hd
  · exact List.mem_append_right _ ht
  · exact absurd hd hgone

theorem accounted_same {b' : Buffer α} (h : b'.pending = b.pending) : Accounted b b' := by
  intro x hx hgone
  rw [h] at hgone
  exact absurd hx hgone

/-- What leaves at the end of a send was sent exactly if the batch is still in front. -/
theorem accounted_finish (hbatch : batch ∈ b.sending k) (h : Traced log b) :
    Accounted b (b.finish size k batch) ↔ InFront batch b.pending := by
  have htaken := h.sending k batch hbatch
  constructor
  · intro haccounted
    have hsent : ∀ x ∈ b.pending, x ∉ b.pending.drop batch.length → x ∈ batch := by
      intro x hx hleft
      rcases haccounted x hx hleft with hr | hd
      · rcases List.mem_append.mp hr with hr | hr
        · exact absurd hx (h.gone x (.inl hr)).2
        · exact hr
      · exact absurd hx (h.gone x (.inr hd)).2
    obtain ⟨mid,rest,hsame,front,hfront⟩ := htaken.overlap
    have hnodup := nodup_suffix h.nodup h.pending
    have happart : ∀ x ∈ batch, x ∉ rest := by
      have hall : log = front++batch++rest := by
        rw [hfront,List.append_assoc,hsame,List.append_assoc]
      exact fun x hx => apart h.nodup hall x (List.mem_append_right _ hx)
    rcases List.append_eq_append_iff.mp hsame with ⟨c,hbatchEq,hpending⟩ | ⟨c,hmid,hrest⟩
    · cases rest with
      | nil =>
        right
        rw [hpending,List.append_nil,hbatchEq]
        exact List.suffix_append _ _
      | cons y rest =>
        left
        cases mid with
        | nil =>
          rw [List.nil_append] at hbatchEq
          rw [hpending,hbatchEq]
          exact List.prefix_append _ _
        | cons z mid =>
          exfalso
          have hleft : y ∉ b.pending.drop batch.length := by
            intro hmem
            have hmore : b.pending.drop batch.length <:+ rest := by
              have hrest : rest <:+ b.pending := by
                rw [hpending]
                exact ⟨c++[y],by rw [List.append_assoc]; rfl⟩
              apply List.suffix_of_suffix_length_le (List.drop_suffix _ _) hrest
              rw [List.length_drop,hpending,hbatchEq]
              simp only [List.length_append,List.length_cons]
              omega
            rw [hpending] at hnodup
            have htail := (List.nodup_append.mp hnodup).2.1
            exact (List.nodup_cons.mp htail).1 (hmore.subset hmem)
          have hy : y ∈ b.pending := by
            rw [hpending]
            exact List.mem_append_right _ List.mem_cons_self
          exact happart y (hsent y hy hleft) List.mem_cons_self
    · cases hp : b.pending with
      | nil => exact .inr List.nil_suffix
      | cons x xs =>
        exfalso
        have hleft : x ∉ b.pending.drop batch.length := by
          rw [hp] at hnodup ⊢
          obtain ⟨hne,-⟩ := htaken
          cases batch with
          | nil => exact absurd rfl hne
          | cons y ys =>
            intro hmem
            exact (List.nodup_cons.mp hnodup).1 (List.mem_of_mem_drop (i := ys.length) hmem)
        have hx : x ∈ b.pending := by
          rw [hp]
          exact List.mem_cons_self
        apply happart x (hsent x hx hleft)
        rw [hrest]
        exact List.mem_append_right _ hx
  · intro hfront x hx hleft
    left
    apply List.mem_append_right
    rcases hfront with ⟨rest,hrest⟩ | hsuffix
    · rw [← hrest] at hx
      rcases List.mem_append.mp hx with hb | hr
      · exact hb
      · apply absurd _ hleft
        change x ∈ b.pending.drop batch.length
        rw [← hrest,List.drop_left]
        exact hr
    · exact hsuffix.subset hx

/-- The entry is pending, or in a batch that is being sent. -/
def Holds (b : Buffer α) (x : α) : Prop := x ∈ b.pending ∨ ∃ k, ∃ batch ∈ b.sending k, x ∈ batch

theorem holds_add {limit : ℕ} {y : α} (h : (b.add limit x).Holds y) : b.Holds y ∨ y = x := by
  rcases h with hp | hsending
  · rcases List.mem_append.mp (List.mem_of_mem_drop hp) with hp | hx
    · exact .inl (.inl hp)
    · exact .inr (List.mem_singleton.mp hx)
  · exact .inl (.inr hsending)

theorem mem_nextBatch (h : batch ∈ nextBatch size pending) : ∀ x ∈ batch, x ∈ pending := by
  cases pending with
  | nil => cases h
  | cons y ys =>
    obtain rfl : (y::ys).take size = batch := Option.some.inj h
    exact fun x hx => List.mem_of_mem_take hx

theorem holds_update {sending : ℕ → Option (List α)} {next : Option (List α)}
    (h : ∃ k', ∃ batch ∈ Function.update sending k next k', x ∈ batch) :
    (∃ k', ∃ batch ∈ sending k', x ∈ batch) ∨ ∃ batch ∈ next, x ∈ batch := by
  obtain ⟨k',batch,hbatch,hx⟩ := h
  by_cases heq : k' = k
  · rw [heq,Function.update_self] at hbatch
    exact .inr ⟨batch,hbatch,hx⟩
  · rw [Function.update_of_ne heq] at hbatch
    exact .inl ⟨k',batch,hbatch,hx⟩

theorem holds_flush (h : (b.flush size k).Holds x) : b.Holds x := by
  rcases h with hp | hsending
  · exact .inl hp
  · rcases holds_update hsending with hold | ⟨batch,hbatch,hx⟩
    · exact .inr hold
    · exact .inl (mem_nextBatch hbatch x hx)

theorem holds_finish (h : (b.finish size k batch).Holds x) : b.Holds x := by
  rcases h with hp | hsending
  · exact .inl (List.mem_of_mem_drop hp)
  · rcases holds_update hsending with hold | ⟨next,hnext,hx⟩
    · exact .inr hold
    · exact .inl (List.mem_of_mem_drop (mem_nextBatch hnext x hx))

theorem holds_fail (h : (b.fail k).Holds x) : b.Holds x := by
  rcases h with hp | hsending
  · exact .inl hp
  · rcases holds_update hsending with hold | ⟨batch,hbatch,-⟩
    · exact .inr hold
    · cases hbatch

end Buffer

end OneStep.TelemetryBuffers
