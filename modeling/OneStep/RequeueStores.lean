import OneStep.HandedOut
import OneStep.MemoryQueue
import Mathlib.Data.List.Sort

/-!
# Where a retried delivery goes

A `MemoryQueue` takes back a copy of the envelope, and only by a retry. A table queue claims
rows that satisfy its `where` and settles them by updates: `ack` by its own mapping, and
`retry`, `fail` and `release_unstarted` by the nack mapping. The table queues of PostgreSQL,
MySQL and SQLite are alike in this. Nothing forbids to settle a delivery more than once.
-/
namespace OneStep.RequeueStores
open HandedOut MemoryQueue Transition

section Memory
variable {β μ : Type}

structure Memory (β μ : Type) where
  queue : List (Entry β μ) := []
  sent : ℕ := 0
  deliveries : List (Entry β μ) := []

variable (cfg : MemoryQueue.Settings)

/-- A size that is not positive is no bound. -/
def full (m : Memory β μ) : Prop := 0 < cfg.maxsize ∧ cfg.maxsize ≤ m.queue.length

instance (m : Memory β μ) : Decidable (full cfg m) := inferInstanceAs (Decidable (_ ∧ _))

/-- The effects of the calls that return. -/
def performMemory (m : Memory β μ) : HandedOut.Op (Envelope β μ) → Option (Memory β μ)
  | .send envelope =>
    if full cfg m then none
    else some {m with queue := m.queue++[⟨m.sent,envelope⟩],sent := m.sent+1}
  | .fetch limit => some {m with
      queue := m.queue.drop (fetchLimit cfg limit)
      deliveries := m.deliveries++m.queue.take (fetchLimit cfg limit)}
  | .retry i =>
    if full cfg m then none
    else m.deliveries[i]?.map fun d => {m with
      queue := m.queue++[⟨d.item,{d.envelope with attempts := d.envelope.attempts+1}⟩]}
  | .ack i | .fail i | .release i => m.deliveries[i]?.map fun _ => m

def memoryStore : Store (Memory β μ) (Envelope β μ) ℕ where
  perform := performMemory cfg
  handed m := m.deliveries.map Entry.item
  available m k := ∃ e ∈ m.queue, e.item = k

def memoryPuts : HandedOut.Op (Envelope β μ) → Bool
  | .retry _ => true
  | _ => false

variable {cfg} {m : Memory β μ} {m' : Memory β μ}

theorem handed_get {i : ℕ} {d : Entry β μ} (h : m.deliveries[i]? = some d) :
    i < (m.deliveries.map Entry.item).length := by
  rw [List.length_map]
  exact (List.getElem?_eq_some_iff.mp h).1

theorem memory_same {i : ℕ} (h : (m.deliveries[i]?.map fun _ => m) = some m') :
    m' = m ∧ i < (m.deliveries.map Entry.item).length := by
  obtain ⟨d,hd,rfl⟩ := Option.map_eq_some_iff.mp h
  exact ⟨rfl,handed_get hd⟩

theorem memory_retry {i : ℕ} (h : performMemory cfg m (.retry i) = some m') :
    ∃ d, m.deliveries[i]? = some d ∧ m' = {m with
      queue := m.queue++[⟨d.item,{d.envelope with attempts := d.envelope.attempts+1}⟩]} := by
  rw [performMemory] at h
  split at h
  · cases h
  · obtain ⟨d,hd,rfl⟩ := Option.map_eq_some_iff.mp h
    exact ⟨d,hd,rfl⟩

theorem memory_send {envelope : Envelope β μ} (h : performMemory cfg m (.send envelope) = some m') :
    m' = {m with queue := m.queue++[⟨m.sent,envelope⟩],sent := m.sent+1} := by
  rw [performMemory] at h
  split at h
  · cases h
  · cases h
    rfl

theorem memory_lawful : Lawful (memoryStore cfg) (@memoryPuts β μ) fun _ => True where
  invariant _ _ _ _ _ := trivial
  handed := by
    intro m op m' _ hs
    cases op with
    | send envelope =>
      rw [memory_send hs]
      exact ⟨⟨[],(List.append_nil _).symm⟩,nofun⟩
    | fetch limit =>
      cases hs
      exact ⟨⟨(m.queue.take (fetchLimit cfg limit)).map Entry.item,List.map_append⟩,nofun⟩
    | retry i =>
      obtain ⟨d,hd,rfl⟩ := memory_retry hs
      refine ⟨⟨[],(List.append_nil _).symm⟩,fun j hj => ?_⟩
      cases hj
      exact handed_get hd
    | ack i | fail i | release i =>
      obtain ⟨rfl,hi⟩ := memory_same hs
      refine ⟨⟨[],(List.append_nil _).symm⟩,fun j hj => ?_⟩
      cases hj
      exact hi
  kept := by
    intro m op m' k _ hs havail
    obtain ⟨e,he,hk⟩ := havail
    cases op with
    | send envelope =>
      rw [memory_send hs]
      exact .inl ⟨e,List.mem_append_left _ he,hk⟩
    | fetch limit =>
      cases hs
      rw [← List.take_append_drop (fetchLimit cfg limit) m.queue] at he
      rcases List.mem_append.mp he with htaken | hleft
      · obtain ⟨j,hj⟩ := List.getElem?_of_mem htaken
        refine .inr (.inl ⟨((memoryStore cfg).handed m).length+j,Nat.le_add_right _ _,?_⟩)
        change ((m.deliveries++m.queue.take (fetchLimit cfg limit)).map Entry.item)[_]? = _
        rw [List.map_append]
        change ((memoryStore cfg).handed m++_)[_]? = _
        rw [List.getElem?_append_right (Nat.le_add_right _ _),Nat.add_sub_cancel_left,
          List.getElem?_map,hj,← hk]
        rfl
      · exact .inl ⟨e,hleft,hk⟩
    | retry i =>
      obtain ⟨d,_,rfl⟩ := memory_retry hs
      exact .inl ⟨e,List.mem_append_left _ he,hk⟩
    | ack i | fail i | release i =>
      obtain ⟨rfl,_⟩ := memory_same hs
      exact .inl ⟨e,he,hk⟩
  back := by
    intro m op m' i k _ hs hputs hdel hk
    cases op with
    | retry j =>
      cases hdel
      obtain ⟨d,hd,rfl⟩ := memory_retry hs
      refine ⟨_,List.mem_append_right _ List.mem_cons_self,?_⟩
      change (m.deliveries.map Entry.item)[i]? = some k at hk
      rw [List.getElem?_map,hd] at hk
      exact Option.some.inj hk
    | _ => cases hputs

end Memory

section Table
variable {ρ κ : Type} [LinearOrder κ]

/-- A queue over the rows of a table. The mappings leave the key alone, and a claimed row does
not satisfy `where`. -/
structure TableQueue (ρ κ : Type) where
  key : ρ → κ
  selects : ρ → Bool
  claim : ρ → ρ
  ack : ρ → ρ
  nack : ρ → ρ
  batchSize : ℤ
  claim_key : ∀ row, key (claim row) = key row
  ack_key : ∀ row, key (ack row) = key row
  nack_key : ∀ row, key (nack row) = key row
  claimed : ∀ row, selects (claim row) = false

/-- A row that the nack mapping was applied to satisfies `where`. -/
structure RequeuingTable (ρ κ : Type) [LinearOrder κ] extends TableQueue ρ κ where
  returned : ∀ row, selects (nack row) = true

structure Table (ρ κ : Type) where
  rows : List ρ := []
  rowRefs : List κ := []

variable (q : TableQueue ρ κ)

def keyOrder (a b : ρ) : Bool := q.key a ≤ q.key b

def claimedKeys (rows : List ρ) (limit : ℕ) : List κ :=
  (((rows.filter q.selects).mergeSort (keyOrder q)).take (max 1 (min (limit : ℤ) q.batchSize)).toNat).map
    q.key

theorem lawful_keys {κ : Type} [LinearOrder κ] : LawfulBEq κ := inferInstance

attribute [local instance] lawful_keys

def updateRow (values : ρ → ρ) (keys : List κ) (rows : List ρ) : List ρ :=
  rows.map fun row => if q.key row ∈ keys then values row else row

def settleRow (values : ρ → ρ) (i : ℕ) (t : Table ρ κ) : Option (Table ρ κ) :=
  t.rowRefs[i]?.map fun rowRef => {t with rows := updateRow q values [rowRef] t.rows}

/-- The effects of the calls that return; rows that others insert have a new key. -/
def performTable (t : Table ρ κ) : HandedOut.Op ρ → Option (Table ρ κ)
  | .send row =>
    if q.key row ∈ t.rows.map q.key then none else some {t with rows := t.rows++[row]}
  | .fetch limit =>
    let ids := claimedKeys q t.rows limit
    let rows := updateRow q q.claim ids t.rows
    some {t with
      rows := rows
      rowRefs := t.rowRefs++((rows.filter fun row => q.key row ∈ ids).mergeSort (keyOrder q)).map q.key}
  | .ack i => settleRow q q.ack i t
  | .retry i | .fail i | .release i => settleRow q q.nack i t

def tableStore : Store (Table ρ κ) ρ κ where
  perform := performTable q
  handed := Table.rowRefs
  available t k := ∃ row ∈ t.rows, q.key row = k ∧ q.selects row = true

def tablePuts : HandedOut.Op ρ → Bool
  | .retry _ | .release _ => true
  | _ => false

/-- The rows of the deliveries are still in the table. -/
def Referenced (t : Table ρ κ) : Prop := ∀ k ∈ t.rowRefs, k ∈ t.rows.map q.key

variable {q} {t t' : Table ρ κ} {values : ρ → ρ} {i : ℕ}

theorem updateRow_keys (hkey : ∀ row, q.key (values row) = q.key row) (keys : List κ)
    (rows : List ρ) : (updateRow q values keys rows).map q.key = rows.map q.key := by
  rw [updateRow,List.map_map]
  apply List.map_congr_left
  intro row _
  rw [Function.comp_apply]
  split
  · exact hkey row
  · rfl

theorem mem_updateRow {keys : List κ} {rows : List ρ} {row : ρ} (hrow : row ∈ rows) :
    (if q.key row ∈ keys then values row else row) ∈ updateRow q values keys rows :=
  List.mem_map_of_mem hrow

theorem settleRow_some (h : settleRow q values i t = some t') :
    ∃ rowRef, t.rowRefs[i]? = some rowRef ∧ t' = {t with rows := updateRow q values [rowRef] t.rows} := by
  obtain ⟨rowRef,href,rfl⟩ := Option.map_eq_some_iff.mp h
  exact ⟨rowRef,href,rfl⟩

theorem referenced_settle (hkey : ∀ row, q.key (values row) = q.key row) (ht : Referenced q t)
    (h : settleRow q values i t = some t') : Referenced q t' := by
  obtain ⟨rowRef,_,rfl⟩ := settleRow_some h
  intro k hk
  rw [updateRow_keys hkey]
  exact ht k hk

variable {k : κ}

theorem available_settle (h : settleRow q values i t = some t')
    (havail : (tableStore q).available t k) :
    (tableStore q).available t' k ∨ t.rowRefs[i]? = some k := by
  obtain ⟨rowRef,href,rfl⟩ := settleRow_some h
  obtain ⟨row,hrow,hk,hselects⟩ := havail
  by_cases hkey : q.key row = rowRef
  · rw [← hk,hkey]
    exact .inr href
  · have hmem : _ ∈ updateRow q values [rowRef] t.rows := mem_updateRow hrow
    rw [if_neg (by rw [List.mem_singleton]; exact hkey)] at hmem
    exact .inl ⟨row,hmem,hk,hselects⟩

theorem available_nack {q : RequeuingTable ρ κ} (ht : Referenced q.toTableQueue t)
    (h : settleRow q.toTableQueue q.nack i t = some t') (hk : t.rowRefs[i]? = some k) :
    (tableStore q.toTableQueue).available t' k := by
  obtain ⟨rowRef,href,rfl⟩ := settleRow_some h
  rw [hk] at href
  cases href
  obtain ⟨row,hrow,hkey⟩ := List.mem_map.mp (ht k (List.mem_of_getElem? hk))
  have hmem : _ ∈ updateRow q.toTableQueue q.nack [k] t.rows := mem_updateRow hrow
  rw [if_pos (by rw [List.mem_singleton]; exact hkey)] at hmem
  exact ⟨q.nack row,hmem,(q.nack_key row).trans hkey,q.returned row⟩

theorem table_send {row : ρ} (h : performTable q t (.send row) = some t') :
    t' = {t with rows := t.rows++[row]} := by
  rw [performTable] at h
  split at h
  · cases h
  · cases h
    rfl

theorem mem_fetched {ids : List κ} {rows : List ρ} (hkey : k ∈ rows.map q.key) :
    k ∈ ids ↔ k ∈ ((rows.filter fun row => q.key row ∈ ids).mergeSort (keyOrder q)).map q.key := by
  constructor
  · intro hk
    obtain ⟨row,hrow,rfl⟩ := List.mem_map.mp hkey
    apply List.mem_map_of_mem
    rw [List.mem_mergeSort,List.mem_filter]
    exact ⟨hrow,decide_eq_true hk⟩
  · intro hk
    obtain ⟨row,hrow,rfl⟩ := List.mem_map.mp hk
    rw [List.mem_mergeSort,List.mem_filter] at hrow
    exact of_decide_eq_true hrow.2

theorem referenced_fetch {limit : ℕ} (ht : Referenced q t)
    (h : performTable q t (.fetch limit) = some t') : Referenced q t' := by
  cases h
  intro k hk
  rcases List.mem_append.mp hk with hold | hnew
  · rw [updateRow_keys q.claim_key]
    exact ht k hold
  · obtain ⟨row,hrow,rfl⟩ := List.mem_map.mp hnew
    rw [List.mem_mergeSort,List.mem_filter] at hrow
    exact List.mem_map_of_mem hrow.1

theorem available_fetch {limit : ℕ} (h : performTable q t (.fetch limit) = some t')
    (havail : (tableStore q).available t k) : (tableStore q).available t' k ∨
      ∃ i, t.rowRefs.length ≤ i ∧ t'.rowRefs[i]? = some k := by
  cases h
  obtain ⟨row,hrow,hk,hselects⟩ := havail
  by_cases hclaimed : k ∈ claimedKeys q t.rows limit
  · have hkeys : k ∈ (updateRow q q.claim (claimedKeys q t.rows limit) t.rows).map q.key := by
      rw [updateRow_keys q.claim_key,← hk]
      exact List.mem_map_of_mem hrow
    obtain ⟨j,hj⟩ := List.getElem?_of_mem ((mem_fetched hkeys).mp hclaimed)
    refine .inr ⟨t.rowRefs.length+j,Nat.le_add_right _ _,?_⟩
    rw [List.getElem?_append_right (Nat.le_add_right _ _),Nat.add_sub_cancel_left]
    exact hj
  · have hmem : _ ∈ updateRow q q.claim (claimedKeys q t.rows limit) t.rows := mem_updateRow hrow
    rw [if_neg (by rw [hk]; exact hclaimed)] at hmem
    exact .inl ⟨row,hmem,hk,hselects⟩

theorem table_lawful (q : RequeuingTable ρ κ) :
    Lawful (tableStore q.toTableQueue) tablePuts (Referenced q.toTableQueue) where
  invariant := by
    intro t op t' ht hs
    cases op with
    | send row =>
      rw [table_send hs]
      intro k hk
      rw [List.map_append]
      exact List.mem_append_left _ (ht k hk)
    | fetch limit => exact referenced_fetch ht hs
    | ack i => exact referenced_settle q.ack_key ht hs
    | retry i | fail i | release i => exact referenced_settle q.nack_key ht hs
  handed := by
    intro t op t' ht hs
    cases op with
    | send row =>
      rw [table_send hs]
      exact ⟨⟨[],(List.append_nil _).symm⟩,nofun⟩
    | fetch limit =>
      cases hs
      exact ⟨⟨_,rfl⟩,nofun⟩
    | ack i | retry i | fail i | release i =>
      obtain ⟨rowRef,href,rfl⟩ := settleRow_some hs
      refine ⟨⟨[],(List.append_nil _).symm⟩,fun j hj => ?_⟩
      cases hj
      exact (List.getElem?_eq_some_iff.mp href).1
  kept := by
    intro t op t' k ht hs havail
    cases op with
    | send row =>
      rw [table_send hs]
      obtain ⟨row,hrow,hk⟩ := havail
      exact .inl ⟨row,List.mem_append_left _ hrow,hk⟩
    | fetch limit => exact (available_fetch hs havail).imp_right .inl
    | ack i | fail i => exact (available_settle hs havail).imp_right fun hk => .inr ⟨i,rfl,hk⟩
    | retry i | release i =>
      rcases available_settle hs havail with h | hk
      · exact .inl h
      · exact .inl (available_nack ht hs hk)
  back := by
    intro t op t' i k ht hs hputs hdel hk
    cases op with
    | retry j | release j =>
      cases hdel
      exact available_nack ht hs hk
    | _ => cases hputs

end Table

section Exclusive
variable {ρ κ : Type} [LinearOrder κ] {q : TableQueue ρ κ} {t t' : Table ρ κ} {values : ρ → ρ} {k : κ}

attribute [local instance] lawful_keys

/-- A delivery that was settled. -/
def Settled (past : List (HandedOut.Op ρ)) (i : ℕ) : Prop := ∃ op ∈ past, op.delivery = some i

/-- A row waits with all its deliveries settled, or has one that is not. -/
structure Exclusive (q : TableQueue ρ κ) (past : List (HandedOut.Op ρ)) (t : Table ρ κ) : Prop where
  keys : (t.rows.map q.key).Nodup
  rowRefs : Referenced q t
  waiting : ∀ k, (tableStore q).available t k → ∀ i : ℕ, t.rowRefs[i]? = some k → Settled past i
  apart : ∀ (i j : ℕ) k, i < j → t.rowRefs[i]? = some k → t.rowRefs[j]? = some k → Settled past i

theorem Settled.mono {past : List (HandedOut.Op ρ)} {i : ℕ} (h : Settled past i)
    (op : HandedOut.Op ρ) : Settled (past++[op]) i :=
  h.imp fun _ h => ⟨List.mem_append_left _ h.1,h.2⟩

theorem exclusive_settle {past : List (HandedOut.Op ρ)} {op : HandedOut.Op ρ} {i : ℕ}
    (h : Exclusive q past t) (hkey : ∀ row, q.key (values row) = q.key row)
    (hop : op.delivery = some i) (hfresh : ¬Settled past i)
    (hs : settleRow q values i t = some t') : Exclusive q (past++[op]) t' := by
  have hrefs := referenced_settle hkey h.rowRefs hs
  obtain ⟨rowRef,href,rfl⟩ := settleRow_some hs
  refine ⟨?_,hrefs,fun k havail j hj => ?_,fun j l k hlt hj hl => (h.apart j l k hlt hj hl).mono op⟩
  · rw [updateRow_keys hkey]
    exact h.keys
  · by_cases hji : j = i
    · exact ⟨op,List.mem_append_right _ List.mem_cons_self,hji ▸ hop⟩
    · by_cases hk : k = rowRef
      · rcases Nat.lt_or_gt_of_ne hji with hlt | hlt
        · exact (h.apart j i k hlt hj (hk ▸ href)).mono op
        · exact absurd (h.apart i j k hlt (hk ▸ href) hj) hfresh
      · obtain ⟨row,hrow,hkeyed,hselects⟩ := havail
        obtain ⟨old,hold,rfl⟩ := List.mem_map.mp hrow
        have hother : q.key old ≠ rowRef := by
          split at hkeyed
          next hmem => exact absurd (hkeyed.symm.trans ((hkey old).trans (List.mem_singleton.mp hmem))) hk
          next hmem => exact fun heq => hmem (List.mem_singleton.mpr heq)
        rw [if_neg (fun hmem => hother (List.mem_singleton.mp hmem))] at hkeyed hselects
        exact (h.waiting k ⟨old,hold,hkeyed,hselects⟩ j hj).mono op

theorem claimed_available {limit : ℕ} (hk : k ∈ claimedKeys q t.rows limit) :
    (tableStore q).available t k := by
  obtain ⟨row,hrow,rfl⟩ := List.mem_map.mp hk
  have hrow := List.mem_mergeSort.mp (List.mem_of_mem_take hrow)
  exact ⟨row,(List.mem_filter.mp hrow).1,rfl,(List.mem_filter.mp hrow).2⟩

theorem exclusive_fetch {past : List (HandedOut.Op ρ)} {limit : ℕ} (h : Exclusive q past t)
    (hs : performTable q t (.fetch limit) = some t') : Exclusive q (past++[.fetch limit]) t' := by
  have hrefs := referenced_fetch h.rowRefs hs
  cases hs
  have hkeys := updateRow_keys q.claim_key (claimedKeys q t.rows limit) t.rows
  have hnew {k : κ} {n : ℕ} (hn : t.rowRefs.length ≤ n)
      (hk : (t.rowRefs++(((updateRow q q.claim (claimedKeys q t.rows limit) t.rows).filter fun row =>
        q.key row ∈ claimedKeys q t.rows limit).mergeSort (keyOrder q)).map q.key)[n]? = some k) :
      k ∈ claimedKeys q t.rows limit := by
    rw [List.getElem?_append_right hn] at hk
    obtain ⟨row,hrow,rfl⟩ := List.mem_map.mp (List.mem_of_getElem? hk)
    exact of_decide_eq_true (List.mem_filter.mp (List.mem_mergeSort.mp hrow)).2
  refine ⟨hkeys ▸ h.keys,hrefs,fun k havail i hi => ?_,fun i j k hlt hi hj => ?_⟩
  · obtain ⟨row,hrow,hkeyed,hselects⟩ := havail
    obtain ⟨old,hold,rfl⟩ := List.mem_map.mp hrow
    have hleft : q.key old ∉ claimedKeys q t.rows limit := by
      intro hmem
      rw [if_pos hmem,q.claimed] at hselects
      cases hselects
    rw [if_neg hleft] at hkeyed hselects
    rcases Nat.lt_or_ge i t.rowRefs.length with hold' | hge
    · rw [List.getElem?_append_left hold'] at hi
      exact (h.waiting k ⟨old,hold,hkeyed,hselects⟩ i hi).mono _
    · exact absurd (hkeyed ▸ hnew hge hi) hleft
  · rcases Nat.lt_or_ge j t.rowRefs.length with hold | hge
    · rw [List.getElem?_append_left hold] at hj
      rw [List.getElem?_append_left (hlt.trans hold)] at hi
      exact (h.apart i j k hlt hi hj).mono _
    · have havail := claimed_available (hnew hge hj)
      rcases Nat.lt_or_ge i t.rowRefs.length with hold | hfirst
      · rw [List.getElem?_append_left hold] at hi
        exact (h.waiting k havail i hi).mono _
      · have hnodup : (((updateRow q q.claim (claimedKeys q t.rows limit) t.rows).filter fun row =>
            q.key row ∈ claimedKeys q t.rows limit).mergeSort (keyOrder q)).map q.key |>.Nodup := by
          refine ((List.mergeSort_perm _ _).map q.key).nodup_iff.mpr ?_
          exact (hkeys ▸ h.keys).sublist (List.filter_sublist.map q.key)
        rw [List.getElem?_append_right hfirst] at hi
        rw [List.getElem?_append_right hge] at hj
        have hsame := (List.getElem?_inj (List.getElem?_eq_some_iff.mp hi).1 hnodup).mp (hi.trans hj.symm)
        omega

theorem exclusive_send {past : List (HandedOut.Op ρ)} {row : ρ} (h : Exclusive q past t)
    (hs : performTable q t (.send row) = some t') : Exclusive q (past++[.send row]) t' := by
  have hnew : q.key row ∉ t.rows.map q.key := by
    intro hmem
    simp [performTable,hmem] at hs
  rw [table_send hs]
  refine ⟨?_,fun k hk => ?_,fun k havail i hi => ?_,fun i j k hlt hi hj => (h.apart i j k hlt hi hj).mono _⟩
  · rw [List.map_append]
    refine List.nodup_append.mpr ⟨h.keys,List.nodup_singleton _,fun a ha b hb => ?_⟩
    rw [List.mem_singleton.mp hb]
    exact fun heq => hnew (heq ▸ ha)
  · rw [List.map_append]
    exact List.mem_append_left _ (h.rowRefs k hk)
  · obtain ⟨other,hother,hkeyed,hselects⟩ := havail
    rcases List.mem_append.mp hother with hold | hlast
    · exact (h.waiting k ⟨other,hold,hkeyed,hselects⟩ i hi).mono _
    · rw [List.mem_singleton.mp hlast] at hkeyed
      exact absurd (hkeyed ▸ h.rowRefs k (List.mem_of_getElem? hi)) hnew

theorem exclusive_step {past : List (HandedOut.Op ρ)} {op : HandedOut.Op ρ} (h : Exclusive q past t)
    (hfresh : ∀ i, op.delivery = some i → ¬Settled past i) (hs : (tableStore q).Step t op t') :
    Exclusive q (past++[op]) t' := by
  cases op with
  | send row => exact exclusive_send h hs
  | fetch limit => exact exclusive_fetch h hs
  | ack i => exact exclusive_settle h q.ack_key rfl (hfresh i rfl) hs
  | retry i | fail i | release i => exact exclusive_settle h q.nack_key rfl (hfresh i rfl) hs

/-- A run keeps deliveries of a row apart. -/
theorem exclusive_run {past ops : List (HandedOut.Op ρ)} (h : Exclusive q past t)
    (honce : ((past++ops).filterMap Op.delivery).Nodup)
    (hrun : Run (tableStore q).Step t ops t') : Exclusive q (past++ops) t' := by
  induction hrun generalizing past with
  | nil t =>
    rw [List.append_nil]
    exact h
  | @cons t u t' op ops hs _ ih =>
    rw [List.append_cons] at honce ⊢
    refine ih (exclusive_step h (fun i hi hold => ?_) hs) honce
    obtain ⟨o,ho,hdel⟩ := hold
    rw [List.filterMap_append,List.filterMap_append] at honce
    have hpast : i ∈ past.filterMap Op.delivery := List.mem_filterMap.mpr ⟨o,ho,hdel⟩
    have hnow : i ∈ [op].filterMap Op.delivery :=
      List.mem_filterMap.mpr ⟨op,List.mem_singleton_self op,hi⟩
    exact (List.nodup_append.mp (List.nodup_append.mp honce).1).2.2 i hpast i hnow rfl

/-- As long as no delivery is settled twice, of all deliveries of a row only the last may be
unsettled. -/
theorem one_unsettled {ops : List (HandedOut.Op ρ)} (hrun : Run (tableStore q).Step {} ops t)
    (honce : (ops.filterMap Op.delivery).Nodup) {i j : ℕ} (hlt : i < j)
    (hi : t.rowRefs[i]? = some k) (hj : t.rowRefs[j]? = some k) :
    ∃ op ∈ ops, op.delivery = some i := by
  have hstart : Exclusive q [] {} := by
    refine ⟨List.nodup_nil,fun k hk => absurd hk List.not_mem_nil,fun k _ i hi => ?_,
      fun i _ k _ hi _ => ?_⟩
    · cases hi
    · cases hi
  exact (exclusive_run hstart honce hrun).apart i j k hlt hi hj

/-- A row tells whether it waits, and its number. -/
def numbered : TableQueue (Bool × ℕ) ℕ where
  key := Prod.snd
  selects := Prod.fst
  claim row := (false,row.2)
  ack row := (false,row.2)
  nack row := (true,row.2)
  batchSize := 1
  claim_key _ := rfl
  ack_key _ := rfl
  nack_key _ := rfl
  claimed _ := rfl

theorem fetch_waiting (rowRefs : List ℕ) :
    performTable numbered ⟨[(true,0)],rowRefs⟩ (.fetch 1) = some ⟨[(false,0)],rowRefs++[0]⟩ := by
  simp [performTable,claimedKeys,updateRow,numbered]

/-- The retried row is handed out again. -/
theorem retried_unsettled : ∃ op ∈ [.send (true,0),.fetch 1,.retry 0,.fetch 1],
    (op : HandedOut.Op (Bool × ℕ)).delivery = some 0 := by
  have hrun : Run (tableStore numbered).Step {} [.send (true,0),.fetch 1,.retry 0,.fetch 1]
      ⟨[(false,0)],[0,0]⟩ :=
    .cons rfl (.cons (fetch_waiting []) (.cons rfl (.cons (fetch_waiting [0]) (.nil _))))
  exact one_unsettled hrun (by decide) Nat.zero_lt_one rfl rfl

end Exclusive

end OneStep.RequeueStores
