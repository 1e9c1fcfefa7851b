import OneStep.BulkWrites
import OneStep.WireJson

/-!
# Chunks of encoded actions

An action is two lines of JSON, the operation and the document, each with a line feed
behind it. A chunk is the bytes of its actions one after another, and is taken apart
again at its line breaks. JSON holds no line break, so that the actions come back.
-/
namespace OneStep.EncodedChunks
open BulkWrites WireTexts WireJson

/-- A sink of an index; `str` of a value may raise. -/
structure Sink where
  index : Text
  operation : Operation
  idField : Option String
  chunkSize : ℕ
  maxChunkBytes : ℕ
  maxRetries : ℤ
  positive : 0 < chunkSize ∧ 0 < maxChunkBytes
  str : Data → Option Text

/-- Separators without spaces, and characters as they are. -/
def compact : Style := ⟨false,false⟩

def operationKey : Operation → Text
  | .index => text ['i','n','d','e','x']
  | .create => text ['c','r','e','a','t','e']

def indexKey : Text := text ['_','i','n','d','e','x']

def idKey : Text := text ['_','i','d']

section Lines
variable (floats : Floats) (limits : Limits)

/-- `json.dumps` and its bytes; none when one of them raises. -/
def encodeLine (v : Data) : Option (List UInt8) :=
  match dumps compact floats limits 0 v with
  | .error _ => none
  | .ok t => encodeUtf8 t

/-- What an action says about its document; none when `str` raises. -/
def Sink.metadata (sink : Sink) (document : Fields) : Option Fields :=
  match sink.idField.bind fun key => document.lookup (text key.toList) with
  | none => some [(indexKey,.str sink.index)]
  | some v => (sink.str v).map fun id => [(indexKey,.str sink.index),(idKey,.str id)]

/-- `_encode_action`. -/
def Sink.encodeAction (sink : Sink) (document : Fields) : Option (List UInt8) :=
  (sink.metadata document).bind fun metadata =>
    (encodeLine floats limits (.obj [(operationKey sink.operation,.obj metadata)])).bind fun action =>
      (encodeLine floats limits (.obj document)).map fun source => action++[10]++(source++[10])

def Sink.settings (sink : Sink) : Settings Fields (List UInt8) where
  operation := sink.operation
  idField := sink.idField
  chunkSize := sink.chunkSize
  maxChunkBytes := sink.maxChunkBytes
  maxRetries := sink.maxRetries
  holds key document := (document.lookup (text key.toList)).isSome
  encodeAction := sink.encodeAction floats limits
  size := List.length
  positive := sink.positive

/-- The chunks with the places of their actions, and whether the last document was
reached without an error. -/
def Sink.chunks (sink : Sink) (documents : List Fields) : List (List (ℕ × List UInt8)) × Bool :=
  iterEncodedChunks (sink.settings floats limits) [] documents.zipIdx

end Lines

def chunkBytes (chunk : List (ℕ × List UInt8)) : List UInt8 := (chunk.map Prod.snd).flatten

section Splitting

/-- `bytes.splitlines(keepends=True)`, behind the bytes of the current line. -/
def splitLines (current : List UInt8) : List UInt8 → List (List UInt8)
  | [] => if current.isEmpty then [] else [current]
  | b::bytes =>
    if b = 10 then (current++[b])::splitLines [] bytes
    else if b = 13 then
      match bytes with
      | [] => [current++[b]]
      | c::rest =>
        if c = 10 then (current++[b,c])::splitLines [] rest
        else (current++[b])::splitLines [] (c::rest)
    else splitLines (current++[b]) bytes

def linePairs : List (List UInt8) → List (List UInt8)
  | a::b::lines => (a++b)::linePairs lines
  | _ => []

/-- `_action_documents`; none is ValueError. -/
def actionDocuments (body : List UInt8) : Option (List (List UInt8)) :=
  let lines := splitLines [] body
  if lines.length%2 ≠ 0 then none else some (linePairs lines)

theorem splitLines_line {line : List UInt8} (h : ∀ b ∈ line, b ≠ 10 ∧ b ≠ 13)
    (current rest : List UInt8) :
    splitLines current (line++10::rest) = (current++line++[10])::splitLines [] rest := by
  induction line generalizing current with
  | nil =>
    rw [List.nil_append,List.append_nil]
    conv_lhs => unfold splitLines
    exact if_pos rfl
  | cons b line ih =>
    rw [List.forall_mem_cons] at h
    rw [List.cons_append]
    conv_lhs => unfold splitLines
    rw [if_neg h.1.1,if_neg h.1.2,ih h.2]
    simp

/-- Two lines without line breaks inside. -/
def TwoLines (action : List UInt8) : Prop :=
  ∃ first second : List UInt8, action = first++[10]++(second++[10]) ∧
    (∀ b ∈ first, b ≠ 10 ∧ b ≠ 13) ∧ ∀ b ∈ second, b ≠ 10 ∧ b ≠ 13

theorem splitLines_actions {actions : List (List UInt8)} (h : ∀ a ∈ actions, TwoLines a) :
    (splitLines [] actions.flatten).length = 2*actions.length ∧
      linePairs (splitLines [] actions.flatten) = actions := by
  induction actions with
  | nil => exact ⟨rfl,rfl⟩
  | cons a actions ih =>
    rw [List.forall_mem_cons] at h
    obtain ⟨⟨first,second,ha,hfirst,hsecond⟩,hrest⟩ := h
    obtain ⟨hlength,hpairs⟩ := ih hrest
    have hsplit : splitLines [] (a::actions).flatten =
        (first++[10])::(second++[10])::splitLines [] actions.flatten := by
      have hbytes : (a::actions).flatten = first++10::(second++10::actions.flatten) := by
        rw [List.flatten_cons,ha]
        simp
      rw [hbytes,splitLines_line hfirst,splitLines_line hsecond]
      rfl
    rw [hsplit]
    refine ⟨?_,?_⟩
    · simp only [List.length_cons,hlength]
      omega
    · rw [linePairs,hpairs,← ha]

theorem actionDocuments_flatten {actions : List (List UInt8)} (h : ∀ a ∈ actions, TwoLines a) :
    actionDocuments actions.flatten = some actions := by
  obtain ⟨hlength,hpairs⟩ := splitLines_actions h
  unfold actionDocuments
  dsimp only
  rw [hlength,if_neg (by omega),hpairs]

end Splitting

section Partition
variable {floats : Floats} {limits : Limits}

theorem encodeLine_plain {v : Data} {line : List UInt8} (h : encodeLine floats limits v = some line) :
    ∀ b ∈ line, b ≠ 10 ∧ b ≠ 13 := by
  unfold encodeLine at h
  split at h
  · cases h
  · next t ht =>
      intro b hb
      have hcontrol : ¬b.toNat < 32 := by
        intro hlow
        obtain ⟨c,hc,hval⟩ := mem_encodeUtf8 h hb (by omega)
        have hshown := (shown_dumps ht c hc).1
        omega
      constructor
      · rintro rfl
        exact hcontrol (by decide)
      · rintro rfl
        exact hcontrol (by decide)

variable {sink : Sink}

theorem encodeAction_lines {document : Fields} {action : List UInt8}
    (h : sink.encodeAction floats limits document = some action) : TwoLines action := by
  obtain ⟨metadata,-,h⟩ := Option.bind_eq_some_iff.mp h
  obtain ⟨first,hfirst,h⟩ := Option.bind_eq_some_iff.mp h
  obtain ⟨second,hsecond,rfl⟩ := Option.map_eq_some_iff.mp h
  exact ⟨first,second,rfl,encodeLine_plain hfirst,encodeLine_plain hsecond⟩

variable (floats limits)

/-- The document is encoded and its action is small enough. -/
def Sink.Takes (sink : Sink) (document : Fields) (action : List UInt8) : Prop :=
  sink.encodeAction floats limits document = some action ∧ action.length ≤ sink.maxChunkBytes

/-- Actions that a request may hold together. -/
structure Sink.Fits (sink : Sink) (chunk : List (ℕ × List UInt8)) : Prop where
  count : chunk.length ≤ sink.chunkSize
  bytes : (chunkBytes chunk).length ≤ sink.maxChunkBytes

/-- What the iteration has behind it: chunks that are sent, and of the documents those
whose actions are in them. -/
structure Sink.Cut (sink : Sink) (documents : List Fields) (chunks : List (List (ℕ × List UInt8)))
    (finished : Bool) : Prop where
  apart : ∀ chunk ∈ chunks, chunk ≠ [] ∧ sink.Fits chunk ∧
    actionDocuments (chunkBytes chunk) = some (chunk.map Prod.snd)
  whole : ∃ sent left, documents = sent++left ∧
    List.Forall₂ (sink.Takes floats limits) sent (chunks.flatten.map Prod.snd) ∧
    (finished = true → left = [])
  stopped : finished = false → ∃ document ∈ documents,
    ∀ action, ¬sink.Takes floats limits document action

variable {floats limits}

theorem lines_of_takes {documents : List Fields} {chunk : List (ℕ × List UInt8)}
    (h : List.Forall₂ (sink.Takes floats limits) documents (chunk.map Prod.snd)) :
    actionDocuments (chunkBytes chunk) = some (chunk.map Prod.snd) := by
  apply actionDocuments_flatten
  intro a ha
  obtain ⟨document,-,htakes⟩ := ItemLists.forall₂_right h ha
  exact encodeAction_lines htakes.1

theorem iterEncodedChunks_cut (documents : List (Fields × ℕ)) {current : List (ℕ × List UInt8)}
    {before : List Fields}
    (hcurrent : List.Forall₂ (sink.Takes floats limits) before (current.map Prod.snd))
    (hfits : sink.Fits current) :
    sink.Cut floats limits (before++documents.map Prod.fst)
      (iterEncodedChunks (sink.settings floats limits) current documents).1
      (iterEncodedChunks (sink.settings floats limits) current documents).2 := by
  induction documents generalizing current before with
  | nil =>
    rw [iterEncodedChunks]
    cases current with
    | nil =>
      exact ⟨List.forall_mem_nil _,⟨before,[],rfl,hcurrent,fun _ => rfl⟩,fun h => by cases h⟩
    | cons a current =>
      refine ⟨?_,⟨before,[],rfl,?_,fun _ => rfl⟩,fun h => by cases h⟩
      · rintro chunk hchunk
        rw [List.mem_singleton.mp hchunk]
        exact ⟨List.cons_ne_nil _ _,hfits,lines_of_takes hcurrent⟩
      · rw [List.isEmpty_cons,if_neg Bool.false_ne_true,List.flatten_singleton]
        exact hcurrent
  | cons document documents ih =>
    obtain ⟨document,place⟩ := document
    have hmember : document ∈ before++((document,place)::documents).map Prod.fst := by simp
    have hnone : (∀ action, ¬sink.Takes floats limits document action) → sink.Cut floats limits
        (before++((document,place)::documents).map Prod.fst) [] false := fun hno =>
      ⟨List.forall_mem_nil _,⟨[],_,rfl,.nil,fun h => by cases h⟩,fun _ => ⟨document,hmember,hno⟩⟩
    rw [iterEncodedChunks]
    split
    · next hencode =>
        exact hnone fun action h => by cases hencode.symm.trans h.1
    · next action hencode =>
        have hencode' : sink.encodeAction floats limits document = some action := hencode
        split
        · next hlarge =>
            refine hnone fun a h => ?_
            obtain ⟨hsame,hsize⟩ := h
            rw [hencode',Option.some.injEq] at hsame
            exact Nat.not_le_of_lt hlarge (hsame ▸ hsize)
        · next hsmall =>
            have htakes : sink.Takes floats limits document action :=
              ⟨hencode',Nat.le_of_not_lt hsmall⟩
            have hone : sink.Fits [(place,action)] :=
              ⟨sink.positive.1,by simpa [chunkBytes] using htakes.2⟩
            split
            · next hfull =>
                simp only [Bool.and_eq_true,Bool.not_eq_true',List.isEmpty_eq_false_iff] at hfull
                have hnext := @ih [(place,action)] [document] (.cons htakes .nil) hone
                refine ⟨?_,?_,fun hstopped => ?_⟩
                · rw [List.forall_mem_cons]
                  exact ⟨⟨hfull.1,hfits,lines_of_takes hcurrent⟩,hnext.apart⟩
                · obtain ⟨sent,left,hsplit,hsent,hleft⟩ := hnext.whole
                  refine ⟨before++sent,left,?_,?_,hleft⟩
                  · rw [List.append_assoc,← hsplit]
                    rfl
                  · rw [List.flatten_cons,List.map_append]
                    exact List.rel_append hcurrent hsent
                · obtain ⟨d,hd,hno⟩ := hnext.stopped hstopped
                  exact ⟨d,List.mem_append_right before hd,hno⟩
            · next hroom =>
                have hgrown : sink.Fits (current++[(place,action)]) := by
                  have hsum : (current.map fun a => (sink.settings floats limits).size a.2).sum =
                      (chunkBytes current).length := by
                    simp [chunkBytes,Sink.settings,List.length_flatten,Function.comp_def]
                  rcases current with _ | ⟨a,current⟩
                  · exact hone
                  · simp only [List.isEmpty_cons,Bool.not_false,Bool.true_and,Bool.or_eq_true,
                      decide_eq_true_eq,not_or,Nat.not_le,Nat.not_lt] at hroom
                    rw [hsum] at hroom
                    have hcount : (a::current).length < sink.chunkSize := hroom.1
                    have hbytes : (chunkBytes (a::current)).length+action.length ≤
                        sink.maxChunkBytes := hroom.2
                    constructor
                    · rw [List.length_append]
                      exact hcount
                    · simpa [chunkBytes,Nat.add_assoc] using hbytes
                have hmore : List.Forall₂ (sink.Takes floats limits) (before++[document])
                    ((current++[(place,action)]).map Prod.snd) := by
                  rw [List.map_append]
                  exact List.rel_append hcurrent (.cons htakes .nil)
                have hnext := ih hmore hgrown
                rw [List.append_assoc] at hnext
                exact hnext

end Partition

/-- The chunks hold the actions of the documents in their order, up to the first one
that is not encoded or too large, which is an error; each chunk is not empty, keeps both
limits, and is taken apart into its actions. -/
theorem chunks_partition (floats : Floats) (limits : Limits) (sink : Sink)
    (documents : List Fields) :
    (∀ chunk ∈ (sink.chunks floats limits documents).1, chunk ≠ [] ∧
      chunk.length ≤ sink.chunkSize ∧ (chunkBytes chunk).length ≤ sink.maxChunkBytes ∧
      actionDocuments (chunkBytes chunk) = some (chunk.map Prod.snd)) ∧
    (∃ sent left, documents = sent++left ∧
      List.Forall₂ (fun document action => sink.encodeAction floats limits document = some action)
        sent ((sink.chunks floats limits documents).1.flatten.map Prod.snd) ∧
      ((sink.chunks floats limits documents).2 = true → left = [])) ∧
    ((sink.chunks floats limits documents).2 = true ↔ ∀ document ∈ documents, ∃ action,
      sink.encodeAction floats limits document = some action ∧
        action.length ≤ sink.maxChunkBytes) := by
  have hcut : sink.Cut floats limits documents (sink.chunks floats limits documents).1
      (sink.chunks floats limits documents).2 := by
    have hstart := @iterEncodedChunks_cut floats limits sink documents.zipIdx [] [] .nil
      ⟨Nat.zero_le _,Nat.zero_le _⟩
    rw [List.nil_append,List.zipIdx_map_fst] at hstart
    exact hstart
  refine ⟨fun chunk hchunk => ?_,?_,?_⟩
  · obtain ⟨hne,hfits,hsplit⟩ := hcut.apart chunk hchunk
    exact ⟨hne,hfits.count,hfits.bytes,hsplit⟩
  · obtain ⟨sent,left,hsplit,hsent,hleft⟩ := hcut.whole
    exact ⟨sent,left,hsplit,hsent.imp fun _ _ h => h.1,hleft⟩
  · constructor
    · intro hfinished document hdocument
      obtain ⟨sent,left,hsplit,hsent,hleft⟩ := hcut.whole
      rw [hsplit,hleft hfinished,List.append_nil] at hdocument
      obtain ⟨action,-,htakes⟩ := ItemLists.forall₂_left hsent hdocument
      exact ⟨action,htakes⟩
    · intro hall
      by_contra hstopped
      obtain ⟨document,hdocument,hno⟩ := hcut.stopped (Bool.eq_false_iff.mpr hstopped)
      obtain ⟨action,htakes⟩ := hall document hdocument
      exact hno action htakes

end OneStep.EncodedChunks
