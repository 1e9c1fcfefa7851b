import OneStep.JsonReader

/-!
# Environment references

A configuration value may refer to the environment inside its strings, with a default for a
name that is not set. A string that is one reference and nothing else is decoded as JSON when
it can be; every other string stays a string. What a reference leaves as it is, is a string in
which there is none, or one that the environment answers with its own text.
-/
namespace OneStep.EnvExpansion
open JsonReader JsonValues ScalarTexts

section References

def opening : Char := Char.ofNat 123

def closing : Char := Char.ofNat 125

/-- What stands before the closing brace, and what follows it. -/
def matchContent (cs : List Char) : Option (List Char × List Char) :=
  let content := cs.takeWhile fun c => c ≠ closing
  match cs.drop content.length with
  | [] => none
  | _::rest => if content = [] then none else some (content,rest)

/-- `_ENV_VAR_PATTERN` at the start of a text: what stands between the braces, and the rest. -/
def matchEnvVar : List Char → Option (List Char × List Char)
  | dollar::brace::cs =>
    if dollar = '$' ∧ brace = opening then matchContent cs else none
  | _ => none

/-- `text.split(separator, 1)` of a text that has the separator. -/
def splitOnce (separator : List Char) : List Char → Option (List Char × List Char)
  | [] => none
  | c::cs =>
    if separator.isPrefixOf (c::cs) then some ([],(c::cs).drop separator.length)
    else (splitOnce separator cs).map fun r => (c::r.1,r.2)

variable (lookup : String → Option String)

def expandEnvVar (content : List Char) : List Char :=
  match splitOnce [':','-'] content with
  | some (name,default) => (lookup (String.ofList name)).elim default String.toList
  | none =>
    match splitOnce [':'] content with
    | some (name,default) => (lookup (String.ofList name)).elim default String.toList
    | none => (lookup (String.ofList content)).elim [] String.toList

/-- Each reference replaced, from left to right; the fuel bounds the characters. -/
def expandEnvVarsInString : ℕ → List Char → List Char
  | 0,cs => cs
  | _+1,[] => []
  | fuel+1,c::cs =>
    match matchEnvVar (c::cs) with
    | some (content,rest) => expandEnvVar lookup content++expandEnvVarsInString fuel rest
    | none => c::expandEnvVarsInString fuel cs

def isPureEnvReference (cs : List Char) : Bool :=
  match matchEnvVar (strip isSpace cs) with
  | some (_,rest) => rest.isEmpty
  | none => false

/-- Somewhere in the text the pattern matches. -/
def hasReference : List Char → Bool
  | [] => false
  | c::cs => (matchEnvVar (c::cs)).isSome || hasReference cs

variable {cs : List Char}

theorem expand_of_no_reference {fuel : ℕ} (h : hasReference cs = false) :
    expandEnvVarsInString lookup fuel cs = cs := by
  induction fuel generalizing cs with
  | zero => rfl
  | succ fuel ih =>
    cases cs with
    | nil => rfl
    | cons c cs =>
      rw [hasReference,Bool.or_eq_false_iff] at h
      have hnone : matchEnvVar (c::cs) = none := by simpa using h.1
      rw [expandEnvVarsInString,hnone,ih h.2]

theorem hasReference_of_plain (h : '$' ∉ cs) : hasReference cs = false := by
  induction cs with
  | nil => rfl
  | cons c cs ih =>
    rw [List.mem_cons,not_or] at h
    have hnone : matchEnvVar (c::cs) = none := by
      cases cs with
      | nil => rfl
      | cons brace cs =>
        rw [matchEnvVar,if_neg]
        exact fun hc => h.1 hc.1.symm
    rw [hasReference,hnone,ih h.2]
    rfl

theorem matchContent_append (h : (matchContent cs).isSome = true) (post : List Char) :
    (matchContent (cs++post)).isSome = true := by
  have hlength : (cs.takeWhile fun c => c ≠ closing).length ≠ cs.length := by
    intro hall
    rw [matchContent,hall,List.drop_length] at h
    cases h
  have hclosed : (cs++post).takeWhile (fun c => c ≠ closing) =
      cs.takeWhile fun c => c ≠ closing := by
    rw [List.takeWhile_append,if_neg hlength]
  unfold matchContent at h ⊢
  dsimp only at h ⊢
  rw [hclosed,List.drop_append]
  cases hdrop : cs.drop (cs.takeWhile fun c => c ≠ closing).length with
  | nil =>
    rw [hdrop] at h
    cases h
  | cons last rest =>
    rw [hdrop] at h
    rw [List.cons_append]
    dsimp only at h ⊢
    split at h
    · cases h
    · next hcontent =>
        rw [if_neg hcontent]
        rfl

theorem matchEnvVar_append (h : (matchEnvVar cs).isSome = true) (post : List Char) :
    (matchEnvVar (cs++post)).isSome = true := by
  cases cs with
  | nil => cases h
  | cons dollar cs =>
    cases cs with
    | nil => cases h
    | cons brace cs =>
      rw [List.cons_append,List.cons_append]
      rw [matchEnvVar] at h ⊢
      split at h
      · next hopen =>
          rw [if_pos hopen]
          exact matchContent_append h post
      · cases h

theorem hasReference_append (h : hasReference cs = true) (post : List Char) :
    hasReference (cs++post) = true := by
  induction cs with
  | nil => cases h
  | cons c cs ih =>
    rw [List.cons_append,hasReference]
    rw [hasReference,Bool.or_eq_true] at h
    rcases h with h | h
    · rw [← List.cons_append,matchEnvVar_append h,Bool.true_or]
    · rw [ih h,Bool.or_true]

theorem hasReference_prepend (h : hasReference cs = true) (pre : List Char) :
    hasReference (pre++cs) = true := by
  induction pre with
  | nil => exact h
  | cons c pre ih => rw [List.cons_append,hasReference,ih,Bool.or_true]

/-- A text in which nothing matches is not one match with spaces around it. -/
theorem pure_hasReference (h : isPureEnvReference cs = true) : hasReference cs = true := by
  have hinner : hasReference (strip isSpace cs) = true := by
    unfold isPureEnvReference at h
    split at h
    · next content rest hmatch =>
        cases hs : strip isSpace cs with
        | nil =>
          rw [hs] at hmatch
          cases hmatch
        | cons c cs' => rw [hasReference,← hs,hmatch,Option.isSome_some,Bool.true_or]
    · cases h
  obtain ⟨pre,hpre⟩ := List.dropWhile_suffix isSpace (l := cs)
  have hback : strip isSpace cs <+: cs.dropWhile isSpace := by
    have hsuffix := List.dropWhile_suffix isSpace (l := (cs.dropWhile isSpace).reverse)
    rw [← List.reverse_prefix,List.reverse_reverse] at hsuffix
    exact hsuffix
  obtain ⟨post,hpost⟩ := hback
  rw [← hpre,← hpost]
  exact hasReference_prepend (hasReference_append hinner post) pre

end References

section Values
variable (readFloat : List Char → Double)

/-- Whether a text names one of the constants that are not JSON, outside its strings. -/
def namesConstant : Bool → List Char → Bool
  | _,[] => false
  | false,c::cs => c = 'N' || c = 'I' || namesConstant (c = '"') cs
  | true,[_] => false
  | true,c::d::cs =>
    if c = '\\' then namesConstant true cs else namesConstant (c ≠ '"') (d::cs)

/-- `json.loads` that refuses these constants; none when it raises. -/
def loadsStandard (cs : List Char) : Option Json :=
  if namesConstant false (skip cs) then none else loads readFloat cs

def coerceExpandedValue (cs : List Char) : Json :=
  if cs = [] then .str ""
  else
    match loadsStandard readFloat cs with
    | none | some .null => .str (String.ofList cs)
    | some parsed => parsed

variable (lookup : String → Option String)

def expandString (s : String) : Json :=
  let expanded := expandEnvVarsInString lookup s.toList.length s.toList
  if isPureEnvReference s.toList then coerceExpandedValue readFloat expanded
  else .str (String.ofList expanded)

mutual

def expandEnvVars : Json → Json
  | .str s => expandString readFloat lookup s
  | .arr items => .arr (expandItems items)
  | .obj fields => .obj (expandFields fields)
  | .null => .null
  | .bool b => .bool b
  | .int n => .int n
  | .float x => .float x

def expandItems : List Json → List Json
  | [] => []
  | item::items => expandEnvVars item::expandItems items

def expandFields : List (String × Json) → List (String × Json)
  | [] => []
  | (key,value)::fields => (key,expandEnvVars value)::expandFields fields

end

/-- A string that refers to nothing, or whose references the environment answers with the
string itself. -/
def Verbatim (s : String) : Prop :=
  hasReference s.toList = false ∨ expandString readFloat lookup s = .str s

mutual

/-- Every string of a value is verbatim. -/
def Literal : Json → Prop
  | .str s => Verbatim readFloat lookup s
  | .arr items => LiteralItems items
  | .obj fields => LiteralFields fields
  | .null | .bool _ | .int _ | .float _ => True

def LiteralItems : List Json → Prop
  | [] => True
  | item::items => Literal item ∧ LiteralItems items

def LiteralFields : List (String × Json) → Prop
  | [] => True
  | (_,value)::fields => Literal value ∧ LiteralFields fields

end

variable {readFloat lookup}

theorem expandString_verbatim {s : String} :
    expandString readFloat lookup s = .str s ↔ Verbatim readFloat lookup s := by
  constructor
  · exact fun h => .inr h
  · rintro (h | h)
    · unfold expandString
      dsimp only
      rw [if_neg,expand_of_no_reference lookup h,String.ofList_toList]
      intro hpure
      rw [pure_hasReference hpure] at h
      cases h
    · exact h

theorem verbatim_of_plain {s : String} (h : '$' ∉ s.toList) : Verbatim readFloat lookup s :=
  .inl (hasReference_of_plain h)

mutual

theorem expandEnvVars_iff : ∀ value : Json,
    expandEnvVars readFloat lookup value = value ↔ Literal readFloat lookup value
  | .str s => expandString_verbatim
  | .arr items => by
      rw [expandEnvVars,Literal,Json.arr.injEq]
      exact expandItems_iff items
  | .obj fields => by
      rw [expandEnvVars,Literal,Json.obj.injEq]
      exact expandFields_iff fields
  | .null => by simp [expandEnvVars,Literal]
  | .bool b => by simp [expandEnvVars,Literal]
  | .int n => by simp [expandEnvVars,Literal]
  | .float x => by simp [expandEnvVars,Literal]

theorem expandItems_iff : ∀ items : List Json,
    expandItems readFloat lookup items = items ↔ LiteralItems readFloat lookup items
  | [] => iff_of_true rfl trivial
  | item::items => by
      rw [expandItems,LiteralItems,List.cons.injEq]
      exact and_congr (expandEnvVars_iff item) (expandItems_iff items)

theorem expandFields_iff : ∀ fields : List (String × Json),
    expandFields readFloat lookup fields = fields ↔ LiteralFields readFloat lookup fields
  | [] => iff_of_true rfl trivial
  | (key,value)::fields => by
      rw [expandFields,LiteralFields,List.cons.injEq,Prod.mk.injEq]
      refine and_congr ?_ (expandFields_iff fields)
      rw [and_iff_right rfl]
      exact expandEnvVars_iff value

end

theorem literalFields_iff {fields : List (String × Json)} :
    LiteralFields readFloat lookup fields ↔
      ∀ field ∈ fields, Literal readFloat lookup field.2 := by
  induction fields with
  | nil => exact iff_of_true trivial (by simp)
  | cons field fields ih => rw [LiteralFields,List.forall_mem_cons,ih]

end Values

end OneStep.EnvExpansion
