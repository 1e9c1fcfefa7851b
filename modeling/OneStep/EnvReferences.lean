import OneStep.EnvExpansion

/-!
# References that the environment does not answer

The strict check collects the references without a default whose variable is missing,
with the places where they stand, before the configuration is expanded. It takes the
spaces from around a name, and passes over what is blank. The expansion fills each
reference with what the environment has for the name as it is written, or with its
default. So the check is right in every environment if and only if no reference without
a default has spaces around its name.
-/
namespace OneStep.EnvReferences
open EnvExpansion JsonValues ScalarTexts

section Pieces

/-- A character of a string, or a reference in it. -/
inductive Piece where
  | letter (c : Char)
  | reference (content : List Char)

/-- What `finditer` and `sub` both see, from left to right; the fuel bounds the characters. -/
def pieces : ℕ → List Char → List Piece
  | 0,cs => cs.map .letter
  | _+1,[] => []
  | fuel+1,c::cs =>
    match matchEnvVar (c::cs) with
    | some (content,rest) => .reference content::pieces fuel rest
    | none => .letter c::pieces fuel cs

def Piece.content : Piece → Option (List Char)
  | .letter _ => none
  | .reference content => some content

/-- `ref_re.finditer`. -/
def references (s : String) : List (List Char) :=
  (pieces s.toList.length s.toList).filterMap Piece.content

/-- What stands for a piece when the references are filled. -/
def Piece.filled (fill : List Char → List Char) : Piece → List Char
  | .letter c => [c]
  | .reference content => fill content

theorem expandEnvVarsInString_eq (lookup : String → Option String) (fuel : ℕ) (cs : List Char) :
    expandEnvVarsInString lookup fuel cs =
      (pieces fuel cs).flatMap (Piece.filled (expandEnvVar lookup)) := by
  induction fuel generalizing cs with
  | zero =>
    rw [expandEnvVarsInString,pieces,List.flatMap_map]
    exact (List.flatMap_singleton' cs).symm
  | succ fuel ih =>
    cases cs with
    | nil => rfl
    | cons c cs =>
      rw [expandEnvVarsInString,pieces]
      cases matchEnvVar (c::cs) with
      | none =>
        dsimp only
        rw [List.flatMap_cons,ih]
        rfl
      | some r =>
        dsimp only
        rw [List.flatMap_cons,ih]
        rfl

end Pieces

section Filled
variable (readFloat : List Char → Double) (fill : List Char → List Char)

def filledString (s : String) : Json :=
  let filled := (pieces s.toList.length s.toList).flatMap (Piece.filled fill)
  if isPureEnvReference s.toList then coerceExpandedValue readFloat filled
  else .str (String.ofList filled)

mutual

/-- A configuration with its references filled. -/
def filledIn : Json → Json
  | .str s => filledString readFloat fill s
  | .arr items => .arr (filledItems items)
  | .obj fields => .obj (filledFields fields)
  | .null => .null
  | .bool b => .bool b
  | .int n => .int n
  | .float x => .float x

def filledItems : List Json → List Json
  | [] => []
  | item::items => filledIn item::filledItems items

def filledFields : List (String × Json) → List (String × Json)
  | [] => []
  | (key,value)::fields => (key,filledIn value)::filledFields fields

end

theorem expandEnvVars_cases (lookup : String → Option String) : Json.Cases fun config =>
    expandEnvVars readFloat lookup config = filledIn readFloat (expandEnvVar lookup) config where
  leaf config hleaf := by
    cases config with
    | arr items | obj fields => exact absurd hleaf id
    | str s =>
      rw [expandEnvVars,filledIn,expandString,filledString,expandEnvVarsInString_eq]
    | _ => rfl
  arr items ih := by
    rw [expandEnvVars,filledIn,Json.arr.injEq]
    induction items with
    | nil => rfl
    | cons item items hrest =>
      rw [List.forall_mem_cons] at ih
      rw [expandItems,filledItems,ih.1,hrest ih.2]
  obj fields ih := by
    rw [expandEnvVars,filledIn,Json.obj.injEq]
    induction fields with
    | nil => rfl
    | cons field fields hrest =>
      rw [List.forall_mem_cons] at ih
      obtain ⟨key,value⟩ := field
      rw [expandFields,filledFields,ih.1,hrest ih.2]

/-- The expansion fills each reference with what the environment answers. -/
theorem expandEnvVars_filled (lookup : String → Option String) (config : Json) :
    expandEnvVars readFloat lookup config = filledIn readFloat (expandEnvVar lookup) config :=
  (expandEnvVars_cases readFloat lookup).all config

end Filled

section Check
variable (lookup : String → Option String)

/-- The variable that a reference misses, its name without the spaces around it. -/
def missingName (content : List Char) : Option String :=
  if content.contains ':' then none
  else
    let name := strip isSpace content
    if name.isEmpty || (lookup (String.ofList name)).isSome then none
    else some (String.ofList name)

mutual

/-- `_walk`: the missing variables with the places of their references. -/
def walk (fieldPath : String) : Json → List (String × String)
  | .str s => ((references s).filterMap (missingName lookup)).map fun name => (name,fieldPath)
  | .arr items => walkItems fieldPath 0 items
  | .obj fields => walkFields fieldPath fields
  | .null | .bool _ | .int _ | .float _ => []

def walkItems (fieldPath : String) (i : ℕ) : List Json → List (String × String)
  | [] => []
  | item::items => walk (fieldPath++"["++toString i++"]") item++walkItems fieldPath (i+1) items

def walkFields (fieldPath : String) : List (String × Json) → List (String × String)
  | [] => []
  | (key,value)::fields => walk (fieldPath++"."++key) value++walkFields fieldPath fields

end

/-- `missing.setdefault(name, []).append(path)`. -/
def record (missing : List (String × List String)) (found : String × String) :
    List (String × List String) :=
  if (missing.lookup found.1).isSome then
    missing.map fun entry => if entry.1 = found.1 then (entry.1,entry.2++[found.2]) else entry
  else missing++[(found.1,[found.2])]

def collectEnvRefs (config : Json) : List (String × List String) :=
  (walk lookup "config" config).foldl record []

mutual

/-- Every reference of a value. -/
def allReferences : Json → List (List Char)
  | .str s => references s
  | .arr items => itemReferences items
  | .obj fields => fieldReferences fields
  | .null | .bool _ | .int _ | .float _ => []

def itemReferences : List Json → List (List Char)
  | [] => []
  | item::items => allReferences item++itemReferences items

def fieldReferences : List (String × Json) → List (List Char)
  | [] => []
  | (_,value)::fields => allReferences value++fieldReferences fields

end

theorem walk_cases : Json.Cases fun config => ∀ fieldPath,
    (walk lookup fieldPath config).map Prod.fst =
      (allReferences config).filterMap (missingName lookup) where
  leaf config hleaf fieldPath := by
    cases config with
    | arr items | obj fields => exact absurd hleaf id
    | str s =>
      rw [walk,allReferences,List.map_map]
      exact List.map_id _
    | _ => rfl
  arr items ih fieldPath := by
    rw [walk,allReferences]
    generalize 0 = i
    induction items generalizing i with
    | nil => rfl
    | cons item items hrest =>
      rw [List.forall_mem_cons] at ih
      rw [walkItems,itemReferences,List.map_append,List.filterMap_append,ih.1,hrest ih.2]
  obj fields ih fieldPath := by
    rw [walk,allReferences]
    induction fields with
    | nil => rfl
    | cons field fields hrest =>
      rw [List.forall_mem_cons] at ih
      obtain ⟨key,value⟩ := field
      rw [walkFields,fieldReferences,List.map_append,List.filterMap_append,ih.1,hrest ih.2]

theorem record_ne_nil (missing : List (String × List String)) (found : String × String) :
    record missing found ≠ [] := by
  unfold record
  split
  · next h =>
      intro hnil
      rw [List.map_eq_nil_iff] at hnil
      rw [hnil] at h
      cases h
  · simp

theorem foldl_record (found : List (String × String)) (missing : List (String × List String)) :
    found.foldl record missing = [] ↔ found = [] ∧ missing = [] := by
  induction found generalizing missing with
  | nil => simp
  | cons f found ih =>
    rw [List.foldl_cons,ih]
    exact iff_of_false (fun h => record_ne_nil missing f h.2) (fun h => nomatch h.1)

/-- Nothing is collected if and only if no reference misses its variable. -/
theorem collectEnvRefs_eq_nil (config : Json) : collectEnvRefs lookup config = [] ↔
    ∀ content ∈ allReferences config, missingName lookup content = none := by
  rw [collectEnvRefs,foldl_record,and_iff_left rfl,← List.map_eq_nil_iff (f := Prod.fst),
    (walk_cases lookup).all config,List.filterMap_eq_nil_iff]

end Check

section Agreement
variable (lookup : String → Option String)

/-- The name and the default of a reference that has one. -/
def written (content : List Char) : Option (List Char × List Char) :=
  (splitOnce [':','-'] content).orElse fun _ => splitOnce [':'] content

/-- A reference without a default is filled with the empty string, as its variable is not set. -/
structure Emptied (content : List Char) : Prop where
  plain : written content = none
  unset : lookup (String.ofList content) = none
  filled : expandEnvVar lookup content = []

/-- A reference is filled with the value of its variable, or with its default when the
variable is not set. -/
def Answered (content : List Char) : Prop :=
  (∃ name value, (name = content ∧ written content = none ∨
      ∃ default, written content = some (name,default)) ∧
    lookup (String.ofList name) = some value ∧ expandEnvVar lookup content = value.toList) ∨
  ∃ name default, written content = some (name,default) ∧ lookup (String.ofList name) = none ∧
    expandEnvVar lookup content = default

theorem splitOnce_none {separator cs : List Char} (h : ':' ∉ cs) :
    splitOnce (':'::separator) cs = none := by
  induction cs with
  | nil => rfl
  | cons c cs ih =>
    rw [List.mem_cons,not_or] at h
    have hfirst : ¬(':'::separator).isPrefixOf (c::cs) = true := by
      rw [List.isPrefixOf,Bool.and_eq_true,beq_iff_eq]
      exact fun hc => h.1 hc.1
    rw [splitOnce,if_neg hfirst,ih h.2]
    rfl

theorem splitOnce_colon {cs : List Char} (h : ':' ∈ cs) : (splitOnce [':'] cs).isSome = true := by
  induction cs with
  | nil => cases h
  | cons c cs ih =>
    rw [splitOnce]
    split
    · rfl
    · next hfirst =>
        rcases List.mem_cons.mp h with rfl | h
        · exact absurd rfl hfirst
        · rw [Option.isSome_map]
          exact ih h

variable {content : List Char}

theorem written_eq_none : written content = none ↔ ':' ∉ content := by
  unfold written
  constructor
  · intro h hcolon
    cases hdash : splitOnce [':','-'] content with
    | some r =>
      rw [hdash] at h
      cases h
    | none =>
      rw [hdash] at h
      have hsome := splitOnce_colon hcolon
      rw [Option.orElse_none] at h
      rw [h] at hsome
      cases hsome
  · intro h
    rw [splitOnce_none h,splitOnce_none h]
    rfl

theorem expandEnvVar_written (content : List Char) : expandEnvVar lookup content =
    match written content with
    | some (name,default) => (lookup (String.ofList name)).elim default String.toList
    | none => (lookup (String.ofList content)).elim [] String.toList := by
  unfold expandEnvVar written
  cases splitOnce [':','-'] content with
  | some r => rfl
  | none =>
    cases splitOnce [':'] content <;> rfl

theorem emptied_iff : Emptied lookup content ↔
    written content = none ∧ lookup (String.ofList content) = none := by
  constructor
  · exact fun h => ⟨h.plain,h.unset⟩
  · rintro ⟨hplain,hunset⟩
    refine ⟨hplain,hunset,?_⟩
    rw [expandEnvVar_written,hplain]
    dsimp only
    rw [hunset,Option.elim_none]

theorem answered_of_not_emptied (h : ¬Emptied lookup content) : Answered lookup content := by
  have hexpand := expandEnvVar_written lookup content
  rw [emptied_iff] at h
  cases hwritten : written content with
  | some r =>
    obtain ⟨name,default⟩ := r
    rw [hwritten] at hexpand
    dsimp only at hexpand
    cases hvalue : lookup (String.ofList name) with
    | some value =>
      rw [hvalue] at hexpand
      exact .inl ⟨name,value,.inr ⟨default,hwritten⟩,hvalue,hexpand⟩
    | none =>
      rw [hvalue] at hexpand
      exact .inr ⟨name,default,hwritten,hvalue,hexpand⟩
  | none =>
    rw [hwritten] at hexpand
    dsimp only at hexpand
    cases hvalue : lookup (String.ofList content) with
    | some value =>
      rw [hvalue] at hexpand
      exact .inl ⟨content,value,.inl ⟨rfl,hwritten⟩,hvalue,hexpand⟩
    | none => exact absurd ⟨hwritten,hvalue⟩ h

/-- A name without spaces around it, that is not blank. -/
def Tight (content : List Char) : Prop := strip isSpace content = content ∧ content ≠ []

theorem missing_tight (h : written content = none → Tight content) :
    missingName lookup content ≠ none ↔ Emptied lookup content := by
  unfold missingName
  rw [emptied_iff]
  by_cases hcolon : ':' ∈ content
  · have hwritten : written content ≠ none := fun hnone => written_eq_none.mp hnone hcolon
    simp [hcolon,hwritten]
  · have hwritten := written_eq_none.mpr hcolon
    obtain ⟨hstrip,hne⟩ := h hwritten
    have hempty : content.isEmpty = false := by simpa using hne
    rw [hstrip]
    cases hvalue : lookup (String.ofList content) <;> simp [hcolon,hwritten,hvalue,hempty]

/-- The check returns a missing variable exactly if the expansion empties a reference, so
that otherwise every reference is answered. -/
structure Checked (config : Json) : Prop where
  found : collectEnvRefs lookup config ≠ [] ↔
    ∃ content ∈ allReferences config, Emptied lookup content
  answered : collectEnvRefs lookup config = [] →
    ∀ content ∈ allReferences config, Answered lookup content

theorem checked_of_tight {config : Json}
    (h : ∀ content ∈ allReferences config, written content = none → Tight content) :
    Checked lookup config := by
  have hfound : collectEnvRefs lookup config ≠ [] ↔
      ∃ content ∈ allReferences config, Emptied lookup content := by
    rw [ne_eq,collectEnvRefs_eq_nil]
    push Not
    exact exists_congr fun content => and_congr_right fun hmem => missing_tight lookup (h content hmem)
  refine ⟨hfound,fun hnil content hmem => ?_⟩
  exact answered_of_not_emptied lookup fun hempty => hfound.mpr ⟨content,hmem,hempty⟩ hnil

/-- Everything is set, but for a name as it is written in this reference. -/
def allBut (content : List Char) (name : String) : Option String :=
  if name = String.ofList content then none else some "set"

theorem missing_allBut (h : ¬Tight content) (other : List Char) :
    missingName (allBut content) other = none := by
  have hname : (strip isSpace other).isEmpty = true ∨
      String.ofList (strip isSpace other) ≠ String.ofList content := by
    rw [List.isEmpty_iff]
    by_contra hboth
    push Not at hboth
    have heq := String.ofList_injective hboth.2
    apply h
    rw [← heq]
    exact ⟨strip_strip _ _,hboth.1⟩
  unfold missingName
  split
  · rfl
  · rcases hname with hempty | hne
    · simp [hempty]
    · simp [allBut,hne]

/-- The expansion fills the references with what the environment answers, and the strict
check is right about these answers in every environment if and only if no reference without
a default has spaces around its name or is blank. -/
theorem env_check_iff (readFloat : List Char → Double) (config : Json) :
    (∀ lookup, expandEnvVars readFloat lookup config =
      filledIn readFloat (expandEnvVar lookup) config) ∧
    ((∀ lookup, Checked lookup config) ↔
      ∀ content ∈ allReferences config, written content = none → Tight content) := by
  refine ⟨fun lookup => expandEnvVars_filled readFloat lookup config,fun h => ?_,fun h lookup =>
    checked_of_tight lookup h⟩
  intro content hmem hplain
  by_contra hloose
  have hnil : collectEnvRefs (allBut content) config = [] :=
    (collectEnvRefs_eq_nil _ config).mpr fun other _ => missing_allBut hloose other
  have hempty : Emptied (allBut content) content :=
    (emptied_iff _).mpr ⟨hplain,if_pos rfl⟩
  exact (h (allBut content)).found.mpr ⟨content,hmem,hempty⟩ hnil

/-- A name with spaces around it passes the check and is emptied. -/
theorem padded_emptied : ∃ (lookup : String → Option String) (config : Json),
    collectEnvRefs lookup config = [] ∧ (∃ content ∈ allReferences config, Emptied lookup content) ∧
    ∀ readFloat, expandEnvVars readFloat lookup config = .obj [("token",.str "")] := by
  refine ⟨fun name => if name = "TOKEN" then some "secret" else none,
    .obj [("token",.str (String.ofList ['$',opening,' ','T','O','K','E','N',' ',closing]))],?_⟩
  have hrefs : allReferences (.obj [("token",.str (String.ofList
      ['$',opening,' ','T','O','K','E','N',' ',closing]))]) = [[' ','T','O','K','E','N',' ']] := by
    simp only [allReferences,fieldReferences,references,String.toList_ofList,List.append_nil]
    rfl
  rw [collectEnvRefs_eq_nil,hrefs]
  refine ⟨?_,⟨_,List.mem_singleton_self _,?_⟩,?_⟩
  · rw [List.forall_mem_singleton]
    decide
  · rw [emptied_iff]
    decide
  · exact fun readFloat => rfl

end Agreement

end OneStep.EnvReferences
