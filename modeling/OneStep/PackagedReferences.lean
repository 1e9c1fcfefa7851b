import OneStep.BuiltWorkers

/-!
# The modules that a package holds

Loading follows the grammar of a configuration to its references, after the environment was
put in. Packaging walks through the document as it is written and takes strings under some
keys for references; of each it packages the directory of its first name where there is one,
and its file otherwise.
-/
namespace OneStep.PackagedReferences
open BuiltWorkers EnvExpansion JsonValues ScalarTexts

section Loading
variable (callable isSink : String → Bool)

/-- A reference that loading resolves, and whether it is a transform written as a string. -/
structure Ref where
  text : String
  plainTransform : Bool
  deriving DecidableEq

def isString : Json → Bool
  | .str _ => true
  | _ => false

def isMapping : Json → Bool
  | .obj _ => true
  | _ => false

def isBlankText (s : String) : Bool := (strip isSpace s.toList).isEmpty

def requireString (fields : List (String × Json)) (key : String) : Option String :=
  match get key fields with
  | some (.str s) => if isBlankText s then none else some s
  | _ => none

/-- `_validate_unknown_fields` passes. -/
def knownFields (allowed : List String) (fields : List (String × Json)) : Bool :=
  fields.all fun field => allowed.contains field.1

/-- The reference of a value; what `_load_ref` gives for a text is callable or not. -/
def resolveCallableRef : Json → Option String
  | .str ref => if callable ref then some ref else none
  | .obj fields =>
    if knownFields ["ref","params"] fields &&
        isMapping ((get "params" fields).getD (.obj [])) then
      (requireString fields "ref").filter fun ref => callable ref
    else none
  | _ => none

/-- The references of each item, when none is refused. -/
def each (resolve : Json → Option (List Ref)) : List Json → Option (List Ref)
  | [] => some []
  | item::items => do
    let refs ← resolve item
    let more ← each resolve items
    some (refs++more)

/-- The references of a field that may be absent, null, a list of entries or one entry. -/
def entriesOf (resolve : Json → Option (List Ref)) : Option Json → Option (List Ref)
  | none | some .null => some []
  | some (.arr entries) => each resolve entries
  | some value => resolve value

def resolveEmitBinding (fields : List (String × Json)) : Option (List Ref) := do
  let name ← requireString fields "sink"
  if knownFields ["sink","transform"] fields && isSink name then
    match get "transform" fields with
    | none => some []
    | some value => (resolveCallableRef callable value).map fun text => [⟨text,isString value⟩]
  else none

def isBinding (fields : List (String × Json)) : Bool :=
  (get "sink" fields).isSome || (get "transform" fields).isSome

def resolveBranchEntry : Json → Option (List Ref)
  | .obj fields => resolveEmitBinding callable isSink fields
  | .str name => if !isBlankText name && isSink name then some [] else none
  | _ => none

def resolveEmitBranch : Json → Option (List Ref)
  | .obj fields => if isBinding fields then resolveEmitBinding callable isSink fields else none
  | .str name => resolveBranchEntry callable isSink (.str name)
  | .arr entries => if entries.isEmpty then none else each (resolveBranchEntry callable isSink) entries
  | _ => none

def resolveEmitRoute : Json → Option (List Ref)
  | .obj fields => do
    let predicate ← resolveCallableRef callable (← get "when" fields)
    let thenRefs ← resolveEmitBranch callable isSink (← get "then" fields)
    let otherwise ← (get "otherwise" fields).elim (some []) (resolveEmitBranch callable isSink)
    some (⟨predicate,false⟩::(thenRefs++otherwise))
  | value => resolveEmitBranch callable isSink value

def resolveEmitEntry : Json → Option (List Ref)
  | .obj fields =>
    if isBinding fields then resolveEmitBinding callable isSink fields
    else resolveEmitRoute callable isSink (.obj fields)
  | value => resolveEmitRoute callable isSink value

def resolveOptionalEmitTargets : Option Json → Option (List Ref) :=
  entriesOf (resolveEmitEntry callable isSink)

/-- `bool(emit)` of the targets of a value that was accepted. -/
def hasEmit : Option Json → Bool
  | none | some .null | some (.arr []) => false
  | _ => true

def buildRef (value : Json) : Option (List Ref) :=
  (resolveCallableRef callable value).map fun text => [⟨text,false⟩]

def buildTaskHandler (handler : Option Json) (hasEmit : Bool) : Option (List Ref) :=
  match handler with
  | some value => buildRef callable value
  | none => if hasEmit then some [] else none

def buildHooks : Option Json → Option (List Ref) := entriesOf (buildRef callable)

def eachHook (fields : List (String × Json)) : List String → Option (List Ref)
  | [] => some []
  | name::names => do
    let refs ← buildHooks callable (get name fields)
    let more ← eachHook fields names
    some (refs++more)

def namedHooks (names : List String) : Option Json → Option (List Ref)
  | none | some .null => some []
  | some (.obj fields) => if knownFields names fields then eachHook callable fields names else none
  | some _ => none

def buildTaskHooks : Option Json → Option (List Ref) :=
  namedHooks callable ["before","after_success","on_failure"]

def registerAppHooks : Option Json → Option (List Ref) :=
  namedHooks callable ["startup","shutdown","events"]

def buildTask : Json → Option (List Ref)
  | .obj fields => do
    let emit ← resolveOptionalEmitTargets callable isSink (get "emit" fields)
    let handler ← buildTaskHandler callable (get "handler" fields) (hasEmit (get "emit" fields))
    let hooks ← buildTaskHooks callable (get "hooks" fields)
    some (emit++(handler++hooks))
  | _ => none

def buildTasks : Json → Option (List Ref)
  | .arr tasks => each (buildTask callable isSink) tasks
  | _ => none

/-- The references of a configuration; what loading refuses for other reasons is left in. -/
def loadAppConfig (fields : List (String × Json)) : Option (List Ref) := do
  let tasks ← buildTasks callable isSink ((get "tasks" fields).getD (.arr []))
  let hooks ← registerAppHooks callable (get "hooks" fields)
  some (tasks++hooks)

/-- The references that loading a document resolves. -/
def loadYamlApp (readFloat : List Char → Double) (lookup : String → Option String)
    (document : List (String × Json)) : Option (List Ref) :=
  loadAppConfig callable isSink (expandFields readFloat lookup document)

end Loading

section Collecting
variable (isIdentifier : String → Bool)

/-- `module_name.split(".")` of what stands before the colon. -/
def moduleParts (ref : String) : List String :=
  (((splitOnce [':'] ref.toList).map Prod.fst).getD ref.toList |>.splitOn '.').map String.ofList

def looksLikeCallableRef (s : String) : Bool :=
  (splitOnce [':','/','/'] s.toList).isNone &&
    match splitOnce [':'] s.toList with
    | some (module,attr) =>
      !module.isEmpty && !attr.isEmpty && (moduleParts s).all isIdentifier
    | none => false

def addCallableRef (s : String) : List String :=
  if looksLikeCallableRef isIdentifier s then [s] else []

def refKeys : List String := ["ref","handler","when"]

def hookKeys : List String :=
  ["startup","shutdown","events","before","after_success","on_failure"]

/-- A string under a key that holds a reference. -/
def direct (key : String) : Json → Option String
  | .str s => if key ∈ refKeys then some s else none
  | _ => none

mutual

/-- `_collect_callable_refs` of a value under a key. -/
def collect (key : String) : Json → List String
  | .obj fields => collectFields fields
  | .arr items => collectItems key items
  | .str s => if key ∈ hookKeys then addCallableRef isIdentifier s else []
  | .null | .bool _ | .int _ | .float _ => []

def collectItems (key : String) : List Json → List String
  | [] => []
  | item::items => collect key item++collectItems key items

def collectFields : List (String × Json) → List String
  | [] => []
  | (key,value)::fields =>
    (direct key value).elim (collect key value) (addCallableRef isIdentifier)++collectFields fields

end

/-- `_extract_callable_refs`. -/
def extractCallableRefs (document : List (String × Json)) : List String :=
  collectFields isIdentifier document

end Collecting

section Standing
variable {isIdentifier : String → Bool} {text key : String} {value : Json}
  {fields : List (String × Json)}

/-- A text stands in a value where packaging looks for references: under a key of a
reference, or under one of hooks, in lists or not. -/
inductive Stands (text : String) : String → Json → Prop
  | hook {key : String} : key ∈ hookKeys → Stands text key (.str text)
  | item {key : String} {items : List Json} {item : Json} : item ∈ items → Stands text key item →
      Stands text key (.arr items)
  | reference {key k : String} {fields : List (String × Json)} : (k,.str text) ∈ fields →
      k ∈ refKeys → Stands text key (.obj fields)
  | field {key k : String} {fields : List (String × Json)} {value : Json} : (k,value) ∈ fields →
      Stands text k value → Stands text key (.obj fields)

theorem mem_addCallableRef : text ∈ addCallableRef isIdentifier key ↔
    text = key ∧ looksLikeCallableRef isIdentifier text = true := by
  unfold addCallableRef
  split
  · next hlook =>
      rw [List.mem_singleton]
      exact ⟨fun heq => ⟨heq,heq ▸ hlook⟩,fun h => h.1⟩
  · next hlook =>
      refine iff_of_false List.not_mem_nil ?_
      rintro ⟨rfl,h⟩
      exact hlook h

theorem mem_collectItems {items : List Json} : text ∈ collectItems isIdentifier key items ↔
    ∃ item ∈ items, text ∈ collect isIdentifier key item := by
  induction items with
  | nil => simp [collectItems]
  | cons item items ih => rw [collectItems,List.mem_append,ih,List.exists_mem_cons_iff]

theorem mem_collectFields : text ∈ collectFields isIdentifier fields ↔ ∃ field ∈ fields,
    text ∈ (direct field.1 field.2).elim (collect isIdentifier field.1 field.2)
      (addCallableRef isIdentifier) := by
  induction fields with
  | nil => simp [collectFields]
  | cons field fields ih =>
    obtain ⟨k,v⟩ := field
    rw [collectFields,List.mem_append,ih,List.exists_mem_cons_iff]

theorem direct_some {s : String} (h : direct key value = some s) : value = .str s ∧ key ∈ refKeys := by
  unfold direct at h
  split at h
  · split at h
    · next hkey =>
        cases h
        exact ⟨rfl,hkey⟩
    · cases h
  · cases h

theorem stands_of_collect : Json.Cases fun value => ∀ key,
    text ∈ collect isIdentifier key value →
      Stands text key value ∧ looksLikeCallableRef isIdentifier text = true where
  leaf value hleaf key h := by
    cases value with
    | arr items | obj fields => exact absurd hleaf id
    | str s =>
      rw [collect] at h
      split at h
      · next hkey =>
          obtain ⟨rfl,hlook⟩ := mem_addCallableRef.mp h
          exact ⟨.hook hkey,hlook⟩
      · cases h
    | _ => cases h
  arr items ih key h := by
    obtain ⟨item,hitem,htext⟩ := mem_collectItems.mp h
    obtain ⟨hstands,hlook⟩ := ih item hitem key htext
    exact ⟨.item hitem hstands,hlook⟩
  obj fields ih key h := by
    obtain ⟨⟨k,value⟩,hfield,htext⟩ := mem_collectFields.mp h
    cases hdirect : direct k value with
    | some s =>
      rw [hdirect] at htext
      obtain ⟨rfl,hlook⟩ := mem_addCallableRef.mp htext
      obtain ⟨rfl,hkey⟩ := direct_some hdirect
      exact ⟨.reference hfield hkey,hlook⟩
    | none =>
      rw [hdirect] at htext
      obtain ⟨hstands,hlook⟩ := ih _ hfield k htext
      exact ⟨.field hfield hstands,hlook⟩

theorem collect_of_stands (hlook : looksLikeCallableRef isIdentifier text = true)
    (h : Stands text key value) : text ∈ collect isIdentifier key value := by
  induction h with
  | hook hkey =>
    rw [collect,if_pos hkey]
    exact mem_addCallableRef.mpr ⟨rfl,hlook⟩
  | item hitem _ ih => exact mem_collectItems.mpr ⟨_,hitem,ih⟩
  | reference hfield hkey =>
    refine mem_collectFields.mpr ⟨_,hfield,?_⟩
    rw [direct,if_pos hkey]
    exact mem_addCallableRef.mpr ⟨rfl,hlook⟩
  | @field key k fields value hfield hstands ih =>
    refine mem_collectFields.mpr ⟨_,hfield,?_⟩
    cases hdirect : direct k value with
    | none => exact ih
    | some s =>
      obtain ⟨rfl,hkey⟩ := direct_some hdirect
      -- no key of a reference is one of hooks
      have hapart : ∀ name ∈ refKeys, name ∉ hookKeys := by decide
      cases hstands with
      | hook hhook => exact absurd hhook (hapart k hkey)

/-- The walk collects the texts that stand there and look like references. -/
theorem mem_extractCallableRefs {document : List (String × Json)} :
    text ∈ extractCallableRefs isIdentifier document ↔
      Stands text "" (.obj document) ∧ looksLikeCallableRef isIdentifier text = true :=
  ⟨stands_of_collect.all (.obj document) "",fun h => collect_of_stands h.2 h.1⟩

end Standing

section Files

abbrev Path := List String

/-- The files under the root of the file system, and the directories that hold none. -/
structure Tree where
  files : List Path
  empty : List Path
  apart : ∀ file ∈ files, file ∉ empty ∧ ∀ other ∈ files, file <+: other → other = file

variable (tree : Tree)

def isFile (path : Path) : Bool := tree.files.contains path

def isDir (path : Path) : Bool :=
  tree.empty.contains path || tree.files.any fun file => path.isPrefixOf file && file ≠ path

/-- `with_suffix(".py")` of a module path. -/
def withSuffix : List String → Path
  | [] => []
  | [name] => [name++".py"]
  | name::names => name::withSuffix names

def moduleFile (root : Path) (parts : List String) : Path := root++withSuffix parts

def packageFile (root : Path) (parts : List String) : Path := root++(parts++["__init__.py"])

/-- The file of a module where the import system finds it: a package goes before a module. -/
def sourceFile (roots : List Path) (parts : List String) : Option Path :=
  roots.findSome? fun root =>
    if isFile tree (packageFile root parts) then some (packageFile root parts)
    else if isFile tree (moduleFile root parts) then some (moduleFile root parts)
    else none

def locateModulePackage (projectRoot : Path) (sourceRoots : List Path) (parts : List String) :
    Option Path :=
  (sourceRoots.findSome? fun root =>
    let top := root++parts.take 1
    if isFile tree (moduleFile root parts) then
      some (if isDir tree top then top else moduleFile root parts)
    else if isFile tree (packageFile root parts) then
      some (if isDir tree top then top else root++parts)
    else none).or
  (if isFile tree (moduleFile projectRoot parts) then some (moduleFile projectRoot parts) else none)

/-- Whether a path is in `_iter_files` of another. -/
def iterFiles (located path : Path) : Bool :=
  if isFile tree located then path = located else located.isPrefixOf path && isFile tree path

end Files

/-- What packaging is given; other files are the metadata and what an include pattern names. -/
structure Project where
  tree : Tree
  root : Path
  target : Path
  others : Path → Bool
  excluded : Path → Bool

section Packaging
variable (isIdentifier : String → Bool) (project : Project)

def Project.sourceRoots : List Path :=
  let targetDir := project.target.dropLast
  ([project.root,project.root++["src"],targetDir,targetDir++["src"]].filter
    (isDir project.tree)).eraseDups

/-- Whether a path is one of the files of a reference. -/
def Project.filesOf (ref : String) (path : Path) : Bool :=
  match locateModulePackage project.tree project.root project.sourceRoots (moduleParts ref) with
  | some located => iterFiles project.tree located path
  | none => false

/-- Whether a path is in the files of `build_worker_package`. -/
def buildWorkerPackage (document : List (String × Json)) (path : Path) : Bool :=
  path = project.target || isFile project.tree path && !project.excluded path &&
    (project.others path || (extractCallableRefs isIdentifier document).any fun ref =>
      project.filesOf ref path)

end Packaging

section Agreement
variable {callable isSink isIdentifier : String → Bool} {found more : List String} {key : String}
  {value : Json} {fields : List (String × Json)} {refs : List Ref}

/-- The references that are not transforms written as strings, and look like references. -/
def Found (isIdentifier : String → Bool) (found : List String) (refs : List Ref) : Prop :=
  ∀ ref ∈ refs, ref.plainTransform = false → looksLikeCallableRef isIdentifier ref.text = true →
    ref.text ∈ found

theorem Found.append {others : List Ref} (h : Found isIdentifier found refs)
    (ho : Found isIdentifier found others) : Found isIdentifier found (refs++others) :=
  fun ref hmem => (List.mem_append.mp hmem).elim (h ref) (ho ref)

theorem Found.mono (h : Found isIdentifier found refs)
    (hsub : ∀ ref ∈ found, ref ∈ more) : Found isIdentifier more refs :=
  fun ref hmem hplain hlook => hsub _ (h ref hmem hplain hlook)

variable {ref : String}

theorem requireString_some {s : String}
    (h : requireString fields key = some s) : get key fields = some (.str s) := by
  unfold requireString at h
  split at h
  · next hget =>
      split at h
      · cases h
      · cases h
        exact hget
  · cases h

theorem mapping_found (h : resolveCallableRef callable (.obj fields) = some ref)
    (hlook : looksLikeCallableRef isIdentifier ref = true) :
    ref ∈ collectFields isIdentifier fields := by
  rw [resolveCallableRef] at h
  split at h
  · have hget := requireString_some (Option.filter_eq_some_iff.mp h).1
    exact mem_collectFields.mpr ⟨_,mem_of_get hget,mem_addCallableRef.mpr ⟨rfl,hlook⟩⟩
  · cases h

/-- A reference in a field is found, when it is a mapping or stands under a key of its own. -/
theorem field_found (hget : get key fields = some value)
    (h : resolveCallableRef callable value = some ref)
    (hkey : ∀ s, value = .str s → direct key (.str s) = some s)
    (hlook : looksLikeCallableRef isIdentifier ref = true) :
    ref ∈ collectFields isIdentifier fields := by
  refine mem_collectFields.mpr ⟨_,mem_of_get hget,?_⟩
  dsimp only
  cases value with
  | str s =>
    obtain ⟨-,rfl⟩ : callable s = true ∧ s = ref := by simpa [resolveCallableRef] using h
    rw [hkey s rfl]
    exact mem_addCallableRef.mpr ⟨rfl,hlook⟩
  | obj inner => exact mapping_found h hlook
  | _ => cases h

theorem each_found {resolve : Json → Option (List Ref)} {items : List Json}
    (hstep : ∀ item refs, resolve item = some refs →
      Found isIdentifier (collect isIdentifier key item) refs)
    (h : each resolve items = some refs) :
    Found isIdentifier (collectItems isIdentifier key items) refs := by
  induction items generalizing refs with
  | nil =>
    cases h
    exact fun ref hmem => by cases hmem
  | cons item items ih =>
    simp only [each,Option.bind_eq_bind,Option.bind_eq_some_iff,Option.some.injEq] at h
    obtain ⟨first,hfirst,rest,hrest,rfl⟩ := h
    rw [collectItems]
    exact ((hstep item first hfirst).mono fun _ => List.mem_append_left _).append
      ((ih hrest).mono fun _ => List.mem_append_right _)

/-- What is found in a field is found in the mapping, when the key holds no reference itself. -/
theorem field_mono (hget : get key fields = some value) (hkey : key ∉ refKeys)
    (h : Found isIdentifier (collect isIdentifier key value) refs) :
    Found isIdentifier (collectFields isIdentifier fields) refs := by
  have hdirect : direct key value = none := by
    cases value <;> simp only [direct,hkey,if_false]
  exact h.mono fun _ href => mem_collectFields.mpr ⟨_,mem_of_get hget,by rwa [hdirect]⟩

theorem Found.nil : Found isIdentifier found [] := fun _ hmem => nomatch hmem

theorem Found.single {text : String} {plain : Bool}
    (h : plain = false → looksLikeCallableRef isIdentifier text = true → text ∈ found) :
    Found isIdentifier found [⟨text,plain⟩] := by
  intro ref hmem
  cases List.mem_singleton.mp hmem
  exact h

theorem binding_found (h : resolveEmitBinding callable isSink fields = some refs) :
    Found isIdentifier (collectFields isIdentifier fields) refs := by
  simp only [resolveEmitBinding,Option.bind_eq_bind,Option.bind_eq_some_iff] at h
  obtain ⟨name,-,h⟩ := h
  split at h
  · split at h
    · cases h
      exact .nil
    · next value hget =>
        obtain ⟨text,hresolve,rfl⟩ := Option.map_eq_some_iff.mp h
        refine .single fun hplain hlook => field_found hget hresolve (fun s hs => ?_) hlook
        rw [hs] at hplain
        cases hplain
  · cases h

theorem branchEntry_found (h : resolveBranchEntry callable isSink value = some refs) :
    Found isIdentifier (collect isIdentifier key value) refs := by
  cases value with
  | obj fields => exact binding_found h
  | str name =>
    rw [resolveBranchEntry] at h
    split at h
    · cases h
      exact .nil
    · cases h
  | _ => cases h

theorem branch_found (h : resolveEmitBranch callable isSink value = some refs) :
    Found isIdentifier (collect isIdentifier key value) refs := by
  cases value with
  | obj fields =>
    rw [resolveEmitBranch] at h
    split at h
    · exact binding_found h
    · cases h
  | str name => exact @branchEntry_found callable isSink _ _ _ _ h
  | arr entries =>
    rw [resolveEmitBranch] at h
    split at h
    · cases h
    · exact each_found (fun _ _ => branchEntry_found) h
  | _ => cases h

theorem route_found (h : resolveEmitRoute callable isSink value = some refs) :
    Found isIdentifier (collect isIdentifier key value) refs := by
  cases value with
  | obj fields =>
    simp only [resolveEmitRoute,Option.bind_eq_bind,Option.bind_eq_some_iff,Option.some.injEq] at h
    obtain ⟨condition,hwhen,predicate,hpredicate,branch,hthen,thenRefs,hbranch,otherwise,hother,rfl⟩ := h
    have hfirst : Found isIdentifier (collectFields isIdentifier fields) [⟨predicate,false⟩] :=
      .single fun _ hlook => field_found hwhen hpredicate (fun _ _ => rfl) hlook
    refine hfirst.append (.append (field_mono hthen (by decide) (branch_found hbranch)) ?_)
    cases hget : get "otherwise" fields with
    | none =>
      rw [hget] at hother
      cases hother
      exact .nil
    | some value =>
      rw [hget] at hother
      exact field_mono hget (by decide) (branch_found hother)
  | _ => exact @branch_found callable isSink _ _ _ _ h

theorem entry_found (h : resolveEmitEntry callable isSink value = some refs) :
    Found isIdentifier (collect isIdentifier key value) refs := by
  cases value with
  | obj fields =>
    rw [resolveEmitEntry] at h
    split at h
    · exact binding_found h
    · exact @route_found callable isSink _ key (.obj fields) _ h
  | _ => exact @route_found callable isSink _ _ _ _ h

theorem hook_found (hkey : key ∈ hookKeys)
    (h : buildRef callable value = some refs) :
    Found isIdentifier (collect isIdentifier key value) refs := by
  obtain ⟨text,hresolve,rfl⟩ := Option.map_eq_some_iff.mp h
  refine .single fun _ hlook => ?_
  cases value with
  | str s =>
    obtain ⟨-,rfl⟩ : callable s = true ∧ s = text := by simpa [resolveCallableRef] using hresolve
    rw [collect,if_pos hkey]
    exact mem_addCallableRef.mpr ⟨rfl,hlook⟩
  | obj fields => exact mapping_found hresolve hlook
  | _ => cases hresolve

theorem entries_found
    {resolve : Json → Option (List Ref)} (hkey : key ∉ refKeys)
    (hstep : ∀ value refs, resolve value = some refs →
      Found isIdentifier (collect isIdentifier key value) refs)
    (h : entriesOf resolve (get key fields) = some refs) :
    Found isIdentifier (collectFields isIdentifier fields) refs := by
  cases hget : get key fields with
  | none =>
    rw [hget] at h
    cases h
    exact .nil
  | some value =>
    rw [hget] at h
    refine field_mono hget hkey ?_
    cases value with
    | null =>
      cases h
      exact .nil
    | arr entries => exact each_found hstep h
    | _ => exact hstep _ refs h

theorem eachHook_found {names : List String} (hnames : ∀ name ∈ names, name ∈ hookKeys)
    (h : eachHook callable fields names = some refs) :
    Found isIdentifier (collectFields isIdentifier fields) refs := by
  have hapart : ∀ name ∈ hookKeys, name ∉ refKeys := by decide
  induction names generalizing refs with
  | nil =>
    cases h
    exact .nil
  | cons name names ih =>
    simp only [eachHook,Option.bind_eq_bind,Option.bind_eq_some_iff,Option.some.injEq] at h
    obtain ⟨first,hfirst,rest,hrest,rfl⟩ := h
    rw [List.forall_mem_cons] at hnames
    exact .append (entries_found (hapart name hnames.1) (fun _ _ => hook_found hnames.1) hfirst)
      (ih hnames.2 hrest)

theorem namedHooks_found {names : List String} (hnames : ∀ name ∈ names, name ∈ hookKeys)
    (h : namedHooks callable names (get "hooks" fields) = some refs) :
    Found isIdentifier (collectFields isIdentifier fields) refs := by
  cases hget : get "hooks" fields with
  | none =>
    rw [hget] at h
    cases h
    exact .nil
  | some value =>
    rw [hget] at h
    refine field_mono hget (by decide) ?_
    cases value with
    | null =>
      cases h
      exact .nil
    | obj hooks =>
      rw [namedHooks] at h
      split at h
      · exact eachHook_found hnames h
      · cases h
    | _ => cases h

theorem task_found (h : buildTask callable isSink value = some refs) :
    Found isIdentifier (collect isIdentifier "tasks" value) refs := by
  cases value with
  | obj fields =>
    simp only [buildTask,Option.bind_eq_bind,Option.bind_eq_some_iff,Option.some.injEq] at h
    obtain ⟨emit,hemit,handler,hhandler,hooks,hhooks,rfl⟩ := h
    refine .append (entries_found (by decide) (fun _ _ => entry_found) hemit)
      (.append ?_ (namedHooks_found (by decide) hhooks))
    cases hget : get "handler" fields with
    | none =>
      rw [hget,buildTaskHandler] at hhandler
      split at hhandler
      · cases hhandler
        exact .nil
      · cases hhandler
    | some value =>
      rw [hget] at hhandler
      obtain ⟨text,hresolve,rfl⟩ := Option.map_eq_some_iff.mp hhandler
      exact .single fun _ hlook => field_found hget hresolve (fun _ _ => rfl) hlook
  | _ => cases h

/-- The walk finds what loading follows the grammar to. -/
theorem config_found (h : loadAppConfig callable isSink fields = some refs) :
    Found isIdentifier (extractCallableRefs isIdentifier fields) refs := by
  simp only [loadAppConfig,Option.bind_eq_bind,Option.bind_eq_some_iff,Option.some.injEq] at h
  obtain ⟨tasks,htasks,hooks,hhooks,rfl⟩ := h
  refine .append ?_ (namedHooks_found (by decide) hhooks)
  cases hget : get "tasks" fields with
  | none =>
    rw [hget] at htasks
    cases htasks
    exact .nil
  | some value =>
    rw [hget] at htasks
    refine field_mono hget (by decide) ?_
    cases value with
    | arr items => exact each_found (fun _ _ => task_found) htasks
    | _ => cases htasks

end Agreement

section Location
variable {tree : Tree} {path file : Path}

theorem isDir_of_file {rest : Path} (h : isFile tree (path++rest) = true) (hrest : rest ≠ []) :
    isDir tree path = true := by
  rw [isFile,List.contains_iff_mem] at h
  rw [isDir,Bool.or_eq_true,List.any_eq_true]
  exact .inr ⟨_,h,by simp [hrest]⟩

theorem isFile_of_dir (h : isDir tree path = true) : isFile tree path = false := by
  by_contra hfile
  rw [Bool.not_eq_false,isFile,List.contains_iff_mem] at hfile
  obtain ⟨hempty,hlast⟩ := tree.apart path hfile
  rw [isDir,Bool.or_eq_true,List.contains_iff_mem,List.any_eq_true] at h
  rcases h with h | ⟨other,hother,h⟩
  · exact hempty h
  · rw [Bool.and_eq_true,List.isPrefixOf_iff_prefix,decide_eq_true_eq] at h
    exact h.2 (hlast other hother h.1)

theorem iterFiles_under (hdir : isDir tree path = true) (hfile : isFile tree file = true)
    (h : path <+: file) : iterFiles tree path file = true := by
  rw [iterFiles,isFile_of_dir hdir,if_neg Bool.false_ne_true,hfile,Bool.and_true]
  exact List.isPrefixOf_iff_prefix.mpr h

/-- The first source root that has the module of a single name has it as a file beside a
directory of this name. -/
def Beside (tree : Tree) (roots : List Path) (parts : List String) : Prop :=
  ∃ root name, parts = [name] ∧ isFile tree (packageFile root parts) = false ∧
    isDir tree (root++[name]) = true ∧
    roots.find? (fun r => isFile tree (packageFile r parts) || isFile tree (moduleFile r parts)) =
      some root

theorem isFile_of_sourceFile {roots : List Path} {parts : List String}
    (h : sourceFile tree roots parts = some file) : isFile tree file = true := by
  obtain ⟨root,-,hroot⟩ := List.exists_of_findSome?_eq_some h
  split at hroot
  · next hpackage =>
      cases hroot
      exact hpackage
  · split at hroot
    · next hmodule =>
        cases hroot
        exact hmodule
    · cases hroot

/-- What packaging locates for a module has its file, unless a directory of its name is taken
in its place. -/
theorem located_iff {root : Path} {roots : List Path} {parts : List String} (hparts : parts ≠ [])
    (h : sourceFile tree roots parts = some file) :
    (∃ located, locateModulePackage tree root roots parts = some located ∧
      iterFiles tree located file = true) ↔ ¬Beside tree roots parts := by
  obtain ⟨name,names,rfl⟩ := List.exists_cons_of_ne_nil hparts
  induction roots with
  | nil => cases h
  | cons r roots ih =>
    rw [sourceFile,List.findSome?_cons] at h
    rw [locateModulePackage,List.findSome?_cons,Beside]
    by_cases hpackage : isFile tree (packageFile r (name::names)) = true
    · rw [if_pos hpackage] at h
      cases h
      have hunder : packageFile r (name::names) = (r++[name])++(names++["__init__.py"]) := by
        simp [packageFile]
      have hdir : isDir tree (r++[name]) = true := isDir_of_file (hunder ▸ hpackage) (by simp)
      refine iff_of_true ⟨r++[name],?_,iterFiles_under hdir hpackage
        (hunder ▸ List.prefix_append _ _)⟩ ?_
      · simp [hdir,hpackage]
      · rintro ⟨root,_,-,hnone,-,hfind⟩
        rw [List.find?_cons_of_pos (by rw [hpackage,Bool.true_or]),Option.some_inj] at hfind
        rw [← hfind,hpackage] at hnone
        cases hnone
    · rw [Bool.not_eq_true] at hpackage
      by_cases hmodule : isFile tree (moduleFile r (name::names)) = true
      · rw [if_neg (by simp [hpackage]),if_pos hmodule] at h
        cases h
        simp only [hmodule,if_true]
        have hfound : (isFile tree (packageFile r (name::names)) ||
            isFile tree (moduleFile r (name::names))) = true := by rw [hmodule,Bool.or_true]
        have hfirst : (r::roots).find? (fun r => isFile tree (packageFile r (name::names)) ||
            isFile tree (moduleFile r (name::names))) = some r := List.find?_cons_of_pos hfound
        rw [hfirst]
        cases names with
        | nil =>
          by_cases hdir : isDir tree (r++[name]) = true
          · refine iff_of_false ?_ (not_not.mpr ⟨r,name,rfl,hpackage,hdir,rfl⟩)
            rintro ⟨located,hlocated,hiter⟩
            simp only [List.take_succ_cons,List.take_zero,hdir,if_true,Option.some_or,
              Option.some_inj] at hlocated
            rw [← hlocated,iterFiles,isFile_of_dir hdir,if_neg Bool.false_ne_true,
              Bool.and_eq_true,List.isPrefixOf_iff_prefix] at hiter
            have hname := (List.prefix_append_right_inj r).mp hiter.1
            have hlength := congrArg String.length (List.cons_prefix_cons.mp hname).1
            simp at hlength
          · refine iff_of_true ⟨moduleFile r [name],by simp [hdir],?_⟩ ?_
            · rw [iterFiles,if_pos hmodule,decide_eq_true_eq]
            · rintro ⟨root,other,hother,-,hbeside,hfind⟩
              cases hother
              cases hfind
              exact hdir hbeside
        | cons second names =>
          have hunder : moduleFile r (name::second::names) = (r++[name])++withSuffix (second::names) := by
            simp [moduleFile,withSuffix]
          have hdir : isDir tree (r++[name]) = true :=
            isDir_of_file (hunder ▸ hmodule) (by cases names <;> simp [withSuffix])
          refine iff_of_true ⟨r++[name],by simp [hdir],iterFiles_under hdir hmodule
            (hunder ▸ List.prefix_append _ _)⟩ ?_
          rintro ⟨root,other,hother,-⟩
          cases hother
      · rw [Bool.not_eq_true] at hmodule
        rw [if_neg (by simp [hpackage]),if_neg (by simp [hmodule])] at h
        rw [List.find?_cons_of_neg (by simp [hpackage,hmodule])]
        simp only [hpackage,hmodule]
        exact ih h

end Location

section Packages
variable {callable isSink isIdentifier : String → Bool} {readFloat : List Char → Double}
  {lookup : String → Option String} {project : Project} {document : List (String × Json)}
  {refs : List Ref}

/-- Loading resolves a reference from where packaging looks for one: there is no environment
in the sections with references, and it is no transform that is written as a string. -/
structure ReadAlike (readFloat : List Char → Double) (lookup : String → Option String)
    (document : List (String × Json)) (ref : Ref) : Prop where
  literal : ∀ name ∈ ["tasks","hooks"], ∀ value, get name document = some value →
    Literal readFloat lookup value
  mapped : ref.plainTransform = false

/-- Packaging takes a text for a reference to a module that it finds. -/
structure Recognized (isIdentifier : String → Bool) (project : Project)
    (document : List (String × Json)) (text : String) : Prop where
  stands : Stands text "" (.obj document)
  looks : looksLikeCallableRef isIdentifier text = true
  alone : ¬Beside project.tree project.sourceRoots (moduleParts text)

/-- A file is the target, metadata or included, or it is one of the files of another text. -/
def TakenBesides (isIdentifier : String → Bool) (project : Project)
    (document : List (String × Json)) (text : String) (file : Path) : Prop :=
  file = project.target ∨ project.others file = true ∨
    ∃ other, other ≠ text ∧ Stands other "" (.obj document) ∧
      looksLikeCallableRef isIdentifier other = true ∧ project.filesOf other file = true

/-- Where no environment is in the sections, loading reads them as they are written. -/
theorem loadYamlApp_literal (hliteral : ∀ name ∈ ["tasks","hooks"], ∀ value,
    get name document = some value → Literal readFloat lookup value) :
    loadYamlApp callable isSink readFloat lookup document =
      loadAppConfig callable isSink document := by
  have hget : ∀ name ∈ ["tasks","hooks"],
      get name (expandFields readFloat lookup document) = get name document := by
    intro name hname
    rw [get_expandFields]
    cases hvalue : get name document with
    | none => rfl
    | some value => exact congrArg some ((expandEnvVars_iff value).mpr (hliteral name hname value hvalue))
  rw [loadYamlApp,loadAppConfig,loadAppConfig,hget _ (by simp),hget _ (by simp)]

theorem moduleParts_ne_nil (ref : String) : moduleParts ref ≠ [] := by
  rw [moduleParts,ne_eq,List.map_eq_nil_iff]
  exact List.splitOn_ne_nil _ _

theorem filesOf_iff {text : String} {file : Path}
    (h : sourceFile project.tree project.sourceRoots (moduleParts text) = some file) :
    project.filesOf text file = true ↔ ¬Beside project.tree project.sourceRoots (moduleParts text) := by
  have hlocated := @located_iff project.tree file project.root _ _ (moduleParts_ne_nil text) h
  rw [← hlocated,Project.filesOf]
  cases locateModulePackage project.tree project.root project.sourceRoots (moduleParts text) with
  | none => simp
  | some located => simp

/-- The files of a worker with a handler and a transform in modules of their own. -/
def workerFiles : Project where
  tree := ⟨[["worker.yaml"],["jobs.py"],["maps.py"]],[],by decide⟩
  root := []
  target := ["worker.yaml"]
  others := fun _ => false
  excluded := fun _ => false

/-- A worker that hands what it has to a sink through a transform. -/
def workerDocument (transform : Json) : List (String × Json) :=
  [("tasks",.arr [.obj [("handler",.str "jobs:run"),
    ("emit",.arr [.obj [("sink",.str "rows"),("transform",transform)]])]])]

end Packages

end OneStep.PackagedReferences
