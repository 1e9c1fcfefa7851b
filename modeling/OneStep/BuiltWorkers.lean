import OneStep.EnvExpansion
import Mathlib.Data.BitVec
import Mathlib.Data.List.Nodup

/-!
# What a built worker runs

A worker is compiled into the document that its package holds, with one resource for each
connector it refers to, one for its source and one for each sink. A deployment keeps the package
and its environment; the command that starts it first adds the reporting token to that
environment. What is loaded is the document after the environment was put in.
-/
namespace OneStep.BuiltWorkers
open EnvExpansion JsonValues ScalarTexts

section Dictionaries

/-- A dictionary, its keys in insertion order. -/
structure Dict where
  fields : List (String × Json)
  unique : (fields.map Prod.fst).Nodup

def get (key : String) (fields : List (String × Json)) : Option Json :=
  (fields.find? fun field => field.1 = key).map Prod.snd

/-- `dict.update`. -/
def update (fields : List (String × Json)) (more : List (String × Json)) : List (String × Json) :=
  more.foldl (fun fields field => set field.1 field.2 fields) fields

def Dict.filter (d : Dict) (p : String → Bool) : Dict where
  fields := d.fields.filter fun field => p field.1
  unique := (List.filter_sublist.map Prod.fst).nodup d.unique

end Dictionaries

section Configuration

/-- What the worker builder asks the resource catalog. -/
structure Catalog where
  known : String → Bool
  connectorTypes : String → List String
  fieldDefault : String → String → Option Json
  runtimeFields : String → List String
  secretFields : String → List String
  noType : ∀ t, "type" ∉ runtimeFields t

structure Connector where
  type : String
  config : Dict
  secret : Dict

/-- A source or a sink. -/
structure Endpoint where
  type : String
  connectorId : Option String
  fields : Dict

inductive Mode where
  | platform | custom
  deriving DecidableEq

structure Worker where
  name : String
  description : String
  handlerPackageId : Option String
  handlerRef : String
  source : Endpoint
  sinks : List Endpoint
  env : List (String × String)
  reportingEnabled : Bool
  reportingMode : Mode
  endpointUrl : Option String
  reportingToken : Option String

def reportingTokenEnv : String := "ONESTEP_WORKER_REPORTING_TOKEN"

def tokenReference : String :=
  String.ofList (['$',opening]++reportingTokenEnv.toList++[closing])

def stripped (s : String) : String := String.ofList (strip isSpace s.toList)

/-- The endpoint of `_normalize_reporting_config`. -/
def Worker.endpoint (worker : Worker) : Option String :=
  (worker.endpointUrl.map stripped).filter fun endpoint => endpoint ≠ ""

/-- `_decrypt_reporting_token` of the stored secret. -/
def Worker.token (worker : Worker) : Option String :=
  (worker.reportingToken.map stripped).filter fun token => token ≠ ""

end Configuration

section Compilation
variable (catalog : Catalog) (connectors : String → Option Connector)

def buildRuntimeConnectorPayload (connector : Connector) : Option Connector :=
  if catalog.known connector.type then
    let fields := catalog.runtimeFields connector.type
    let secret := catalog.secretFields connector.type
    some {
      type := connector.type
      config := connector.config.filter fun key => fields.contains key && !secret.contains key
      secret := connector.secret.filter fun key => fields.contains key && secret.contains key}
  else none

def resourceNeedsConnector (type : String) : Option Bool :=
  if catalog.known type then some (!(catalog.connectorTypes type).isEmpty) else none

/-- The connector that a source or a sink names. -/
def Endpoint.connector (e : Endpoint) : Option String := e.connectorId.filter fun id => id ≠ ""

/-- `_needs_connector`, which raises for a type that is not in the catalog. -/
def needsConnector (e : Endpoint) : Option Bool :=
  if e.connector.isSome then some true else resourceNeedsConnector catalog e.type

/-- `not str(value or "").strip()`. -/
def isBlank : Option Json → Bool
  | none | some .null | some (.bool false) => true
  | some (.int n) => n = 0
  | some (.float x) => x.bits = 0 || x.bits = 2^63
  | some (.str s) => (strip isSpace s.toList).isEmpty
  | some (.arr items) => items.isEmpty
  | some (.obj fields) => fields.isEmpty
  | some (.bool true) => false

def sinkFields (sink : Endpoint) : Option (List (String × Json)) :=
  if catalog.known sink.type then
    match catalog.fieldDefault sink.type "method" with
    | none => some sink.fields.fields
    | some default =>
      some (if isBlank (get "method" sink.fields.fields) then
        set "method" default sink.fields.fields
      else sink.fields.fields)
  else none

/-- The resources made so far, and which of them is made of which connector. -/
structure Build where
  resources : List (String × Json) := []
  keys : List (String × String) := []

def connectorResource (connector : Connector) : List (String × Json) :=
  update (update [("type",.str connector.type)] connector.config.fields) connector.secret.fields

def connKey (n : ℕ) : String := "conn_" ++ toString n

def sinkKey (n : ℕ) : String := "sink_" ++ toString n

def resolveConnector (b : Build) (id : String) : Option (String × Build) :=
  match b.keys.find? fun entry => entry.1 = id with
  | some entry => some (entry.2,b)
  | none =>
    ((connectors id).bind (buildRuntimeConnectorPayload catalog)).map fun connector =>
      let key := connKey b.keys.length
      (key,{
        resources := set key (.obj (connectorResource connector)) b.resources
        keys := b.keys++[(id,key)]})

/-- The resource of a source or a sink. -/
def buildResource (b : Build) (key : String) (e : Endpoint) (fields : List (String × Json)) :
    Option Build :=
  (needsConnector catalog e).bind fun needs =>
    match needs,e.connector with
    | true,some id =>
      (resolveConnector catalog connectors b id).map fun r =>
        let resource := update [("type",.str e.type),("connector",.str r.1)] fields
        {r.2 with resources := set key (.obj resource) r.2.resources}
    | _,_ =>
      let resource := update [("type",.str e.type)] fields
      some {b with resources := set key (.obj resource) b.resources}

def buildSinks : Build → ℕ → List Endpoint → Option Build
  | b,_,[] => some b
  | b,n,sink::sinks =>
    (sinkFields catalog sink).bind fun fields =>
      (buildResource catalog connectors b (sinkKey n) sink fields).bind fun b =>
        buildSinks b (n+1) sinks

def serviceDescription (worker : Worker) : List (String × Json) :=
  let description := stripped worker.description
  if description = "" then [] else [("service_description",.str description)]

/-- `_reporter_config`: none when it raises, and inside it none when nothing is reported. -/
def reporterConfig (worker : Worker) : Option (Option Json) :=
  if worker.reportingEnabled = false then some none
  else
    match worker.reportingMode with
    | .platform =>
      let description := serviceDescription worker
      some (some (if description = [] then .bool true else .obj description))
    | .custom =>
      let endpoint := (worker.endpoint.map stripped).getD ""
      if endpoint = "" then none
      else some (some (.obj ([("base_url",.str endpoint),
        ("token",.str tokenReference)]++serviceDescription worker)))

def compileWorkerYaml (worker : Worker) : Option Json :=
  (buildResource catalog connectors {} "source_0" worker.source worker.source.fields.fields).bind
    fun b => (buildSinks catalog connectors b 0 worker.sinks).bind fun b =>
      (reporterConfig worker).map fun reporter =>
        let task := [("name",Json.str "main"),("source",.str "source_0"),
          ("handler",.obj [("ref",.str worker.handlerRef)])]++
          if worker.sinks = [] then []
          else [("emit",.arr ((List.range worker.sinks.length).map fun i => .str (sinkKey i)))]
        .obj ([("apiVersion",.str "onestep/v1alpha1"),("kind",.str "App"),
          ("app",.obj [("name",.str worker.name)]),("resources",.obj b.resources),
          ("tasks",.arr [.obj task])]++
          match reporter with
          | none => []
          | some reporter => [("reporter",reporter)])

end Compilation

section Deployment

abbrev Env := List (String × String)

/-- `runtime_env[name] = value`. -/
def setEnv (name value : String) : Env → Env
  | [] => [(name,value)]
  | (k,v)::env => if k = name then (k,value)::env else (k,v)::setEnv name value env

/-- The environment of the first command; none when it raises. -/
def deploymentRuntimeEnv (worker : Worker) (env : Env) : Option Env :=
  if worker.reportingEnabled = false then some env
  else
    match worker.reportingMode with
    | .platform => some env
    | .custom => worker.token.map fun token => setEnv reportingTokenEnv token env

/-- A deployment with its package, and the environment of the command that it begins with. -/
structure Deployment where
  workerYaml : Json
  env : Env
  startEnv : Option Env

def deployWorker (catalog : Catalog) (connectors : String → Option Connector) (worker : Worker)
    (requestEnv : Option Env) (running : Bool) : Option Deployment :=
  if worker.handlerPackageId.isNone then none
  else
    (compileWorkerYaml catalog connectors worker).bind fun doc =>
      let env := requestEnv.getD worker.env
      if running then
        (deploymentRuntimeEnv worker env).map fun start =>
          {workerYaml := doc,env := env,startEnv := some start}
      else some {workerYaml := doc,env := env,startEnv := none}

inductive Command where
  | stop | restart
  deriving DecidableEq

/-- `_deployment_package_args` of a command, when it starts the worker. -/
def Deployment.commandEnv (d : Deployment) : Command → Option Env
  | .stop => none
  | .restart => some d.env

/-- The environments that the commands send, one for each time the worker is started. -/
def Deployment.started (d : Deployment) (commands : List Command) : List Env :=
  d.startEnv.toList++commands.filterMap d.commandEnv

/-- The environment of a command first, then that of the process. -/
def environment (ambient : String → Option String) (env : Env) (name : String) : Option String :=
  ((env.find? fun entry => entry.1 = name).map Prod.snd).or (ambient name)

end Deployment

section Configured
variable (catalog : Catalog) (connectors : String → Option Connector)

/-- The values of a connector that its resource has. -/
structure HoldsConnector (resource : List (String × Json)) (connector : Connector) : Prop where
  type : get "type" resource = some (.str connector.type)
  config : ∀ name value, get name connector.config.fields = some value →
    get name resource = some value
  secret : ∀ name value, get name connector.secret.fields = some value →
    get name resource = some value
  only : ∀ name value, get name resource = some value → name = "type" ∨
    name ∈ connector.config.fields.map Prod.fst ∨ name ∈ connector.secret.fields.map Prod.fst

def fieldOf (name : String) : Json → Option Json
  | .obj fields => get name fields
  | _ => none

/-- A resource is read as a type, a connector and its other fields: they are the configured
ones. -/
def ReadsAs (resources : List (String × Json)) (key : String) (e : Endpoint)
    (fields : List (String × Json)) : Prop :=
  ∃ resource, get key resources = some (.obj resource) ∧
    get "type" resource = some (.str e.type) ∧
    (match e.connector with
      | none => get "connector" resource = none
      | some id => ∃ connector k held, (connectors id).bind
          (buildRuntimeConnectorPayload catalog) = some connector ∧
          get "connector" resource = some (.str k) ∧ get k resources = some (.obj held) ∧
          HoldsConnector held connector) ∧
    ∀ name, get name fields =
      if name = "type" ∨ name = "connector" then none else get name resource

/-- The reporter that is configured. -/
def Reports (worker : Worker) (doc : Json) : Prop :=
  if worker.reportingEnabled = false then fieldOf "reporter" doc = none
  else
    ∃ reporter, fieldOf "reporter" doc = some reporter ∧
      match worker.reportingMode with
      | .platform => fieldOf "base_url" reporter = none ∧ fieldOf "token" reporter = none
      | .custom => fieldOf "base_url" reporter = worker.endpoint.map .str ∧
          ∀ token, worker.token = some token → fieldOf "token" reporter = some (.str token)

/-- What was loaded is what was configured; a blank method is configured as the default that
the catalog has for it. -/
def AsConfigured (worker : Worker) (doc : Json) : Prop :=
  (∃ resources, fieldOf "resources" doc = some (.obj resources) ∧
    ReadsAs catalog connectors resources "source_0" worker.source worker.source.fields.fields ∧
    ∀ i sink, worker.sinks[i]? = some sink → ∃ fields, sinkFields catalog sink = some fields ∧
      ReadsAs catalog connectors resources (sinkKey i) sink fields) ∧
  Reports worker doc

variable (readFloat : List Char → Double) (lookup : String → Option String)

/-- No field is called as the type or the connector are, and the environment changes no string
of the resource or of its connector. -/
structure Plain (e : Endpoint) (fields : List (String × Json)) : Prop where
  unreserved : ∀ name ∈ fields.map Prod.fst, name ≠ "type" ∧ name ≠ "connector"
  type : Verbatim readFloat lookup e.type
  fields : LiteralFields readFloat lookup fields
  connector : ∀ id connector, e.connector = some id →
    (connectors id).bind (buildRuntimeConnectorPayload catalog) = some connector →
    Verbatim readFloat lookup connector.type ∧
      LiteralFields readFloat lookup connector.config.fields ∧
      LiteralFields readFloat lookup connector.secret.fields

/-- Who reports to an endpoint of its own has the token in its environment, as a text that is
not decoded to something else, and the environment does not change the endpoint. -/
def Reporting (worker : Worker) : Prop :=
  worker.reportingEnabled = true → worker.reportingMode = .custom →
    (∀ endpoint, worker.endpoint = some endpoint → Verbatim readFloat lookup endpoint) ∧
    ∀ token, worker.token = some token →
      coerceExpandedValue readFloat ((lookup reportingTokenEnv).elim [] String.toList) = .str token

/-- Nothing is lost between the configuration and the worker, given what the names in it stand
for. -/
structure Kept (worker : Worker) : Prop where
  source : Plain catalog connectors readFloat lookup worker.source worker.source.fields.fields
  sinks : ∀ sink ∈ worker.sinks, ∀ fields, sinkFields catalog sink = some fields →
    Plain catalog connectors readFloat lookup sink fields
  reporting : Reporting readFloat lookup worker

/-- How often the worker is started. -/
def startCount (running : Bool) (commands : List Command) : ℕ :=
  (if running then 1 else 0)+commands.count .restart

/-- What a name stands for when the worker is started for the given time: only the start that
the deployment begins with knows the token. -/
def known (worker : Worker) (own : Env) (running : Bool) (ambient : ℕ → String → Option String)
    (i : ℕ) (name : String) : Option String :=
  if running = true ∧ i = 0 ∧ worker.reportingEnabled = true ∧ worker.reportingMode = .custom ∧
      name = reportingTokenEnv then worker.token
  else environment (ambient i) own name

end Configured

section DictionaryLemmas

variable {key name : String} {value : Json} {fields more : List (String × Json)}

theorem get_cons (field : String × Json) :
    get name (field::fields) = if field.1 = name then some field.2 else get name fields := by
  unfold get
  rw [List.find?_cons]
  by_cases h : field.1 = name <;> simp [h]

theorem get_set (key name : String) (value : Json) (fields : List (String × Json)) :
    get name (set key value fields) = if key = name then some value else get name fields := by
  induction fields with
  | nil =>
    rw [JsonValues.set,get_cons]
  | cons field fields ih =>
    obtain ⟨k,v⟩ := field
    rw [JsonValues.set]
    by_cases hk : k = key
    · subst hk
      rw [if_pos rfl,get_cons,get_cons]
      by_cases hname : k = name <;> simp [hname]
    · rw [if_neg hk,get_cons,get_cons,ih]
      by_cases hkey : key = name
      · subst hkey
        simp [hk]
      · simp [hkey]

theorem keys_set (key : String) (value : Json) (fields : List (String × Json)) :
    (set key value fields).map Prod.fst =
      if key ∈ fields.map Prod.fst then fields.map Prod.fst else fields.map Prod.fst++[key] := by
  induction fields with
  | nil => rfl
  | cons field fields ih =>
    obtain ⟨k,v⟩ := field
    rw [JsonValues.set]
    by_cases hk : k = key
    · simp [hk]
    · have hne : key ≠ k := fun h => hk h.symm
      rw [if_neg hk,List.map_cons,ih]
      by_cases hmem : key ∈ fields.map Prod.fst <;> simp [hmem,hne]

theorem unique_set (h : (fields.map Prod.fst).Nodup) (key : String) (value : Json) :
    ((set key value fields).map Prod.fst).Nodup := by
  rw [keys_set]
  split
  · exact h
  · next hmem =>
      rw [List.nodup_append]
      refine ⟨h,List.nodup_singleton _,?_⟩
      intro a ha b hb heq
      rw [List.mem_singleton] at hb
      exact hmem (hb ▸ heq ▸ ha)

theorem get_eq_none : get name fields = none ↔ name ∉ fields.map Prod.fst := by
  induction fields with
  | nil => simp [get]
  | cons field fields ih =>
    rw [get_cons,List.map_cons,List.mem_cons,not_or]
    by_cases h : field.1 = name
    · simp [h]
    · rw [if_neg h,ih]
      simp [Ne.symm h]

theorem get_of_mem (h : (fields.map Prod.fst).Nodup) (hmem : (name,value) ∈ fields) :
    get name fields = some value := by
  induction fields with
  | nil => cases hmem
  | cons field fields ih =>
    rw [List.map_cons,List.nodup_cons] at h
    rw [get_cons]
    rcases List.mem_cons.mp hmem with rfl | hmem
    · rw [if_pos rfl]
    · rw [if_neg,ih h.2 hmem]
      intro heq
      exact h.1 (heq ▸ List.mem_map_of_mem hmem)

theorem mem_of_get (h : get name fields = some value) : (name,value) ∈ fields := by
  obtain ⟨field,hfind,rfl⟩ := Option.map_eq_some_iff.mp h
  have hname := List.find?_some hfind
  rw [decide_eq_true_eq] at hname
  exact hname ▸ List.mem_of_find?_eq_some hfind

theorem get_update (h : (more.map Prod.fst).Nodup) (name : String) :
    get name (update fields more) = (get name more).or (get name fields) := by
  unfold update
  induction more generalizing fields with
  | nil => rfl
  | cons field more ih =>
    rw [List.map_cons,List.nodup_cons] at h
    rw [List.foldl_cons,ih h.2,get_cons,get_set]
    by_cases hname : field.1 = name
    · have hnone : get name more = none := get_eq_none.mpr (hname ▸ h.1)
      rw [hnone,if_pos hname,if_pos hname]
      rfl
    · rw [if_neg hname,if_neg hname]

variable {readFloat : List Char → Double} {lookup : String → Option String}

theorem get_expandFields (name : String) (fields : List (String × Json)) :
    get name (expandFields readFloat lookup fields) =
      (get name fields).map (expandEnvVars readFloat lookup) := by
  induction fields with
  | nil => rfl
  | cons field fields ih =>
    obtain ⟨k,v⟩ := field
    rw [expandFields,get_cons,get_cons,ih]
    split <;> rfl

theorem fieldOf_expand (name : String) (fields : List (String × Json)) :
    fieldOf name (expandEnvVars readFloat lookup (.obj fields)) =
      (get name fields).map (expandEnvVars readFloat lookup) := by
  rw [expandEnvVars,fieldOf,get_expandFields]

theorem literalFields_iff_get (h : (fields.map Prod.fst).Nodup) :
    LiteralFields readFloat lookup fields ↔
      ∀ name value, get name fields = some value →
        expandEnvVars readFloat lookup value = value := by
  rw [literalFields_iff]
  constructor
  · exact fun hall name value hget => expandEnvVars_iff value |>.mpr (hall _ (mem_of_get hget))
  · rintro hall ⟨name,value⟩ hmem
    exact (expandEnvVars_iff value).mp (hall name value (get_of_mem h hmem))

end DictionaryLemmas

section Building
variable {catalog : Catalog} {connectors : String → Option Connector} {b : Build}

/-- The resource of a source or a sink, and that of its connector. -/
def Built (catalog : Catalog) (connectors : String → Option Connector)
    (resources : List (String × Json)) (key : String) (e : Endpoint)
    (fields : List (String × Json)) : Prop :=
  match e.connector with
  | none => get key resources = some (.obj (update [("type",.str e.type)] fields))
  | some id => ∃ i connector,
      get key resources =
        some (.obj (update [("type",.str e.type),("connector",.str (connKey i))] fields)) ∧
      (connectors id).bind (buildRuntimeConnectorPayload catalog) = some connector ∧
      get (connKey i) resources = some (.obj (connectorResource connector))

/-- The connectors that were resolved have their resources, and the other keys are known. -/
structure Sound (catalog : Catalog) (connectors : String → Option Connector)
    (own : String → Prop) (b : Build) : Prop where
  resolved : ∀ entry ∈ b.keys, ∃ i < b.keys.length, entry.2 = connKey i ∧ ∃ connector,
    (connectors entry.1).bind (buildRuntimeConnectorPayload catalog) = some connector ∧
    get entry.2 b.resources = some (.obj (connectorResource connector))
  used : ∀ key, get key b.resources ≠ none → (∃ i < b.keys.length, key = connKey i) ∨ own key

def Extends (b b' : Build) : Prop :=
  ∀ key value, get key b.resources = some value → get key b'.resources = some value

variable {b' : Build} {key : String}

theorem Built.extends {e : Endpoint} {fields : List (String × Json)}
    (h : Built catalog connectors b.resources key e fields) (hb : Extends b b') :
    Built catalog connectors b'.resources key e fields := by
  unfold Built at h ⊢
  split at h
  · exact hb _ _ h
  · obtain ⟨i,connector,hkey,hconnector,hheld⟩ := h
    exact ⟨i,connector,hb _ _ hkey,hconnector,hb _ _ hheld⟩

theorem extends_set (hfresh : get key b.resources = none) (value : Json)
    (keys : List (String × String)) :
    Extends b {resources := set key value b.resources,keys := keys} := by
  intro name v hget
  change get name (set key value b.resources) = some v
  rw [get_set,if_neg]
  · exact hget
  · rintro rfl
    rw [hfresh] at hget
    cases hget

theorem key_injective {front : String} {m n : ℕ}
    (h : front++toString m = front++toString n) : m = n := by
  have hlist := congrArg String.toList h
  rw [String.toList_append,String.toList_append] at hlist
  have hdigits : Nat.toDigits 10 m = Nat.toDigits 10 n := by
    rw [← Nat.toList_repr,← Nat.toList_repr]
    exact List.append_cancel_left hlist
  have hread := congrArg (fun cs => Nat.ofDigitChars 10 cs 0) hdigits
  simpa only [Nat.ofDigitChars_ten_toDigits] using hread

theorem connKey_ne_sinkKey (m n : ℕ) : connKey m ≠ sinkKey n := by
  intro h
  have hlist := congrArg String.toList h
  rw [connKey,sinkKey,String.toList_append,String.toList_append] at hlist
  exact absurd (congrArg List.head? hlist) (by simp)

theorem connKey_ne_source (n : ℕ) : connKey n ≠ "source_0" := by
  intro h
  have hlist := congrArg String.toList h
  rw [connKey,String.toList_append] at hlist
  exact absurd (congrArg List.head? hlist) (by simp)

theorem sinkKey_ne_source (n : ℕ) : sinkKey n ≠ "source_0" := by
  intro h
  have hlist := congrArg String.toList h
  rw [sinkKey,String.toList_append] at hlist
  exact absurd (congrArg (fun cs => cs[1]?) hlist) (by simp)

variable {own : String → Prop}

theorem resolveConnector_spec {id : String} (hb : Sound catalog connectors own b)
    (hown : ∀ i, ¬own (connKey i)) (h : resolveConnector catalog connectors b id = some (key,b')) :
    Sound catalog connectors own b' ∧ Extends b b' ∧ ∃ i connector, key = connKey i ∧
      (connectors id).bind (buildRuntimeConnectorPayload catalog) = some connector ∧
      get key b'.resources = some (.obj (connectorResource connector)) := by
  unfold resolveConnector at h
  split at h
  · next entry hentry =>
      cases h
      have hid := List.find?_some hentry
      rw [decide_eq_true_eq] at hid
      obtain ⟨i,-,hkey,connector,hconnector,hheld⟩ :=
        hb.resolved entry (List.mem_of_find?_eq_some hentry)
      exact ⟨hb,fun _ _ hget => hget,i,connector,hkey,hid ▸ hconnector,hheld⟩
  · obtain ⟨connector,hconnector,heq⟩ := Option.map_eq_some_iff.mp h
    cases heq
    have hfresh : get (connKey b.keys.length) b.resources = none := by
      by_contra hused
      rcases hb.used _ hused with ⟨i,hlt,hkey⟩ | howned
      · exact absurd (key_injective hkey) (Nat.ne_of_gt hlt)
      · exact hown _ howned
    have hextends := extends_set hfresh (.obj (connectorResource connector))
      (b.keys++[(id,connKey b.keys.length)])
    have hself : get (connKey b.keys.length)
        (set (connKey b.keys.length) (.obj (connectorResource connector)) b.resources) =
        some (.obj (connectorResource connector)) := by
      rw [get_set,if_pos rfl]
    refine ⟨⟨?_,?_⟩,hextends,b.keys.length,connector,rfl,hconnector,hself⟩
    · intro entry hentry
      rw [List.length_append,List.length_singleton]
      rcases List.mem_append.mp hentry with hentry | hentry
      · obtain ⟨i,hlt,hkey,other,hother,hheld⟩ := hb.resolved entry hentry
        exact ⟨i,Nat.lt_succ_of_lt hlt,hkey,other,hother,hextends _ _ hheld⟩
      · rw [List.mem_singleton.mp hentry]
        exact ⟨b.keys.length,Nat.lt_succ_self _,rfl,connector,hconnector,hself⟩
    · intro name hname
      rw [List.length_append,List.length_singleton]
      change get name (set _ _ b.resources) ≠ none at hname
      rw [get_set] at hname
      by_cases hkey : connKey b.keys.length = name
      · exact .inl ⟨b.keys.length,Nat.lt_succ_self _,hkey.symm⟩
      · rw [if_neg hkey] at hname
        exact (hb.used name hname).imp_left fun ⟨i,hlt,hi⟩ => ⟨i,Nat.lt_succ_of_lt hlt,hi⟩

theorem Sound.set (hb : Sound catalog connectors own b) (hfresh : get key b.resources = none)
    (value : Json) :
    Sound catalog connectors (fun name => own name ∨ name = key)
      {b with resources := JsonValues.set key value b.resources} where
  resolved := by
    intro entry hentry
    obtain ⟨i,hlt,hkey,connector,hconnector,hheld⟩ := hb.resolved entry hentry
    exact ⟨i,hlt,hkey,connector,hconnector,extends_set hfresh value b.keys _ _ hheld⟩
  used := by
    intro name hname
    change get name (JsonValues.set key value b.resources) ≠ none at hname
    rw [get_set] at hname
    by_cases hkey : key = name
    · exact .inr (.inr hkey.symm)
    · rw [if_neg hkey] at hname
      exact (hb.used name hname).imp_right .inl

theorem Sound.fresh (hb : Sound catalog connectors own b) (hconn : ∀ i, connKey i ≠ key)
    (hkey : ¬own key) : get key b.resources = none := by
  by_contra hused
  rcases hb.used key hused with ⟨i,-,hi⟩ | howned
  · exact hconn i hi.symm
  · exact hkey howned

theorem buildResource_spec {e : Endpoint} {fields : List (String × Json)}
    (hb : Sound catalog connectors own b) (hown : ∀ i, ¬own (connKey i))
    (hconn : ∀ i, connKey i ≠ key) (hkey : ¬own key)
    (h : buildResource catalog connectors b key e fields = some b') :
    Sound catalog connectors (fun name => own name ∨ name = key) b' ∧ Extends b b' ∧
      Built catalog connectors b'.resources key e fields := by
  unfold buildResource at h
  obtain ⟨needs,hneeds,h⟩ := Option.bind_eq_some_iff.mp h
  cases hid : e.connector with
  | none =>
    have hplain : b' = {b with
        resources := JsonValues.set key (.obj (update [("type",.str e.type)] fields))
          b.resources} := by
      rw [hid] at h
      cases needs <;> cases h <;> rfl
    subst hplain
    have hfresh := hb.fresh hconn hkey
    refine ⟨hb.set hfresh _,extends_set hfresh _ b.keys,?_⟩
    unfold Built
    rw [hid]
    change get key (JsonValues.set _ _ _) = _
    rw [get_set,if_pos rfl]
  | some id =>
    have hnow : needs = true := by
      unfold needsConnector at hneeds
      rw [hid,Option.isSome_some,if_pos rfl] at hneeds
      exact (Option.some.inj hneeds).symm
    subst hnow
    rw [hid] at h
    obtain ⟨⟨k,b₁⟩,hresolve,heq⟩ := Option.map_eq_some_iff.mp h
    obtain ⟨hb₁,hextends,i,connector,hk,hconnector,hheld⟩ :=
      resolveConnector_spec hb hown hresolve
    subst hk heq
    have hfresh := hb₁.fresh hconn hkey
    have hset := extends_set hfresh
      (.obj (update [("type",.str e.type),("connector",.str (connKey i))] fields)) b₁.keys
    refine ⟨hb₁.set hfresh _,fun name value hget => hset _ _ (hextends _ _ hget),?_⟩
    unfold Built
    rw [hid]
    refine ⟨i,connector,?_,hconnector,hset _ _ hheld⟩
    change get key (JsonValues.set _ _ _) = _
    rw [get_set,if_pos rfl]

theorem buildSinks_spec {n : ℕ} {sinks : List Endpoint} (hb : Sound catalog connectors own b)
    (hown : ∀ i, ¬own (connKey i)) (hlater : ∀ i, n ≤ i → ¬own (sinkKey i))
    (h : buildSinks catalog connectors b n sinks = some b') :
    Extends b b' ∧ ∀ i sink, sinks[i]? = some sink → ∃ fields, sinkFields catalog sink = some fields ∧
      Built catalog connectors b'.resources (sinkKey (n+i)) sink fields := by
  induction sinks generalizing own b n with
  | nil =>
    cases h
    exact ⟨fun _ _ hget => hget,by simp⟩
  | cons sink sinks ih =>
    obtain ⟨fields,hfields,h⟩ := Option.bind_eq_some_iff.mp h
    obtain ⟨b₁,hbuild,hrest⟩ := Option.bind_eq_some_iff.mp h
    have hconn : ∀ i, connKey i ≠ sinkKey n := fun i => connKey_ne_sinkKey i n
    obtain ⟨hb₁,hextends,hbuilt⟩ :=
      buildResource_spec hb hown hconn (hlater n (Nat.le_refl n)) hbuild
    have hown₁ : ∀ i, ¬(own (connKey i) ∨ connKey i = sinkKey n) :=
      fun i hor => hor.elim (hown i) (hconn i)
    have hlater₁ : ∀ i, n+1 ≤ i → ¬(own (sinkKey i) ∨ sinkKey i = sinkKey n) := by
      rintro i hi (howned | heq)
      · exact hlater i (by omega) howned
      · have := key_injective heq
        omega
    obtain ⟨hmore,hall⟩ := ih hb₁ hown₁ hlater₁ hrest
    refine ⟨fun name value hget => hmore _ _ (hextends _ _ hget),?_⟩
    intro i other hother
    cases i with
    | zero =>
      cases hother
      exact ⟨fields,hfields,hbuilt.extends hmore⟩
    | succ i =>
      obtain ⟨others,hothers,hbuilt'⟩ := hall i other hother
      refine ⟨others,hothers,?_⟩
      rw [← Nat.add_right_comm,Nat.add_assoc] at hbuilt'
      exact hbuilt'

theorem compileWorkerYaml_spec {worker : Worker} {doc : Json}
    (h : compileWorkerYaml catalog connectors worker = some doc) :
    ∃ fields resources reporter, doc = .obj fields ∧
      get "resources" fields = some (.obj resources) ∧
      Built catalog connectors resources "source_0" worker.source worker.source.fields.fields ∧
      (∀ i sink, worker.sinks[i]? = some sink → ∃ fields, sinkFields catalog sink = some fields ∧
        Built catalog connectors resources (sinkKey i) sink fields) ∧
      reporterConfig worker = some reporter ∧ get "reporter" fields = reporter := by
  obtain ⟨b₁,hsource,h⟩ := Option.bind_eq_some_iff.mp h
  obtain ⟨b₂,hsinks,h⟩ := Option.bind_eq_some_iff.mp h
  obtain ⟨reporter,hreporter,heq⟩ := Option.map_eq_some_iff.mp h
  have hinit : Sound catalog connectors (fun _ => False) {} :=
    ⟨by simp,fun key hkey => absurd rfl hkey⟩
  obtain ⟨hb₁,-,hbuilt⟩ := buildResource_spec hinit (fun _ h => h) connKey_ne_source id hsource
  obtain ⟨hextends,hall⟩ := buildSinks_spec hb₁
    (fun i hor => hor.elim id (connKey_ne_source i))
    (fun i _ hor => hor.elim id (sinkKey_ne_source i)) hsinks
  refine ⟨_,b₂.resources,reporter,heq.symm,rfl,hbuilt.extends hextends,?_,hreporter,?_⟩
  · intro i sink hsink
    obtain ⟨fields,hfields,hsinkBuilt⟩ := hall i sink hsink
    exact ⟨fields,hfields,Nat.zero_add i ▸ hsinkBuilt⟩
  · cases reporter <;> rfl

end Building

section Loading
variable {catalog : Catalog} {connectors : String → Option Connector}
  {readFloat : List Char → Double} {lookup : String → Option String}

theorem keys_filter {d : Dict} {p : String → Bool} {name : String}
    (h : name ∈ (d.filter p).fields.map Prod.fst) : p name = true := by
  obtain ⟨field,hfield,rfl⟩ := List.mem_map.mp h
  exact (List.mem_filter.mp hfield).2

theorem payload_keys {stored connector : Connector}
    (h : buildRuntimeConnectorPayload catalog stored = some connector) (name : String) :
    (name ∈ connector.config.fields.map Prod.fst → name ≠ "type") ∧
      (name ∈ connector.secret.fields.map Prod.fst → name ≠ "type" ∧
        name ∉ connector.config.fields.map Prod.fst) := by
  unfold buildRuntimeConnectorPayload at h
  split at h
  · cases h
    have hnot : ∀ name, (catalog.runtimeFields stored.type).contains name = true →
        name ≠ "type" := by
      rintro name hname rfl
      exact catalog.noType _ (List.contains_iff_mem.mp hname)
    refine ⟨fun hc => ?_,fun hs => ⟨?_,fun hc => ?_⟩⟩
    · exact hnot name (Bool.and_eq_true_iff.mp (keys_filter hc)).1
    · exact hnot name (Bool.and_eq_true_iff.mp (keys_filter hs)).1
    · have hin := (Bool.and_eq_true_iff.mp (keys_filter hs)).2
      have hout := (Bool.and_eq_true_iff.mp (keys_filter hc)).2
      rw [hin] at hout
      cases hout
  · cases h

theorem get_connectorResource (connector : Connector) (name : String) :
    get name (connectorResource connector) = (get name connector.secret.fields).or
      ((get name connector.config.fields).or
        (if name = "type" then some (.str connector.type) else none)) := by
  unfold connectorResource
  rw [get_update connector.secret.unique,get_update connector.config.unique,get_cons]
  by_cases h : name = "type"
  · subst h
    rfl
  · rw [if_neg h,if_neg (Ne.symm h)]
    rfl

theorem holds_iff {stored connector : Connector}
    (h : buildRuntimeConnectorPayload catalog stored = some connector) :
    HoldsConnector (expandFields readFloat lookup (connectorResource connector)) connector ↔
      Verbatim readFloat lookup connector.type ∧
        LiteralFields readFloat lookup connector.config.fields ∧
        LiteralFields readFloat lookup connector.secret.fields := by
  have hkeys := payload_keys h
  have htype : get "type" (connectorResource connector) = some (.str connector.type) := by
    have hs : get "type" connector.secret.fields = none :=
      get_eq_none.mpr fun hmem => ((hkeys _).2 hmem).1 rfl
    have hc : get "type" connector.config.fields = none :=
      get_eq_none.mpr fun hmem => (hkeys _).1 hmem rfl
    rw [get_connectorResource,hs,hc,if_pos rfl]
    rfl
  have hconfig : ∀ name value, get name connector.config.fields = some value →
      get name (connectorResource connector) = some value := by
    intro name value hget
    have hs : get name connector.secret.fields = none :=
      get_eq_none.mpr fun hmem => ((hkeys _).2 hmem).2 (List.mem_map_of_mem (mem_of_get hget))
    rw [get_connectorResource,hs,hget]
    rfl
  have hsecret : ∀ name value, get name connector.secret.fields = some value →
      get name (connectorResource connector) = some value := by
    intro name value hget
    rw [get_connectorResource,hget]
    rfl
  have hexpanded : ∀ name value, get name (connectorResource connector) = some value →
      (get name (expandFields readFloat lookup (connectorResource connector)) = some value ↔
        expandEnvVars readFloat lookup value = value) := by
    intro name value hget
    rw [get_expandFields,hget,Option.map_some,Option.some.injEq]
  rw [literalFields_iff_get connector.config.unique,literalFields_iff_get connector.secret.unique,
    ← expandString_verbatim]
  constructor
  · intro hheld
    exact ⟨(hexpanded _ _ htype).mp hheld.type,
      fun name value hget => (hexpanded _ _ (hconfig _ _ hget)).mp (hheld.config _ _ hget),
      fun name value hget => (hexpanded _ _ (hsecret _ _ hget)).mp (hheld.secret _ _ hget)⟩
  · rintro ⟨ht,hc,hs⟩
    refine ⟨(hexpanded _ _ htype).mpr ht,
      fun name value hget => (hexpanded _ _ (hconfig _ _ hget)).mpr (hc _ _ hget),
      fun name value hget => (hexpanded _ _ (hsecret _ _ hget)).mpr (hs _ _ hget),?_⟩
    intro name value hget
    by_contra hnone
    rw [not_or,not_or] at hnone
    rw [get_expandFields,get_connectorResource,get_eq_none.mpr hnone.2.2,
      get_eq_none.mpr hnone.2.1,if_neg hnone.1] at hget
    cases hget

theorem verbatim_connKey (i : ℕ) : Verbatim readFloat lookup (connKey i) := by
  refine verbatim_of_plain ?_
  rw [connKey,String.toList_append,List.mem_append,not_or]
  refine ⟨by decide,?_⟩
  intro hmem
  change '$' ∈ (Nat.repr i).toList at hmem
  rw [Nat.toList_repr] at hmem
  exact absurd (Nat.isDigit_of_mem_toDigits (by decide) (by decide) hmem) (by decide)

variable {fields : List (String × Json)}

theorem get_loaded (hunique : (fields.map Prod.fst).Nodup) (base : List (String × Json))
    (name : String) :
    get name (expandFields readFloat lookup (update base fields)) =
      ((get name fields).or (get name base)).map (expandEnvVars readFloat lookup) := by
  rw [get_expandFields,get_update hunique]

theorem fields_iff (readFloat : List Char → Double) (lookup : String → Option String)
    {base : List (String × Json)} {type : String} (hunique : (fields.map Prod.fst).Nodup)
    (htype : get "type" base = some (.str type))
    (hnone : ∀ name, name ≠ "type" → name ≠ "connector" → get name base = none) :
    (get "type" (expandFields readFloat lookup (update base fields)) = some (.str type) ∧
      ∀ name, get name fields = if name = "type" ∨ name = "connector" then none
        else get name (expandFields readFloat lookup (update base fields))) ↔
    (∀ name ∈ fields.map Prod.fst, name ≠ "type" ∧ name ≠ "connector") ∧
      Verbatim readFloat lookup type ∧ LiteralFields readFloat lookup fields := by
  have hget : ∀ name, get name (expandFields readFloat lookup (update base fields)) =
      ((get name fields).or (get name base)).map (expandEnvVars readFloat lookup) :=
    get_loaded hunique base
  rw [← expandString_verbatim,literalFields_iff_get hunique]
  constructor
  · rintro ⟨hread,hall⟩
    have hreserved : ∀ name, name = "type" ∨ name = "connector" → get name fields = none := by
      intro name hname
      rw [hall,if_pos hname]
    refine ⟨?_,?_,?_⟩
    · intro name hname
      by_contra hor
      rw [not_and_or,not_not,not_not] at hor
      exact get_eq_none.mp (hreserved name hor) hname
    · rw [hget,hreserved _ (.inl rfl),htype] at hread
      exact Option.some.inj hread
    · intro name value hvalue
      have hkept := hall name
      split at hkept
      · rw [hvalue] at hkept
        cases hkept
      · rw [hget,hvalue] at hkept
        exact (Option.some.inj hkept).symm
  · rintro ⟨hunreserved,hverbatim,hliteral⟩
    have hreserved : ∀ name, name = "type" ∨ name = "connector" → get name fields = none := by
      intro name hname
      refine get_eq_none.mpr fun hmem => ?_
      exact hname.elim (hunreserved name hmem).1 (hunreserved name hmem).2
    refine ⟨?_,?_⟩
    · rw [hget,hreserved _ (.inl rfl),htype]
      exact congrArg some hverbatim
    · intro name
      split
      · next hname => exact hreserved name hname
      · next hname =>
          rw [not_or] at hname
          rw [hget]
          cases hvalue : get name fields with
          | none =>
            rw [hnone name hname.1 hname.2]
            rfl
          | some value => exact congrArg some (hliteral name value hvalue).symm

theorem reads_iff {resources : List (String × Json)} {key : String} {e : Endpoint}
    (h : Built catalog connectors resources key e fields) (hunique : (fields.map Prod.fst).Nodup) :
    ReadsAs catalog connectors (expandFields readFloat lookup resources) key e fields ↔
      Plain catalog connectors readFloat lookup e fields := by
  have hhas : ∀ name resource, get name resources = some (.obj resource) →
      get name (expandFields readFloat lookup resources) =
        some (.obj (expandFields readFloat lookup resource)) := by
    intro name resource hresource
    rw [get_expandFields,hresource,Option.map_some,expandEnvVars]
  unfold Built at h
  unfold ReadsAs
  cases hid : e.connector with
  | none =>
    rw [hid] at h
    have hbase : ∀ name, name ≠ "type" → get name [("type",Json.str e.type)] = none := by
      intro name hname
      rw [get_cons,if_neg (Ne.symm hname)]
      rfl
    have hiff := fields_iff readFloat lookup hunique rfl (fun name hname _ => hbase name hname)
    constructor
    · rintro ⟨resource,hresource,htype,-,hall⟩
      rw [hhas _ _ h,Option.some.injEq,Json.obj.injEq] at hresource
      subst hresource
      obtain ⟨hunreserved,hverbatim,hliteral⟩ := hiff.mp ⟨htype,hall⟩
      refine ⟨hunreserved,hverbatim,hliteral,fun id connector hsome => ?_⟩
      rw [hid] at hsome
      cases hsome
    · intro hplain
      obtain ⟨htype,hall⟩ := hiff.mpr ⟨hplain.unreserved,hplain.type,hplain.fields⟩
      refine ⟨_,hhas _ _ h,htype,?_,hall⟩
      have hnone : get "connector" fields = none :=
        get_eq_none.mpr fun hmem => (hplain.unreserved _ hmem).2 rfl
      dsimp only
      rw [get_loaded hunique,hnone,hbase _ (by decide)]
      rfl
  | some id =>
    rw [hid] at h
    obtain ⟨i,connector,h,hconnector,hheld⟩ := h
    obtain ⟨stored,-,hpayload⟩ := Option.bind_eq_some_iff.mp hconnector
    have hbase : ∀ name, name ≠ "type" → name ≠ "connector" →
        get name [("type",Json.str e.type),("connector",.str (connKey i))] = none := by
      intro name htype hconn
      rw [get_cons,if_neg (Ne.symm htype),get_cons,if_neg (Ne.symm hconn)]
      rfl
    have hiff := fields_iff readFloat lookup hunique rfl hbase
    have hkey : get "connector" fields = none →
        get "connector" (expandFields readFloat lookup (update
          [("type",Json.str e.type),("connector",.str (connKey i))] fields)) =
          some (.str (connKey i)) := by
      intro hnone
      rw [get_loaded hunique,hnone]
      exact congrArg some (expandString_verbatim.mpr (verbatim_connKey i))
    constructor
    · rintro ⟨resource,hresource,htype,⟨other,k,held,hother,hk,hheld',hholds⟩,hall⟩
      rw [hhas _ _ h,Option.some.injEq,Json.obj.injEq] at hresource
      subst hresource
      obtain ⟨hunreserved,hverbatim,hliteral⟩ := hiff.mp ⟨htype,hall⟩
      have hnone : get "connector" fields = none :=
        get_eq_none.mpr fun hmem => (hunreserved _ hmem).2 rfl
      rw [hkey hnone,Option.some.injEq,Json.str.injEq] at hk
      subst hk
      rw [hhas _ _ hheld,Option.some.injEq,Json.obj.injEq] at hheld'
      subst hheld'
      rw [hconnector,Option.some.injEq] at hother
      subst hother
      refine ⟨hunreserved,hverbatim,hliteral,fun id' connector' hsome hpayload' => ?_⟩
      rw [hid,Option.some.injEq] at hsome
      subst hsome
      rw [hconnector,Option.some.injEq] at hpayload'
      subst hpayload'
      exact (holds_iff hpayload).mp hholds
    · intro hplain
      obtain ⟨htype,hall⟩ := hiff.mpr ⟨hplain.unreserved,hplain.type,hplain.fields⟩
      have hnone : get "connector" fields = none :=
        get_eq_none.mpr fun hmem => (hplain.unreserved _ hmem).2 rfl
      exact ⟨_,hhas _ _ h,htype,⟨connector,connKey i,_,hconnector,hkey hnone,hhas _ _ hheld,
        (holds_iff hpayload).mpr (hplain.connector id connector hid hconnector)⟩,hall⟩

theorem stripped_stripped (s : String) : stripped (stripped s) = stripped s := by
  unfold stripped
  rw [String.toList_ofList,strip_strip]

theorem expand_token : expandString readFloat lookup tokenReference =
    coerceExpandedValue readFloat ((lookup reportingTokenEnv).elim [] String.toList) := by
  have hmatch : matchEnvVar tokenReference.toList = some (reportingTokenEnv.toList,[]) := by
    decide
  have hpure : isPureEnvReference tokenReference.toList = true := by decide
  have hname : expandEnvVar lookup reportingTokenEnv.toList =
      (lookup reportingTokenEnv).elim [] String.toList := by
    have hdash : splitOnce [':','-'] reportingTokenEnv.toList = none := by decide
    have hcolon : splitOnce [':'] reportingTokenEnv.toList = none := by decide
    rw [expandEnvVar,hdash,hcolon]
    dsimp only
    rw [String.ofList_toList]
  have hexpanded : expandEnvVarsInString lookup 33 tokenReference.toList =
      (lookup reportingTokenEnv).elim [] String.toList := by
    cases hcs : tokenReference.toList with
    | nil =>
      rw [hcs] at hmatch
      cases hmatch
    | cons c cs =>
      rw [expandEnvVarsInString,← hcs,hmatch]
      dsimp only
      rw [hname]
      exact List.append_nil _
  have hlength : tokenReference.toList.length = 33 := by decide
  unfold expandString
  rw [hlength,hexpanded,hpure]
  rfl

variable {worker : Worker}

theorem reports_iff {reporter : Option Json} (hreporter : reporterConfig worker = some reporter)
    (hget : get "reporter" fields = reporter) :
    Reports worker (expandEnvVars readFloat lookup (.obj fields)) ↔
      Reporting readFloat lookup worker := by
  unfold Reports Reporting
  rw [fieldOf_expand,hget]
  unfold reporterConfig at hreporter
  cases henabled : worker.reportingEnabled with
  | false =>
    rw [henabled,if_pos rfl] at hreporter
    cases hreporter
    rw [if_pos rfl]
    exact iff_of_true rfl (fun h => Bool.noConfusion h)
  | true =>
    rw [henabled,if_neg Bool.true_eq_false_eq_False] at hreporter
    rw [if_neg Bool.true_eq_false_eq_False]
    cases hmode : worker.reportingMode with
    | platform =>
      rw [hmode] at hreporter
      refine iff_of_true ?_ (fun _ h => by cases h)
      cases hreporter
      refine ⟨_,rfl,?_⟩
      unfold serviceDescription
      dsimp only
      split <;> exact ⟨rfl,rfl⟩
    | custom =>
      rw [hmode] at hreporter
      dsimp only at hreporter
      split at hreporter
      · cases hreporter
      · next hendpoint =>
          cases hreporter
          obtain ⟨endpoint,he⟩ : ∃ endpoint, worker.endpoint = some endpoint := by
            cases he : worker.endpoint with
            | none =>
              rw [he] at hendpoint
              exact absurd rfl hendpoint
            | some endpoint => exact ⟨endpoint,rfl⟩
          obtain ⟨given,-,hfilter⟩ := Option.map_eq_some_iff.mp
            (Option.filter_eq_some_iff.mp he).1
          have hstripped : (worker.endpoint.map stripped).getD "" = endpoint := by
            rw [he,← hfilter]
            exact stripped_stripped given
          rw [hstripped]
          have hurl : fieldOf "base_url" (expandEnvVars readFloat lookup
              (.obj ([("base_url",.str endpoint),("token",.str tokenReference)]++
                serviceDescription worker))) =
                  some (expandString readFloat lookup endpoint) := by
            rw [fieldOf_expand]
            rfl
          have htoken : fieldOf "token" (expandEnvVars readFloat lookup
              (.obj ([("base_url",.str endpoint),("token",.str tokenReference)]++
                serviceDescription worker))) =
                  some (expandString readFloat lookup tokenReference) := by
            rw [fieldOf_expand]
            rfl
          constructor
          · rintro ⟨loaded,hloaded,hbase,htokens⟩ - -
            cases hloaded
            rw [hurl,he] at hbase
            rw [htoken,expand_token] at htokens
            refine ⟨fun other hother => ?_,fun token ht => Option.some.inj (htokens token ht)⟩
            rw [he] at hother
            cases hother
            exact expandString_verbatim.mp (Option.some.inj hbase)
          · intro h
            obtain ⟨hverbatim,htokens⟩ := h rfl rfl
            refine ⟨_,rfl,?_,?_⟩
            · rw [hurl,he,expandString_verbatim.mpr (hverbatim endpoint he)]
              rfl
            · intro token ht
              rw [htoken,expand_token,htokens token ht]

theorem sinkFields_unique {sink : Endpoint} (h : sinkFields catalog sink = some fields) :
    (fields.map Prod.fst).Nodup := by
  unfold sinkFields at h
  split at h
  · split at h
    · cases h
      exact sink.fields.unique
    · cases h
      split
      · exact unique_set sink.fields.unique _ _
      · exact sink.fields.unique
  · cases h

/-- A compiled worker is loaded as it was configured exactly if nothing of it is lost. -/
theorem asConfigured_iff {doc : Json} (h : compileWorkerYaml catalog connectors worker = some doc) :
    AsConfigured catalog connectors worker (expandEnvVars readFloat lookup doc) ↔
      Kept catalog connectors readFloat lookup worker := by
  obtain ⟨fields,resources,reporter,rfl,hresources,hsource,hsinks,hreporter,hget⟩ :=
    compileWorkerYaml_spec h
  have hloaded : fieldOf "resources" (expandEnvVars readFloat lookup (.obj fields)) =
      some (.obj (expandFields readFloat lookup resources)) := by
    rw [fieldOf_expand,hresources,Option.map_some,expandEnvVars]
  have hsourceIff : ReadsAs catalog connectors (expandFields readFloat lookup resources) "source_0"
      worker.source worker.source.fields.fields ↔ Plain catalog connectors readFloat lookup
        worker.source worker.source.fields.fields :=
    reads_iff hsource worker.source.fields.unique
  have hreportIff : Reports worker (expandEnvVars readFloat lookup (.obj fields)) ↔
      Reporting readFloat lookup worker := reports_iff hreporter hget
  constructor
  · rintro ⟨⟨loaded,hfound,hread,hall⟩,hreports⟩
    rw [hloaded,Option.some.injEq,Json.obj.injEq] at hfound
    subst hfound
    refine ⟨hsourceIff.mp hread,?_,hreportIff.mp hreports⟩
    intro sink hsink given hgiven
    obtain ⟨i,hi⟩ := List.getElem?_of_mem hsink
    obtain ⟨made,hmade,hbuilt⟩ := hsinks i sink hi
    obtain ⟨other,hother,hsinkRead⟩ := hall i sink hi
    rw [hmade,Option.some.injEq] at hgiven hother
    subst hgiven hother
    exact (reads_iff hbuilt (sinkFields_unique hmade)).mp hsinkRead
  · intro hkept
    refine ⟨⟨_,hloaded,hsourceIff.mpr hkept.source,?_⟩,hreportIff.mpr hkept.reporting⟩
    intro i sink hi
    obtain ⟨made,hmade,hbuilt⟩ := hsinks i sink hi
    exact ⟨made,hmade,(reads_iff hbuilt (sinkFields_unique hmade)).mpr
      (hkept.sinks sink (List.mem_of_getElem? hi) made hmade)⟩

theorem environment_setEnv (ambient : String → Option String) (name value : String) (env : Env)
    (other : String) : environment ambient (setEnv name value env) other =
      if other = name then some value else environment ambient env other := by
  unfold environment
  induction env with
  | nil =>
    rw [setEnv]
    by_cases h : other = name
    · simp [h]
    · simp [h,Ne.symm h]
  | cons entry env ih =>
    obtain ⟨k,v⟩ := entry
    rw [setEnv]
    by_cases hk : k = name
    · subst hk
      by_cases h : other = k
      · simp [h]
      · simp [h,Ne.symm h]
    · rw [if_neg hk,List.find?_cons,List.find?_cons]
      by_cases h : k = other
      · subst h
        simp [hk]
      · simpa [h] using ih

theorem started_restarts (d : Deployment) (commands : List Command) :
    commands.filterMap d.commandEnv = List.replicate (commands.count .restart) d.env := by
  induction commands with
  | nil => rfl
  | cons command commands ih =>
    cases command with
    | stop =>
      rw [List.filterMap_cons_none rfl,ih,List.count_cons_of_ne (by decide)]
    | restart =>
      have hone : d.commandEnv .restart = some d.env := rfl
      rw [List.filterMap_cons_some hone,ih,List.count_cons_self,List.replicate_succ]

theorem started_known {requestEnv : Option Env} {running : Bool} {d : Deployment}
    (h : deployWorker catalog connectors worker requestEnv running = some d)
    (commands : List Command) (ambient : ℕ → String → Option String) :
    (d.started commands).length = startCount running commands ∧
      ∀ i env, (d.started commands)[i]? = some env →
        environment (ambient i) env = known worker (requestEnv.getD worker.env) running ambient i := by
  unfold deployWorker at h
  split at h
  · cases h
  obtain ⟨doc,-,h⟩ := Option.bind_eq_some_iff.mp h
  dsimp only at h
  unfold Deployment.started startCount
  rw [started_restarts,List.length_append,List.length_replicate]
  cases running with
  | false =>
    cases h
    refine ⟨rfl,?_⟩
    intro i env henv
    have hown := List.eq_of_mem_replicate (List.mem_of_getElem? henv)
    funext name
    rw [known,if_neg (by simp),hown]
  | true =>
    obtain ⟨start,hstart,heq⟩ := Option.map_eq_some_iff.mp h
    cases heq
    refine ⟨rfl,?_⟩
    intro i env henv
    funext name
    cases i with
    | succ i =>
      rw [Option.toList_some,List.singleton_append,List.getElem?_cons_succ] at henv
      have hown := List.eq_of_mem_replicate (List.mem_of_getElem? henv)
      rw [known,if_neg (by simp),hown]
    | zero =>
      cases henv
      rw [known]
      unfold deploymentRuntimeEnv at hstart
      cases henabled : worker.reportingEnabled with
      | false =>
        rw [henabled,if_pos rfl] at hstart
        cases hstart
        rw [if_neg (by simp)]
      | true =>
        rw [henabled,if_neg Bool.true_eq_false_eq_False] at hstart
        cases hmode : worker.reportingMode with
        | platform =>
          rw [hmode] at hstart
          cases hstart
          rw [if_neg (by simp)]
        | custom =>
          rw [hmode] at hstart
          obtain ⟨token,htoken,heq⟩ := Option.map_eq_some_iff.mp hstart
          rw [← heq,environment_setEnv,htoken]
          simp

end Loading

section Deployments

/-- Every start of a deployment, by whatever commands, runs what was configured exactly if
nothing of it is lost under what is known at that start. -/
theorem runs_configured_iff (catalog : Catalog) (connectors : String → Option Connector)
    (readFloat : List Char → Double) (worker : Worker) (requestEnv : Option Env) (running : Bool)
    (d : Deployment) (h : deployWorker catalog connectors worker requestEnv running = some d)
    (commands : List Command) (ambient : ℕ → String → Option String) :
    (∀ i env, (d.started commands)[i]? = some env → AsConfigured catalog connectors worker
      (expandEnvVars readFloat (environment (ambient i) env) d.workerYaml)) ↔
    ∀ i < startCount running commands, Kept catalog connectors readFloat
      (known worker (requestEnv.getD worker.env) running ambient i) worker := by
  obtain ⟨hlength,hknown⟩ := started_known h commands ambient
  have hcompiled : compileWorkerYaml catalog connectors worker = some d.workerYaml := by
    unfold deployWorker at h
    split at h
    · cases h
    · obtain ⟨doc,hdoc,h⟩ := Option.bind_eq_some_iff.mp h
      dsimp only at h
      split at h
      · obtain ⟨start,-,heq⟩ := Option.map_eq_some_iff.mp h
        exact heq ▸ hdoc
      · exact Option.some.inj h ▸ hdoc
  constructor
  · intro hall i hi
    rw [← hlength] at hi
    have henv := List.getElem?_eq_getElem hi
    rw [← hknown i _ henv]
    exact (asConfigured_iff hcompiled).mp (hall i _ henv)
  · intro hall i env henv
    refine (asConfigured_iff hcompiled).mpr ?_
    rw [hknown i env henv]
    exact hall i (hlength ▸ (List.getElem?_eq_some_iff.mp henv).1)

end Deployments

section Example

def tables : Catalog where
  known := fun t => ["interval","mysql","mysql_table_sink"].contains t
  connectorTypes := fun t => if t = "mysql_table_sink" then ["mysql"] else []
  fieldDefault := fun _ _ => none
  runtimeFields := fun t => if t = "mysql" then ["dsn"] else []
  secretFields := fun t => if t = "mysql" then ["dsn"] else []
  noType := by
    intro t h
    split at h <;> simp at h

def database : Connector where
  type := "mysql"
  config := ⟨[],List.nodup_nil⟩
  secret := ⟨[("dsn",.str "mysql://app:a$b@db/orders")],by decide⟩

def orders (env : Env) : Worker where
  name := "orders"
  description := ""
  handlerPackageId := some "package"
  handlerRef := "handler:handler"
  source := ⟨"interval",none,⟨[("seconds",.int 5)],by decide⟩⟩
  sinks := [⟨"mysql_table_sink",some "db",⟨[("table",.str "orders")],by decide⟩⟩]
  env := env
  reportingEnabled := true
  reportingMode := .custom
  endpointUrl := some "https://telemetry.example.com"
  reportingToken := some "custom-token"

def stored (id : String) : Option Connector := if id = "db" then some database else none

def deployed (env : Env) (h : (deployWorker tables stored (orders env) none true).isSome = true) :
    Deployment := (deployWorker tables stored (orders env) none true).get h

/-- A worker whose own environment has the token too runs as configured after a restart. -/
theorem runs_configured_given :
    let given := deployed [(reportingTokenEnv,"custom-token")] (by decide)
    given.started [.stop,.restart] ≠ [] ∧ ∀ (i : ℕ) (env : Env),
      (given.started [.stop,.restart])[i]? = some env →
        AsConfigured tables stored (orders [(reportingTokenEnv,"custom-token")])
          (expandEnvVars (fun _ => ⟨0⟩) (environment (fun _ => none) env) given.workerYaml) := by
  refine ⟨by decide,(runs_configured_iff tables stored (fun _ => ⟨0⟩) _ none true _
    (Option.some_get _).symm [.stop,.restart] (fun _ _ => none)).mpr ?_⟩
  intro i hi
  refine ⟨⟨by decide,.inl (by decide),⟨trivial,trivial⟩,fun _ _ h => by cases h⟩,?_,?_⟩
  · intro sink hsink fields hfields
    rw [List.mem_singleton.mp hsink] at hfields ⊢
    cases hfields
    refine ⟨by decide,.inl (by decide),⟨.inl (by decide),trivial⟩,?_⟩
    intro id connector hid hconnector
    cases hid
    cases hconnector
    exact ⟨.inl (by decide),trivial,.inl (by decide),trivial⟩
  · intro _ _
    refine ⟨?_,?_⟩
    · intro endpoint hendpoint
      cases hendpoint
      exact .inl (by decide)
    · intro token htoken
      cases htoken
      match i,hi with
      | 0,_ => rfl
      | 1,_ => rfl

/-- Else the restart loads an empty token. -/
theorem restart_loses_token :
    ¬∀ (i : ℕ) (env : Env), ((deployed [] (by decide)).started [.stop,.restart])[i]? = some env →
      AsConfigured tables stored (orders []) (expandEnvVars (fun _ => ⟨0⟩)
        (environment (fun _ => none) env) (deployed [] (by decide)).workerYaml) := by
  intro hall
  obtain ⟨-,hreports⟩ := hall 1 [] rfl
  obtain ⟨reporter,hreporter,-,htoken⟩ := hreports
  cases hreporter
  have hempty : some (Json.str "") = some (.str "custom-token") := htoken "custom-token" rfl
  simp at hempty

end Example

end OneStep.BuiltWorkers
