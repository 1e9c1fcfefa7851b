import OneStep.JsonText
import OneStep.PythonValues

/-!
# The codec of captured values

`encode_value` writes a value into JSON and `decode_value` reads it back. What
JSON has no place for stands in an object with the single key of a tag; a
dictionary with that key is written as a list of its items. The elements of a set
are sorted by their texts.
-/
namespace OneStep.CaptureCodec
open DateTimeText JsonText JsonValues PythonValues ScalarTexts

def tag : String := "$onestep"

/-- `CaptureEncodingError`, a `ValueError`. -/
structure EncodingError where
  path : String
  typeName : String
  reason : String
  deriving DecidableEq, Repr

/-- A path, which is the root when it is empty. -/
def shown (path : String) : String := if path = "" then "/" else path

def encodingError (path typeName reason : String) : EncodingError := ⟨shown path,typeName,reason⟩

/-- `_pointer`. -/
def pointer (path token : String) : String :=
  path++"/"++String.ofList (token.toList.flatMap fun c =>
    if c = '~' then ['~','0'] else if c = '/' then ['~','1'] else [c])

/-- `_tag`. -/
def tagged (typeName : String) (fields : List (String × Json)) : Json :=
  .obj [(tag,.obj (("type",.str typeName)::fields))]

/-- Whether a qualified name goes through a function. -/
def isLocal (qualname : String) : Bool := (qualname.toList.splitOn '.').contains "<locals>".toList

def className (cls : ClassRef) : String := cls.moduleName++"."++cls.qualname

section Encode
variable (floatText : Double → List Char) (loaded : Loaded)

/-- `_ensure_replayable_type`. -/
def ensureReplayableType (cls : ClassRef) (path : String) : Except EncodingError Unit :=
  if isLocal cls.qualname then
    .error (encodingError path (className cls) "local recorded type is not replayable")
  else if loaded.resolve cls.moduleName cls.qualname = .type cls then .ok ()
  else .error (encodingError path (className cls)
    "recorded type is not replayable from the loaded module")

/-- `_fields` of a named tuple. -/
def fieldsOf (cls : ClassRef) : List String :=
  match loaded.definition cls with
  | .namedtuple fields => fields
  | _ => []

/-- The first key that is not a string. -/
def strangeKey (items : List (Key × Value)) : Option String :=
  items.findSome? fun item => match item.1 with
    | .str _ => none
    | .other typeName _ => some typeName

/-- `str` of a key. -/
def keyText : Key → String
  | .str s => s
  | .other _ text => text

/-- `list.sort` by the text of an element. -/
def sortTexts (items : List Json) : List Json :=
  items.insertionSort fun a b => String.ofList (dumps floatText a) ≤ String.ofList (dumps floatText b)

mutual

/-- `encode_value`. -/
def encode (path : String) : Value → Except EncodingError Json
  | .enum cls name value => do
    ensureReplayableType loaded cls path
    let encoded ← encode (pointer path "value") value
    return tagged "enum" [("module",.str cls.moduleName),("qualname",.str cls.qualname),
      ("name",name.elim .null .str),("value",encoded)]
  | .none => .ok .null
  | .bool b => .ok (.bool b)
  | .int n => .ok (.int n)
  | .str s => .ok (.str s)
  | .float x =>
    if x.isFinite then .ok (.float x)
    else .error (encodingError path "builtins.float" "non-finite float")
  | .datetime d => .ok (tagged "datetime" [("value",.str (String.ofList (isoformat d))),
      ("fold",.int (if d.fold then 1 else 0))])
  | .uuid u => .ok (tagged "uuid" [("value",.str (String.ofList (uuidText u)))])
  | .bytes bytes => .ok (tagged "bytes" [("value",.str (String.ofList (b64encode bytes)))])
  | .decimal d => .ok (tagged "decimal" [("value",.str (String.ofList (decimalText d)))])
  | .namedtuple cls vs => do
    ensureReplayableType loaded cls path
    let encoded ← encodeFields path (fieldsOf loaded cls) vs
    return tagged "namedtuple" [("module",.str cls.moduleName),("qualname",.str cls.qualname),
      ("fields",.arr ((fieldsOf loaded cls).map .str)),("values",.arr encoded)]
  | .tuple vs => do
    let encoded ← encodeAll path 0 vs
    return tagged "tuple" [("values",.arr encoded)]
  | .set vs => do
    let encoded ← encodeSet path vs
    return tagged "set" [("values",.arr (sortTexts floatText encoded))]
  | .frozenset vs => do
    let encoded ← encodeSet path vs
    return tagged "frozenset" [("values",.arr (sortTexts floatText encoded))]
  | .list vs => do
    let encoded ← encodeAll path 0 vs
    return .arr encoded
  | .dict items =>
    match strangeKey items with
    | some typeName => .error (encodingError path typeName "mapping keys must be strings")
    | Option.none => do
      let encoded ← encodeItems path items
      if (items.map Prod.fst).contains (.str tag) then
        return tagged "mapping" [("items",.arr (encoded.map fun item =>
          .arr [.str item.1,item.2]))]
      else return .obj encoded
  | .other typeName => .error (encodingError path typeName "unsupported value type")

/-- Elements by their index. -/
def encodeAll (path : String) : ℕ → List Value → Except EncodingError (List Json)
  | _,[] => .ok []
  | i,v::vs => do
    let encoded ← encode (pointer path (toString i)) v
    let rest ← encodeAll path (i+1) vs
    return encoded::rest

def encodeSet (path : String) : List Value → Except EncodingError (List Json)
  | [] => .ok []
  | v::vs => do
    let encoded ← encode (pointer path "set") v
    let rest ← encodeSet path vs
    return encoded::rest

/-- Elements by their field, as far as there are fields. -/
def encodeFields (path : String) : List String → List Value → Except EncodingError (List Json)
  | _,[] => .ok []
  | fields,v::vs =>
    match fields with
    | [] => .ok []
    | field::fields => do
      let encoded ← encode (pointer path field) v
      let rest ← encodeFields path fields vs
      return encoded::rest

def encodeItems (path : String) : List (Key × Value) → Except EncodingError (List (String × Json))
  | [] => .ok []
  | (key,v)::items => do
    let encoded ← encode (pointer path (keyText key)) v
    let rest ← encodeItems path items
    return (keyText key,encoded)::rest

end

section Equations
attribute [local simp] encode
end Equations

end Encode

section Decode

/-- A document with the decoding of it, given its path, and its parts. -/
structure Reader where
  json : Json
  decode : String → Except Exc Value
  items : List Reader := []
  fields : List (String × Reader) := []

def fail {α : Type} (message path : String) : Except Exc α :=
  .error (.valueError (message++" at "++shown path))

/-- The keys are these and no others. -/
def hasKeys (expected : List String) (payload : List (String × Reader)) : Bool :=
  payload.all (fun field => expected.contains field.1) &&
    expected.all fun key => (payload.map Prod.fst).contains key

/-- `_require_fields`. -/
def requireFields (payload : List (String × Reader)) (typeName : String) (fields : List String)
    (path : String) : Except Exc Unit :=
  if hasKeys ("type"::fields) payload then .ok ()
  else fail ("invalid "++typeName++" tag fields") path

/-- A field that the check of the fields found. -/
def field (payload : List (String × Reader)) (key : String) : Reader :=
  (payload.lookup key).getD ⟨.null,fun _ => .ok .none,[],[]⟩

/-- The characters of a string. -/
def text (what : Json) (message path : String) : Except Exc (List Char) :=
  match what with
  | .str s => .ok s.toList
  | _ => fail message path

def list (what : Reader) (message path : String) : Except Exc (List Reader) :=
  match what.json with
  | .arr _ => .ok what.items
  | _ => fail message path

/-- The fold of a datetime: `in {0, 1}` takes equal booleans and floats as well and
raises for what cannot be hashed, and `replace` takes integers only. -/
def readFold (fold : Json) (path : String) : Except Exc Bool :=
  match fold with
  | .int n =>
    if n = 0 then .ok false
    else if n = 1 then .ok true
    else fail "invalid datetime tag" path
  | .bool b => .ok b
  | .float x =>
    if doubleNum x = .rat 0 ∨ doubleNum x = .rat 1 then .error .typeError
    else fail "invalid datetime tag" path
  | .arr _ | .obj _ => .error .typeError
  | _ => fail "invalid datetime tag" path

def decodeDatetime (payload : List (String × Reader)) (path : String) : Except Exc Value := do
  requireFields payload "datetime" ["value","fold"] path
  let cs ← text (field payload "value").json "invalid datetime tag" path
  let fold ← readFold (field payload "fold").json path
  match fromisoformat cs with
  | none => .error (.valueError "Invalid isoformat string")
  | some d => .ok (.datetime {d with fold := fold})

def decodeUuid (payload : List (String × Reader)) (path : String) : Except Exc Value := do
  requireFields payload "uuid" ["value"] path
  let cs ← text (field payload "value").json "invalid uuid tag" path
  match readUuid cs with
  | none => .error (.valueError "badly formed hexadecimal UUID string")
  | some u => .ok (.uuid u)

def decodeBytes (payload : List (String × Reader)) (path : String) : Except Exc Value := do
  requireFields payload "bytes" ["value"] path
  let cs ← text (field payload "value").json "invalid bytes tag" path
  match b64decode cs with
  | none => fail "invalid bytes tag" path
  | some bytes => .ok (.bytes bytes)

/-- Reading a `Decimal` raises `InvalidOperation`. -/
def decodeDecimal (payload : List (String × Reader)) (path : String) : Except Exc Value := do
  requireFields payload "decimal" ["value"] path
  let cs ← text (field payload "value").json "invalid decimal tag" path
  match readDecimal cs with
  | none => .error .invalidOperation
  | some d => .ok (.decimal d)

/-- Parts one after another, each under its token. -/
def decodeEach (path : String) : List (String × Reader) → Except Exc (List Value)
  | [] => .ok []
  | (token,item)::items => do
    let decoded ← item.decode (pointer path token)
    let rest ← decodeEach path items
    .ok (decoded::rest)

/-- Parts under their indices. -/
def numbered (items : List Reader) : List (String × Reader) :=
  items.zipIdx.map fun item => (toString item.2,item.1)

def decodeItems (path : String) (items : List Reader) : Except Exc (List Value) :=
  decodeEach path (numbered items)

/-- A tuple or a set; what cannot be hashed is no element. -/
def decodeElements (typeName : String) (payload : List (String × Reader)) (path : String) :
    Except Exc Value := do
  requireFields payload typeName ["values"] path
  let items ← list (field payload "values") ("invalid "++typeName++" tag") path
  let decoded ← decodeItems path items
  if typeName = "tuple" then .ok (.tuple decoded)
  else
    match makeSet decoded with
    | none => fail ("unhashable "++typeName++" member") path
    | some vs => .ok (if typeName = "frozenset" then .frozenset vs else .set vs)

/-- The items of a dictionary, each key once. -/
def decodePairs (path : String) : ℕ → List (Key × Value) → List Reader →
    Except Exc (List (Key × Value))
  | _,result,[] => .ok result
  | i,result,pair::pairs =>
    match pair.json,pair.items with
    | .arr _,[key,item] =>
      match key.json with
      | .str k =>
        if (result.map Prod.fst).contains (.str k) then
          fail "invalid mapping item" (pointer path (toString i))
        else do
          let decoded ← item.decode (pointer path k)
          decodePairs path (i+1) (result++[(.str k,decoded)]) pairs
      | _ => fail "invalid mapping item" (pointer path (toString i))
    | _,_ => fail "invalid mapping item" (pointer path (toString i))

def decodeMapping (payload : List (String × Reader)) (path : String) : Except Exc Value := do
  requireFields payload "mapping" ["items"] path
  let pairs ← list (field payload "items") "invalid mapping tag" path
  let items ← decodePairs path 0 [] pairs
  .ok (.dict items)

def decodeFields (path : String) (fields : List (String × Reader)) :
    Except Exc (List (Key × Value)) := do
  let decoded ← decodeEach path fields
  .ok ((fields.map fun item => Key.str item.1).zip decoded)

section Classes
variable (loaded : Loaded)

/-- `_resolve_loaded_type`. -/
def resolveLoadedType (moduleName qualname : Json) (path : String) : Except Exc ClassRef :=
  match moduleName,qualname with
  | .str moduleName,.str qualname =>
    if isLocal qualname then fail "local recorded type is not replayable" path
    else
      match loaded.resolve moduleName qualname with
      | .noModule => fail ("recorded module "++moduleName++" is not loaded") path
      | .noAttribute => fail ("recorded type "++moduleName++"."++qualname++" is unavailable") path
      | .notType => fail "recorded object is not a type" path
      | .type cls => .ok cls
  | _,_ => fail "invalid recorded type" path

def decodeEnum (payload : List (String × Reader)) (path : String) : Except Exc Value := do
  requireFields payload "enum" ["module","qualname","name","value"] path
  let cls ← resolveLoadedType loaded (field payload "module").json (field payload "qualname").json path
  match loaded.definition cls,(field payload "name").json with
  | .enum members,.str name =>
    match members.lookup name with
    | none => fail "enum member changed" path
    | some member => do
      let recorded ← (field payload "value").decode (pointer path "value")
      match pyEq member.2 recorded with
      | none => .error .invalidOperation
      | some equal =>
        if equal then .ok (.enum cls (some member.1) member.2)
        else fail "enum value changed" path
  | _,_ => fail "recorded type is not an enum" path

/-- The strings of a list that holds nothing else. -/
def strings : List Reader → Option (List String)
  | [] => some []
  | item::items =>
    match item.json with
    | .str s => (strings items).map fun rest => s::rest
    | _ => none

/-- A class without `_fields` passes for a named tuple without fields. -/
def decodeNamedtuple (payload : List (String × Reader)) (path : String) : Except Exc Value := do
  requireFields payload "namedtuple" ["module","qualname","fields","values"] path
  let cls ← resolveLoadedType loaded (field payload "module").json (field payload "qualname").json path
  let recorded ← list (field payload "fields") "namedtuple definition changed" path
  let values ← list (field payload "values") "namedtuple definition changed" path
  match strings recorded with
  | none => fail "namedtuple definition changed" path
  | some fields =>
    if fields.length = values.length ∧ fieldsOf loaded cls = fields then do
      let decoded ← decodeEach path (fields.zip values)
      match loaded.definition cls with
      | .namedtuple _ => .ok (.namedtuple cls decoded)
      | _ => loaded.call cls
    else fail "namedtuple definition changed" path

def decodePayload (payload : List (String × Reader)) (path : String) : Except Exc Value :=
  match (field payload "type").json with
  | .str typeName =>
    if typeName = "datetime" then decodeDatetime payload path
    else if typeName = "uuid" then decodeUuid payload path
    else if typeName = "bytes" then decodeBytes payload path
    else if typeName = "decimal" then decodeDecimal payload path
    else if typeName = "tuple" ∨ typeName = "set" ∨ typeName = "frozenset" then
      decodeElements typeName payload path
    else if typeName = "mapping" then decodeMapping payload path
    else if typeName = "enum" then decodeEnum loaded payload path
    else if typeName = "namedtuple" then decodeNamedtuple loaded payload path
    else fail ("unknown extension type "++typeName) path
  | _ => fail "extension type must be a string" path

/-- An object: a dictionary, or a tag alone. -/
def decodeObject (fields : List (String × Reader)) (path : String) : Except Exc Value :=
  match fields.lookup tag with
  | none => (decodeFields path fields).map .dict
  | some payload =>
    match fields.all (fun field => field.1 == tag),payload.json with
    | true,.obj _ => decodePayload loaded payload.fields path
    | _,_ => fail "invalid extension tag" path

mutual

def reader : Json → Reader
  | .null => ⟨.null,fun _ => .ok .none,[],[]⟩
  | .bool b => ⟨.bool b,fun _ => .ok (.bool b),[],[]⟩
  | .int n => ⟨.int n,fun _ => .ok (.int n),[],[]⟩
  | .str s => ⟨.str s,fun _ => .ok (.str s),[],[]⟩
  | .float x => ⟨.float x,fun path =>
    if x.isFinite then .ok (.float x) else fail "non-finite float" path,[],[]⟩
  | .arr items => ⟨.arr items,fun path => (decodeItems path (readers items)).map .list,
      readers items,[]⟩
  | .obj fields => ⟨.obj fields,decodeObject loaded (fieldReaders fields),[],fieldReaders fields⟩

def readers : List Json → List Reader
  | [] => []
  | item::items => reader item::readers items

def fieldReaders : List (String × Json) → List (String × Reader)
  | [] => []
  | (key,item)::fields => (key,reader item)::fieldReaders fields

end

/-- `decode_value`. -/
def decode (path : String) (j : Json) : Except Exc Value := (reader loaded j).decode path

section Equations
attribute [local simp] decode reader
end Equations

end Classes

end Decode

end OneStep.CaptureCodec
