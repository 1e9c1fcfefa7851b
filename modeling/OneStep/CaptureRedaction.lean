import OneStep.CaptureCodec

/-!
# Redaction of captures

`redact_envelope`. What stands under a secret name in a dictionary is replaced
first, and then what the pointers of the configuration lead to. The walk goes into
dictionaries, lists, tuples, and named tuples by their indices; the elements of a
set share the path of the set, and the members of enumerations are left as they are.
-/
namespace OneStep.CaptureRedaction
open CaptureCodec PythonValues

section SecretNames

/-- `_SECRET_KEYS`. -/
def secretKeys : List String :=
  ["password","passwd","secret","token","authorization","cookie","api_key","apikey","dsn",
    "database_url","connection_string"]

/-- `str.casefold`, for the characters that it folds to ASCII; no other character can
stand in a secret name. -/
def casefold (c : Char) : List Char :=
  if 65 ≤ c.toNat ∧ c.toNat ≤ 90 then [Char.ofNat (c.toNat+32)]
  else
    match c.toNat with
    | 0xDF | 0x1E9E => ['s','s']
    | 0x17F => ['s']
    | 0x212A => ['k']
    | 0xFB00 => ['f','f']
    | 0xFB01 => ['f','i']
    | 0xFB02 => ['f','l']
    | 0xFB03 => ['f','f','i']
    | 0xFB04 => ['f','f','l']
    | 0xFB05 | 0xFB06 => ['s','t']
    | _ => [c]

def normalized (name : String) : String :=
  String.ofList ((name.toList.flatMap casefold).map fun c => if c = '-' then '_' else c)

def isSecret (name : String) : Bool := secretKeys.contains (normalized name)

/-- A key that is not a string is normalized to an empty one. -/
def secretKey : Key → Bool
  | .str name => isSecret name
  | .other _ _ => false

end SecretNames

section SecretValues

/-- `_REDACTED`. -/
def redacted : Value := .str "<redacted>"

mutual

/-- The value that `_redact_secret_keys` returns. -/
def redactSecretKeys : Value → Value
  | .dict items => .dict (redactItems items)
  | .list vs => .list (redactAll vs)
  | .namedtuple cls vs => .namedtuple cls (redactAll vs)
  | .tuple vs => .tuple (redactAll vs)
  | .set vs => .set (addAll (redactAll vs))
  | .frozenset vs => .frozenset (addAll (redactAll vs))
  | v => v

def redactAll : List Value → List Value
  | [] => []
  | v::vs => redactSecretKeys v::redactAll vs

def redactItems : List (Key × Value) → List (Key × Value)
  | [] => []
  | (key,item)::items =>
    (key,if secretKey key then redacted else redactSecretKeys item)::redactItems items

end

section Equations
attribute [local simp] redactSecretKeys
end Equations

mutual

/-- The paths that `_redact_secret_keys` adds. -/
def secretPaths (path : String) : Value → List String
  | .dict items => itemPaths path items
  | .list vs => elementPaths path 0 vs
  | .namedtuple _ vs => elementPaths path 0 vs
  | .tuple vs => elementPaths path 0 vs
  | .set vs => memberPaths path vs
  | .frozenset vs => memberPaths path vs
  | _ => []

def itemPaths (path : String) : List (Key × Value) → List String
  | [] => []
  | (key,item)::items =>
    (if secretKey key then [pointer path (keyText key)]
      else secretPaths (pointer path (keyText key)) item)++itemPaths path items

def elementPaths (path : String) : ℕ → List Value → List String
  | _,[] => []
  | i,v::vs => secretPaths (path++"/"++toString i) v++elementPaths path (i+1) vs

def memberPaths (path : String) : List Value → List String
  | [] => []
  | v::vs => secretPaths path v++memberPaths path vs

end

section Equations
attribute [local simp] secretPaths
end Equations

end SecretValues

section Pointers

/-- The escapes of a token, within one or not. -/
def unescape : Bool → List Char → Option (List Char)
  | escaped,[] => if escaped then none else some []
  | false,c::cs =>
    if c = '~' then unescape true cs else (unescape false cs).map fun rest => c::rest
  | true,c::cs =>
    if c = '0' then (unescape false cs).map fun rest => '~'::rest
    else if c = '1' then (unescape false cs).map fun rest => '/'::rest
    else none

/-- `_decode_pointer`; none when it raises. -/
def decodePointer (pointer : String) : Option (List String) :=
  match pointer.toList with
  | '/'::cs => (cs.splitOn '/').mapM fun raw => (unescape false raw).map String.ofList
  | _ => none

/-- The index that a token is the text of. -/
def indexOf (token : String) (length : ℕ) : Option ℕ :=
  (List.range length).find? fun i => toString i == token

/-- The elements with the one under a token replaced, when that changes it. -/
def replaceElement (replace : Value → Value × Bool) (token : String) (vs : List Value) :
    Option (List Value) :=
  (indexOf token vs.length).bind fun i => vs[i]?.bind fun v =>
    if (replace v).2 then some (vs.set i (replace v).1) else none

/-- The items with the one under a token replaced, when that changes it. -/
def replaceItem (replace : Value → Value × Bool) (token : String) (items : List (Key × Value)) :
    Option (List (Key × Value)) :=
  (items.lookup (.str token)).bind fun v =>
    if (replace v).2 then
      some (items.map fun item => if item.1 = .str token then (item.1,(replace v).1) else item)
    else none

/-- `_replace_tokens`, and whether it changed the value. -/
def replaceTokens (replacement : Value) : List String → Value → Value × Bool
  | [],_ => (replacement,true)
  | token::remaining,value =>
    match value with
    | .dict items =>
      (replaceItem (replaceTokens replacement remaining) token items).elim (value,false)
        fun items => (.dict items,true)
    | .list vs =>
      (replaceElement (replaceTokens replacement remaining) token vs).elim (value,false)
        fun vs => (.list vs,true)
    | .namedtuple cls vs =>
      (replaceElement (replaceTokens replacement remaining) token vs).elim (value,false)
        fun vs => (.namedtuple cls vs,true)
    | .tuple vs =>
      (replaceElement (replaceTokens replacement remaining) token vs).elim (value,false)
        fun vs => (.tuple vs,true)
    | _ => (value,false)

section Equations
attribute [local simp] replaceTokens
end Equations

end Pointers

section Envelopes

structure Envelope where
  body : Value
  metadata : Value
  attempts : ℤ

def logicalOf (envelope : Envelope) : Value :=
  .dict [(.str "body",envelope.body),(.str "meta",envelope.metadata)]

/-- The pointers one after another, with the paths that are redacted. -/
def redactPointers : List String → Value → List String → Option (Value × List String)
  | [],logical,paths => some (logical,paths)
  | pointer::pointers,logical,paths =>
    (decodePointer pointer).bind fun tokens =>
      let replaced := replaceTokens redacted tokens logical
      redactPointers pointers replaced.1 (if replaced.2 then paths++[pointer] else paths)

def partOf (name : String) : Value → Value
  | .dict items => (items.lookup (.str name)).getD .none
  | _ => .none

/-- `sorted` of a set of paths. -/
def sortedPaths (paths : List String) : List String :=
  paths.dedup.insertionSort fun a b => a ≤ b

/-- `redact_envelope`; none when a pointer cannot be decoded. -/
def redactEnvelope (envelope : Envelope) (pointers : List String) :
    Option (Envelope × List String) :=
  let logical := logicalOf envelope
  (redactPointers pointers (redactSecretKeys logical) (secretPaths "" logical)).map fun r =>
    ({ body := partOf "body" r.1
       metadata := partOf "meta" r.1
       attempts := envelope.attempts },sortedPaths r.2)

end Envelopes

end OneStep.CaptureRedaction
