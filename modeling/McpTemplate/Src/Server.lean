import McpTemplate.Src.Skills

/-!
# The extension methods

`on_custom_request` of `server.rs`. How a resource is written as JSON is the
SDK's and a parameter. An error is the SDK's `ErrorData`: its code, its
message, and no further data.
-/

namespace McpTemplate.Server

open Lib Json Skills

def SKILL_CACHE_TTL_MS : Nat := 60 * 60 * 1000

def INVALID_PARAMS : Int := -32602

def METHOD_NOT_FOUND : Int := -32601

structure ErrorData where
  code : Int
  message : Str
  data : Option Value

/-- `ErrorData::invalid_params`. -/
def ErrorData.invalidParams (message : Str) : ErrorData :=
  ⟨INVALID_PARAMS, message, none⟩

/-- The closure `uri` of `on_custom_request`. -/
def uriParam (method : Str) (params : Option Value) : Except ErrorData Str :=
  match (params.bind fun p => p.get "uri".toList).bind Value.asStr with
  | some uri => .ok uri
  | none =>
      .error (.invalidParams
        (method ++ " requires a string `uri` parameter".toList))

def listResult (entries : List Value) : Value :=
  json [("resultType".toList, .string "complete".toList),
    ("skills".toList, .array entries),
    ("ttlMs".toList, .ofNat SKILL_CACHE_TTL_MS),
    ("cacheScope".toList, .string "public".toList)]

def getResult (entry : Value) : Value :=
  json [("resultType".toList, .string "complete".toList),
    ("skill".toList, entry),
    ("ttlMs".toList, .ofNat SKILL_CACHE_TTL_MS),
    ("cacheScope".toList, .string "public".toList)]

def directoryResult (resources : List Value) : Value :=
  json [("resultType".toList, .string "complete".toList),
    ("resources".toList, .array resources)]

def onCustomRequest (crates : Crates) (toJson : Resource → Value)
    (table : List Skill) (method : Str) (params : Option Value) :
    Except ErrorData Value := do
  if method = LIST_METHOD then return listResult (entries crates table)
  else if method = GET_METHOD then
    let uri ← uriParam method params
    match entry crates table uri with
    | some entry => return getResult entry
    | none => throw (.invalidParams ("No skill is served at ".toList ++ uri))
  else if method = DIRECTORY_READ_METHOD then
    let uri ← uriParam method params
    match directory table uri with
    | some resources => return directoryResult (resources.map toJson)
    | none =>
        throw (.invalidParams
          (uri ++ " is not a directory resource this server serves".toList))
  else throw ⟨METHOD_NOT_FOUND, method, none⟩

end McpTemplate.Server
