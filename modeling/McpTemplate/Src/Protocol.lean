import McpTemplate.Src.Server

/-!
# The SDK's own methods

What `server.rs` and `skills.rs` answer beside the extension methods: the
server's own description, the resources and their templates as they are
listed, and a resource as it is read. A request context is the protocol
version its peer speaks; `Sdk` is how versions are compared.

A page is a `ListResourcesResult` or a `ListResourceTemplatesResult`: all
items, and no cursor for more.
-/

namespace McpTemplate.Server

open Lib Json Skills

/-- What is used of the SDK's protocol versions. -/
structure Sdk where
  ProtocolVersion : Type
  V_2026_07_28 : ProtocolVersion
  /-- `>=`. -/
  atLeast : ProtocolVersion → ProtocolVersion → Bool

def RESOURCE_NOT_FOUND : Int := -32002

/-- `ErrorData::resource_not_found`. -/
def ErrorData.resourceNotFound (message : Str) : ErrorData :=
  ⟨RESOURCE_NOT_FOUND, message, none⟩

inductive CacheScope where
  | shared
  deriving DecidableEq, Repr

/-- The two hints that a result may carry. -/
structure CacheHints where
  ttlMs : Option Nat
  cacheScope : Option CacheScope
  deriving DecidableEq, Repr

structure Page (α : Type) where
  items : List α
  hints : CacheHints

structure ResourceContents where
  uri : Str
  mimeType : Str
  text : Str
  deriving DecidableEq

structure ReadResourceResult where
  contents : List ResourceContents
  hints : CacheHints

/-- `ServerConfig`: the extensions with their settings, whether tools and
resources are enabled, the server's name and version, and the instructions. -/
structure ServerConfig where
  extensions : List (Str × Map)
  tools : Bool
  resources : Bool
  name : Str
  version : Str
  instructions : Str

section handlers

variable (crates : Crates) (table : List Skill) (sdk : Sdk)

/-- `skills::capability`. -/
def capability : Map := Map.insert "directoryRead".toList (.bool true) []

/-- What the instructions say before the catalog. -/
def aboutServer : Str := String.toList
  ("Template MCP server running as a WebAssembly component on Cosmonic Desktop. " ++
    "`echo`, `add` and `current_time` exercise connectivity; `http_get` exercises " ++
    "outbound HTTP under the workload's allow-list. They are placeholders for your " ++
    "own tools.\n\n")

def getInfo : ServerConfig where
  extensions := [(EXTENSION_ID, capability)]
  tools := true
  resources := true
  name := crates.CARGO_PKG_NAME
  version := crates.CARGO_PKG_VERSION
  instructions := aboutServer ++ catalog crates table

/-- Of a context only the version is looked at. -/
def supportsCacheHints (version : Option sdk.ProtocolVersion) : Bool :=
  match version with
  | some version => sdk.atLeast version sdk.V_2026_07_28
  | none => false

/-- `with_ttl_ms` and `with_cache_scope`, for a peer that knows them. -/
def hintsFor (version : Option sdk.ProtocolVersion) : CacheHints :=
  if supportsCacheHints sdk version then ⟨some SKILL_CACHE_TTL_MS, some .shared⟩
  else ⟨none, none⟩

def listResources (version : Option sdk.ProtocolVersion) : Page ListedResource :=
  ⟨resources crates table, hintsFor sdk version⟩

def listResourceTemplates (version : Option sdk.ProtocolVersion) : Page ResourceTemplate :=
  ⟨resourceTemplates, hintsFor sdk version⟩

def noResource (uri : Str) : Str :=
  "no resource at ".toList ++ uri ++ "; skills/list (or ".toList ++ INDEX_URI ++
    ") enumerates the skills this server serves".toList

def readResource (version : Option sdk.ProtocolVersion) (uri : Str) :
    Except ErrorData ReadResourceResult :=
  match read crates table uri with
  | none => .error (.resourceNotFound (noResource uri))
  | some (mimeType, text) => .ok ⟨[⟨uri, mimeType, text⟩], hintsFor sdk version⟩

end handlers

end McpTemplate.Server
