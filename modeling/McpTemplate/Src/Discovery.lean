import McpTemplate.Src.Skills

/-!
# The discovery document

`discovery.rs`. The document is one `json!` value, printed; what it takes from
Cargo and from the SDK beside what the skills need is `Build`. The tool names
are an argument there as they are here.
-/

namespace McpTemplate.Discovery

open Lib Json Skills

def MCP_PATH : Str := "/mcp".toList

def DISCOVERY_PATHS : List Str := ["/".toList, "/health".toList]

/-- `discovery::matches`, of a request's method and path. -/
def matchesRequest (method path : Str) : Bool :=
  (method = "GET".toList || method = "HEAD".toList) && DISCOVERY_PATHS.contains path

/-- What the document takes from Cargo and from the SDK. -/
structure Build where
  CARGO_PKG_DESCRIPTION : Str
  /-- `ProtocolVersion::LATEST`. -/
  LATEST : Str

section document

variable (crates : Crates) (build : Build) (table : List Skill)

/-- One item of `skills`. -/
def skillItem (self : Fin table.length) : Value :=
  json [("name".toList, .string (table.get self).name),
    ("description".toList, .string (description crates table self)),
    ("uri".toList, .string (table.get self).entryUri)]

def server : Value :=
  json [("name".toList, .string crates.CARGO_PKG_NAME),
    ("version".toList, .string crates.CARGO_PKG_VERSION),
    ("description".toList, .string build.CARGO_PKG_DESCRIPTION)]

def protocol : Value :=
  json [("name".toList, .string "Model Context Protocol".toList),
    ("specVersion".toList, .string build.LATEST),
    ("transport".toList, .string "streamable-http".toList),
    ("stateless".toList, .bool true)]

def endpoints : Value :=
  json [("mcp".toList, .string MCP_PATH),
    ("discovery".toList, .string (DISCOVERY_PATHS.getD 0 [])),
    ("health".toList, .string (DISCOVERY_PATHS.getD 1 []))]

def capabilities (tools : List Str) : Value :=
  json [("tools".toList, .array (tools.map .string)),
    ("extensions".toList, json [(EXTENSION_ID,
      json [("directoryRead".toList, .bool true),
        ("methods".toList, .array [.string LIST_METHOD, .string GET_METHOD,
          .string DIRECTORY_READ_METHOD])])]),
    ("resources".toList, json [("skillIndex".toList, .string INDEX_URI)])]

/-- The value of the document. -/
def documentValue (tools : List Str) : Value :=
  json [("status".toList, .string "ok".toList),
    ("server".toList, server crates build),
    ("protocol".toList, protocol build),
    ("endpoints".toList, endpoints),
    ("capabilities".toList, capabilities tools),
    ("skills".toList, .array ((iter table).map (skillItem crates table))),
    ("documentation".toList, .string "https://cosmonic.com/docs/desktop".toList)]

def document (tools : List Str) : Str :=
  (crates.toStringPretty (documentValue crates build table tools)).getD
    "\x7b\"status\":\"ok\"\x7d".toList

end document

end McpTemplate.Discovery
