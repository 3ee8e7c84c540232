import McpTemplate.Lib.IpParse
import McpTemplate.Lib.Utf8
import McpTemplate.Src.Bridge
import McpTemplate.Src.Server

/-!
# The outbound tool

`http_get` of `server.rs` and its guard. The tool is a tree for the bridge: it
returns, or comes to a `fetch`. `Http` is what it uses of the `http` crate: a
URL parsed into a request, the scheme and the host of a URI, and how a status
is written.
-/

namespace McpTemplate.Server

open Lib Lib.Net Bridge

/-- What the tool uses of the `http` crate. -/
structure Http where
  Uri : Type
  /-- `Request::get(url).body(Bytes::new())`, or what its error displays. -/
  get : Str → Except Str Uri
  schemeStr : Uri → Option Str
  host : Uri → Option Str
  displayStatus : Nat → Str

structure Request (Uri : Type) where
  method : Str
  uri : Uri
  body : List UInt8
  deriving DecidableEq

structure Response where
  status : Nat
  body : List UInt8

/-- The two shapes of `CallToolResult` the tool makes, with their texts. -/
inductive CallToolResult where
  | success (content : List Str)
  | error (content : List Str)
  deriving DecidableEq

def HTTP_GET_BODY_LIMIT : Nat := 4096

def MCP_HTTP_GET_ALLOW_LOCAL : Str := "MCP_HTTP_GET_ALLOW_LOCAL".toList

/-! ## The guard -/

/-- The `local` of `deny_private_target`. -/
def isLocal (host : Str) : Bool :=
  match IpAddr.parse host with
  | some (.v4 v4) =>
      v4.isLoopback || v4.isPrivate || v4.isLinkLocal || v4.isUnspecified ||
        v4.isBroadcast
  | some (.v6 v6) =>
      v6.isLoopback || v6.isUnspecified || v6.isUniqueLocal ||
        v6.isUnicastLinkLocal
  | none =>
      eqIgnoreAsciiCase host "localhost".toList ||
        ".localhost".toList.isSuffixOf (toAsciiLowercase host)

/-- `trim_matches(['[', ']'])`. -/
def trimBrackets (host : Str) : Str := trimWith (fun c => c = '[' || c = ']') host

/-- Where the scheme is refused. Its characters are letters, digits, `+`, `-`
and `.`, which `{:?}` writes as they are. -/
def deniedScheme (scheme : Str) : Str :=
  "denied: scheme \"".toList ++ scheme ++
    "\" is not allowed (use http or https)".toList

def deniedHost (host : Str) : Str :=
  "denied: ".toList ++ host ++
    " is a local/private target (set MCP_HTTP_GET_ALLOW_LOCAL=true ".toList ++
    "to permit in development)".toList

def denyPrivateTarget (http : Http) (var : Str → Option Str) (uri : http.Uri) :
    Option Str :=
  let scheme := (http.schemeStr uri).getD "none".toList
  if http.schemeStr uri ≠ some "http".toList ∧
      http.schemeStr uri ≠ some "https".toList then
    some (deniedScheme scheme)
  else if var MCP_HTTP_GET_ALLOW_LOCAL = some "true".toList ∨
      var MCP_HTTP_GET_ALLOW_LOCAL = some "1".toList then none
  else
    let host := trimBrackets ((http.host uri).getD [])
    if isLocal host then some (deniedHost host) else none

/-! ## The tool -/

/-- The loop of `truncation_boundary`; position 0 is always a boundary. -/
def boundaryFrom (s : Str) : (index : Nat) → Nat
  | 0 => 0
  | index + 1 =>
      if isCharBoundary s (index + 1) then index + 1 else boundaryFrom s index

def truncationBoundary (s : Str) (limit : Nat) : Nat :=
  boundaryFrom s (min limit (byteLen s))

/-- The body as the tool shows it; nothing where it would panic. -/
def renderBody (bytes : List UInt8) : Option Str :=
  let body := fromUtf8Lossy bytes
  if byteLen body > HTTP_GET_BODY_LIMIT then
    (truncate body (truncationBoundary body HTTP_GET_BODY_LIMIT)).map fun body =>
      body ++ "…[truncated]".toList
  else some body

/-- How an error of the bridge is displayed. -/
def displayError : Error → Str
  | .wasi code => "wasi:http error: ".toList ++ code
  | .timedOut millis =>
      "outbound request timed out after ".toList ++ Nat.toDigits 10 millis ++
        " ms".toList
  | .responseTooLarge => "response body exceeded the outbound size limit".toList
  | .bridgeClosed => "outbound bridge unavailable".toList

/-- What the tool returns; nothing where it panics. -/
abbrev Outcome := Option (Except ErrorData CallToolResult)

/-- What the tool makes of the reply. -/
def fetched (http : Http) : Reply Response → Outcome
  | .ok response =>
      (renderBody response.body).map fun body =>
        .ok (.success ["HTTP ".toList ++ http.displayStatus response.status ++
          '\n' :: body])
  | .error err => some (.ok (.error ["fetch failed: ".toList ++ displayError err]))

def httpGet (http : Http) (var : Str → Option Str) (url : Str) :
    Tool (Request http.Uri) Response Outcome :=
  match http.get url with
  | .error err => .done (some (.error (.invalidParams err)))
  | .ok uri =>
      match denyPrivateTarget http var uri with
      | some reason => .done (some (.ok (.error [reason])))
      | none => .fetch ⟨"GET".toList, uri, []⟩ fun reply => .done (fetched http reply)

end McpTemplate.Server
