import McpTemplate.Lib.Text

/-!
# The transport configuration

`transport_config` of `lib.rs`. What the SDK's own configuration starts from
is a parameter, and so is the environment: a variable reads as its value, or
as nothing where it is unset or not Unicode. Of the configuration's fields
only the two that the function writes are kept.
-/

namespace McpTemplate.Transport

open Lib

/-- `char::is_whitespace`, the Unicode property `White_Space`. -/
def isWhitespace (c : Char) : Bool :=
  let n := c.toNat
  (9 ≤ n && n ≤ 13) || n == 0x20 || n == 0x85 || n == 0xA0 || n == 0x1680 ||
    (0x2000 ≤ n && n ≤ 0x200A) || n == 0x2028 || n == 0x2029 || n == 0x202F ||
    n == 0x205F || n == 0x3000

/-- `str::trim`. -/
def trim (s : Str) : Str := trimWith isWhitespace s

/-- `StreamableHttpServerConfig`. -/
structure StreamableHttpServerConfig where
  allowedHosts : List Str
  legacySessionMode : Bool

def MCP_ALLOWED_HOSTS : Str := "MCP_ALLOWED_HOSTS".toList

def transportConfig (default : StreamableHttpServerConfig)
    (var : Str → Option Str) : StreamableHttpServerConfig :=
  let config := { default with legacySessionMode := false }
  match var MCP_ALLOWED_HOSTS with
  | none => config
  | some hosts =>
      { config with
        allowedHosts :=
          match trim hosts with
          | ['*'] => []
          | _ => ((hosts.splitOn ',').map trim).filter fun host => !host.isEmpty }

end McpTemplate.Transport
