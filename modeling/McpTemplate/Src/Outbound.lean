import McpTemplate.Lib.Utf8
import McpTemplate.Src.Bridge

/-!
# A request on its way out

`outbound::into_wasi_request` of `bridge.rs`. An `http::HeaderMap` is what it
answers for a name: the values of that name, in their order. `remove` takes out
all of them and returns the first.

`Wasi` is the other side: how a method and a scheme are written there, and
what the host's own setters take. A setter that does not take a value leaves
the request as it is.
-/

namespace McpTemplate.Bridge.Outbound

open Lib

/-- `http::HeaderValue`. -/
abbrev HeaderValue := List UInt8

/-- `HeaderValue::to_str`, which wants visible ASCII, blanks and tabs. -/
def toStr (value : HeaderValue) : Option Str :=
  if value.all fun b => 32 ≤ b && b < 127 || b == 9 then
    some (value.map fun b => Char.ofNat b.toNat)
  else none

/-- `http::HeaderMap`, by its `get_all`. -/
structure HeaderMap where
  getAll : Str → List HeaderValue

def HOST : Str := "host".toList

namespace HeaderMap

def remove (headers : HeaderMap) (name : Str) : Option HeaderValue × HeaderMap :=
  ((headers.getAll name).head?, ⟨Function.update headers.getAll name []⟩)

@[simp] theorem remove_fst (headers : HeaderMap) (name : Str) :
    (headers.remove name).1 = (headers.getAll name).head? := rfl

@[simp] theorem getAll_remove_self (headers : HeaderMap) (name : Str) :
    (headers.remove name).2.getAll name = [] := Function.update_self ..

@[simp] theorem getAll_remove_of_ne {name other : Str} (h : other ≠ name)
    (headers : HeaderMap) :
    (headers.remove name).2.getAll other = headers.getAll other :=
  Function.update_of_ne h ..

end HeaderMap

/-- An `http::Uri`, by its accessors. -/
structure Uri where
  scheme : Option Str
  authority : Option Str
  pathAndQuery : Option Str

/-- `http::Request<Bytes>`; of its extensions, the one that is looked for. -/
structure Request (Options : Type) where
  method : Str
  uri : Uri
  headers : HeaderMap
  options : Option Options
  body : List UInt8

/-- `wasi:http` error codes, as far as they are named here. -/
inductive ErrorCode where
  | httpRequestUriInvalid
  | httpRequestMethodInvalid
  | httpProtocolError
  | internalError (message : Option Str)
  deriving DecidableEq

/-- The `wasi:http` side of the conversion. -/
structure Wasi where
  Method : Type
  Scheme : Type
  intoMethod : Str → Method
  intoScheme : Str → Scheme
  /-- What the error of a `HeaderMap` that is not converted displays. -/
  refusesHeaders : HeaderMap → Option Str
  takesMethod : Method → Bool
  takesScheme : Option Scheme → Bool
  takesAuthority : Option Str → Bool
  takesPathWithQuery : Option Str → Bool
  displayCode : ErrorCode → Str

variable {Options : Type} {wasi : Wasi}

/-- `wasip3::http::types::Request`, with the body that its writer sends. -/
structure WasiRequest (wasi : Wasi) (Options : Type) where
  headers : HeaderMap
  options : Option Options
  body : List UInt8
  method : wasi.Method
  scheme : Option wasi.Scheme
  authority : Option Str
  pathWithQuery : Option Str

namespace WasiRequest

/-- `Request::new`: a GET without a target. -/
def new (headers : HeaderMap) (body : List UInt8) (options : Option Options) :
    WasiRequest wasi Options where
  headers := headers
  options := options
  body := body
  method := wasi.intoMethod "GET".toList
  scheme := none
  authority := none
  pathWithQuery := none

def setMethod (request : WasiRequest wasi Options) (method : wasi.Method) :
    Except Unit (WasiRequest wasi Options) :=
  if wasi.takesMethod method then .ok { request with method } else .error ()

def setScheme (request : WasiRequest wasi Options) (scheme : Option wasi.Scheme) :
    Except Unit (WasiRequest wasi Options) :=
  if wasi.takesScheme scheme then .ok { request with scheme } else .error ()

def setAuthority (request : WasiRequest wasi Options) (authority : Option Str) :
    Except Unit (WasiRequest wasi Options) :=
  if wasi.takesAuthority authority then .ok { request with authority } else .error ()

def setPathWithQuery (request : WasiRequest wasi Options)
    (pathWithQuery : Option Str) : Except Unit (WasiRequest wasi Options) :=
  if wasi.takesPathWithQuery pathWithQuery then .ok { request with pathWithQuery }
  else .error ()

end WasiRequest

def invalidHeaders (err : Str) : ErrorCode :=
  .internalError (some ("invalid request headers: ".toList ++ err))

/-- The `host` of `into_wasi_request`. -/
def hostOf (removed : Option HeaderValue) : Except ErrorCode (Option Str) :=
  match removed with
  | none => .ok none
  | some value =>
      match toStr value with
      | some host => .ok (some host)
      | none => .error .httpRequestUriInvalid

/-- The `authority` of `into_wasi_request`. An `Authority` is compared with a
string without regard to case. -/
def authorityOf (uri : Uri) (host : Option Str) : Except ErrorCode (Option Str) :=
  match uri.authority, host with
  | some authority, some host =>
      if !eqIgnoreAsciiCase authority host then .error .httpRequestUriInvalid
      else .ok (some authority)
  | some authority, none => .ok (some authority)
  | none, host => .ok host

/-- What follows once the authority is known. -/
def build (wasi : Wasi) (request : Request Options) (headers : HeaderMap)
    (authority : Option Str) : Except ErrorCode (WasiRequest wasi Options) := do
  let headers ← match wasi.refusesHeaders headers with
    | some err => .error (invalidHeaders err)
    | none => .ok headers
  let sent := WasiRequest.new headers request.body request.options
  let sent ← (sent.setMethod (wasi.intoMethod request.method)).mapError
    fun _ => .httpRequestMethodInvalid
  let sent ← (sent.setScheme (request.uri.scheme.map wasi.intoScheme)).mapError
    fun _ => .httpProtocolError
  let sent ← (sent.setAuthority authority).mapError fun _ => .httpRequestUriInvalid
  (sent.setPathWithQuery request.uri.pathAndQuery).mapError
    fun _ => .httpRequestUriInvalid

def intoWasiRequest (wasi : Wasi) (request : Request Options) :
    Except ErrorCode (WasiRequest wasi Options) := do
  let (removed, headers) := request.headers.remove HOST
  let host ← hostOf removed
  let authority ← authorityOf request.uri host
  build wasi request headers authority

end McpTemplate.Bridge.Outbound
