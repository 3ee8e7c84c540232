import McpTemplate.Lib.Feed
import McpTemplate.Src.Discovery
import McpTemplate.Src.Exchange

/-!
# The front of `handle`

`Component::handle` of `lib.rs` up to the request lock: the request is
converted, a probe is answered with the discovery document, and any other
request has its body buffered up to the transport's limit. `Front` is where a
call stands in there, and `Site` the instance with such a front for each call;
what lies behind the front is `World`. Of `World`'s moves two are made by the
front, `answer` where the call returns by itself and `buffer` where it goes on
to the lock.

`Host` is what `wasi:http` and the `http` crate do here. A body error is its
code, of which only the display is used. How the static responses are written
out, frame by frame in a task of their own, is left out.
-/

namespace McpTemplate.Handle

open Lib Bridge Discovery

/-- What the front uses of `wasi:http` and of the `http` crate. -/
structure Host where
  Request : Type
  /-- `http::request::Parts`. -/
  Parts : Type
  ErrorCode : Type
  fromWasiRequest : Request → Except ErrorCode Parts
  method : Parts → Str
  path : Parts → Str
  internalError : Option Str → ErrorCode
  displayCode : ErrorCode → Str
  /-- What the error of a list of fields that is not taken displays. -/
  refusesFields : List (Str × List UInt8) → Option Str
  takesStatus : Nat → Bool

/-- A response this component makes itself. -/
structure StaticResponse where
  status : Nat
  headers : List (Str × List UInt8)
  body : List UInt8
  deriving DecidableEq

variable {host : Host} {Req Resp Frame Code : Type}

/-- The fields of a static response. -/
def staticFields (contentType : Str) : List (Str × List UInt8) :=
  [("content-type".toList, asBytes contentType),
    ("cache-control".toList, asBytes "no-store".toList)]

def staticResponse (host : Host) (status : Nat) (contentType body : Str) :
    Except host.ErrorCode StaticResponse :=
  match host.refusesFields (staticFields contentType) with
  | some err =>
      .error (host.internalError (some ("invalid headers: ".toList ++ err)))
  | none =>
      if host.takesStatus status then
        .ok ⟨status, staticFields contentType, asBytes body⟩
      else .error (host.internalError (some "invalid status code".toList))

def payloadTooLarge (host : Host) (limit : Nat) :
    Except host.ErrorCode StaticResponse :=
  staticResponse host 413 "text/plain; charset=utf-8".toList
    ("Payload Too Large: request body exceeds ".toList ++ Nat.toDigits 10 limit ++
      " bytes".toList)

/-- What `handle` returns where the body cannot be read. -/
def bodyFailed (host : Host) (err : host.ErrorCode) :
    Except host.ErrorCode StaticResponse :=
  .error (host.internalError
    (some ("failed to read body: ".toList ++ host.displayCode err)))

/-- What the front is configured with. -/
structure Config where
  maxRequestBodyBytes : Nat
  /-- The discovery document. -/
  document : Str

/-! ## One call -/

/-- Where a call stands before the lock: it reads the body, it has returned by
itself, or it goes on with the whole body. -/
inductive Front (host : Host) where
  | buffering (parts : host.Parts) (body : Limited UInt8)
  | returned (result : Except host.ErrorCode StaticResponse)
  | passed (parts : host.Parts) (bytes : List UInt8)

/-- `handle` up to its first `await`. -/
def arrive (config : Config) (request : host.Request) : Front host :=
  match host.fromWasiRequest request with
  | .error code => .returned (.error code)
  | .ok parts =>
      if matchesRequest (host.method parts) (host.path parts) then
        .returned (staticResponse host 200 "application/json".toList config.document)
      else .buffering parts (Limited.new config.maxRequestBodyBytes)

/-- Where a call stands by how far the collecting of its body is. -/
def reached (config : Config) (parts : host.Parts) :
    Progress (Limited UInt8) (Except (CollectError host.ErrorCode) (List UInt8)) →
      Front host
  | .waiting body => .buffering parts body
  | .done (.ok bytes) => .passed parts bytes
  | .done (.error .lengthLimit) =>
      .returned (payloadTooLarge host config.maxRequestBodyBytes)
  | .done (.error (.inner err)) => .returned (bodyFailed host err)

/-- What an event of the body makes of a call that reads it. -/
def Front.upload (config : Config) :
    Front host → BodyEvent UInt8 host.ErrorCode → Front host
  | .buffering parts body, event => reached config parts (body.take event)
  | front, _ => front

/-- The move of the instance that a call makes when it comes here. -/
def Front.move : Front host → Option (Move Resp Frame)
  | .buffering _ _ => none
  | .returned _ => some .answer
  | .passed _ _ => some .buffer

/-! ## The instance with its fronts -/

structure Site (host : Host) (Req Resp Frame Code : Type) where
  world : World Req Resp Frame Code
  /-- Nothing where no request has arrived under that name. -/
  front : ExchangeId → Option (Front host)

def Site.init : Site host Req Resp Frame Code := ⟨.init, fun _ => none⟩

/-- A request arrives, an event of a body arrives, or something happens behind
the front. -/
inductive SiteAction (host : Host) (Resp Frame Code : Type) where
  | arrive (e : ExchangeId) (request : host.Request)
  | upload (e : ExchangeId) (event : BodyEvent UInt8 host.ErrorCode)
  | inside (a : Action Resp Frame Code)

def SiteAction.actor : SiteAction host Resp Frame Code → ExchangeId
  | .arrive e _ => e
  | .upload e _ => e
  | .inside a => a.actor

/-- The steps of the instance that only the front makes. -/
def ofFront : Action Resp Frame Code → Bool
  | .exchange _ .answer | .exchange _ .buffer => true
  | _ => false

/-- What a step of the site does behind the front. -/
def Site.under (config : Config) (s : Site host Req Resp Frame Code) :
    SiteAction host Resp Frame Code → List (Action Resp Frame Code)
  | .arrive e request =>
      ((arrive config request : Front host).move.map (Action.exchange e)).toList
  | .upload e event =>
      match s.front e with
      | some front => ((front.upload config event).move.map (Action.exchange e)).toList
      | none => []
  | .inside a => [a]

/-- The front of a call comes to `front`. -/
def Site.settle (resume : Code → Resume Req Resp Code)
    (s : Site host Req Resp Frame Code) (e : ExchangeId) (front : Front host) :
    Option (Site host Req Resp Frame Code) :=
  let fronts := Function.update s.front e (some front)
  match front.move with
  | none => some ⟨s.world, fronts⟩
  | some move =>
      (s.world.step resume (.exchange e move)).map fun world => ⟨world, fronts⟩

/-- A step of the site, where it can be made. As for `World.step`, requests and
uploads may also come while another call has the thread, in `block_on` say,
which the one thread excludes. -/
def Site.step (config : Config) (resume : Code → Resume Req Resp Code)
    (s : Site host Req Resp Frame Code) :
    SiteAction host Resp Frame Code → Option (Site host Req Resp Frame Code)
  | .arrive e request =>
      if (s.front e).isNone then s.settle resume e (arrive config request) else none
  | .upload e event =>
      match s.front e, s.world.phase e with
      | some (.buffering parts body), .receiving =>
          s.settle resume e ((Front.buffering parts body).upload config event)
      | _, _ => none
  | .inside a =>
      if ofFront a || (s.front a.actor).isNone then none
      else (s.world.step resume a).map fun world => { s with world }

/-- What a step shows: what it shows behind the front. -/
def Site.emit (config : Config) (resume : Code → Resume Req Resp Code)
    (s : Site host Req Resp Frame Code) (a : SiteAction host Resp Frame Code) :
    List (Obs Req Resp Frame) :=
  (s.under config a).flatMap (s.world.emit resume)

end McpTemplate.Handle
