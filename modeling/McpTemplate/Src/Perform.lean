import McpTemplate.Lib.Decimal
import McpTemplate.Lib.Feed
import McpTemplate.Src.Exchange
import McpTemplate.Src.Outbound
import Mathlib.Algebra.Group.Nat.Defs

/-!
# An outbound exchange, to its end

`outbound::perform` of `bridge.rs` whole: the two settings it reads, the future
it makes, and the deadline that future runs against. What the other side does
is an `Upstream`: an answer to the request and the events of a body, each with
the time at which it is there. The component polls at times of its own. At a
poll the future takes everything that is there by then, and `timeout` asks the
deadline only when the future is still pending.

Times are nanoseconds since the deadline was set. An error of the host is what
it displays.
-/

namespace McpTemplate.Bridge

open Lib

variable {σ I ω : Type}

/-- A future between two polls. -/
def Poll.ofProgress : Progress σ ω → Poll ω
  | .waiting _ => .pending
  | .done value => .ready value

/-- The answers that are there at a time. One that is late holds up the ones
behind it. -/
def ready (t : Nat) (answers : List (Nat × I)) : List I :=
  (answers.takeWhile fun answer => answer.1 ≤ t).map Prod.snd

/-- What a future and a deadline answer when they are polled at these times. -/
def pollsAt (step : σ → I → Progress σ ω) (deadline : Nat) :
    List Nat → Progress σ ω → List (Nat × I) → List (Poll ω × Bool)
  | [], _, _ => []
  | t :: times, p, answers =>
      let p := feed step p (ready t answers)
      (.ofProgress p, deadline ≤ t) ::
        pollsAt step deadline times p (answers.dropWhile fun answer => answer.1 ≤ t)

/-- The times of the polls. The host wakes the component when the deadline has
passed, at the latest. -/
structure Clock (deadline : Nat) where
  times : List Nat
  sorted : times.Pairwise (· ≤ ·)
  reaches : ∃ t ∈ times, deadline ≤ t

/-- The deadline of `timeout`. -/
def deadlineNanos (millis : Nat) : Nat := saturatingMul (2 ^ 64) millis 1000000

namespace Outbound

/-! ## Settings -/

def MCP_OUTBOUND_MAX_BYTES : Str := "MCP_OUTBOUND_MAX_BYTES".toList

def MCP_OUTBOUND_TIMEOUT_MS : Str := "MCP_OUTBOUND_TIMEOUT_MS".toList

def DEFAULT_MAX_RESPONSE_BYTES : Nat := 4 * 1024 * 1024

def DEFAULT_TIMEOUT_MS : Nat := 30000

/-- A variable read as a number, or the default where it is none. -/
def setting (var : Str → Option Str) (name : Str) (bound default : Nat) : Nat :=
  ((var name).bind (parseUnsigned bound)).getD default

/-- A `usize` of the 32-bit target. -/
def maxResponseBytes (var : Str → Option Str) : Nat :=
  setting var MCP_OUTBOUND_MAX_BYTES (2 ^ 32) DEFAULT_MAX_RESPONSE_BYTES

/-- The `timeout_ms` of `perform`. -/
def timeoutMs (var : Str → Option Str) : Nat :=
  setting var MCP_OUTBOUND_TIMEOUT_MS (2 ^ 64) DEFAULT_TIMEOUT_MS

/-! ## The other side -/

/-- Responses of `wasi:http`, and how they become those of the `http` crate. -/
structure Compat where
  Response : Type
  /-- `http::response::Parts`. -/
  Parts : Type
  fromWasiResponse : Response → Except Str Parts

/-- What the host does about a request: the result of `client::send`, if it
ever comes, and the events of the response's body. -/
structure Upstream (compat : Compat) where
  head : Option (Nat × Except Str compat.Response)
  body : List (Nat × BodyEvent UInt8 Str)

inductive Answer (compat : Compat) where
  | sent (result : Except Str compat.Response)
  | frame (event : BodyEvent UInt8 Str)

/-- The answers in the order in which they are awaited. -/
def Upstream.answers {compat : Compat} (upstream : Upstream compat) :
    List (Nat × Answer compat) :=
  match upstream.head with
  | none => []
  | some (t, result) =>
      (t, .sent result) :: upstream.body.map fun event => (event.1, .frame event.2)

/-! ## The exchange -/

variable {Options : Type} {wasi : Wasi} {compat : Compat}

structure Response (Parts : Type) where
  parts : Parts
  body : List UInt8
  deriving DecidableEq

/-- Where the future of `perform` is suspended. -/
inductive Performing (compat : Compat) where
  | sending
  | collecting (parts : compat.Parts) (body : Limited UInt8)

/-- What `perform` makes of the body. -/
def collectedBody (parts : compat.Parts) :
    Progress (Limited UInt8) (Except (CollectError Str) (List UInt8)) →
      Progress (Performing compat) (Reply (Response compat.Parts))
  | .waiting body => .waiting (.collecting parts body)
  | .done (.ok bytes) => .done (.ok ⟨parts, bytes⟩)
  | .done (.error .lengthLimit) => .done (.error .responseTooLarge)
  | .done (.error (.inner err)) => .done (.error (.wasi err))

/-- One answer to the future of `perform`. -/
def Performing.resume (maxBytes : Nat) :
    Performing compat → Answer compat →
      Progress (Performing compat) (Reply (Response compat.Parts))
  | .sending, .sent (.error code) => .done (.error (.wasi code))
  | .sending, .sent (.ok response) =>
      match compat.fromWasiResponse response with
      | .error code => .done (.error (.wasi code))
      | .ok parts => .waiting (.collecting parts (Limited.new maxBytes))
  | .collecting parts body, .frame event => collectedBody parts (body.take event)
  | state, _ => .waiting state

/-- The future of `perform` before its first `await`. -/
def Performing.start (compat : Compat) (wasi : Wasi) (request : Request Options) :
    Progress (Performing compat) (Reply (Response compat.Parts)) :=
  match intoWasiRequest wasi request with
  | .error code => .done (.error (.wasi (wasi.displayCode code)))
  | .ok _ => .waiting .sending

/-- The answers to a request, which is asked as it is sent. -/
def answersTo (wasi : Wasi) (upstream : WasiRequest wasi Options → Upstream compat)
    (request : Request Options) : List (Nat × Answer compat) :=
  match intoWasiRequest wasi request with
  | .error _ => []
  | .ok sent => (upstream sent).answers

/-- What `perform` returns, by what `timeout` does. -/
def timedReply (millis : Nat) :
    Except Unit (Reply (Response compat.Parts)) → Reply (Response compat.Parts)
  | .ok reply => reply
  | .error () => .error (.timedOut millis)

/-- `perform`, polled at these times; nothing where they end before there is a
reply. -/
def performAt (wasi : Wasi) (var : Str → Option Str) (times : List Nat)
    (upstream : WasiRequest wasi Options → Upstream compat)
    (request : Request Options) : Option (Reply (Response compat.Parts)) :=
  let millis := timeoutMs var
  (timeout (pollsAt (Performing.resume (maxResponseBytes var)) (deadlineNanos millis)
    times (Performing.start compat wasi request)
    (answersTo wasi upstream request))).map (timedReply millis)

end Outbound

end McpTemplate.Bridge
