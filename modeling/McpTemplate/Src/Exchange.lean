import McpTemplate.Src.Bridge

/-!
# Exchanges: `Component::handle`, its pump, and the instance around them

`lib.rs` serves every request with one call of `handle`. `Phase` is where such
a call stands, one constructor for each point between two things another
party can observe, from the request's arrival to the end of the spawned pump
task; `Phase.next` is the control flow of the function, read as a table from
what just happened to where the call goes on.

One instance runs many calls at once and shares three things between them:
the request lock, the job queue, and the tokio runtime with the tool tasks
spawned on it. `World` is the instance. The calls and the outside world choose
a `Move`, `offer` says what the move amounts to in the present world, or that
it cannot be made, and `step` makes it. Tool tasks move only inside some
call's `drive`, which is what `Phase.inRuntime` asks.

Tool code is arbitrary: `resume` is any function from a code point to what the
task does there, over any type of code points, and an await that is not a
`fetch` is answered by the environment. The future that `drive` itself runs is
left to the environment too: it may complete, and `dispatch` tool tasks,
whenever `drive` is in the runtime, so nothing depends on when `rmcp` does so.
What a frame, a request or a response carries is a parameter; the trailers
that `send_frame` collects inside the body writer are left out.
-/

namespace McpTemplate.Bridge

open Lib

/-- One call of `handle`, named by the order of arrival. -/
abbrev ExchangeId := Nat

variable {Req Resp Frame Code α : Type}

/-! ## Handing a frame to the host -/

/-- `timeout`, given what the future and the deadline answer at each poll:
the future is asked first, so a value that is ready when the deadline passes
still counts. -/
def timeout : List (Poll α × Bool) → Option (Except Unit α)
  | [] => none
  | (.ready value, _) :: _ => some (.ok value)
  | (.pending, true) :: _ => some (.error ())
  | (.pending, false) :: rest => timeout rest

inductive SendOutcome where
  | accepted
  | peerDropped
  | timedOut
  deriving DecidableEq, Repr

/-- The three arms of the pump's match on
`timeout(SEND_FRAME_TIMEOUT_MS, writer.send_frame(frame))`, whose inner result
is given as whether it is `Ok`. -/
def sendOutcome (polls : List (Poll Bool × Bool)) : Option SendOutcome :=
  (timeout polls).map fun
    | .ok true => .accepted
    | .ok false => .peerDropped
    | .error () => .timedOut

/-! ## One call -/

/-- The future a `drive` runs: `service.handle(request)`, or `poll_frame` of a
body that still holds these frames. -/
inductive Driving (Frame : Type) where
  | dispatch
  | nextFrame (body : List Frame)

inductive Phase (Req Frame : Type) where
  /-- Converting the request, routing it, buffering its body: no lock yet. -/
  | receiving
  /-- In `request_lock().lock_owned().await`. -/
  | locking
  /-- The lock is held; `drain_stale_jobs` comes next. -/
  | locked
  /-- In `drive`, inside `block_on`. -/
  | driving (future : Driving Frame)
  /-- In `drive`, awaiting `outbound::perform`. -/
  | performing (future : Driving Frame) (job : Job Req)
  /-- The response is here; its headers and status are being converted. -/
  | responding (body : List Frame)
  /-- A conversion failed: the call returns and drops the lock guard. -/
  | refusing
  /-- The pump awaits `send_frame`. -/
  | sending (frame : Frame) (body : List Frame)
  /-- The send failed: `drain_stale_jobs` and return. -/
  | stopping
  | stopped
  /-- The body is complete; the final result is being written. -/
  | closing
  | closed
  /-- Drained; `drop(_guard)` comes next. -/
  | drained
  /-- The lock is released; the transmission result is awaited. -/
  | observing
  | finished

inductive Event (Req Resp Frame : Type) where
  | answered
  | buffered
  | acquired
  | drained (dropped : List (Job Req))
  | took (job : Job Req)
  | replied (job : Job Req) (result : Reply Resp)
  | responded (body : List Frame)
  | refused
  | streaming
  | pulled (frame : Option Frame)
  | sent (frame : Frame) (outcome : SendOutcome)
  | wrote
  | released
  | observed
  | cancelled (dropped : Option (Job Req))

/-- The control flow of `handle` and of the pump it spawns. -/
def Phase.next : Phase Req Frame → Event Req Resp Frame → Option (Phase Req Frame)
  | .receiving, .answered => some .finished
  | .receiving, .buffered => some .locking
  | .receiving, .cancelled _ => some .finished
  | .locking, .acquired => some .locked
  | .locking, .cancelled _ => some .finished
  | .locked, .drained _ => some (.driving .dispatch)
  | .driving future, .took job => some (.performing future job)
  | .performing future _, .replied _ _ => some (.driving future)
  | .performing .dispatch _, .cancelled _ => some .finished
  | .driving .dispatch, .responded body => some (.responding body)
  | .responding _, .refused => some .refusing
  | .responding body, .streaming => some (.driving (.nextFrame body))
  | .refusing, .released => some .finished
  | .driving (.nextFrame (frame :: body)), .pulled (some _) =>
      some (.sending frame body)
  | .driving (.nextFrame []), .pulled none => some .closing
  | .sending _ body, .sent _ .accepted => some (.driving (.nextFrame body))
  | .sending _ _, .sent _ _ => some .stopping
  | .stopping, .drained _ => some .stopped
  | .stopped, .released => some .finished
  | .closing, .wrote => some .closed
  | .closed, .drained _ => some .drained
  | .drained, .released => some .observing
  | .observing, .observed => some .finished
  | _, _ => none

/-- The lock guard is alive. -/
def Phase.holds : Phase Req Frame → Bool
  | .receiving | .locking | .observing | .finished => false
  | _ => true

/-- The thread is inside `block_on`, where tasks of the runtime run. -/
def Phase.inRuntime : Phase Req Frame → Bool
  | .driving _ => true
  | _ => false

/-- The call stands at an `await` outside `block_on`, has not come yet, or is
over: the one thread is free for another call. -/
def Phase.yields : Phase Req Frame → Bool
  | .receiving | .locking | .performing _ _ | .sending _ _ | .closing
  | .observing | .finished => true
  | _ => false

/-- The job whose request the call is performing. -/
def Phase.held : Phase Req Frame → Option (Job Req)
  | .performing _ job => some job
  | _ => none

/-! ## Tool tasks -/

/-- What a task does when the runtime resumes it at a code point. A `fetch`
may sit inside a timeout or a `select!` that gives it up. -/
inductive Resume (Req Resp Code : Type) where
  | finish
  | await (next : Nat → Code)
  | spawn (child next : Code)
  | fetch (request : Req) (next : Reply Resp → Code) (giveUp : Option Code)

inductive TaskState (Resp Code : Type) where
  | ready (code : Code)
  | waiting (reply : ReplyId) (next : Reply Resp → Code) (giveUp : Option Code)
  | finished

/-- A task on the shared runtime, and the exchange whose tool it belongs to. -/
structure Task (Resp Code : Type) where
  owner : ExchangeId
  state : TaskState Resp Code

/-! ## The instance -/

structure World (Req Resp Frame Code : Type) where
  channels : Channels Req Resp
  lock : Option ExchangeId
  phase : ExchangeId → Phase Req Frame
  tasks : List (Task Resp Code)

/-- An instance before its first request. -/
def World.init : World Req Resp Frame Code :=
  ⟨.init, none, fun _ => .receiving, []⟩

/-- What a call does next, with what the outside world decides about it. That a
call can make a move is no promise that it will: the future of a drive and the
write of the final result have no deadline. -/
inductive Move (Resp Frame : Type) where
  | answer
  | buffer
  | acquire
  | drain
  | take
  | reply (result : Reply Resp)
  | respond (body : List Frame)
  | refuse
  | stream
  | pull
  | send (polls : List (Poll Bool × Bool))
  | write
  | release
  | observe
  | cancel

/-- What a move amounts to; `none` where it cannot be made. The mutex is
exclusive, the queue gives out its first job, and a cancelled call drops the
job it holds. -/
def World.offer (w : World Req Resp Frame Code) (e : ExchangeId) :
    Move Resp Frame → Option (Event Req Resp Frame)
  | .answer => some .answered
  | .buffer => some .buffered
  | .acquire => if w.lock = none then some .acquired else none
  | .drain => some (.drained w.channels.queue)
  | .take => w.channels.pollNextJob.map fun jc => .took jc.1
  | .reply result => (w.phase e).held.map fun job => .replied job result
  | .respond body => some (.responded body)
  | .refuse => some .refused
  | .stream => some .streaming
  | .pull =>
      match w.phase e with
      | .driving (.nextFrame body) => some (.pulled body.head?)
      | _ => none
  | .send polls =>
      match w.phase e with
      | .sending frame _ => (sendOutcome polls).map fun o => .sent frame o
      | _ => none
  | .write => some .wrote
  | .release => some .released
  | .observe => some .observed
  | .cancel => some (.cancelled (w.phase e).held)

/-- What an event of a call does to the shared lock and queue. -/
def World.effect (w : World Req Resp Frame Code) (e : ExchangeId) :
    Event Req Resp Frame → World Req Resp Frame Code
  | .acquired => { w with lock := some e }
  | .drained _ => { w with channels := w.channels.drainStaleJobs }
  | .took _ =>
      { w with channels := (w.channels.pollNextJob.map Prod.snd).getD w.channels }
  | .replied job result => { w with channels := w.channels.sendReply job result }
  | .released => { w with lock := none }
  | .cancelled dropped =>
      { w with
        channels := dropped.elim w.channels w.channels.dropJob
        lock := if (w.phase e).holds then none else w.lock }
  | _ => w

def World.setPhase (w : World Req Resp Frame Code) (e : ExchangeId)
    (p : Phase Req Frame) : World Req Resp Frame Code :=
  { w with phase := Function.update w.phase e p }

def World.setTask (w : World Req Resp Frame Code) (i : Nat)
    (task : Task Resp Code) : World Req Resp Frame Code :=
  { w with tasks := w.tasks.set i task }

/-- A step of the instance: a move of a call, or, inside the `drive` of the
call named first, `rmcp` spawning a tool task, the runtime polling a task
(with what any other await resolves to), or a task giving up a `fetch`. -/
inductive Action (Resp Frame Code : Type) where
  | exchange (e : ExchangeId) (move : Move Resp Frame)
  | dispatch (e : ExchangeId) (code : Code)
  | poll (e : ExchangeId) (task : Nat) (answer : Nat)
  | giveUp (e : ExchangeId) (task : Nat)

/-- The call that makes a step, or in whose `drive` it is made. -/
def Action.actor : Action Resp Frame Code → ExchangeId
  | .exchange e _ => e
  | .dispatch e _ => e
  | .poll e _ _ => e
  | .giveUp e _ => e

/-- The runtime polls a task. A task inside a `fetch` is polled only once its
reply channel has been written or closed. -/
def World.pollTask (resume : Code → Resume Req Resp Code)
    (w : World Req Resp Frame Code) (i answer : Nat) :
    Option (World Req Resp Frame Code) :=
  match w.tasks[i]? with
  | some ⟨owner, .ready code⟩ =>
      match resume code with
      | .finish => some (w.setTask i ⟨owner, .finished⟩)
      | .await next => some (w.setTask i ⟨owner, .ready (next answer)⟩)
      | .spawn child next =>
          let w := w.setTask i ⟨owner, .ready next⟩
          some { w with tasks := w.tasks ++ [⟨owner, .ready child⟩] }
      | .fetch request next giveUp =>
          let (reply, channels) := w.channels.submit request
          some { w.setTask i ⟨owner, .waiting reply next giveUp⟩ with
            channels := channels }
  | some ⟨owner, .waiting reply next _⟩ =>
      (w.channels.awaitReply reply).map fun result =>
        w.setTask i ⟨owner, .ready (next result)⟩
  | _ => none

/-- A task inside a `fetch` it can give up goes on without the reply. -/
def World.giveUpTask (w : World Req Resp Frame Code) (i : Nat) :
    Option (World Req Resp Frame Code) :=
  match w.tasks[i]? with
  | some ⟨owner, .waiting _ _ (some code)⟩ =>
      some (w.setTask i ⟨owner, .ready code⟩)
  | _ => none

/-- A step of the instance, where it can be made. Calls move in any order, also
one while another is between two of its awaits or inside `block_on`: that the
component has one thread excludes such orders, and is not asked here. So there
are more runs than the component has. -/
def World.step (resume : Code → Resume Req Resp Code)
    (w : World Req Resp Frame Code) :
    Action Resp Frame Code → Option (World Req Resp Frame Code)
  | .exchange e move => do
      let event ← w.offer e move
      let p ← (w.phase e).next event
      some ((w.effect e event).setPhase e p)
  | .dispatch e code =>
      if (w.phase e).inRuntime then
        some { w with tasks := w.tasks ++ [⟨e, .ready code⟩] }
      else none
  | .poll e i answer =>
      if (w.phase e).inRuntime then w.pollTask resume i answer else none
  | .giveUp e i =>
      if (w.phase e).inRuntime then w.giveUpTask i else none

/-- What a step shows: an event of a call, a tool's `fetch` submitted, with
the exchange the tool belongs to, or a `fetch` resolved. -/
inductive Obs (Req Resp Frame : Type) where
  | exchange (e : ExchangeId) (event : Event Req Resp Frame)
  | submitted (reply : ReplyId) (owner : ExchangeId) (request : Req)
  | resolved (reply : ReplyId) (result : Reply Resp)

/-- What polling a task shows. -/
def World.observeTask (resume : Code → Resume Req Resp Code)
    (w : World Req Resp Frame Code) (i : Nat) : List (Obs Req Resp Frame) :=
  match w.tasks[i]? with
  | some ⟨owner, .ready code⟩ =>
      match resume code with
      | .fetch request _ _ => [.submitted w.channels.fresh owner request]
      | _ => []
  | some ⟨_, .waiting reply _ _⟩ =>
      (w.channels.awaitReply reply).toList.map fun result =>
        .resolved reply result
  | _ => []

def World.emit (resume : Code → Resume Req Resp Code)
    (w : World Req Resp Frame Code) :
    Action Resp Frame Code → List (Obs Req Resp Frame)
  | .exchange e move => (w.offer e move).toList.map fun ev => .exchange e ev
  | .poll _ i _ => w.observeTask resume i
  | .dispatch _ _ => []
  | .giveUp _ _ => []

end McpTemplate.Bridge
