import McpTemplate.Lib.Text
import Mathlib.Logic.Function.Basic

/-!
# The tokio ↔ component-model bridge

`bridge.rs`, function by function: the static job queue, the two halves of
`outbound::fetch`, `drain_stale_jobs`, and `drive` with its biased `select!`.

The queue is an unbounded mpsc channel, so a list read at the front and
written at the back. A `oneshot` channel is an index into `slots`: its cell is
`pending` until the sender sends or is dropped, and the receiver reads the
cell. Sending on the queue cannot fail, because both ends are static, so the
first `BridgeClosed` of `fetch` has no branch here; the second one is what a
`closed` cell reads as.

What a job carries (a request, a response) is a parameter throughout: nothing
in the bridge looks inside either. The count `drain_stale_jobs` keeps for its
log line is left out.
-/

namespace McpTemplate.Bridge

open Lib

/-- `outbound::Error`. -/
inductive Error where
  | wasi (code : Str)
  | timedOut (millis : Nat)
  | responseTooLarge
  | bridgeClosed
  deriving DecidableEq, Repr

/-- What a `fetch` resolves with: `Result<http::Response<Bytes>, Error>`. -/
abbrev Reply (Resp : Type) := Except Error Resp

/-- A `oneshot` channel, named by the order of creation. -/
abbrev ReplyId := Nat

/-- A queued exchange: the request, and the sending half of its reply
channel. -/
structure Job (Req : Type) where
  request : Req
  reply : ReplyId
  deriving DecidableEq, Repr

/-- The cell of a `oneshot` channel, as its receiver finds it. -/
inductive Slot (Resp : Type) where
  | pending
  | sent (result : Reply Resp)
  | closed

/-- The job queue and every reply channel made so far. -/
structure Channels (Req Resp : Type) where
  queue : List (Job Req)
  slots : ReplyId → Slot Resp
  fresh : ReplyId

variable {Req Resp Val W σ : Type}

namespace Channels

/-- `job_queue()` as `OnceLock` first builds it. -/
def init : Channels Req Resp := ⟨[], fun _ => .pending, 0⟩

/-- `outbound::fetch` up to its `await`: a new reply channel, and the job at
the back of the queue. -/
def submit (b : Channels Req Resp) (request : Req) : ReplyId × Channels Req Resp :=
  (b.fresh,
    { queue := b.queue ++ [⟨request, b.fresh⟩]
      slots := Function.update b.slots b.fresh .pending
      fresh := b.fresh + 1 })

/-- `reply_rx.await` polled once: `none` while the channel is pending. -/
def awaitReply (b : Channels Req Resp) (c : ReplyId) : Option (Reply Resp) :=
  match b.slots c with
  | .pending => none
  | .sent result => some result
  | .closed => some (.error .bridgeClosed)

/-- `poll_next_job` polled once, which is also `try_recv`. -/
def pollNextJob (b : Channels Req Resp) : Option (Job Req × Channels Req Resp) :=
  match b.queue with
  | [] => none
  | job :: rest => some (job, { b with queue := rest })

/-- `reply.send(result)`; that nobody may be listening any more is ignored. -/
def sendReply (b : Channels Req Resp) (job : Job Req) (result : Reply Resp) :
    Channels Req Resp :=
  { b with slots := Function.update b.slots job.reply (.sent result) }

/-- Dropping a job drops its reply sender. -/
def dropJob (b : Channels Req Resp) (job : Job Req) : Channels Req Resp :=
  { b with slots := Function.update b.slots job.reply .closed }

/-- `drain_stale_jobs`: receive until the queue is empty, dropping each. -/
def drainStaleJobs (b : Channels Req Resp) : Channels Req Resp :=
  b.queue.foldl dropJob { b with queue := [] }

@[simp] theorem submit_fst (b : Channels Req Resp) (r : Req) :
    (b.submit r).1 = b.fresh := rfl

@[simp] theorem submit_queue (b : Channels Req Resp) (r : Req) :
    (b.submit r).2.queue = b.queue ++ [⟨r, b.fresh⟩] := rfl

@[simp] theorem submit_slots (b : Channels Req Resp) (r : Req) :
    (b.submit r).2.slots = Function.update b.slots b.fresh .pending := rfl

@[simp] theorem submit_fresh (b : Channels Req Resp) (r : Req) :
    (b.submit r).2.fresh = b.fresh + 1 := rfl

@[simp] theorem sendReply_queue (b : Channels Req Resp) (j : Job Req)
    (res : Reply Resp) : (b.sendReply j res).queue = b.queue := rfl

@[simp] theorem sendReply_slots (b : Channels Req Resp) (j : Job Req)
    (res : Reply Resp) :
    (b.sendReply j res).slots = Function.update b.slots j.reply (.sent res) :=
  rfl

@[simp] theorem sendReply_fresh (b : Channels Req Resp) (j : Job Req)
    (res : Reply Resp) : (b.sendReply j res).fresh = b.fresh := rfl

@[simp] theorem dropJob_queue (b : Channels Req Resp) (j : Job Req) :
    (b.dropJob j).queue = b.queue := rfl

@[simp] theorem dropJob_slots (b : Channels Req Resp) (j : Job Req) :
    (b.dropJob j).slots = Function.update b.slots j.reply .closed := rfl

@[simp] theorem dropJob_fresh (b : Channels Req Resp) (j : Job Req) :
    (b.dropJob j).fresh = b.fresh := rfl

theorem pollNextJob_eq_some {b b' : Channels Req Resp} {j : Job Req} :
    b.pollNextJob = some (j, b') ↔
      b.queue = j :: b'.queue ∧ b' = { b with queue := b'.queue } := by
  unfold pollNextJob
  cases hq : b.queue with
  | nil => simp
  | cons k rest =>
      simp only [Option.some.injEq, Prod.mk.injEq, List.cons.injEq]
      constructor
      · rintro ⟨rfl, rfl⟩; exact ⟨⟨rfl, rfl⟩, rfl⟩
      · rintro ⟨⟨rfl, hrest⟩, hb⟩; exact ⟨rfl, by rw [hb, hrest]⟩

theorem pollNextJob_eq_none {b : Channels Req Resp} :
    b.pollNextJob = none ↔ b.queue = [] := by
  unfold pollNextJob
  cases b.queue <;> simp

/-- What a chain of dropped jobs leaves: the queue untouched, and exactly the
cells of the dropped jobs closed. -/
theorem foldl_dropJob (js : List (Job Req)) (b : Channels Req Resp) :
    (js.foldl dropJob b).queue = b.queue ∧
      (js.foldl dropJob b).fresh = b.fresh ∧
      ∀ c, (js.foldl dropJob b).slots c =
        if c ∈ js.map Job.reply then .closed else b.slots c := by
  induction js generalizing b with
  | nil => simp
  | cons j js ih =>
      obtain ⟨hq, hf, hs⟩ := ih (b.dropJob j)
      refine ⟨hq, hf, fun c => ?_⟩
      rw [List.foldl_cons, hs c, dropJob_slots]
      by_cases hc : c ∈ js.map Job.reply
      · rw [if_pos hc, if_pos (by simp [hc])]
      · rw [if_neg hc]
        by_cases hcj : c = j.reply
        · subst hcj; simp
        · rw [Function.update_of_ne hcj,
            if_neg (by simpa [hcj] using hc)]

@[simp] theorem drainStaleJobs_queue (b : Channels Req Resp) :
    b.drainStaleJobs.queue = [] := (foldl_dropJob _ _).1

@[simp] theorem drainStaleJobs_fresh (b : Channels Req Resp) :
    b.drainStaleJobs.fresh = b.fresh := (foldl_dropJob _ _).2.1

theorem drainStaleJobs_slots (b : Channels Req Resp) (c : ReplyId) :
    b.drainStaleJobs.slots c =
      if c ∈ b.queue.map Job.reply then .closed else b.slots c :=
  (foldl_dropJob _ _).2.2 c

end Channels

/-! ## `drive` -/

/-- The answer of one poll. -/
inductive Poll (α : Type) where
  | ready (value : α)
  | pending

/-- A future of the tokio world: polling it in a state may submit jobs, read
replies, and move on. -/
abbrev Future (σ Req Resp Val : Type) :=
  σ → Channels Req Resp → Poll Val × σ × Channels Req Resp

/-- `enum Step` of `drive`. -/
inductive Step (Req Val : Type) where
  | done (value : Val)
  | job (job : Job Req)

/-- One poll of the `select!` in `drive`. It is biased: the queue is asked
first, and the future is polled only when the queue is empty. -/
def pollSelect (fut : Future σ Req Resp Val) (s : σ) (b : Channels Req Resp) :
    Option (Step Req Val) × σ × Channels Req Resp :=
  match b.pollNextJob with
  | some (job, b') => (some (.job job), s, b')
  | none =>
      match fut s b with
      | (.ready value, s', b') => (some (.done value), s', b')
      | (.pending, s', b') => (none, s', b')

/-- `Runtime::block_on`: poll, park until woken, poll again. The fuel counts
polls. -/
def blockOn (fut : Future σ Req Resp Val) :
    Nat → σ → Channels Req Resp → Option (Step Req Val × σ × Channels Req Resp)
  | 0, _, _ => none
  | fuel + 1, s, b =>
      match pollSelect fut s b with
      | (some step, s', b') => some (step, s', b')
      | (none, s', b') => blockOn fut fuel s' b'

/-- What `drive` leaves behind: its value, the requests it performed, in
order, the bridge, and the outside world. -/
structure Driven (Req Resp Val W : Type) where
  value : Val
  requests : List Req
  bridge : Channels Req Resp
  world : W

/-- `drive`. `perform` is `outbound::perform` seen from inside: a request, the
outside world before and after, and the reply. -/
def drive (fut : Future σ Req Resp Val) (perform : W → Req → Reply Resp × W) :
    Nat → σ → Channels Req Resp → W → Option (Driven Req Resp Val W)
  | 0, _, _, _ => none
  | fuel + 1, s, b, w =>
      match blockOn fut (fuel + 1) s b with
      | none => none
      | some (.done value, _, b') => some ⟨value, [], b', w⟩
      | some (.job job, s', b') =>
          let (result, w') := perform w job.request
          (drive fut perform fuel s' (b'.sendReply job result) w').map
            fun out => { out with requests := job.request :: out.requests }

/-! ## Tool code -/

/-- A tool as the bridge sees it: what it returns, where it waits for
something that is not the bridge, and where it awaits
`outbound::fetch(request)` and goes on with the reply. -/
inductive Tool (Req Resp Val : Type) where
  | done (value : Val)
  | pause (next : Tool Req Resp Val)
  | fetch (request : Req) (next : Reply Resp → Tool Req Resp Val)

/-- A tool future between two polls: about to go on, or suspended inside a
`fetch`. -/
inductive ToolState (Req Resp Val : Type) where
  | ready (tool : Tool Req Resp Val)
  | waiting (reply : ReplyId) (next : Reply Resp → Tool Req Resp Val)

/-- Tool code runs until it returns or suspends. -/
def Tool.resume (tool : Tool Req Resp Val) (b : Channels Req Resp) :
    Poll Val × ToolState Req Resp Val × Channels Req Resp :=
  match tool with
  | .done value => (.ready value, .ready (.done value), b)
  | .pause next => (.pending, .ready next, b)
  | .fetch request next =>
      (.pending, .waiting (b.submit request).1 next, (b.submit request).2)

/-- A tool as a future. -/
def Tool.poll : Future (ToolState Req Resp Val) Req Resp Val
  | .ready tool, b => tool.resume b
  | .waiting reply next, b =>
      match b.awaitReply reply with
      | none => (.pending, .waiting reply next, b)
      | some result => (next result).resume b

/-- One arm of a join: still running, or finished with its value kept. -/
inductive Branch (Req Resp Val : Type) where
  | running (state : ToolState Req Resp Val)
  | finished (value : Val)

/-- A join polls an arm unless it has finished. -/
def Branch.poll (branch : Branch Req Resp Val) (b : Channels Req Resp) :
    Branch Req Resp Val × Channels Req Resp :=
  match branch with
  | .finished value => (.finished value, b)
  | .running state =>
      match Tool.poll state b with
      | (.ready value, _, b') => (.finished value, b')
      | (.pending, state', b') => (.running state', b')

def Branch.value? : Branch Req Resp Val → Option Val
  | .running _ => none
  | .finished value => some value

/-- A join between two polls: its arms, and how often it has been polled. -/
structure JoinState (Req Resp Val : Type) where
  branches : List (Branch Req Resp Val)
  polls : Nat

/-- Polls the arms an order names, one after another. -/
def pollBranches : List Nat → List (Branch Req Resp Val) → Channels Req Resp →
    List (Branch Req Resp Val) × Channels Req Resp
  | [], branches, b => (branches, b)
  | i :: order, branches, b =>
      match branches[i]? with
      | none => pollBranches order branches b
      | some branch =>
          pollBranches order (branches.set i (branch.poll b).1)
            (branch.poll b).2

/-- Several tools joined in one future. `order n` is the arms the `n`th poll
visits, in order: `join!` visits all of them, other combinators only those
that were woken. -/
def Join.poll (order : Nat → List Nat) :
    Future (JoinState Req Resp Val) Req Resp (List Val) :=
  fun s b =>
    let (branches, b') := pollBranches (order s.polls) s.branches b
    match branches.mapM Branch.value? with
    | some values => (.ready values, ⟨branches, s.polls + 1⟩, b')
    | none => (.pending, ⟨branches, s.polls + 1⟩, b')

/-- The arms of a join before its first poll. -/
def Join.start (tools : List (Tool Req Resp Val)) : JoinState Req Resp Val :=
  ⟨tools.map fun tool => .running (.ready tool), 0⟩

end McpTemplate.Bridge
