import McpTemplate.Proofs.Fetches
import McpTemplate.Proofs.Drive
import Mathlib.Data.List.Pairwise

/-!
# What a tool task sees of the instance

A tool author writes `outbound::fetch(request).await` and reads it as a call.
Underneath, the request goes through a queue shared by all tools, is performed
by whichever call of `handle` holds the lock, and comes back through a cell
that may have been closed meanwhile. `Direct` is the author's reading: the
code alone, with a list of what has been asked so far and how each was
answered. `tasks_run_directly` is that it is the right reading, for every task
of every run: each answer belongs to the very submission the task made, which
no other task and no earlier request of its own shares, and it is what
performing that request gave unless it is `BridgeClosed`.

What is left behind when a call ends early is settled by the next one:
`drain_settles_fetches`.

`drive_is_a_run` goes the other way, and joins the two models of `drive`: what
the function `drive` does with one tool is a run of the instance, from
whatever world the call is driving in.
-/

namespace McpTemplate.Bridge

open Lib Lib.Machine

variable {Req Resp Frame Code : Type} {resume : Code → Resume Req Resp Code}

/-! ## Tool code read directly -/

/-- One `fetch` of a task: its reply channel, its request, and the answer, if
the task waited for it. -/
structure Asked (Req Resp : Type) where
  reply : ReplyId
  request : Req
  answer : Option (Reply Resp)

/-- Tool code started at `root` stands at a code point, having asked for
these. A task spawned by another goes on from what its parent had asked. -/
inductive Direct (resume : Code → Resume Req Resp Code) (root : Code) :
    List (Asked Req Resp) → Code → Prop
  | start : Direct resume root [] root
  | await {asked code next} (answer : Nat) (h : Direct resume root asked code)
      (hcode : resume code = .await next) : Direct resume root asked (next answer)
  | parent {asked code child next} (h : Direct resume root asked code)
      (hcode : resume code = .spawn child next) : Direct resume root asked next
  | child {asked code child next} (h : Direct resume root asked code)
      (hcode : resume code = .spawn child next) : Direct resume root asked child
  | fetch {asked code request next giveUp} (reply : ReplyId) (result : Reply Resp)
      (h : Direct resume root asked code)
      (hcode : resume code = .fetch request next giveUp) :
      Direct resume root (asked ++ [⟨reply, request, some result⟩]) (next result)
  | gaveUp {asked code request next code'} (reply : ReplyId)
      (h : Direct resume root asked code)
      (hcode : resume code = .fetch request next (some code')) :
      Direct resume root (asked ++ [⟨reply, request, none⟩]) code'

/-- Code that returns at once asks for nothing. -/
theorem Direct.of_finish {root : Code} (hroot : resume root = .finish)
    {asked : List (Asked Req Resp)} {code : Code}
    (h : Direct resume root asked code) : asked = [] ∧ code = root := by
  induction h with
  | start => exact ⟨rfl, rfl⟩
  | await _ _ hcode ih | parent _ hcode ih | child _ hcode ih | fetch _ _ _ hcode ih
  | gaveUp _ _ hcode ih =>
      rw [ih.2, hroot] at hcode
      cases hcode

/-- The answer to a `fetch` is what performing the request gave, or the job was
dropped. -/
def AnsweredBy (t : List (Obs Req Resp Frame)) (owner : ExchangeId) (reply : ReplyId)
    (request : Req) (result : Reply Resp) : Prop :=
  result = .error .bridgeClosed ∨ ∃ e, List.Sublist
    [.submitted reply owner request, .exchange e (.took ⟨request, reply⟩),
      .exchange e (.replied ⟨request, reply⟩ result)] t

/-- What a task of this exchange has asked for, as the run `t` shows it: every
request submitted for that exchange, under its own channel, each channel newer
than the one before, and every answer the answer to that submission. -/
structure AskedIn (t : List (Obs Req Resp Frame)) (owner : ExchangeId)
    (asked : List (Asked Req Resp)) : Prop where
  newer : (asked.map Asked.reply).Pairwise (· < ·)
  submitted : ∀ a ∈ asked, .submitted a.reply owner a.request ∈ t
  answered : ∀ a ∈ asked, ∀ result, a.answer = some result →
    .resolved a.reply result ∈ t ∧ AnsweredBy t owner a.reply a.request result

/-- Where a task stands, in the terms of its own code. -/
inductive Explained (resume : Code → Resume Req Resp Code) (root : Code)
    (t : List (Obs Req Resp Frame)) (owner : ExchangeId) : TaskState Resp Code → Prop
  | ready {asked code} (h : Direct resume root asked code)
      (hasked : AskedIn t owner asked) : Explained resume root t owner (.ready code)
  | waiting {asked code reply request next giveUp} (h : Direct resume root asked code)
      (hcode : resume code = .fetch request next giveUp)
      (hasked : AskedIn t owner (asked ++ [⟨reply, request, none⟩])) :
      Explained resume root t owner (.waiting reply next giveUp)
  | finished {asked code} (h : Direct resume root asked code)
      (hcode : resume code = .finish) (hasked : AskedIn t owner asked) :
      Explained resume root t owner .finished

/-- Every task comes from a tool that `rmcp` dispatched for its exchange. -/
def TasksInv (resume : Code → Resume Req Resp Code)
    (as : List (Action Resp Frame Code)) (t : List (Obs Req Resp Frame))
    (w : World Req Resp Frame Code) : Prop :=
  ∀ task ∈ w.tasks, ∃ root, .dispatch task.owner root ∈ as ∧
    Explained resume root t task.owner task.state

/-! ## What a longer run shows -/

theorem AnsweredBy.append {t : List (Obs Req Resp Frame)} {owner : ExchangeId}
    {reply : ReplyId} {request : Req} {result : Reply Resp}
    (h : AnsweredBy t owner reply request result) (t' : List (Obs Req Resp Frame)) :
    AnsweredBy (t ++ t') owner reply request result := by
  refine h.imp id ?_
  rintro ⟨e, hsub⟩
  exact ⟨e, hsub.trans (List.sublist_append_left t t')⟩

theorem AskedIn.append {t : List (Obs Req Resp Frame)} {owner : ExchangeId}
    {asked : List (Asked Req Resp)} (h : AskedIn t owner asked)
    (t' : List (Obs Req Resp Frame)) : AskedIn (t ++ t') owner asked where
  newer := h.newer
  submitted a ha := List.mem_append_left t' (h.submitted a ha)
  answered a ha result hr :=
    ⟨List.mem_append_left t' (h.answered a ha result hr).1,
      (h.answered a ha result hr).2.append t'⟩

theorem Explained.append {root : Code} {t : List (Obs Req Resp Frame)}
    {owner : ExchangeId} {state : TaskState Resp Code}
    (h : Explained resume root t owner state) (t' : List (Obs Req Resp Frame)) :
    Explained resume root (t ++ t') owner state := by
  cases h with
  | ready h hasked => exact .ready h (hasked.append t')
  | waiting h hcode hasked => exact .waiting h hcode (hasked.append t')
  | finished h hcode hasked => exact .finished h hcode (hasked.append t')

theorem TasksInv.append {as : List (Action Resp Frame Code)}
    {t : List (Obs Req Resp Frame)} {w : World Req Resp Frame Code}
    (h : TasksInv resume as t w) (t' : List (Obs Req Resp Frame)) :
    TasksInv resume as (t ++ t') w := by
  intro task htask
  obtain ⟨root, hroot, hex⟩ := h task htask
  exact ⟨root, hroot, hex.append t'⟩

theorem AskedIn.nil (t : List (Obs Req Resp Frame)) (owner : ExchangeId) :
    AskedIn t owner [] :=
  ⟨.nil, fun _ h => (List.not_mem_nil h).elim, fun _ h => (List.not_mem_nil h).elim⟩

/-- A submission names its job: no two share a channel. -/
theorem submitted_unique {t : List (Obs Req Resp Frame)} (h : (submits t).Nodup)
    {c : ReplyId} {e e' : ExchangeId} {r r' : Req} (hr : .submitted c e r ∈ t)
    (hr' : .submitted c e' r' ∈ t) : e = e' ∧ r = r' := by
  have hsymm : Std.Symm (Function.onFun List.Disjoint
      (Obs.submission : Obs Req Resp Frame → List ReplyId)) := ⟨fun _ _ hd _ hx hy => hd hy hx⟩
  have hapart := (List.nodup_flatMap.1 h).2
  by_cases heq : (.submitted c e r : Obs Req Resp Frame) = .submitted c e' r'
  · cases heq
    exact ⟨rfl, rfl⟩
  · have hdisj := hapart.forall hr hr' heq
    exact (hdisj List.mem_cons_self List.mem_cons_self).elim

section step

variable {w w' : World Req Resp Frame Code} {t : List (Obs Req Resp Frame)}
  {as : List (Action Resp Frame Code)} {owner : ExchangeId}
  {asked : List (Asked Req Resp)}

theorem AskedIn.lt_fresh (h : AskedIn t owner asked) (hjobs : JobsInv t w) :
    ∀ c ∈ asked.map Asked.reply, c < w.channels.fresh := by
  intro c hc
  obtain ⟨a, ha, rfl⟩ := List.mem_map.1 hc
  have hmem : a.reply ∈ submits t :=
    List.mem_flatMap.2 ⟨_, h.submitted a ha, List.mem_cons_self⟩
  rwa [hjobs.count, List.mem_range] at hmem

/-- A new `fetch` has a channel newer than all before it. -/
theorem AskedIn.submit (h : AskedIn t owner asked) (hjobs : JobsInv t w)
    (request : Req) :
    AskedIn (t ++ [.submitted w.channels.fresh owner request]) owner
      (asked ++ [⟨w.channels.fresh, request, none⟩]) where
  newer := by
    rw [List.map_append, List.pairwise_append]
    refine ⟨h.newer, List.pairwise_singleton _ _, ?_⟩
    intro c hc d hd
    rw [List.map_singleton, List.mem_singleton] at hd
    rw [hd]
    exact h.lt_fresh hjobs c hc
  submitted := by
    intro a ha
    rcases List.mem_append.1 ha with ha | ha
    · exact List.mem_append_left _ (h.submitted a ha)
    · rw [List.mem_singleton.1 ha]
      exact List.mem_append_right _ (List.mem_singleton_self _)
  answered := by
    intro a ha result hr
    rcases List.mem_append.1 ha with ha | ha
    · exact (h.append _).answered a ha result hr
    · rw [List.mem_singleton.1 ha] at hr
      cases hr

/-- The answer in a cell is the answer to the submission that made the cell. -/
theorem JobsInv.answeredBy (hjobs : JobsInv t w) {c : ReplyId} {request : Req}
    {result : Reply Resp} (hsub : .submitted c owner request ∈ t)
    (hreply : w.channels.awaitReply c = some result) :
    AnsweredBy t owner c request result := by
  refine (hjobs.awaitReply hreply).imp id ?_
  rintro ⟨e, ⟨request', _⟩, owner', rfl, hsublist⟩
  have hnodup : (submits t).Nodup := by
    rw [hjobs.count]
    exact List.nodup_range
  obtain ⟨rfl, rfl⟩ :=
    submitted_unique hnodup hsub (hsublist.subset List.mem_cons_self)
  exact ⟨e, hsublist⟩

/-- A `fetch` that was waited for is answered by its own job. -/
theorem AskedIn.resolve {c : ReplyId} {request : Req} {result : Reply Resp}
    (h : AskedIn t owner (asked ++ [⟨c, request, none⟩])) (hjobs : JobsInv t w)
    (hreply : w.channels.awaitReply c = some result) :
    AskedIn (t ++ [.resolved c result]) owner
      (asked ++ [⟨c, request, some result⟩]) where
  newer := by
    have hnewer := h.newer
    rw [List.map_append] at hnewer ⊢
    exact hnewer
  submitted := by
    intro a ha
    rcases List.mem_append.1 ha with ha | ha
    · exact List.mem_append_left _ (h.submitted a (List.mem_append_left _ ha))
    · rw [List.mem_singleton.1 ha]
      have hlast := h.submitted ⟨c, request, none⟩
        (List.mem_append_right _ (List.mem_singleton_self _))
      exact List.mem_append_left _ hlast
  answered := by
    intro a ha result' hr
    rcases List.mem_append.1 ha with ha | ha
    · exact (h.append _).answered a (List.mem_append_left _ ha) result' hr
    · rw [List.mem_singleton.1 ha] at hr ⊢
      cases hr
      have hsub := h.submitted _ (List.mem_append_right _ (List.mem_singleton_self _))
      exact ⟨List.mem_append_right _ (List.mem_singleton_self _),
        (hjobs.answeredBy hsub hreply).append _⟩

theorem TasksInv.concat (h : TasksInv resume as t w) {state : TaskState Resp Code}
    {root : Code} (htasks : w'.tasks = w.tasks ++ [⟨owner, state⟩])
    (hroot : .dispatch owner root ∈ as) (hnew : Explained resume root t owner state) :
    TasksInv resume as t w' := by
  intro task' hmem
  rw [htasks] at hmem
  rcases List.mem_append.1 hmem with hmem | hmem
  · exact h task' hmem
  · rw [List.mem_singleton.1 hmem]
    exact ⟨root, hroot, hnew⟩

theorem TasksInv.set (h : TasksInv resume as t w) {i : Nat}
    {state : TaskState Resp Code} {root : Code}
    (htasks : w'.tasks = w.tasks.set i ⟨owner, state⟩)
    (hroot : .dispatch owner root ∈ as) (hnew : Explained resume root t owner state) :
    TasksInv resume as t w' := by
  intro task' hmem
  rw [htasks] at hmem
  rcases List.mem_or_eq_of_mem_set hmem with hmem | rfl
  · exact h task' hmem
  · exact ⟨root, hroot, hnew⟩

/-- One step keeps every task explained: a task moves as its code does. -/
theorem World.Steps.tasksInv {a : Action Resp Frame Code}
    {obs : List (Obs Req Resp Frame)} (hstep : w.Steps resume a obs w')
    (hjobs : JobsInv t w) (ha : a ∈ as) (h : TasksInv resume as t w) :
    TasksInv resume as (t ++ obs) w' := by
  have hall := h.append obs
  have hget : ∀ {i : Nat} {task : Task Resp Code}, w.tasks[i]? = some task →
      ∃ root, .dispatch task.owner root ∈ as ∧
        Explained resume root t task.owner task.state :=
    fun hi => h _ (List.mem_of_getElem? hi)
  cases hstep with
  | @exchange e move ev p _ _ =>
      intro task htask
      have htasks : ((w.effect e ev).setPhase e p).tasks = w.tasks :=
        World.effect_tasks w e ev
      rw [htasks] at htask
      exact hall task htask
  | dispatch hin => exact hall.concat rfl ha (.ready .start (.nil _ _))
  | finish hin htask hcode =>
      obtain ⟨root, hroot, hex⟩ := hget htask
      cases hex with
      | ready hd hasked =>
          exact hall.set rfl hroot (.finished hd hcode (hasked.append _))
  | @await e i answer owner code next hin htask hcode =>
      obtain ⟨root, hroot, hex⟩ := hget htask
      cases hex with
      | ready hd hasked =>
          exact hall.set rfl hroot
            (.ready (.await answer hd hcode) (hasked.append _))
  | @spawn e i answer owner code child next hin htask hcode =>
      obtain ⟨root, hroot, hex⟩ := hget htask
      cases hex with
      | ready hd hasked =>
          have hset : TasksInv resume as (t ++ []) (w.setTask i ⟨owner, .ready next⟩) :=
            hall.set rfl hroot (.ready (.parent hd hcode) (hasked.append _))
          exact hset.concat rfl hroot (.ready (.child hd hcode) (hasked.append _))
  | fetch hin htask hcode =>
      obtain ⟨root, hroot, hex⟩ := hget htask
      cases hex with
      | ready hd hasked =>
          exact hall.set rfl hroot (.waiting hd hcode (hasked.submit hjobs _))
  | resolve hin htask hreply =>
      obtain ⟨root, hroot, hex⟩ := hget htask
      cases hex with
      | waiting hd hcode hasked =>
          exact hall.set rfl hroot
            (.ready (.fetch _ _ hd hcode) (hasked.resolve hjobs hreply))
  | giveUp hin htask =>
      obtain ⟨root, hroot, hex⟩ := hget htask
      cases hex with
      | waiting hd hcode hasked =>
          exact hall.set rfl hroot (.ready (.gaveUp _ hd hcode) (hasked.append _))

/-- Tool code of this exchange comes to a point where it asks for this. -/
def AskedFor (resume : Code → Resume Req Resp Code)
    (as : List (Action Resp Frame Code)) (owner : ExchangeId) (request : Req) : Prop :=
  ∃ root asked code next giveUp, .dispatch owner root ∈ as ∧
    Direct resume root asked code ∧ resume code = .fetch request next giveUp

/-- What a step submits, a task asks for. -/
theorem World.Steps.askedFor {a : Action Resp Frame Code}
    {obs : List (Obs Req Resp Frame)} (hstep : w.Steps resume a obs w')
    (h : TasksInv resume as t w) {c : ReplyId} {request : Req}
    (hmem : .submitted c owner request ∈ obs) : AskedFor resume as owner request := by
  cases hstep with
  | @fetch e i answer owner code request next giveUp hin htask hcode =>
      cases List.mem_singleton.1 hmem
      obtain ⟨root, hroot, hex⟩ := h _ (List.mem_of_getElem? htask)
      cases hex with
      | @ready asked _ hd _ => exact ⟨root, asked, code, next, giveUp, hroot, hd, hcode⟩
  | exchange | resolve => cases List.mem_singleton.1 hmem
  | _ => cases hmem

/-- What a step takes up was submitted. -/
theorem World.Steps.took {a : Action Resp Frame Code} {obs : List (Obs Req Resp Frame)}
    (hstep : w.Steps resume a obs w') (hjobs : JobsInv t w) {e : ExchangeId}
    {job : Job Req} (hmem : .exchange e (.took job) ∈ obs) :
    ∃ owner, .submitted job.reply owner job.request ∈ t := by
  cases hstep with
  | exchange hoffer hnext =>
      cases List.mem_singleton.1 hmem
      obtain ⟨b, hpoll⟩ := (World.offer_spec hoffer).2
      refine hjobs.asked job ?_
      rw [(Channels.pollNextJob_eq_some.1 hpoll).1]
      exact List.mem_cons_self
  | fetch | resolve => cases List.mem_singleton.1 hmem
  | _ => cases hmem

end step

/-- What is known of tasks and requests where a run has come to. -/
structure RunInv (resume : Code → Resume Req Resp Code)
    (as : List (Action Resp Frame Code)) (t : List (Obs Req Resp Frame))
    (w : World Req Resp Frame Code) : Prop where
  lock : w.LockWf
  jobs : JobsInv t w
  tasks : TasksInv resume as t w
  asked : ∀ c owner request, .submitted c owner request ∈ t →
    AskedFor resume as owner request
  taken : ∀ e job, .exchange e (.took job) ∈ t →
    ∃ owner, .submitted job.reply owner job.request ∈ t

theorem runInv {as : List (Action Resp Frame Code)} {w : World Req Resp Frame Code}
    (h : run (World.step resume) .init as = some w) :
    RunInv resume as (trace (World.step resume) (World.emit resume) .init as) w := by
  have hmeets : Meets (World.step resume) (fun _ a => a ∈ as) .init as :=
    meets_of_forall (fun a ha _ => ha) _
  have hinit : RunInv resume as [] (World.init : World Req Resp Frame Code) :=
    ⟨World.lockWf_init, jobsInv_init, fun _ h => (List.not_mem_nil h).elim,
      fun _ _ _ h => (List.not_mem_nil h).elim, fun _ _ h => (List.not_mem_nil h).elim⟩
  refine trace_invariant (I := RunInv resume as) ?_ hinit hmeets h
  intro t w a w' hw ha hstep
  have hsteps := World.step_steps hstep
  have hlock' := hsteps.lockWf hw.lock
  refine ⟨hlock', hsteps.jobStep.inv hw.lock.heldOnce hlock'.heldOnce hw.jobs,
    hsteps.tasksInv hw.jobs ha hw.tasks, ?_, ?_⟩
  · intro c owner request hmem
    rcases List.mem_append.1 hmem with hmem | hmem
    · exact hw.asked c owner request hmem
    · exact hsteps.askedFor hw.tasks hmem
  · intro e job hmem
    rcases List.mem_append.1 hmem with hmem | hmem
    · obtain ⟨owner, hsub⟩ := hw.taken e job hmem
      exact ⟨owner, List.mem_append_left _ hsub⟩
    · obtain ⟨owner, hsub⟩ := hsteps.took hw.jobs hmem
      exact ⟨owner, List.mem_append_left _ hsub⟩

/-- In every run, whatever the calls and the other tasks do meanwhile, each
task is where its own code leads from a tool dispatched for its exchange, when
every `fetch` on the way is read as a call: submitted once, for this exchange
and under a channel of its own, and answered, if the task waited for it, with
what some call got by performing exactly that request, or with
`BridgeClosed`. Nothing is performed but what the code of such a tool asks for,
and no channel carries two submissions or two answers. -/
theorem tasks_run_directly (resume : Code → Resume Req Resp Code)
    (as : List (Action Resp Frame Code)) (w : World Req Resp Frame Code)
    (h : run (World.step resume) .init as = some w) :
    let t := trace (World.step resume) (World.emit resume) .init as
    (∀ task ∈ w.tasks, ∃ root, .dispatch task.owner root ∈ as ∧
      Explained resume root t task.owner task.state) ∧
    (∀ e job, .exchange e (.took job) ∈ t →
      ∃ owner, AskedFor resume as owner job.request) ∧
    (submits t).Nodup ∧ (resolves t).Nodup := by
  intro t
  have hinv : RunInv resume as t w := runInv h
  have hwaits : WaitsInv t w := waitsInv_run h
  refine ⟨hinv.tasks, ?_, ?_, hwaits.nodup⟩
  · intro e job hmem
    obtain ⟨owner, hsub⟩ := hinv.taken e job hmem
    exact ⟨owner, hinv.asked _ _ _ hsub⟩
  · rw [hinv.jobs.count]
    exact List.nodup_range

/-- A tool that fetches and spawns, beside one whose call was cancelled. -/
theorem tasks_run_directly_spawning :
    let resume : Nat → Resume Nat Nat Nat := fun
      | 0 => .fetch 7 (fun _ => 1) none
      | 1 => .spawn 2 3
      | _ => .finish
    let as : List (Action Nat Unit Nat) :=
      [.exchange 0 .buffer, .exchange 0 .acquire, .exchange 0 .drain, .dispatch 0 0,
        .poll 0 0 0, .exchange 0 .take, .exchange 0 .cancel, .exchange 1 .buffer,
        .exchange 1 .acquire, .exchange 1 .drain, .dispatch 1 0, .poll 1 1 0,
        .exchange 1 .take, .exchange 1 (.reply (.ok 8)), .poll 1 0 0, .poll 1 1 0,
        .poll 1 1 0]
    let t := trace (World.step resume) (World.emit resume) .init as
    ∃ w, run (World.step resume) .init as = some w ∧ w.tasks.length = 3 ∧
      (∀ task ∈ w.tasks, ∃ root, .dispatch task.owner root ∈ as ∧
        Explained resume root t task.owner task.state) ∧
      (∀ e job, .exchange e (.took job) ∈ t →
        ∃ owner, AskedFor resume as owner job.request) ∧
      (submits t).Nodup ∧ (resolves t).Nodup :=
  ⟨_, rfl, rfl, tasks_run_directly _ _ _ rfl⟩

/-! ## Fetches left behind -/

section left

variable {w w' : World Req Resp Frame Code} {t : List (Obs Req Resp Frame)}

/-- A cell that is answered or closed stays as it is. -/
theorem JobStep.keeps {obs : List (Obs Req Resp Frame)} (hstep : JobStep w obs w')
    (hjobs : JobsInv t w) {c : ReplyId} (hc : c < w.channels.fresh)
    (hset : w.channels.slots c ≠ .pending) :
    w'.channels.slots c = w.channels.slots c := by
  have hother : ∀ {e job}, w.held e = some job → c ≠ job.reply := by
    intro e job hjob heq
    rw [heq] at hset
    exact hset (hjobs.held e job hjob).2.2
  cases hstep with
  | idle hch => rw [hch]
  | submit hch => rw [hch, Channels.submit_slots, Function.update_of_ne (Nat.ne_of_lt hc)]
  | drain hch =>
      have hnot : c ∉ w.channels.queue.map Job.reply := by
        intro hmem
        obtain ⟨job, hjob, rfl⟩ := List.mem_map.1 hmem
        exact hset (hjobs.wf.pending job hjob)
      rw [hch, Channels.drainStaleJobs_slots, if_neg hnot]
  | take hpoll => rw [(Channels.pollNextJob_eq_some.1 hpoll).2]
  | reply hjob hch =>
      rw [hch, Channels.sendReply_slots, Function.update_of_ne (hother hjob)]
  | drop hjob hch => rw [hch, Channels.dropJob_slots, Function.update_of_ne (hother hjob)]

/-- A `fetch` resolves with what is in its cell. -/
theorem World.Steps.resolved {a : Action Resp Frame Code}
    {obs : List (Obs Req Resp Frame)} (h : w.Steps resume a obs w') {c : ReplyId}
    {result : Reply Resp} (hmem : .resolved c result ∈ obs) :
    w.channels.awaitReply c = some result := by
  cases h with
  | resolve hin htask hreply =>
      cases List.mem_singleton.1 hmem
      exact hreply
  | exchange | fetch => cases List.mem_singleton.1 hmem
  | _ => cases hmem

/-- A call that has drained holds no job, and no other call can hold one. -/
theorem World.no_pending_of_drain {e : ExchangeId} (hlock : w'.LockWf)
    (hjobs : JobsInv t w') (hdrain : w.step resume (.exchange e .drain) = some w') :
    w'.channels.queue = [] ∧
      ∀ c < w'.channels.fresh, w'.channels.slots c ≠ .pending := by
  have hsteps := World.step_steps hdrain
  generalize w.emit resume (.exchange e .drain) = obs at hsteps
  cases hsteps with
  | @exchange e move ev p hoffer hnext =>
      cases hoffer
      have hqueue : (w.effect e (.drained w.channels.queue)).channels.queue = [] :=
        Channels.drainStaleJobs_queue _
      have hp : p.holds = true ∧ p.held = none := by
        have hedge := Phase.edge hnext
        generalize w.phase e = q at hedge
        cases hedge <;> exact ⟨rfl, rfl⟩
      let w₁ := (w.effect e (.drained w.channels.queue)).setPhase e p
      have hself : w₁.phase e = p := World.setPhase_self _ _ _
      refine ⟨hqueue, fun c hc hpend => ?_⟩
      rcases hjobs.cover c hc hpend with hq | ⟨f, job, hf, -⟩
      · have hnil : w₁.channels.queued = [] := congrArg (List.map Job.reply) hqueue
        rw [World.JobIn, hnil] at hq
        exact List.not_mem_nil hq
      · obtain ⟨future, hperf⟩ := Phase.held_eq_some.1 hf
        have hheld : w₁.lock = some f := (hlock f).1 (by rw [hperf]; rfl)
        have hown : w₁.lock = some e := (hlock e).1 (by rw [hself]; exact hp.1)
        obtain rfl : e = f := Option.some.inj (hown.symm.trans hheld)
        rw [World.held, hself, hp.2] at hf
        cases hf

end left

/-- What an instance keeps from the moment at which nothing was pending. -/
structure KeptFrom (w₁ : World Req Resp Frame Code) (t : List (Obs Req Resp Frame))
    (w : World Req Resp Frame Code) : Prop where
  lock : w.LockWf
  jobs : ∃ t, JobsInv t w
  fresh : w₁.channels.fresh ≤ w.channels.fresh
  slots : ∀ c < w₁.channels.fresh, w.channels.slots c = w₁.channels.slots c
  resolved : ∀ c < w₁.channels.fresh, ∀ result, .resolved c result ∈ t →
    w₁.channels.awaitReply c = some result

theorem keptFrom_run {w₁ w₂ : World Req Resp Frame Code}
    {bs : List (Action Resp Frame Code)} (hlock : w₁.LockWf)
    (hjobs : ∃ t, JobsInv t w₁)
    (hset : ∀ c < w₁.channels.fresh, w₁.channels.slots c ≠ .pending)
    (h : run (World.step resume) w₁ bs = some w₂) :
    KeptFrom w₁ (trace (World.step resume) (World.emit resume) w₁ bs) w₂ := by
  have hinit : KeptFrom w₁ [] w₁ :=
    ⟨hlock, hjobs, Nat.le_refl _, fun _ _ => rfl, fun _ _ _ hmem => by cases hmem⟩
  refine trace_invariant_all (I := KeptFrom w₁) ?_ hinit h
  intro t w a w' hw hstep
  have hsteps := World.step_steps hstep
  obtain ⟨t', hjobs'⟩ := hw.jobs
  have hlock' := hsteps.lockWf hw.lock
  refine ⟨hlock', ⟨_, hsteps.jobStep.inv hw.lock.heldOnce hlock'.heldOnce hjobs'⟩,
    hw.fresh.trans hsteps.jobStep.fresh_le, ?_, ?_⟩
  · intro c hc
    have hne : w.channels.slots c ≠ .pending := by
      rw [hw.slots c hc]
      exact hset c hc
    rw [hsteps.jobStep.keeps hjobs' (Nat.lt_of_lt_of_le hc hw.fresh) hne, hw.slots c hc]
  · intro c hc result hmem
    rcases List.mem_append.1 hmem with hmem | hmem
    · exact hw.resolved c hc result hmem
    · have hreply := hsteps.resolved hmem
      rwa [Channels.awaitReply, hw.slots c hc] at hreply

/-- Whatever a call finds left behind by those before it is settled when it
drains: the queue is empty, and every `fetch` submitted so far has its answer,
which is what performing it gave or `BridgeClosed`. The answers do not change
after that, whatever the instance goes on to do, and a `fetch` that is read
later reads the answer it had then. -/
theorem drain_settles_fetches (resume : Code → Resume Req Resp Code)
    (as bs : List (Action Resp Frame Code)) (w₁ w₂ : World Req Resp Frame Code)
    (e : ExchangeId)
    (h : run (World.step resume) .init (as ++ [.exchange e .drain]) = some w₁)
    (hrun : run (World.step resume) w₁ bs = some w₂) :
    let t := trace (World.step resume) (World.emit resume) .init
      (as ++ [.exchange e .drain])
    w₁.channels.queue = [] ∧
      ∀ c ∈ submits t, ∃ answer, w₁.channels.awaitReply c = some answer ∧
        (answer = .error .bridgeClosed ∨ PerformedAs t c answer) ∧
        w₂.channels.awaitReply c = some answer ∧
        ∀ result,
          .resolved c result ∈ trace (World.step resume) (World.emit resume) w₁ bs →
            result = answer := by
  intro t
  have hjobs : JobsInv t w₁ := jobsInv_run h
  obtain ⟨w, -, hlast⟩ := run_append_eq_some.1 h
  obtain ⟨w₁', hdrain, hend⟩ := run_cons.1 hlast
  have hlast' : w₁' = w₁ := Option.some.inj hend
  rw [hlast'] at hdrain
  obtain ⟨hqueue, hset⟩ := World.no_pending_of_drain (lockWf_run h) hjobs hdrain
  have hkept := keptFrom_run (lockWf_run h) ⟨t, hjobs⟩ hset hrun
  refine ⟨hqueue, fun c hc => ?_⟩
  rw [hjobs.count, List.mem_range] at hc
  obtain ⟨answer, hanswer⟩ : ∃ answer, w₁.channels.awaitReply c = some answer := by
    unfold Channels.awaitReply
    cases hslot : w₁.channels.slots c with
    | pending => exact absurd hslot (hset c hc)
    | sent result => exact ⟨result, rfl⟩
    | closed => exact ⟨_, rfl⟩
  refine ⟨answer, hanswer, hjobs.awaitReply hanswer, ?_, ?_⟩
  · rw [Channels.awaitReply, hkept.slots c hc]
    exact hanswer
  · intro result hmem
    have hreply := hkept.resolved c hc result hmem
    exact Option.some.inj (hreply.symm.trans hanswer)

/-- A tool whose call is cancelled while its first `fetch` is performed and its
second is queued; the next call drains, and reads both. -/
theorem drain_settles_fetches_cancelled :
    let resume : Nat → Resume Nat Nat Nat := fun code =>
      if code = 0 then .fetch 5 (fun _ => 1) none else .finish
    let as : List (Action Nat Unit Nat) :=
      [.exchange 0 .buffer, .exchange 0 .acquire, .exchange 0 .drain, .dispatch 0 0,
        .dispatch 0 0, .poll 0 0 0, .poll 0 1 0, .exchange 0 .take, .exchange 0 .cancel,
        .exchange 1 .buffer, .exchange 1 .acquire]
    let bs : List (Action Nat Unit Nat) := [.poll 1 0 0, .poll 1 1 0]
    let t := trace (World.step resume) (World.emit resume) .init
      (as ++ [.exchange 1 .drain])
    submits t = [0, 1] ∧ ∃ w₁ w₂ : World Nat Nat Unit Nat,
      run (World.step resume) w₁ bs = some w₂ ∧ w₁.channels.queue = [] ∧
        ∀ c ∈ submits t, ∃ answer, w₁.channels.awaitReply c = some answer ∧
          (answer = .error .bridgeClosed ∨ PerformedAs t c answer) ∧
          w₂.channels.awaitReply c = some answer ∧
          ∀ result,
            .resolved c result ∈ trace (World.step resume) (World.emit resume) w₁ bs →
              result = answer :=
  ⟨rfl, _, _, rfl, drain_settles_fetches _ _ _ _ _ 1 rfl rfl⟩

/-! ## `drive` as a run of the instance -/

section drive

variable {Val W : Type} {e : ExchangeId} {i : Nat}

/-- Tool code for the instance, from tool code for `drive`. -/
def Tool.asCode : Tool Req Resp Val → Resume Req Resp (Tool Req Resp Val)
  | .done _ => .finish
  | .pause next => .await fun _ => next
  | .fetch request next => .fetch request next none

/-- The requests of the direct run, each with its reply. -/
def Tool.replies (perform : W → Req → Reply Resp × W) :
    Tool Req Resp Val → W → List (Req × Reply Resp)
  | .done _, _ => []
  | .pause next, x => next.replies perform x
  | .fetch request next, x =>
      let (result, x') := perform x request
      (request, result) :: (next result).replies perform x'

/-- What the calls of a run performed, in order. -/
def performed (t : List (Obs Req Resp Frame)) : List (Req × Reply Resp) :=
  t.filterMap fun
    | .exchange _ (.replied job result) => some (job.request, result)
    | _ => none

/-- On an empty queue only what the next poll does matters. -/
theorem drive_congr {σ : Type} {fut : Future σ Req Resp Val}
    {perform : W → Req → Reply Resp × W} {s s' : σ} {b : Channels Req Resp} {x : W}
    (hq : b.queue = []) (hs : fut s b = fut s' b) (n : Nat) :
    drive fut perform n s b x = drive fut perform n s' b x := by
  have hselect : pollSelect fut s b = pollSelect fut s' b := by
    simp only [pollSelect, Channels.pollNextJob_eq_none.2 hq, hs]
  cases n with
  | zero => rfl
  | succ n => simp only [drive, blockOn, hselect]

/-- A `fetch` served at once: submitted, taken, performed and read. -/
theorem World.fetch_round {w : World Req Resp Frame Code} {future : Driving Frame}
    {owner : ExchangeId} {code : Code} {request : Req} {next : Reply Resp → Code}
    {giveUp : Option Code} (hp : w.phase e = .driving future)
    (hq : w.channels.queue = []) (htask : w.tasks[i]? = some ⟨owner, .ready code⟩)
    (hcode : resume code = .fetch request next giveUp) (result : Reply Resp) :
    let job : Job Req := ⟨request, w.channels.fresh⟩
    let as : List (Action Resp Frame Code) := [.poll e i 0, .exchange e .take,
      .exchange e (.reply result), .poll e i 0]
    run (World.step resume) w as = some
      { w.setTask i ⟨owner, .ready (next result)⟩ with
        channels := Channels.sendReply
          { (w.channels.submit request).2 with queue := [] } job result } ∧
      trace (World.step resume) (World.emit resume) w as =
        [.submitted job.reply owner request, .exchange e (.took job),
          .exchange e (.replied job result), .resolved job.reply result] := by
  intro job as
  have hlt : i < w.tasks.length := (List.getElem?_eq_some_iff.1 htask).1
  let waiting : Task Resp Code := ⟨owner, .waiting w.channels.fresh next giveUp⟩
  let taken : Channels Req Resp := { (w.channels.submit request).2 with queue := [] }
  let w₁ : World Req Resp Frame Code :=
    { w.setTask i waiting with channels := (w.channels.submit request).2 }
  let w₂ := { w₁ with channels := taken }.setPhase e (.performing future job)
  let w₃ := { w₁ with channels := taken.sendReply job result }
  have hin : (w.phase e).inRuntime = true := by rw [hp]; rfl
  have hqueue : w₁.channels.queue = [job] := by
    show w.channels.queue ++ [job] = [job]
    rw [hq, List.nil_append]
  have hwait : w₃.tasks[i]? = some waiting := List.getElem?_set_self hlt
  have h₁ : w.step resume (.poll e i 0) = some w₁ ∧
      w.emit resume (.poll e i 0) = [.submitted job.reply owner request] := by
    simp only [World.step, World.emit, World.pollTask, World.observeTask, hin, htask,
      hcode, if_true]
    exact ⟨rfl, rfl⟩
  have h₂ : w₁.step resume (.exchange e .take) = some w₂ ∧
      w₁.emit resume (.exchange e .take) = [.exchange e (.took job)] := by
    have hpoll : w₁.channels.pollNextJob = some (job, taken) := by
      rw [Channels.pollNextJob_eq_some]
      exact ⟨hqueue, rfl⟩
    have hphase : w₁.phase e = .driving future := hp
    simp [World.step, World.emit, World.offer, World.effect, hpoll, hphase, Phase.next,
      w₂]
  have h₃ : w₂.step resume (.exchange e (.reply result)) = some w₃ ∧
      w₂.emit resume (.exchange e (.reply result)) =
        [.exchange e (.replied job result)] := by
    have hphase : w₂.phase e = .performing future job := World.setPhase_self _ _ _
    have hback : Function.update w₂.phase e (.driving future) = w₁.phase := by
      rw [← show w₁.phase e = .driving future from hp]
      simp only [w₂, World.setPhase, Function.update_idem, Function.update_eq_self]
    have hworld : (w₂.effect e (.replied job result)).setPhase e (.driving future) =
        w₃ := by
      simp only [World.setPhase, World.effect_phase, hback]
      rfl
    simp [World.step, World.emit, World.offer, hphase, Phase.next, Phase.held, hworld]
  have h₄ : w₃.step resume (.poll e i 0) = some
        { w₃ with tasks := w₃.tasks.set i ⟨owner, .ready (next result)⟩ } ∧
      w₃.emit resume (.poll e i 0) = [.resolved job.reply result] := by
    have hreply : w₃.channels.awaitReply w.channels.fresh = some result := by
      simp [Channels.awaitReply, w₃, Channels.sendReply, job]
    have hin₃ : (w₃.phase e).inRuntime = true := hin
    simp only [World.step, World.emit, World.pollTask, World.observeTask, hin₃, hwait,
      hreply, waiting, if_true]
    exact ⟨rfl, rfl⟩
  constructor
  · simp only [as, run, h₁.1, h₂.1, h₃.1, h₄.1, Option.bind_some]
    simp only [w₃, w₁, World.setTask, List.set_set, job, taken]
  · simp only [as, trace_cons h₁.1, trace_cons h₂.1, trace_cons h₃.1, trace_cons h₄.1,
      h₁.2, h₂.2, h₃.2, h₄.2, trace_nil]
    rfl

/-- The world in which a tool of the call `e` is at its end. -/
def World.toolDone (w : World Req Resp Frame (Tool Req Resp Val)) (e : ExchangeId)
    (i : Nat) (value : Val) (b : Channels Req Resp) :
    World Req Resp Frame (Tool Req Resp Val) :=
  { w.setTask i ⟨e, .ready (.done value)⟩ with channels := b }

/-- The induction of `drive_is_a_run` follows the tool, as `drive` does. -/
theorem tool_run (perform : W → Req → Reply Resp × W) (tool : Tool Req Resp Val) :
    ∀ (w : World Req Resp Frame (Tool Req Resp Val)) (x : W) (future : Driving Frame),
      w.phase e = .driving future → w.channels.queue = [] →
      w.tasks[i]? = some ⟨e, .ready tool⟩ →
      ∃ as n b, drive Tool.poll perform n (.ready tool) w.channels x =
          some ⟨(tool.direct perform x).1, (tool.direct perform x).2.1, b,
            (tool.direct perform x).2.2⟩ ∧
        (∀ a ∈ as, a.actor = e) ∧
        run (World.step Tool.asCode) w as =
          some (w.toolDone e i (tool.direct perform x).1 b) ∧
        performed (trace (World.step Tool.asCode) (World.emit Tool.asCode) w as) =
          tool.replies perform x := by
  induction tool with
  | done v =>
      intro w x future hp hq htask
      have hsame : w.tasks.set i ⟨e, .ready (.done v)⟩ = w.tasks := by
        obtain ⟨hlt, hget⟩ := List.getElem?_eq_some_iff.1 htask
        rw [← hget, List.set_getElem_self]
      refine ⟨[], 1, w.channels, drive_done (pollSelect_ready hq rfl),
        fun a ha => (List.not_mem_nil ha).elim, ?_, rfl⟩
      simp only [run, World.toolDone, World.setTask, Tool.direct, hsame]
  | pause next ih =>
      intro w x future hp hq htask
      have hlt : i < w.tasks.length := (List.getElem?_eq_some_iff.1 htask).1
      have hin : (w.phase e).inRuntime = true := by rw [hp]; rfl
      let w₁ := w.setTask i ⟨e, .ready next⟩
      have hstep : w.step Tool.asCode (.poll e i 0) = some w₁ ∧
          w.emit Tool.asCode (.poll e i 0) = [] := by
        simp only [World.step, World.emit, World.pollTask, World.observeTask, hin, htask,
          Tool.asCode, if_true, and_true]
        rfl
      obtain ⟨as, n, b, hdrive, hactor, hrun, hperf⟩ :=
        ih w₁ x future hp hq (List.getElem?_set_self hlt)
      refine ⟨.poll e i 0 :: as, n + 1, b,
        drive_pending (pollSelect_pending hq rfl) hdrive, ?_, ?_, ?_⟩
      · intro a ha
        rcases List.mem_cons.1 ha with rfl | ha
        · rfl
        · exact hactor a ha
      · rw [run, hstep.1, Option.bind_some, hrun]
        simp only [World.toolDone, w₁, World.setTask, List.set_set, Tool.direct]
      · rw [trace_cons hstep.1, hstep.2, List.nil_append, hperf, Tool.replies]
  | fetch request next ih =>
      intro w x future hp hq htask
      let job : Job Req := ⟨request, w.channels.fresh⟩
      let taken : Channels Req Resp :=
        { (w.channels.submit request).2 with queue := [] }
      let served : Channels Req Resp := taken.sendReply job (perform x request).1
      have hcode : Tool.asCode (.fetch request next) = .fetch request next none := rfl
      obtain ⟨hround, hshown⟩ := World.fetch_round hp hq htask hcode (perform x request).1
      have hlt : i < w.tasks.length := (List.getElem?_eq_some_iff.1 htask).1
      have hjob : (w.channels.submit request).2.pollNextJob = some (job, taken) := by
        rw [Channels.pollNextJob_eq_some]
        simp [hq, job, taken]
      have hread : Tool.poll (.waiting w.channels.fresh next) served =
          Tool.poll (.ready (next (perform x request).1)) served := by
        simp [Tool.poll, Channels.awaitReply, job, served]
      let w₁ : World Req Resp Frame (Tool Req Resp Val) :=
        { w.setTask i ⟨e, .ready (next (perform x request).1)⟩ with channels := served }
      obtain ⟨as, n, b, hdrive, hactor, hrun, hperf⟩ :=
        ih (perform x request).1 w₁ (perform x request).2 future hp rfl
          (List.getElem?_set_self hlt)
      rw [← drive_congr (b := served) rfl hread] at hdrive
      refine ⟨[.poll e i 0, .exchange e .take, .exchange e (.reply (perform x request).1),
        .poll e i 0] ++ as, n + 1 + 1, b,
        drive_pending (pollSelect_pending hq rfl)
          (drive_job (pollSelect_queue hjob) hdrive), ?_, ?_, ?_⟩
      · intro a ha
        rcases List.mem_append.1 ha with ha | ha
        · simp only [List.mem_cons, List.not_mem_nil, or_false] at ha
          rcases ha with rfl | rfl | rfl | rfl <;> rfl
        · exact hactor a ha
      · rw [run_append hround, hrun]
        simp only [World.toolDone, w₁, World.setTask, List.set_set, Tool.direct]
      · rw [trace_append hround, hshown, performed, List.filterMap_append]
        show (request, (perform x request).1) :: performed _ = _
        rw [hperf, Tool.replies]

/-- What the function `drive` does with a tool, the instance can do: from any
world whose call `e` is in a drive with nothing queued, the steps of `e` alone
take the tool, once dispatched, to the value of its direct run, perform the
requests of that run with its replies, in order, leave the channels as `drive`
does, and change nothing else. -/
theorem drive_is_a_run (perform : W → Req → Reply Resp × W) (tool : Tool Req Resp Val)
    (w : World Req Resp Frame (Tool Req Resp Val)) (e : ExchangeId)
    (future : Driving Frame) (x : W) (hp : w.phase e = .driving future)
    (hq : w.channels.queue = []) :
    ∃ as n b, (∀ m, n ≤ m →
        drive Tool.poll perform m (.ready tool) w.channels x =
          some ⟨(tool.direct perform x).1, (tool.direct perform x).2.1, b,
            (tool.direct perform x).2.2⟩) ∧
      (∀ a ∈ as, a.actor = e) ∧
      run (World.step Tool.asCode) w (.dispatch e tool :: as) = some { w with
        tasks := w.tasks ++ [⟨e, .ready (.done (tool.direct perform x).1)⟩]
        channels := b } ∧
      performed (trace (World.step Tool.asCode) (World.emit Tool.asCode) w
        (.dispatch e tool :: as)) = tool.replies perform x := by
  have hin : (w.phase e).inRuntime = true := by rw [hp]; rfl
  let w₁ : World Req Resp Frame (Tool Req Resp Val) :=
    { w with tasks := w.tasks ++ [⟨e, .ready tool⟩] }
  have hstep : w.step Tool.asCode (.dispatch e tool) = some w₁ := by
    simp only [World.step, hin, if_true, w₁]
  obtain ⟨as, n, b, hdrive, hactor, hrun, hperf⟩ :=
    tool_run (i := w.tasks.length) perform tool w₁ x future hp hq (by simp [w₁])
  refine ⟨as, n, b, fun m hm => drive_mono hdrive hm, hactor, ?_, ?_⟩
  · rw [run, hstep, Option.bind_some, hrun]
    simp [World.toolDone, World.setTask, w₁]
  · rw [trace_cons hstep, ← hperf]
    rfl

/-- A second call drives a tool that waits and then fetches. -/
theorem drive_is_a_run_second :
    let perform : Nat → Nat → Reply Nat × Nat := fun x r => (.ok (r + x), x + 1)
    let tool : Tool Nat Nat (Option (Reply Nat)) :=
      .pause (.fetch 10 fun
        | .ok r => .fetch r fun result => .done (some result)
        | .error _ => .done none)
    ∃ w, run (World.step Tool.asCode) .init
        ([.exchange 1 .buffer, .exchange 1 .acquire, .exchange 1 .drain] :
          List (Action Nat Nat (Tool Nat Nat (Option (Reply Nat))))) = some w ∧
      ∃ as n b, (∀ m, n ≤ m → drive Tool.poll perform m (.ready tool) w.channels 5 =
          some ⟨some (.ok 21), [10, 15], b, 7⟩) ∧
        (∀ a ∈ as, a.actor = 1) ∧
        run (World.step Tool.asCode) w (.dispatch 1 tool :: as) = some { w with
          tasks := w.tasks ++ [⟨1, .ready (.done (some (.ok 21)))⟩]
          channels := b } ∧
        performed (trace (World.step Tool.asCode) (World.emit Tool.asCode) w
          (.dispatch 1 tool :: as)) = [(10, .ok 15), (15, .ok 21)] :=
  ⟨_, rfl, drive_is_a_run _ _ _ 1 .dispatch 5 rfl rfl⟩

end drive

end McpTemplate.Bridge
