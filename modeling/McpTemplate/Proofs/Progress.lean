import McpTemplate.Proofs.Fetches
import McpTemplate.Proofs.Perform

/-!
# How far a call is from its end

A call does not go on for ever by itself. `Phase.remaining` is what it still
has before it, and a step of its own costs one of it; only a job that its drive
takes, and the frames of the body that the transport produces, add to it. So
what a call does is bounded by the work it is given.

And it waits for few things without an end. The two deadlines see to it that
neither a silent upstream nor a peer that reads no frame keeps the lock: from
everywhere there is a short way to where it is free, by moves that a starved
call can make. Two awaits of a call that holds the lock have no deadline, the
future in its drive and the write of the final result. What is given at these
is `Given`, and where it is not, the call is left there and nowhere else.
-/

namespace McpTemplate.Bridge

open Lib Lib.Machine Outbound

variable {Req Resp Frame Code : Type} {resume : Code → Resume Req Resp Code}

/-! ## The moves of one call -/

/-- The moves a call has before it, two for each frame that is left. -/
def Driving.remaining : Driving Frame → Nat
  | .dispatch => 7
  | .nextFrame body => 5 + 2 * body.length

def Phase.remaining : Phase Req Frame → Nat
  | .receiving => 10
  | .locking => 9
  | .locked => 8
  | .driving future => future.remaining
  | .performing future _ => future.remaining + 1
  | .responding body => 6 + 2 * body.length
  | .refusing => 1
  | .sending _ body => 6 + 2 * body.length
  | .stopping => 2
  | .stopped => 1
  | .closing => 4
  | .closed => 3
  | .drained => 2
  | .observing => 1
  | .finished => 0

/-- The jobs a call has taken. -/
def jobsTaken (evs : List (Event Req Resp Frame)) : List (Job Req) :=
  evs.filterMap fun
    | .took job => some job
    | _ => none

/-- A move costs one; a job that is taken gives two, and so does each frame of
a response. -/
theorem Phase.Edge.remaining {p p' : Phase Req Frame} {ev : Event Req Resp Frame}
    (h : p.Edge ev p') : p'.remaining + 1 ≤
      p.remaining + 2 * (jobsTaken [ev]).length + 2 * ev.producedBody.length := by
  cases h <;> simp [Phase.remaining, Driving.remaining, jobsTaken, Event.producedBody] <;>
    omega

/-- What a call has done and what it has before it are bounded by what it was
given. -/
def Bounded (evs : List (Event Req Resp Frame)) (p : Phase Req Frame) : Prop :=
  evs.length + p.remaining ≤ 10 + 2 * (jobsTaken evs).length + 2 * (produced evs).length

theorem Bounded.next {evs : List (Event Req Resp Frame)} {p p' : Phase Req Frame}
    {ev : Event Req Resp Frame} (h : Bounded evs p) (hnext : p.next ev = some p') :
    Bounded (evs ++ [ev]) p' := by
  have hedge := (Phase.edge hnext).remaining
  have htaken : jobsTaken (evs ++ [ev]) = jobsTaken evs ++ jobsTaken [ev] :=
    List.filterMap_append
  unfold Bounded at h ⊢
  rw [htaken, produced_concat, List.length_append, List.length_append,
    List.length_append, List.length_singleton]
  omega

theorem bounded_run {w : World Req Resp Frame Code} {as : List (Action Resp Frame Code)}
    (h : run (World.step resume) .init as = some w) (e : ExchangeId) :
    Bounded (eventsOf e (trace (World.step resume) (World.emit resume) .init as))
      (w.phase e) := by
  refine trace_invariant_all (I := fun t w => Bounded (eventsOf e t) (w.phase e))
    ?_ (Nat.le_refl _) h
  intro t w a w' hI hstep
  rw [eventsOf_append]
  rcases (World.step_steps hstep).call e with ⟨hobs, hp⟩ | ⟨ev, p, hobs, -, hnext, hp⟩
  · rw [hobs, hp, List.append_nil]
    exact hI
  · rw [hobs, hp]
    exact hI.next hnext

/-- In every run of the instance, what a call has done and what it has still
before it are ten moves, two for each job it has taken, and two for each frame
of its response. -/
theorem call_moves_bounded (resume : Code → Resume Req Resp Code)
    {w : World Req Resp Frame Code} {as : List (Action Resp Frame Code)}
    (h : run (World.step resume) .init as = some w) (e : ExchangeId) :
    let evs := eventsOf e (trace (World.step resume) (World.emit resume) .init as)
    evs.length + (w.phase e).remaining ≤
      10 + 2 * (jobsTaken evs).length + 2 * (produced evs).length :=
  bounded_run h e

/-- A tool that fetches. -/
def fetchingTool : Nat → Resume Nat Nat Nat
  | 0 => .fetch 7 (fun _ => 1) none
  | _ => .finish

/-- A call that performs a job of its tool while another call waits. -/
def busy : List (Action Nat Nat Nat) :=
  [.exchange 0 .buffer, .exchange 1 .buffer, .exchange 0 .acquire, .exchange 0 .drain,
    .dispatch 0 0, .poll 0 0 0, .exchange 0 .take]

theorem call_moves_bounded_busy :
    ∃ w, run (World.step fetchingTool) .init busy = some w ∧
      let evs := eventsOf 0
        (trace (World.step fetchingTool) (World.emit fetchingTool) .init busy)
      evs.length + (w.phase 0).remaining ≤
        10 + 2 * (jobsTaken evs).length + 2 * (produced evs).length :=
  ⟨_, rfl, call_moves_bounded fetchingTool rfl 0⟩

/-! ## The way to a free lock -/

/-- Deadline for the host to accept one response-body frame. -/
def SEND_FRAME_TIMEOUT_MS : Nat := 60000

/-- A send that nothing answers: the peer does not read, and does not go. -/
def unread : Unit → Empty → Progress Unit Bool := fun _ => nofun

/-- What `timeout` finds at the polls of a send that nothing answers. -/
def unreadPolls (clock : Clock (deadlineNanos SEND_FRAME_TIMEOUT_MS)) :
    List (Poll Bool × Bool) :=
  pollsAt unread (deadlineNanos SEND_FRAME_TIMEOUT_MS) clock.times (.waiting ()) []

theorem sendOutcome_unread (clock : Clock (deadlineNanos SEND_FRAME_TIMEOUT_MS)) :
    sendOutcome (unreadPolls clock) = some .timedOut := by
  obtain ⟨t, ht, -⟩ := clock.fires
  rw [sendOutcome, unreadPolls, timeout_pollsAt clock.sorted ht]
  rfl

/-- What a call is given where it waits without a deadline. -/
structure Given (Frame : Type) where
  /-- The body that the transport responds with, if its futures complete. -/
  transport : Option (List Frame)
  /-- The host takes the final result, or is gone. -/
  takesResult : Bool

/-- The moves of a call that is given this and no more: the upstream is silent
until the deadline of the request has passed, and the peer reads nothing until
that of the frame has. -/
inductive Move.Starved (var : Str → Option Str)
    (clock : Clock (deadlineNanos SEND_FRAME_TIMEOUT_MS)) (given : Given Frame) :
    Move Resp Frame → Prop
  | drain : Starved var clock given .drain
  | take : Starved var clock given .take
  | reply : Starved var clock given (.reply (.error (.timedOut (timeoutMs var))))
  | respond {body} (h : given.transport = some body) :
      Starved var clock given (.respond body)
  | stream : Starved var clock given .stream
  | pull {body} (h : given.transport = some body) : Starved var clock given .pull
  | send : Starved var clock given (.send (unreadPolls clock))
  | write (h : given.takesResult = true) : Starved var clock given .write
  | release : Starved var clock given .release

/-- The `select!` of a drive is biased: its future does not complete while a job
is queued. -/
def Biased (w : World Req Resp Frame Code) : Action Resp Frame Code → Prop
  | .exchange _ (.respond _) | .exchange _ .pull => w.channels.queue = []
  | _ => True

/-- The call waits, in its drive or to write the final result, for what it is
not given. -/
def World.LeftAlone (given : Given Frame) (w : World Req Resp Frame Code)
    (e : ExchangeId) : Prop :=
  match w.phase e with
  | .driving _ => given.transport = none ∧ w.channels.queue = []
  | .closing => given.takesResult = false
  | _ => False

/-- A call that is left alone stays where it is. -/
theorem World.LeftAlone.stuck {given : Given Frame} {w : World Req Resp Frame Code}
    {e : ExchangeId} (h : w.LeftAlone given e) {var : Str → Option Str}
    {clock : Clock (deadlineNanos SEND_FRAME_TIMEOUT_MS)} {move : Move Resp Frame}
    (hmove : move.Starved var clock given) :
    w.step resume (.exchange e move) = none := by
  unfold World.LeftAlone at h
  split at h
  · next hp =>
      obtain ⟨hnone, hqueue⟩ := h
      cases hmove with
      | respond hbody | pull hbody =>
          rw [hnone] at hbody
          cases hbody
      | take =>
          have hpoll := Channels.pollNextJob_eq_none.2 hqueue
          simp [World.step, World.offer, hpoll]
      | _ => simp [World.step, World.offer, hp, Phase.held, Phase.next]
  · next hp =>
      cases hmove with
      | write htakes =>
          rw [h] at htakes
          cases htakes
      | take =>
          cases hpoll : w.channels.pollNextJob <;>
            simp [World.step, World.offer, hp, hpoll, Phase.next]
      | _ => simp [World.step, World.offer, hp, Phase.held, Phase.next]
  · exact h.elim

/-- Starved moves of the call lead to where the lock is free, or to where it
is left alone, and leave everyone else where they are. -/
def ComesFree (resume : Code → Resume Req Resp Code) (var : Str → Option Str)
    (clock : Clock (deadlineNanos SEND_FRAME_TIMEOUT_MS)) (given : Given Frame)
    (w : World Req Resp Frame Code) (e : ExchangeId) (n : Nat) : Prop :=
  ∃ (moves : List (Move Resp Frame)) (w' : World Req Resp Frame Code),
    (∀ move ∈ moves, move.Starved var clock given) ∧ moves.length ≤ n ∧
      run (World.step resume) w (moves.map (Action.exchange e)) = some w' ∧
      Meets (World.step resume) Biased w (moves.map (Action.exchange e)) ∧
      (w'.lock = none ∨ w'.LeftAlone given e) ∧
      w'.tasks = w.tasks ∧ ∀ f, f ≠ e → w'.phase f = w.phase f

section free

variable {var : Str → Option Str} {clock : Clock (deadlineNanos SEND_FRAME_TIMEOUT_MS)}
  {given : Given Frame} {w : World Req Resp Frame Code} {e : ExchangeId} {n : Nat}

theorem ComesFree.of_move {move : Move Resp Frame} (hmove : move.Starved var clock given)
    (hbiased : Biased w (.exchange e move : Action Resp Frame Code))
    (ev : Event Req Resp Frame) (p : Phase Req Frame)
    (hoffer : w.offer e move = some ev) (hnext : (w.phase e).next ev = some p)
    (h : ComesFree resume var clock given ((w.effect e ev).setPhase e p) e n) :
    ComesFree resume var clock given w e (n + 1) := by
  obtain ⟨moves, w', hmoves, hlen, hrun, hmeets, hend, htasks, hphase⟩ := h
  have hstep : w.step resume (.exchange e move) = some ((w.effect e ev).setPhase e p) :=
    World.step_exchange hoffer hnext
  refine ⟨move :: moves, w', List.forall_mem_cons.2 ⟨hmove, hmoves⟩,
    Nat.succ_le_succ hlen, run_cons.2 ⟨_, hstep, hrun⟩,
    (meets_cons hstep).2 ⟨hbiased, hmeets⟩, hend,
    htasks.trans (World.effect_tasks w e ev), ?_⟩
  intro f hf
  rw [hphase f hf, World.setPhase_phase, Function.update_of_ne hf, World.effect_phase]

theorem ComesFree.mono {m : Nat} (h : ComesFree resume var clock given w e n) (hle : n ≤ m) :
    ComesFree resume var clock given w e m := by
  obtain ⟨moves, w', hmoves, hlen, hrest⟩ := h
  exact ⟨moves, w', hmoves, hlen.trans hle, hrest⟩

theorem ComesFree.of_leftAlone (h : w.LeftAlone given e) (n : Nat) :
    ComesFree resume var clock given w e n :=
  ⟨[], w, List.forall_mem_nil _, Nat.zero_le n, rfl, trivial, .inr h, rfl,
    fun _ _ => rfl⟩

theorem ComesFree.of_release (p : Phase Req Frame)
    (hp : (w.phase e).next (.released : Event Req Resp Frame) = some p) :
    ComesFree resume var clock given w e 1 := by
  refine .of_move .release trivial .released p rfl hp ?_
  refine ⟨[], _, List.forall_mem_nil _, Nat.le_refl _, rfl, trivial, .inl rfl, rfl, ?_⟩
  intro f hf
  rfl

theorem ComesFree.of_stopping (hp : w.phase e = .stopping) :
    ComesFree resume var clock given w e 2 := by
  refine .of_move .drain trivial _ .stopped rfl (by rw [hp]; rfl) ?_
  exact .of_release .finished (by rw [World.setPhase_self]; rfl)

theorem ComesFree.of_closed (hp : w.phase e = .closed) :
    ComesFree resume var clock given w e 2 := by
  refine .of_move .drain trivial _ .drained rfl (by rw [hp]; rfl) ?_
  exact .of_release .observing (by rw [World.setPhase_self]; rfl)

theorem ComesFree.of_closing (hp : w.phase e = .closing) :
    ComesFree resume var clock given w e 3 := by
  cases htakes : given.takesResult with
  | true =>
      refine .of_move (.write htakes) trivial _ .closed rfl (by rw [hp]; rfl) ?_
      exact .of_closed (World.setPhase_self _ _ _)
  | false =>
      refine .of_leftAlone ?_ 3
      rw [World.LeftAlone, hp]
      exact htakes

theorem ComesFree.of_sending {frame : Frame} {body : List Frame}
    (hp : w.phase e = .sending frame body) : ComesFree resume var clock given w e 3 := by
  refine .of_move .send trivial (.sent frame .timedOut) .stopping ?_ (by rw [hp]; rfl) ?_
  · simp only [World.offer, hp, sendOutcome_unread, Option.map_some]
  · exact .of_stopping (World.setPhase_self _ _ _)

theorem ComesFree.of_nextFrame {given' body : List Frame}
    (hgiven : given.transport = some given') (hqueue : w.channels.queue = [])
    (hp : w.phase e = .driving (.nextFrame body)) :
    ComesFree resume var clock given w e 4 := by
  cases body with
  | nil =>
      refine .of_move (.pull hgiven) hqueue (.pulled none) .closing
        (by simp [World.offer, hp]) (by rw [hp]; rfl) ?_
      exact .of_closing (World.setPhase_self _ _ _)
  | cons frame body =>
      refine .of_move (.pull hgiven) hqueue (.pulled (some frame)) (.sending frame body)
        (by simp [World.offer, hp]) (by rw [hp]; rfl) ?_
      exact .of_sending (World.setPhase_self _ _ _)

/-- A drive whose queue is empty. -/
theorem ComesFree.of_drive {future : Driving Frame} (hqueue : w.channels.queue = [])
    (hp : w.phase e = .driving future) : ComesFree resume var clock given w e 6 := by
  cases hgiven : given.transport with
  | none =>
      refine .of_leftAlone ?_ 6
      rw [World.LeftAlone, hp]
      exact ⟨hgiven, hqueue⟩
  | some body =>
      cases future with
      | dispatch =>
          refine .of_move (.respond hgiven) hqueue (.responded body) (.responding body) rfl
            (by rw [hp]; rfl) ?_
          refine .of_move .stream trivial .streaming (.driving (.nextFrame body)) rfl
            (by rw [World.setPhase_self]; rfl) ?_
          exact .of_nextFrame hgiven hqueue (World.setPhase_self _ _ _)
      | nextFrame body => exact (ComesFree.of_nextFrame hgiven hqueue hp).mono (by omega)

/-- A drive takes up what is queued first, and waits out the deadline of each. -/
theorem ComesFree.of_driving {future : Driving Frame} {jobs : List (Job Req)}
    (hqueue : w.channels.queue = jobs) (hp : w.phase e = .driving future) :
    ComesFree resume var clock given w e (6 + 2 * jobs.length) := by
  induction jobs generalizing w with
  | nil => exact .of_drive hqueue hp
  | cons job jobs ih =>
      have hpoll : w.channels.pollNextJob =
          some (job, { w.channels with queue := jobs }) :=
        Channels.pollNextJob_eq_some.2 ⟨hqueue, rfl⟩
      refine .of_move (n := (6 + 2 * jobs.length) + 1) .take trivial (.took job)
        (.performing future job) (by simp [World.offer, hpoll]) (by rw [hp]; rfl) ?_
      refine .of_move .reply trivial (.replied job (.error (.timedOut (timeoutMs var))))
        (.driving future) ?_ (by rw [World.setPhase_self]; rfl) ?_
      · simp only [World.offer, World.setPhase_self, Phase.held, Option.map_some]
      · refine ih ?_ (World.setPhase_self _ _ _)
        simp [World.setPhase, World.effect, hpoll]

theorem ComesFree.of_holds (var : Str → Option Str)
    (clock : Clock (deadlineNanos SEND_FRAME_TIMEOUT_MS)) (given : Given Frame)
    (h : (w.phase e).holds = true) :
    ComesFree resume var clock given w e (7 + 2 * w.channels.queue.length) := by
  cases hp : w.phase e with
  | locked =>
      have hdrive : ComesFree resume var clock given w e 7 := by
        refine .of_move .drain trivial _ (.driving .dispatch) rfl (by rw [hp]; rfl) ?_
        exact .of_drive (Channels.drainStaleJobs_queue _) (World.setPhase_self _ _ _)
      exact hdrive.mono (by omega)
  | driving future => exact (ComesFree.of_driving rfl hp).mono (by omega)
  | performing future job =>
      have hdrive : ComesFree resume var clock given w e
          (6 + 2 * w.channels.queue.length + 1) := by
        refine .of_move .reply trivial (.replied job (.error (.timedOut (timeoutMs var))))
          (.driving future) ?_ (by rw [hp]; rfl) ?_
        · simp only [World.offer, hp, Phase.held, Option.map_some]
        · exact .of_driving rfl (World.setPhase_self _ _ _)
      exact hdrive.mono (by omega)
  | responding body =>
      have hdrive : ComesFree resume var clock given w e
          (6 + 2 * w.channels.queue.length + 1) := by
        refine .of_move .stream trivial .streaming (.driving (.nextFrame body)) rfl
          (by rw [hp]; rfl) ?_
        exact .of_driving rfl (World.setPhase_self _ _ _)
      exact hdrive.mono (by omega)
  | refusing =>
      exact (ComesFree.of_release .finished (by rw [hp]; rfl)).mono (by omega)
  | sending frame body => exact (ComesFree.of_sending hp).mono (by omega)
  | stopping => exact (ComesFree.of_stopping hp).mono (by omega)
  | stopped => exact (ComesFree.of_release .finished (by rw [hp]; rfl)).mono (by omega)
  | closing => exact (ComesFree.of_closing hp).mono (by omega)
  | closed => exact (ComesFree.of_closed hp).mono (by omega)
  | drained => exact (ComesFree.of_release .observing (by rw [hp]; rfl)).mono (by omega)
  | receiving | locking | observing | finished =>
      rw [hp] at h
      cases h

/-- A call that waits for a free lock gets it, with an empty queue. -/
theorem acquires (hlock : w.lock = none) (hp : w.phase e = .locking) :
    ∃ w', run (World.step resume) w
        [Action.exchange e .acquire, Action.exchange e .drain] = some w' ∧
      w'.lock = some e ∧ w'.phase e = .driving .dispatch ∧ w'.channels.queue = [] := by
  have hacquire : w.step resume (.exchange e .acquire) =
      some ((w.effect e .acquired).setPhase e .locked) :=
    World.step_exchange (by simp only [World.offer, if_pos hlock]) (by rw [hp]; rfl)
  refine ⟨_, run_cons.2 ⟨_, hacquire, run_cons.2 ⟨_, World.step_exchange rfl
    (by rw [World.setPhase_self]; rfl), rfl⟩⟩, rfl, World.setPhase_self _ _ _, ?_⟩
  exact Channels.drainStaleJobs_queue _

end free

/-- From every state the instance comes to, the holder of the lock is a few
moves of its own from letting it go, two of them for every job that is queued,
however silent the upstream is and however little the peer reads; nobody else
moves meanwhile, and whoever waits can be next, with nothing in the queue that
is not its own. It is left with the lock only where the transport does not
answer its drive, or the host does not take the final result, and there it
stays. -/
theorem lock_comes_free (resume : Code → Resume Req Resp Code)
    (var : Str → Option Str) (clock : Clock (deadlineNanos SEND_FRAME_TIMEOUT_MS))
    (given : Given Frame) {w : World Req Resp Frame Code}
    {as : List (Action Resp Frame Code)}
    (h : run (World.step resume) .init as = some w) {e : ExchangeId}
    (hlock : w.lock = some e) :
    ∃ (moves : List (Move Resp Frame)) (w' : World Req Resp Frame Code),
      (∀ move ∈ moves, move.Starved var clock given) ∧
      moves.length ≤ 7 + 2 * w.channels.queue.length ∧
      run (World.step resume) w (moves.map (Action.exchange e)) = some w' ∧
      Meets (World.step resume) Biased w (moves.map (Action.exchange e)) ∧
      w'.tasks = w.tasks ∧ (∀ f, f ≠ e → w'.phase f = w.phase f) ∧
      ((w'.lock = none ∧ ∀ f, w.phase f = .locking → ∃ w'', run (World.step resume) w'
            [Action.exchange f .acquire, Action.exchange f .drain] = some w'' ∧
          w''.lock = some f ∧ w''.phase f = .driving .dispatch ∧
          w''.channels.queue = []) ∨
        w'.LeftAlone given e ∧ ∀ move : Move Resp Frame,
          move.Starved var clock given → w'.step resume (.exchange e move) = none) := by
  have hholds : (w.phase e).holds = true := (lockWf_run h e).2 hlock
  have hcomes : ComesFree resume var clock given w e (7 + 2 * w.channels.queue.length) :=
    .of_holds var clock given hholds
  obtain ⟨moves, w', hmoves, hlen, hrun, hmeets, hend, htasks, hphase⟩ := hcomes
  refine ⟨moves, w', hmoves, hlen, hrun, hmeets, htasks, hphase, ?_⟩
  rcases hend with hfree | halone
  · refine .inl ⟨hfree, fun f hf => ?_⟩
    have hne : f ≠ e := by
      intro heq
      rw [← heq, hf] at hholds
      cases hholds
    exact acquires hfree ((hphase f hne).trans hf)
  · exact .inr ⟨halone, fun move hmove => halone.stuck hmove⟩

/-- An upstream that says nothing and a peer that reads nothing, but a host
that takes the final result. -/
theorem lock_comes_free_busy :
    let clock : Clock (deadlineNanos SEND_FRAME_TIMEOUT_MS) :=
      ⟨[5, 60000000000], by decide, 60000000000, by decide, by decide⟩
    let given : Given Nat := ⟨some [], true⟩
    ∃ (w w' w'' : World Nat Nat Nat Nat) (moves : List (Move Nat Nat)),
      run (World.step fetchingTool) .init busy = some w ∧
      (∀ move ∈ moves, move.Starved (fun _ => none) clock given) ∧
      run (World.step fetchingTool) w (moves.map (Action.exchange 0)) = some w' ∧
      run (World.step fetchingTool) w'
        [.exchange 1 .acquire, .exchange 1 .drain] = some w'' ∧
      w''.lock = some 1 := by
  intro clock given
  obtain ⟨w, hw, hlock, hwaits⟩ : ∃ w, run (World.step fetchingTool) .init busy = some w ∧
      w.lock = some 0 ∧ w.phase 1 = .locking := ⟨_, rfl, rfl, rfl⟩
  obtain ⟨moves, w', hmoves, -, hrun, -, -, -, hend⟩ :=
    lock_comes_free fetchingTool (fun _ => none) clock given hw hlock
  rcases hend with ⟨-, hnext⟩ | ⟨halone, -⟩
  · obtain ⟨w'', hrun', hlock', -⟩ := hnext 1 hwaits
    exact ⟨w, w', w'', moves, hw, hmoves, hrun, hrun', hlock'⟩
  · -- both are given here
    unfold World.LeftAlone at halone
    split at halone
    · cases halone.1
    · cases halone
    · exact halone.elim

end McpTemplate.Bridge
