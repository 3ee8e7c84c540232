import McpTemplate.Proofs.Pump

/-!
# Many calls at once: the lock, and what each call sees of the run

`World.step` has one case for a move of a call and six for what a task does
inside a drive. `World.Steps` lists them, with everything a step of each kind
does; every fact about runs below, and in the files after this one, is proved
from that list and never from the step function.

A run seen from one call is the events that carry its name. The graph facts of
one call lift to the run because only its own moves show such events or move
its phase. The lock is one invariant: a call is at a phase that holds the
guard exactly when the mutex names it.
-/

namespace McpTemplate.Bridge

open Lib Lib.Machine

variable {Req Resp Frame Code : Type} {resume : Code → Resume Req Resp Code}

/-- Everything a step of the instance can be: the action, the world before,
what the step shows, and the world after. -/
inductive World.Steps (resume : Code → Resume Req Resp Code)
    (w : World Req Resp Frame Code) : Action Resp Frame Code →
      List (Obs Req Resp Frame) → World Req Resp Frame Code → Prop
  | exchange {e move ev p} (hoffer : w.offer e move = some ev)
      (hnext : (w.phase e).next ev = some p) :
      Steps resume w (.exchange e move) [.exchange e ev]
        ((w.effect e ev).setPhase e p)
  | dispatch {e code} (hin : (w.phase e).inRuntime = true) :
      Steps resume w (.dispatch e code) []
        { w with tasks := w.tasks ++ [⟨e, .ready code⟩] }
  | finish {e i answer owner code} (hin : (w.phase e).inRuntime = true)
      (htask : w.tasks[i]? = some ⟨owner, .ready code⟩)
      (hcode : resume code = .finish) :
      Steps resume w (.poll e i answer) [] (w.setTask i ⟨owner, .finished⟩)
  | await {e i answer owner code next} (hin : (w.phase e).inRuntime = true)
      (htask : w.tasks[i]? = some ⟨owner, .ready code⟩)
      (hcode : resume code = .await next) :
      Steps resume w (.poll e i answer) []
        (w.setTask i ⟨owner, .ready (next answer)⟩)
  | spawn {e i answer owner code child next}
      (hin : (w.phase e).inRuntime = true)
      (htask : w.tasks[i]? = some ⟨owner, .ready code⟩)
      (hcode : resume code = .spawn child next) :
      Steps resume w (.poll e i answer) []
        { w.setTask i ⟨owner, .ready next⟩ with
          tasks := (w.setTask i ⟨owner, .ready next⟩).tasks ++
            [⟨owner, .ready child⟩] }
  | fetch {e i answer owner code request next giveUp}
      (hin : (w.phase e).inRuntime = true)
      (htask : w.tasks[i]? = some ⟨owner, .ready code⟩)
      (hcode : resume code = .fetch request next giveUp) :
      Steps resume w (.poll e i answer)
        [.submitted w.channels.fresh owner request]
        { w.setTask i ⟨owner, .waiting w.channels.fresh next giveUp⟩ with
          channels := (w.channels.submit request).2 }
  | resolve {e i answer owner reply next giveUp result}
      (hin : (w.phase e).inRuntime = true)
      (htask : w.tasks[i]? = some ⟨owner, .waiting reply next giveUp⟩)
      (hreply : w.channels.awaitReply reply = some result) :
      Steps resume w (.poll e i answer) [.resolved reply result]
        (w.setTask i ⟨owner, .ready (next result)⟩)
  | giveUp {e i owner reply next code} (hin : (w.phase e).inRuntime = true)
      (htask : w.tasks[i]? = some ⟨owner, .waiting reply next (some code)⟩) :
      Steps resume w (.giveUp e i) [] (w.setTask i ⟨owner, .ready code⟩)

theorem World.step_steps {w w' : World Req Resp Frame Code}
    {a : Action Resp Frame Code} (h : w.step resume a = some w') :
    w.Steps resume a (w.emit resume a) w' := by
  cases a with
  | exchange e move =>
      simp only [World.step, Option.bind_eq_bind,
        Option.bind_eq_some_iff] at h
      obtain ⟨ev, hoffer, p, hnext, hw⟩ := h
      cases hw
      simpa [World.emit, hoffer] using Steps.exchange hoffer hnext
  | dispatch e code =>
      simp only [World.step, Option.ite_none_right_eq_some] at h
      obtain ⟨hin, hw⟩ := h
      cases hw
      exact .dispatch hin
  | poll e i answer =>
      simp only [World.step, Option.ite_none_right_eq_some] at h
      obtain ⟨hin, hw⟩ := h
      unfold World.pollTask at hw
      split at hw
      · next owner code htask =>
          split at hw <;> cases hw
          · next hcode =>
              simpa [World.emit, World.observeTask, htask, hcode] using
                Steps.finish hin htask hcode
          · next hcode =>
              simpa [World.emit, World.observeTask, htask, hcode] using
                Steps.await hin htask hcode
          · next hcode =>
              simpa [World.emit, World.observeTask, htask, hcode] using
                Steps.spawn hin htask hcode
          · next request next giveUp hcode =>
              have hemit : w.emit resume (.poll e i answer) =
                  [.submitted w.channels.fresh owner request] := by
                simp [World.emit, World.observeTask, htask, hcode]
              rw [hemit]
              exact .fetch hin htask hcode
      · next owner reply next giveUp htask =>
          obtain ⟨result, hreply, hw⟩ := Option.map_eq_some_iff.1 hw
          subst hw
          simpa [World.emit, World.observeTask, htask, hreply] using
            Steps.resolve hin htask hreply
      · cases hw
  | giveUp e i =>
      simp only [World.step, Option.ite_none_right_eq_some] at h
      obtain ⟨hin, hw⟩ := h
      unfold World.giveUpTask at hw
      split at hw
      · next owner reply next code htask =>
          cases hw
          exact .giveUp hin htask
      · cases hw

/-! ## What the instance offers -/

/-- What holds of an event that the instance offers to a call. -/
theorem World.offer_spec {w : World Req Resp Frame Code} {e : ExchangeId}
    {move : Move Resp Frame} {ev : Event Req Resp Frame}
    (h : w.offer e move = some ev) :
    (w.phase e).Fits ev ∧
      match ev with
      | .acquired => w.lock = none
      | .drained dropped => dropped = w.channels.queue
      | .took job => ∃ b, w.channels.pollNextJob = some (job, b)
      | .replied job _ => (w.phase e).held = some job
      | .cancelled dropped => dropped = (w.phase e).held
      | _ => True := by
  cases move <;> simp only [World.offer, Option.some.injEq] at h
  case acquire =>
    split at h <;> cases h
    next hlock => exact ⟨by cases w.phase e <;> trivial, hlock⟩
  case take =>
    obtain ⟨⟨job, b⟩, hpoll, rfl⟩ := Option.map_eq_some_iff.1 h
    exact ⟨by cases w.phase e <;> trivial, b, hpoll⟩
  case reply result =>
    obtain ⟨job, hheld, rfl⟩ := Option.map_eq_some_iff.1 h
    refine ⟨?_, hheld⟩
    obtain ⟨future, hp⟩ := Phase.held_eq_some.1 hheld
    rw [hp]
    rfl
  case pull =>
    split at h <;> cases h
    next hp => exact ⟨by rw [hp]; rfl, trivial⟩
  case send polls =>
    split at h
    · next hp =>
        obtain ⟨outcome, -, rfl⟩ := Option.map_eq_some_iff.1 h
        exact ⟨by rw [hp]; rfl, trivial⟩
    · cases h
  case cancel => cases h; exact ⟨by cases w.phase e <;> rfl, rfl⟩
  all_goals cases h; exact ⟨by cases w.phase e <;> trivial, by trivial⟩

theorem World.step_exchange {w : World Req Resp Frame Code} {e : ExchangeId}
    {move : Move Resp Frame} {ev : Event Req Resp Frame} {p : Phase Req Frame}
    (hoffer : w.offer e move = some ev) (hnext : (w.phase e).next ev = some p) :
    w.step resume (.exchange e move) = some ((w.effect e ev).setPhase e p) := by
  simp [World.step, hoffer, hnext]

/-! ## A run seen from one call -/

/-- The events of one call in what a run shows. -/
def eventsOf (e : ExchangeId) (t : List (Obs Req Resp Frame)) :
    List (Event Req Resp Frame) :=
  t.filterMap fun
    | .exchange f ev => if f = e then some ev else none
    | _ => none

theorem eventsOf_append (e : ExchangeId) (t t' : List (Obs Req Resp Frame)) :
    eventsOf e (t ++ t') = eventsOf e t ++ eventsOf e t' :=
  List.filterMap_append

@[simp] theorem World.setPhase_phase (w : World Req Resp Frame Code)
    (e : ExchangeId) (p : Phase Req Frame) :
    (w.setPhase e p).phase = Function.update w.phase e p := rfl

theorem World.setPhase_self (w : World Req Resp Frame Code) (e : ExchangeId)
    (p : Phase Req Frame) : (w.setPhase e p).phase e = p :=
  Function.update_self _ _ _

@[simp] theorem World.effect_phase (w : World Req Resp Frame Code)
    (e : ExchangeId) (ev : Event Req Resp Frame) :
    (w.effect e ev).phase = w.phase := by
  cases ev <;> rfl

@[simp] theorem World.setTask_phase (w : World Req Resp Frame Code) (i : Nat)
    (task : Task Resp Code) : (w.setTask i task).phase = w.phase := rfl

@[simp] theorem World.setTask_lock (w : World Req Resp Frame Code) (i : Nat)
    (task : Task Resp Code) : (w.setTask i task).lock = w.lock := rfl

@[simp] theorem World.setTask_channels (w : World Req Resp Frame Code)
    (i : Nat) (task : Task Resp Code) :
    (w.setTask i task).channels = w.channels := rfl

/-- Only a call's own moves concern it. -/
theorem World.Steps.call {w w' : World Req Resp Frame Code}
    {a : Action Resp Frame Code} {obs : List (Obs Req Resp Frame)}
    (h : w.Steps resume a obs w') (f : ExchangeId) :
    (eventsOf f obs = [] ∧ w'.phase f = w.phase f) ∨
      ∃ ev p, eventsOf f obs = [ev] ∧ (w.phase f).Fits ev ∧
        (w.phase f).next ev = some p ∧ w'.phase f = p := by
  cases h with
  | @exchange e move ev p hoffer hnext =>
      by_cases hf : e = f
      · subst hf
        exact .inr ⟨ev, p, by simp [eventsOf], (World.offer_spec hoffer).1,
          hnext, by simp⟩
      · refine .inl ⟨by simp [eventsOf, hf], ?_⟩
        simp [Function.update_of_ne (Ne.symm hf)]
  | _ => exact .inl ⟨by simp [eventsOf], rfl⟩

theorem calls_run {w : World Req Resp Frame Code}
    {as : List (Action Resp Frame Code)}
    (h : run (World.step resume) .init as = some w) (e : ExchangeId) :
    CallAt (eventsOf e (trace (World.step resume) (World.emit resume) .init as))
      (w.phase e) := by
  have hinit : CallAt (eventsOf e ([] : List (Obs Req Resp Frame)))
      ((World.init : World Req Resp Frame Code).phase e) := callAt_nil
  refine trace_invariant_all (I := fun t w => CallAt (eventsOf e t) (w.phase e))
    ?_ hinit h
  intro t w a w' hI hstep
  rw [eventsOf_append]
  rcases (World.step_steps hstep).call e with ⟨hobs, hp⟩ | ⟨ev, p, hobs, hfits, hnext, hp⟩
  · rw [hobs, hp, List.append_nil]; exact hI
  · rw [hobs, hp]; exact callAt_next hI hfits hnext

/-! ## The lock -/

/-- What each event does to the guard. -/
theorem Phase.next_holds {p p' : Phase Req Frame} {ev : Event Req Resp Frame}
    (h : p.next ev = some p') :
    match ev with
    | .acquired => p.holds = false ∧ p'.holds = true
    | .released => p.holds = true ∧ p'.holds = false
    | .cancelled _ => p'.holds = false
    | _ => p'.holds = p.holds := by
  cases Phase.edge h <;> simp [Phase.holds]

/-- The mutex names exactly the call that stands where the guard is alive. -/
def World.LockWf (w : World Req Resp Frame Code) : Prop :=
  ∀ e, (w.phase e).holds = true ↔ w.lock = some e

theorem World.lockWf_init : (World.init : World Req Resp Frame Code).LockWf := by
  simp [LockWf, init, Phase.holds]

/-- The lock after an event, for the call that makes it. -/
theorem World.effect_lock (w : World Req Resp Frame Code) (e : ExchangeId)
    (ev : Event Req Resp Frame) :
    (w.effect e ev).lock =
      match ev with
      | .acquired => some e
      | .released => none
      | .cancelled _ => if (w.phase e).holds then none else w.lock
      | _ => w.lock := by
  cases ev <;> rfl

theorem World.Steps.lockWf {w w' : World Req Resp Frame Code}
    {a : Action Resp Frame Code} {obs : List (Obs Req Resp Frame)}
    (h : w.Steps resume a obs w') (hw : w.LockWf) : w'.LockWf := by
  cases h with
  | @exchange e move ev p hoffer hnext =>
      intro f
      have hown := hw e
      have hev := Phase.next_holds hnext
      have hoff := (World.offer_spec hoffer).2
      show (Function.update (w.effect e ev).phase e p f).holds = true ↔
        (w.effect e ev).lock = some f
      rw [World.effect_lock, World.effect_phase]
      by_cases hf : f = e
      · subst hf
        rw [Function.update_self]
        cases ev <;> simp_all
      · -- another call's phase stays, and it does not gain or lose the lock
        have hother := hw f
        have hne : e ≠ f := Ne.symm hf
        rw [Function.update_of_ne hf]
        cases ev <;> simp_all
  | _ => exact hw

theorem lockWf_run {w : World Req Resp Frame Code}
    {as : List (Action Resp Frame Code)}
    (h : run (World.step resume) .init as = some w) : w.LockWf :=
  run_invariant (fun _ _ _ hw hstep => (World.step_steps hstep).lockWf hw)
    World.lockWf_init h

/-- Tasks move only inside the drive of the call that has the lock. -/
theorem World.LockWf.of_inRuntime {w : World Req Resp Frame Code}
    (hw : w.LockWf) {e : ExchangeId} (h : (w.phase e).inRuntime = true) :
    w.lock = some e := by
  refine (hw e).1 ?_
  obtain ⟨future, hp⟩ := Phase.inRuntime_iff.1 h
  rw [hp]
  rfl

/-! ## The queue at a release -/

/-- The pump has drained and not yet released. -/
def Phase.emptied : Phase Req Frame → Bool
  | .stopped | .drained => true
  | _ => false

theorem Phase.emptied_holds {p : Phase Req Frame} (h : p.emptied = true) :
    p.holds = true := by
  cases p <;> first | rfl | cases h

def World.Emptied (w : World Req Resp Frame Code) : Prop :=
  ∀ e, (w.phase e).emptied = true → w.channels.queue = []

theorem Phase.next_emptied {p p' : Phase Req Frame}
    {ev : Event Req Resp Frame} (h : p.next ev = some p')
    (hp' : p'.emptied = true) : ∃ dropped, ev = .drained dropped := by
  cases Phase.edge h <;> simp_all [Phase.emptied]

theorem World.effect_queue_nil {w : World Req Resp Frame Code}
    (hw : w.channels.queue = []) (e : ExchangeId)
    (ev : Event Req Resp Frame) : (w.effect e ev).channels.queue = [] := by
  cases ev with
  | took job => simp [effect, Channels.pollNextJob, hw]
  | cancelled dropped => cases dropped <;> exact hw
  | drained dropped => exact Channels.drainStaleJobs_queue _
  | _ => exact hw

theorem World.Steps.emptied {w w' : World Req Resp Frame Code}
    {a : Action Resp Frame Code} {obs : List (Obs Req Resp Frame)}
    (h : w.Steps resume a obs w') (hlock : w.LockWf) (hw : w.Emptied) :
    w'.Emptied := by
  cases h with
  | @exchange e move ev p hoffer hnext =>
      intro f hf
      by_cases hfe : f = e
      · subst hfe
        rw [World.setPhase_phase, Function.update_self] at hf
        obtain ⟨dropped, rfl⟩ := Phase.next_emptied hnext hf
        exact Channels.drainStaleJobs_queue _
      · rw [World.setPhase_phase, Function.update_of_ne hfe,
          World.effect_phase] at hf
        exact World.effect_queue_nil (hw f hf) e ev
  | @fetch e i answer owner code request next giveUp hin =>
      -- nobody has drained while a task can run: the lock is the driver's
      intro f hf
      have hdrive := hlock.of_inRuntime hin
      have hfe : w.lock = some f := (hlock f).1 (Phase.emptied_holds hf)
      rw [hdrive] at hfe
      cases hfe
      obtain ⟨future, hp⟩ := Phase.inRuntime_iff.1 hin
      rw [World.setTask_phase, hp] at hf
      cases hf
  | _ => exact hw

theorem emptied_run {w : World Req Resp Frame Code}
    {as : List (Action Resp Frame Code)}
    (h : run (World.step resume) .init as = some w) : w.Emptied := by
  have hinit : (World.init : World Req Resp Frame Code).LockWf ∧
      (World.init : World Req Resp Frame Code).Emptied :=
    ⟨World.lockWf_init, fun _ hf => by cases hf⟩
  refine (run_invariant (I := fun w => w.LockWf ∧ w.Emptied) ?_ hinit h).2
  intro w a w' hw hstep
  have hsteps := World.step_steps hstep
  exact ⟨hsteps.lockWf hw.1, hsteps.emptied hw.1 hw.2⟩

/-! ## A drive and a release -/

/-- Inside `drive`: in `block_on`, or performing a job between two of them. -/
def Phase.inDrive : Phase Req Frame → Bool
  | .driving _ | .performing _ _ => true
  | _ => false

theorem Phase.next_released_emptied {evs : List (Event Req Resp Frame)}
    {p p' : Phase Req Frame} (hb : BodyAt evs p) (hstr : .streaming ∈ evs)
    (h : p.next (.released : Event Req Resp Frame) = some p') : p.emptied = true := by
  cases Phase.edge h <;> simp_all [Phase.emptied, BodyAt, Unsent]

end McpTemplate.Bridge
