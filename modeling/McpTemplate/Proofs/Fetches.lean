import Mathlib.Data.List.Nodup
import McpTemplate.Proofs.Jobs

/-!
# Every `fetch` resolves at most once, and no job outlives its exchange

A task inside a `fetch` waits on a channel that no other task waits on, and
stops waiting when it is resolved or gives up, so nothing is resolved twice.
What it resolves with is read off the cell, and `JobsInv` knows how the cell
was written.

A release leaves the queue as it is when the call was cancelled or refused.
What keeps those jobs from being performed is the order of the next exchange:
it drains before its first drive, and until it does nobody can take a job.
That is `World.Stale`, kept by every step after a release.
-/

namespace McpTemplate.Bridge

open Lib Lib.Machine

variable {Req Resp Frame Code : Type} {resume : Code → Resume Req Resp Code}

/-! ## Waiting tasks -/

def TaskState.waitsOn : TaskState Resp Code → Option ReplyId
  | .waiting reply _ _ => some reply
  | _ => none

/-- The channel a task waits on. -/
def World.waitsOn (w : World Req Resp Frame Code) (i : Nat) :
    Option ReplyId :=
  w.tasks[i]?.bind fun task => task.state.waitsOn

theorem World.waitsOn_of_task {w : World Req Resp Frame Code} {i : Nat}
    {task : Task Resp Code} (h : w.tasks[i]? = some task) :
    w.waitsOn i = task.state.waitsOn := by
  simp [waitsOn, h]

theorem World.waitsOn_setTask {w : World Req Resp Frame Code} {i : Nat}
    {task₀ : Task Resp Code} (h : w.tasks[i]? = some task₀)
    (task : Task Resp Code) :
    (w.setTask i task).waitsOn =
      Function.update w.waitsOn i task.state.waitsOn := by
  have hi : i < w.tasks.length := (List.getElem?_eq_some_iff.1 h).1
  funext k
  by_cases hk : k = i
  · subst hk
    simp [waitsOn, setTask, hi]
  · have hne : i ≠ k := Ne.symm hk
    rw [Function.update_of_ne hk]
    simp [waitsOn, setTask, hne]

/-- A task that has just been spawned waits on nothing. -/
theorem World.waitsOn_spawn (w w' : World Req Resp Frame Code)
    (owner : ExchangeId) (code : Code)
    (h : w'.tasks = w.tasks ++ [⟨owner, .ready code⟩]) :
    w'.waitsOn = w.waitsOn := by
  funext k
  unfold waitsOn
  rw [h]
  rcases Nat.lt_trichotomy k w.tasks.length with hk | rfl | hk
  · rw [List.getElem?_append_left hk]
  · simp [TaskState.waitsOn]
  · rw [List.getElem?_eq_none (by simp; omega),
      List.getElem?_eq_none (Nat.le_of_lt hk)]

/-- What a step does to the waiting tasks. -/
inductive WaitStep (w : World Req Resp Frame Code) :
    List (Obs Req Resp Frame) → World Req Resp Frame Code → Prop
  | quiet {obs w'} (hwait : ∀ i c, w'.waitsOn i = some c → w.waitsOn i = some c)
      (hfresh : w'.channels.fresh = w.channels.fresh)
      (hobs : ∀ o ∈ obs, o.resolution = []) : WaitStep w obs w'
  | ask {i owner request w'}
      (hwait : w'.waitsOn = Function.update w.waitsOn i (some w.channels.fresh))
      (hfresh : w'.channels.fresh = w.channels.fresh + 1) :
      WaitStep w [.submitted w.channels.fresh owner request] w'
  | resolve {i c result w'} (htask : w.waitsOn i = some c)
      (hreply : w.channels.awaitReply c = some result)
      (hwait : w'.waitsOn = Function.update w.waitsOn i none)
      (hfresh : w'.channels.fresh = w.channels.fresh) :
      WaitStep w [.resolved c result] w'

theorem World.effect_fresh (w : World Req Resp Frame Code) (e : ExchangeId)
    (ev : Event Req Resp Frame) :
    (w.effect e ev).channels.fresh = w.channels.fresh := by
  cases ev with
  | took job =>
      show ((w.channels.pollNextJob.map Prod.snd).getD w.channels).fresh = _
      cases h : w.channels.pollNextJob with
      | none => rfl
      | some jb =>
          show jb.2.fresh = _
          rw [(Channels.pollNextJob_eq_some.1 h).2]
  | drained dropped => exact Channels.drainStaleJobs_fresh _
  | cancelled dropped => cases dropped <;> rfl
  | _ => rfl

theorem World.effect_tasks (w : World Req Resp Frame Code) (e : ExchangeId)
    (ev : Event Req Resp Frame) : (w.effect e ev).tasks = w.tasks := by
  cases ev <;> rfl

/-- A task that stops waiting, or goes on without having waited. -/
theorem waitsOn_setTask_none {w : World Req Resp Frame Code} {i : Nat}
    {task₀ task : Task Resp Code} (h : w.tasks[i]? = some task₀)
    (hnone : task.state.waitsOn = none) (k : Nat) (c : ReplyId)
    (hk : (w.setTask i task).waitsOn k = some c) : w.waitsOn k = some c := by
  rw [World.waitsOn_setTask h, hnone] at hk
  by_cases hki : k = i
  · rw [hki, Function.update_self] at hk; cases hk
  · rwa [Function.update_of_ne hki] at hk

theorem World.Steps.waitStep {w w' : World Req Resp Frame Code}
    {a : Action Resp Frame Code} {obs : List (Obs Req Resp Frame)}
    (h : w.Steps resume a obs w') : WaitStep w obs w' := by
  cases h with
  | @exchange e move ev p =>
      refine .quiet (fun i c hi => ?_) (World.effect_fresh w e ev)
        (fun o ho => by rw [List.mem_singleton.1 ho]; rfl)
      have htasks : ((w.effect e ev).setPhase e p).tasks = w.tasks :=
        World.effect_tasks w e ev
      rwa [World.waitsOn, htasks] at hi
  | @dispatch e code =>
      refine .quiet (fun i c hi => ?_) rfl (fun o ho => by cases ho)
      rwa [World.waitsOn_spawn w _ e code rfl] at hi
  | finish hin htask | await hin htask =>
      exact .quiet (waitsOn_setTask_none htask rfl) rfl (fun o ho => by cases ho)
  | @spawn e i answer owner code child next hin htask =>
      refine .quiet (fun k c hk => ?_) rfl (fun o ho => by cases ho)
      rw [World.waitsOn_spawn (w.setTask i ⟨owner, .ready next⟩) _ owner child
        rfl] at hk
      exact waitsOn_setTask_none htask rfl k c hk
  | fetch hin htask => exact .ask (World.waitsOn_setTask htask _) rfl
  | resolve hin htask hreply =>
      exact .resolve (World.waitsOn_of_task htask) hreply
        (World.waitsOn_setTask htask _) rfl
  | giveUp hin htask =>
      exact .quiet (waitsOn_setTask_none htask rfl) rfl (fun o ho => by cases ho)

/-- What is known of the waiting tasks of an instance that has shown `t`. -/
structure WaitsInv (t : List (Obs Req Resp Frame))
    (w : World Req Resp Frame Code) : Prop where
  nodup : (resolves t).Nodup
  done : ∀ c ∈ resolves t, c < w.channels.fresh ∧ ∀ i, w.waitsOn i ≠ some c
  waiting : ∀ i c, w.waitsOn i = some c → c < w.channels.fresh
  once : ∀ i j c, w.waitsOn i = some c → w.waitsOn j = some c → i = j
  sound : ∀ c result, .resolved c result ∈ t →
    result = .error .bridgeClosed ∨ PerformedAs t c result

theorem resolves_append (t t' : List (Obs Req Resp Frame)) :
    resolves (t ++ t') = resolves t ++ resolves t' := List.flatMap_append

/-- A cell holds a performed result, or was closed. -/
theorem JobsInv.awaitReply {t : List (Obs Req Resp Frame)}
    {w : World Req Resp Frame Code} (h : JobsInv t w) {c : ReplyId}
    {result : Reply Resp} (hreply : w.channels.awaitReply c = some result) :
    result = .error .bridgeClosed ∨ PerformedAs t c result := by
  unfold Channels.awaitReply at hreply
  split at hreply
  · cases hreply
  · next result' hslot =>
      cases hreply
      exact .inr (h.sent c _ hslot)
  · cases hreply; exact .inl rfl

section step

variable {w w' : World Req Resp Frame Code} {t : List (Obs Req Resp Frame)}

/-- What an old `fetch` resolved with, it still did. -/
theorem WaitsInv.sound_append {obs : List (Obs Req Resp Frame)}
    (h : WaitsInv t w) {c : ReplyId} {result : Reply Resp}
    (hmem : .resolved c result ∈ t) :
    result = .error .bridgeClosed ∨ PerformedAs (t ++ obs) c result :=
  (h.sound c result hmem).imp id fun hp => hp.append obs

theorem WaitsInv.quiet {obs : List (Obs Req Resp Frame)} (h : WaitsInv t w)
    (hwait : ∀ i c, w'.waitsOn i = some c → w.waitsOn i = some c)
    (hfresh : w'.channels.fresh = w.channels.fresh)
    (hobs : ∀ o ∈ obs, o.resolution = []) : WaitsInv (t ++ obs) w' := by
  have hnil : resolves obs = [] := List.flatMap_eq_nil_iff.2 hobs
  have hres : resolves (t ++ obs) = resolves t := by
    rw [resolves_append, hnil, List.append_nil]
  refine ⟨?nodup, ?done, ?waiting, ?once, ?sound⟩
  case nodup => rw [hres]; exact h.nodup
  case done =>
    rw [hres, hfresh]
    intro c hc
    obtain ⟨hlt, hnot⟩ := h.done c hc
    exact ⟨hlt, fun i hi => hnot i (hwait i c hi)⟩
  case waiting =>
    rw [hfresh]
    exact fun i c hi => h.waiting i c (hwait i c hi)
  case once => exact fun i j c hi hj => h.once i j c (hwait i c hi) (hwait j c hj)
  case sound =>
    intro c result hmem
    rcases List.mem_append.1 hmem with hmem | hmem
    · exact h.sound_append hmem
    · cases hobs _ hmem

/-- A new channel, which one task waits on. -/
theorem WaitsInv.ask {i : Nat} {owner : ExchangeId} {request : Req}
    (h : WaitsInv t w)
    (hwait : w'.waitsOn = Function.update w.waitsOn i (some w.channels.fresh))
    (hfresh : w'.channels.fresh = w.channels.fresh + 1) :
    WaitsInv (t ++ [.submitted w.channels.fresh owner request]) w' := by
  have hnew : ∀ k c, w'.waitsOn k = some c →
      (k = i ∧ c = w.channels.fresh) ∨ (k ≠ i ∧ w.waitsOn k = some c) := by
    intro k c hk
    rw [hwait] at hk
    by_cases hki : k = i
    · rw [hki, Function.update_self] at hk
      exact .inl ⟨hki, (Option.some.inj hk).symm⟩
    · rw [Function.update_of_ne hki] at hk
      exact .inr ⟨hki, hk⟩
  have hres : resolves (t ++ [.submitted w.channels.fresh owner request]) =
      resolves t := by
    simp [resolves, Obs.resolution]
  refine ⟨?nodup, ?done, ?waiting, ?once, ?sound⟩
  case nodup => rw [hres]; exact h.nodup
  case done =>
    rw [hres, hfresh]
    intro c hc
    obtain ⟨hlt, hnot⟩ := h.done c hc
    refine ⟨Nat.lt_succ_of_lt hlt, fun k hk => ?_⟩
    rcases hnew k c hk with ⟨-, rfl⟩ | ⟨-, hk⟩
    · exact Nat.lt_irrefl _ hlt
    · exact hnot k hk
  case waiting =>
    rw [hfresh]
    intro k c hk
    rcases hnew k c hk with ⟨-, rfl⟩ | ⟨-, hk⟩
    · exact Nat.lt_succ_self _
    · exact Nat.lt_succ_of_lt (h.waiting k c hk)
  case once =>
    intro j k c hj hk
    rcases hnew j c hj with ⟨rfl, hc⟩ | ⟨-, hj⟩
    · rcases hnew k c hk with ⟨rfl, -⟩ | ⟨-, hk⟩
      · rfl
      · exact absurd hc (Nat.ne_of_lt (h.waiting k c hk))
    · rcases hnew k c hk with ⟨rfl, hc⟩ | ⟨-, hk⟩
      · exact absurd hc (Nat.ne_of_lt (h.waiting j c hj))
      · exact h.once j k c hj hk
  case sound =>
    intro c result hmem
    rcases List.mem_append.1 hmem with hmem | hmem
    · exact h.sound_append hmem
    · cases List.mem_singleton.1 hmem

/-- A task stops waiting, with what its channel answered. -/
theorem WaitsInv.resolve {i : Nat} {c : ReplyId} {result : Reply Resp}
    (h : WaitsInv t w) (hjobs : JobsInv t w) (htask : w.waitsOn i = some c)
    (hreply : w.channels.awaitReply c = some result)
    (hwait : w'.waitsOn = Function.update w.waitsOn i none)
    (hfresh : w'.channels.fresh = w.channels.fresh) :
    WaitsInv (t ++ [.resolved c result]) w' := by
  have hold : ∀ k c', w'.waitsOn k = some c' → k ≠ i ∧ w.waitsOn k = some c' := by
    intro k c' hk
    rw [hwait] at hk
    by_cases hki : k = i
    · rw [hki, Function.update_self] at hk; cases hk
    · rw [Function.update_of_ne hki] at hk
      exact ⟨hki, hk⟩
  have hres : resolves (t ++ [.resolved c result]) = resolves t ++ [c] := by
    simp [resolves, Obs.resolution]
  have hnot : c ∉ resolves t := fun hc => (h.done c hc).2 i htask
  refine ⟨?nodup, ?done, ?waiting, ?once, ?sound⟩
  case nodup =>
    rw [hres, ← List.concat_eq_append]
    exact List.Nodup.concat hnot h.nodup
  case done =>
    rw [hres, hfresh]
    intro c' hc'
    rcases List.mem_append.1 hc' with hc' | hc'
    · exact ⟨(h.done c' hc').1, fun k hk =>
        (h.done c' hc').2 k (hold k c' hk).2⟩
    · rw [List.mem_singleton.1 hc']
      refine ⟨h.waiting i c htask, fun k hk => ?_⟩
      obtain ⟨hki, hk⟩ := hold k c hk
      exact hki (h.once k i c hk htask)
  case waiting =>
    rw [hfresh]
    exact fun k c' hk => h.waiting k c' (hold k c' hk).2
  case once =>
    exact fun j k c' hj hk => h.once j k c' (hold j c' hj).2 (hold k c' hk).2
  case sound =>
    intro c' result' hmem
    rcases List.mem_append.1 hmem with hmem | hmem
    · exact h.sound_append hmem
    · cases List.mem_singleton.1 hmem
      exact (hjobs.awaitReply hreply).imp id fun hp => hp.append _

theorem WaitStep.inv {obs : List (Obs Req Resp Frame)} (hstep : WaitStep w obs w')
    (hjobs : JobsInv t w) (h : WaitsInv t w) : WaitsInv (t ++ obs) w' := by
  cases hstep with
  | quiet hwait hfresh hobs => exact h.quiet hwait hfresh hobs
  | ask hwait hfresh => exact h.ask hwait hfresh
  | resolve htask hreply hwait hfresh =>
      exact h.resolve hjobs htask hreply hwait hfresh

end step

/-! ## Jobs left behind -/

/-- The job `c` is out of reach of a drive: it has left the queue, or nobody
can take from the queue before it is drained. -/
def World.Stale (w : World Req Resp Frame Code) (c : ReplyId) : Prop :=
  c < w.channels.fresh ∧
    (c ∈ w.channels.queued →
      ∀ e, (w.phase e).holds = true → w.phase e = .locked)

/-- A call that holds the lock at `locked` at most can take nothing, and the
next thing it does with the lock is a drain. -/
theorem Phase.next_locked {p p' : Phase Req Frame} {ev : Event Req Resp Frame}
    (h : p.next ev = some p') (hp : p.holds = true → p = .locked) :
    (∃ dropped, ev = .drained dropped) ∨
      (p'.holds = true → p' = .locked) ∧ ∀ job, ev ≠ .took job := by
  cases Phase.edge h <;> simp_all [Phase.holds]

/-- A job that has left the queue does not come back, and is not taken. -/
theorem JobStep.not_queued {w w' : World Req Resp Frame Code}
    {obs : List (Obs Req Resp Frame)} (h : JobStep w obs w') {c : ReplyId}
    (hlt : c < w.channels.fresh) (hc : c ∉ w.channels.queued) :
    c < w'.channels.fresh ∧ c ∉ w'.channels.queued ∧ c ∉ takes obs := by
  have htakes : leaves obs = [] → c ∉ takes obs := fun hnil hmem => by
    have := (takes_sublist_leaves obs).subset hmem
    rw [hnil] at this
    cases this
  cases h with
  | idle hch hheld hsub hleave =>
      rw [hch]
      exact ⟨hlt, hc, htakes hleave⟩
  | submit hch =>
      rw [hch]
      refine ⟨Nat.lt_succ_of_lt hlt, fun hmem => ?_, htakes rfl⟩
      rw [Channels.queued, Channels.submit_queue, List.map_append] at hmem
      rcases List.mem_append.1 hmem with hmem | hmem
      · exact hc hmem
      · exact Nat.ne_of_lt hlt (List.mem_singleton.1 hmem)
  | drain hch =>
      rw [hch]
      refine ⟨by rwa [Channels.drainStaleJobs_fresh], ?_, ?_⟩
      · simp [Channels.queued]
      · simp [takes, Obs.taking]
  | @take e job _ hpoll =>
      obtain ⟨hqueue, hch⟩ := Channels.pollNextJob_eq_some.1 hpoll
      have hcons : w.channels.queued = job.reply :: w'.channels.queued := by
        rw [Channels.queued, hqueue]; rfl
      rw [hcons] at hc
      refine ⟨by rw [hch]; exact hlt, List.not_mem_of_not_mem_cons hc, ?_⟩
      have hne : c ≠ job.reply := List.ne_of_not_mem_cons hc
      simpa [takes, Obs.taking] using hne
  | reply hjob hch => rw [hch]; exact ⟨hlt, hc, htakes rfl⟩
  | drop hjob hch => rw [hch]; exact ⟨hlt, hc, htakes rfl⟩

theorem World.Steps.stale {w w' : World Req Resp Frame Code}
    {a : Action Resp Frame Code} {obs : List (Obs Req Resp Frame)}
    (h : w.Steps resume a obs w') {c : ReplyId} (hs : w.Stale c) :
    w'.Stale c ∧ c ∉ takes obs := by
  by_cases hc : c ∈ w.channels.queued
  · have hholds := hs.2 hc
    -- no drive is on, so no task moves and no job is taken
    have hidle : ∀ e, (w.phase e).inRuntime ≠ true := by
      intro e hin
      obtain ⟨future, hp⟩ := Phase.inRuntime_iff.1 hin
      have hlocked := hholds e (by rw [hp]; rfl)
      rw [hp] at hlocked
      cases hlocked
    cases h with
    | @exchange e move ev p hoffer hnext =>
        have hfresh : c < ((w.effect e ev).setPhase e p).channels.fresh := by
          show c < (w.effect e ev).channels.fresh
          rw [World.effect_fresh]
          exact hs.1
        rcases Phase.next_locked hnext (hholds e) with ⟨dropped, rfl⟩ | ⟨hp, hev⟩
        · refine ⟨⟨hfresh, fun hmem => ?_⟩, by simp [takes, Obs.taking]⟩
          simp [Channels.queued, World.setPhase, World.effect] at hmem
        · refine ⟨⟨hfresh, fun _ f hf => ?_⟩, ?_⟩
          · by_cases hfe : f = e
            · subst hfe
              rw [World.setPhase_self] at hf ⊢
              exact hp hf
            · rw [World.setPhase_phase, Function.update_of_ne hfe,
                World.effect_phase] at hf ⊢
              exact hholds f hf
          · cases ev <;> simp_all [takes, Obs.taking]
    | dispatch hin | finish hin | await hin | spawn hin | fetch hin
    | resolve hin | giveUp hin => exact absurd hin (hidle _)
  · obtain ⟨hlt, hnot, htakes⟩ := h.jobStep.not_queued hs.1 hc
    exact ⟨⟨hlt, fun hmem => absurd hmem hnot⟩, htakes⟩

theorem stale_run {w w' : World Req Resp Frame Code}
    {as : List (Action Resp Frame Code)} {c : ReplyId} (hs : w.Stale c)
    (h : run (World.step resume) w as = some w') :
    c ∉ takes (trace (World.step resume) (World.emit resume) w as) := by
  refine (trace_invariant_all (I := fun t w => w.Stale c ∧ c ∉ takes t) ?_
    ⟨hs, List.not_mem_nil⟩ h).2
  intro t w a w' hI hstep
  obtain ⟨hs', hnot⟩ := (World.step_steps hstep).stale hI.1
  refine ⟨hs', fun hmem => ?_⟩
  rw [takes, List.flatMap_append] at hmem
  exact (List.mem_append.1 hmem).elim hI.2 hnot

theorem JobStep.fresh_le {w w' : World Req Resp Frame Code}
    {obs : List (Obs Req Resp Frame)} (h : JobStep w obs w') :
    w.channels.fresh ≤ w'.channels.fresh := by
  cases h with
  | idle hch => exact Nat.le_of_eq (by rw [hch])
  | submit hch => rw [hch]; exact Nat.le_succ _
  | drain hch =>
      exact Nat.le_of_eq (by rw [hch, Channels.drainStaleJobs_fresh])
  | take hpoll =>
      exact Nat.le_of_eq (by rw [(Channels.pollNextJob_eq_some.1 hpoll).2])
  | reply hjob hch => exact Nat.le_of_eq (by rw [hch]; rfl)
  | drop hjob hch => exact Nat.le_of_eq (by rw [hch]; rfl)

/-- Whatever is queued when a call lets go of the lock is out of reach. -/
theorem World.Steps.stale_of_release {w w' : World Req Resp Frame Code}
    {a : Action Resp Frame Code} {obs : List (Obs Req Resp Frame)}
    (h : w.Steps resume a obs w') (hlock : w.LockWf)
    (hfree : w'.lock = none) {c : ReplyId} (hc : c < w.channels.fresh) :
    w'.Stale c := by
  refine ⟨Nat.lt_of_lt_of_le hc h.jobStep.fresh_le, fun _ e he => ?_⟩
  have := (h.lockWf hlock e).1 he
  rw [hfree] at this
  cases this

/-! ## Every run -/

theorem waitsInv_run {w : World Req Resp Frame Code}
    {as : List (Action Resp Frame Code)}
    (h : run (World.step resume) .init as = some w) :
    WaitsInv (trace (World.step resume) (World.emit resume) .init as) w := by
  have hinit : (World.init : World Req Resp Frame Code).LockWf ∧
      JobsInv [] (World.init : World Req Resp Frame Code) ∧
      WaitsInv [] (World.init : World Req Resp Frame Code) := by
    refine ⟨World.lockWf_init, jobsInv_init, by simp [resolves], ?_, ?_, ?_, ?_⟩
    · intro c hc; cases hc
    · intro i c hi; cases hi
    · intro i j c hi; cases hi
    · intro c result hc; cases hc
  refine (trace_invariant_all
    (I := fun t w => w.LockWf ∧ JobsInv t w ∧ WaitsInv t w) ?_ hinit h).2.2
  intro t w a w' hw hstep
  have hsteps := World.step_steps hstep
  have hlock' := hsteps.lockWf hw.1
  exact ⟨hlock',
    hsteps.jobStep.inv hw.1.heldOnce hlock'.heldOnce hw.2.1,
    hsteps.waitStep.inv hw.2.1 hw.2.2⟩

/-- A submitted job is in one of the four states. -/
theorem JobsInv.jobIn {t : List (Obs Req Resp Frame)}
    {w : World Req Resp Frame Code} (h : JobsInv t w) {c : ReplyId}
    (hc : c ∈ submits t) : ∃! s, w.JobIn c s := by
  rw [h.count, List.mem_range] at hc
  have hpend : ∀ s, w.JobIn c s → (s = .queued ∨ s = .performing) →
      w.channels.slots c = .pending := by
    intro s hs hor
    rcases hor with rfl | rfl
    · obtain ⟨job, hjob, rfl⟩ := List.mem_map.1 hs
      exact h.wf.pending job hjob
    · obtain ⟨e, job, he, rfl⟩ := hs
      exact (h.held e job he).2.2
  have hsplit : w.JobIn c .queued → ¬ w.JobIn c .performing := by
    rintro hq ⟨e, job, he, rfl⟩
    exact (h.held e job he).2.1 hq
  cases hslot : w.channels.slots c with
  | pending =>
      have honly : ∀ s, w.JobIn c s → s = .queued ∨ s = .performing := by
        intro s hs
        cases s with
        | queued => exact .inl rfl
        | performing => exact .inr rfl
        | answered => obtain ⟨result, hr⟩ := hs; rw [hslot] at hr; cases hr
        | dropped => cases hslot.symm.trans hs
      rcases h.cover c hc hslot with hq | hp
      · refine ⟨.queued, hq, fun s hs => ?_⟩
        rcases honly s hs with rfl | rfl
        · rfl
        · exact absurd hs (hsplit hq)
      · refine ⟨.performing, hp, fun s hs => ?_⟩
        rcases honly s hs with rfl | rfl
        · exact absurd hp (hsplit hs)
        · rfl
  | sent result =>
      refine ⟨.answered, ⟨result, hslot⟩, fun s hs => ?_⟩
      cases s with
      | queued => cases hslot.symm.trans (hpend _ hs (.inl rfl))
      | performing => cases hslot.symm.trans (hpend _ hs (.inr rfl))
      | answered => rfl
      | dropped => cases hslot.symm.trans hs
  | closed =>
      refine ⟨.dropped, hslot, fun s hs => ?_⟩
      cases s with
      | queued => cases hslot.symm.trans (hpend _ hs (.inl rfl))
      | performing => cases hslot.symm.trans (hpend _ hs (.inr rfl))
      | answered => obtain ⟨result, hr⟩ := hs; cases hslot.symm.trans hr
      | dropped => rfl

/-- Over every run: a submitted job is in exactly one state; jobs leave the
queue in the order they were submitted, and what has not left is queued; none
is performed twice; no `fetch` resolves twice, and each resolves with what
performing that very request gave, or with `BridgeClosed`; and a job queued
when the lock is let go is not performed in any continuation. -/
theorem jobs_have_one_life (resume : Code → Resume Req Resp Code)
    (as : List (Action Resp Frame Code)) (w : World Req Resp Frame Code)
    (h : run (World.step resume) .init as = some w) :
    let t := trace (World.step resume) (World.emit resume) .init as
    (∀ c ∈ submits t, ∃! s, w.JobIn c s) ∧
      (submits t).Nodup ∧
      leaves t ++ w.channels.queued = submits t ∧
      (takes t).Nodup ∧
      (resolves t).Nodup ∧
      (∀ c result, .resolved c result ∈ t →
        result = .error .bridgeClosed ∨ PerformedAs t c result) ∧
      ∀ e a w₁ bs w₂, w.lock = some e → w.step resume a = some w₁ →
        w₁.lock = none → run (World.step resume) w₁ bs = some w₂ →
        ∀ c ∈ w.channels.queued,
          c ∉ takes (trace (World.step resume) (World.emit resume) w₁ bs) := by
  intro t
  have hjobs : JobsInv t w := jobsInv_run h
  have hwaits : WaitsInv t w := waitsInv_run h
  have hnodup : (submits t).Nodup := by rw [hjobs.count]; exact List.nodup_range
  refine ⟨fun c => hjobs.jobIn, hnodup, hjobs.order, ?_, hwaits.nodup,
    hwaits.sound, ?_⟩
  · rw [← hjobs.order] at hnodup
    exact (takes_sublist_leaves t).nodup (List.nodup_append.1 hnodup).1
  · intro e a w₁ bs w₂ _ hstep hfree hrun c hc
    obtain ⟨job, hjob, rfl⟩ := List.mem_map.1 hc
    exact stale_run ((World.step_steps hstep).stale_of_release (lockWf_run h)
      hfree (hjobs.wf.fresh job hjob)) hrun

/-- Two jobs of a call cancelled while it performs the first: the second is
queued when the lock is let go, and the next call drains it. -/
theorem jobs_have_one_life_cancelled :
    let resume : Nat → Resume Nat Nat Nat := fun code =>
      if code = 0 then .fetch 5 (fun _ => 1) none else .finish
    let as : List (Action Nat Unit Nat) :=
      [.exchange 0 .buffer, .exchange 0 .acquire, .exchange 0 .drain,
        .dispatch 0 0, .dispatch 0 0, .poll 0 0 0, .poll 0 1 0,
        .exchange 0 .take, .exchange 0 .cancel, .exchange 1 .buffer,
        .exchange 1 .acquire, .exchange 1 .drain, .poll 1 0 0, .poll 1 1 0]
    let t := trace (World.step resume) (World.emit resume) .init as
    ∃ w, run (World.step resume) .init as = some w ∧
      (∀ c ∈ submits t, ∃! s, w.JobIn c s) ∧
      submits t = [0, 1] ∧ takes t = [0] ∧ resolves t = [0, 1] :=
  ⟨_, rfl, (jobs_have_one_life _ _ _ rfl).1, rfl, rfl, rfl⟩

end McpTemplate.Bridge
