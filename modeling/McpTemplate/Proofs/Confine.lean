import McpTemplate.Proofs.Fetches

/-!
# Whose work a drive performs

`drain_stale_jobs` empties the queue before an exchange drives, so a job that
was queued before it is never performed under its lock. What the drain cannot
reach is a tool that has not submitted yet: its task outlives the exchange on
the shared runtime, and a `fetch` it comes to inside a later exchange's drive
is queued after that exchange's drain.

So the jobs a drive performs are its own exactly in the runs where no task
comes to a `fetch` inside the drive of another exchange. One direction is an
invariant of those runs, `World.Owned`; for the other, any step that breaks the
condition has a continuation in which the driver takes that very job.
-/

namespace McpTemplate.Bridge

open Lib Lib.Machine

variable {Req Resp Frame Code : Type} {resume : Code → Resume Req Resp Code}

/-- The request being performed was submitted by a tool of the exchange that
holds the lock. -/
def Confined (t : List (Obs Req Resp Frame)) (w : World Req Resp Frame Code) :
    Prop :=
  ∀ e job holder owner request, w.held e = some job → w.lock = some holder →
    .submitted job.reply owner request ∈ t → owner = holder

/-- The step polls a task of one exchange inside the drive of another, and the
task comes to a `fetch`. -/
def World.staleFetch (resume : Code → Resume Req Resp Code)
    (w : World Req Resp Frame Code) : Action Resp Frame Code → Bool
  | .poll e i _ =>
      match w.tasks[i]? with
      | some ⟨owner, .ready code⟩ =>
          match resume code with
          | .fetch _ _ _ => owner != e
          | _ => false
      | _ => false
  | _ => false

/-- The job `c` is queued or being performed. -/
def World.Live (w : World Req Resp Frame Code) (c : ReplyId) : Prop :=
  w.JobIn c .queued ∨ w.JobIn c .performing

/-- A call past its first drain holds the lock over its own jobs only. -/
def World.Owned (t : List (Obs Req Resp Frame)) (w : World Req Resp Frame Code) :
    Prop :=
  ∀ e, (w.phase e).holds = true → w.phase e ≠ .locked →
    ∀ c, w.Live c → ∀ owner request, .submitted c owner request ∈ t → owner = e

theorem JobsInv.live_lt {t : List (Obs Req Resp Frame)}
    {w : World Req Resp Frame Code} (h : JobsInv t w) {c : ReplyId}
    (hc : w.Live c) : c < w.channels.fresh := by
  rcases hc with hq | ⟨e, job, he, rfl⟩
  · obtain ⟨job, hjob, rfl⟩ := List.mem_map.1 hq
    exact h.wf.fresh job hjob
  · exact (h.held e job he).1

theorem JobsInv.submitted_lt {t : List (Obs Req Resp Frame)}
    {w : World Req Resp Frame Code} (h : JobsInv t w) {c : ReplyId}
    {owner : ExchangeId} {request : Req}
    (hmem : .submitted c owner request ∈ t) : c < w.channels.fresh := by
  have hsub : c ∈ submits t :=
    List.mem_flatMap.2 ⟨_, hmem, List.mem_singleton_self c⟩
  rwa [h.count, List.mem_range] at hsub

/-- A job comes to life by being submitted. -/
theorem JobStep.live {w w' : World Req Resp Frame Code}
    {obs : List (Obs Req Resp Frame)} (h : JobStep w obs w') {c : ReplyId}
    (hc : w'.Live c) :
    w.Live c ∨ c = w.channels.fresh ∧ ∃ owner request,
      obs = [.submitted w.channels.fresh owner request] := by
  have hold : ∀ {e : ExchangeId}, w'.held = Function.update w.held e none →
      w'.channels.queued = w.channels.queued → w.Live c := by
    intro e hheld hq
    rcases hc with hc | ⟨f, job, hf, rfl⟩
    · exact .inl (by rw [World.JobIn, ← hq]; exact hc)
    · by_cases hfe : f = e
      · rw [hheld, hfe, Function.update_self] at hf; cases hf
      · rw [hheld, Function.update_of_ne hfe] at hf
        exact .inr ⟨f, job, hf, rfl⟩
  cases h with
  | idle hch hheld =>
      refine .inl ?_
      simpa only [World.Live, World.JobIn, hch, hheld] using hc
  | @submit owner request _ hch hheld =>
      rcases hc with hc | hc
      · have hc' : c ∈ (w.channels.submit request).2.queued := by
          rw [← hch]; exact hc
        rw [Channels.queued, Channels.submit_queue, List.map_append] at hc'
        rcases List.mem_append.1 hc' with hq | hq
        · exact .inl (.inl hq)
        · exact .inr ⟨List.mem_singleton.1 hq, owner, request, rfl⟩
      · exact .inl (.inr (by simpa only [World.JobIn, hheld] using hc))
  | drain hch hheld =>
      rcases hc with hc | hc
      · simp [World.JobIn, Channels.queued, hch] at hc
      · exact .inl (.inr (by simpa only [World.JobIn, hheld] using hc))
  | @take e job _ hpoll hfree hheld =>
      obtain ⟨hqueue, -⟩ := Channels.pollNextJob_eq_some.1 hpoll
      have hcons : w.channels.queued = job.reply :: w'.channels.queued := by
        rw [Channels.queued, hqueue]; rfl
      rcases hc with hc | ⟨f, job', hf, rfl⟩
      · exact .inl (.inl (by rw [World.JobIn, hcons]; exact List.mem_cons_of_mem _ hc))
      · by_cases hfe : f = e
        · rw [hheld, hfe, Function.update_self] at hf
          cases hf
          exact .inl (.inl (by rw [World.JobIn, hcons]; exact List.mem_cons_self))
        · rw [hheld, Function.update_of_ne hfe] at hf
          exact .inl (.inr ⟨f, job', hf, rfl⟩)
  | reply hjob hch hheld =>
      exact .inl (hold hheld (by rw [hch]; rfl))
  | drop hjob hch hheld =>
      exact .inl (hold hheld (by rw [hch]; rfl))

/-- A call comes to hold the lock past `locked` by draining. -/
theorem Phase.next_past {p p' : Phase Req Frame} {ev : Event Req Resp Frame}
    (h : p.next ev = some p') (hp : p'.holds = true) (hne : p' ≠ .locked) :
    (p.holds = true ∧ p ≠ .locked) ∨
      p'.held = none ∧ ∃ dropped, ev = .drained dropped := by
  cases Phase.edge h <;> simp_all [Phase.holds, Phase.held]

/-- So it held the lock past its drain before, or the step is that drain. -/
theorem World.Steps.past {w w' : World Req Resp Frame Code}
    {a : Action Resp Frame Code} {obs : List (Obs Req Resp Frame)}
    (h : w.Steps resume a obs w') {e : ExchangeId}
    (he : (w'.phase e).holds = true) (hne : w'.phase e ≠ .locked) :
    ((w.phase e).holds = true ∧ w.phase e ≠ .locked) ∨
      w'.channels.queued = [] ∧ w'.held e = none := by
  rcases h.call e with ⟨-, hp⟩ | ⟨ev, p, hobs, -, hnext, hp⟩
  · rw [hp] at he hne; exact .inl ⟨he, hne⟩
  · rw [hp] at he hne
    rcases Phase.next_past hnext he hne with hpast | ⟨hheld, dropped, rfl⟩
    · exact .inl hpast
    · refine .inr ⟨?_, by rw [World.held, hp]; exact hheld⟩
      cases h with
      | @exchange f move ev p' hoffer =>
          have hev : f = e ∧ ev = .drained dropped := by
            by_cases hf : f = e
            · simpa [eventsOf, hf] using hobs
            · simp [eventsOf, hf] at hobs
          rw [hev.2]
          simp [Channels.queued, World.setPhase, World.effect]
      | _ => simp [eventsOf] at hobs

/-- Right after its own drain a call holds nothing, nor does any other. -/
theorem World.LockWf.not_live {w : World Req Resp Frame Code} (hw : w.LockWf)
    {e : ExchangeId} (he : (w.phase e).holds = true)
    (hqueue : w.channels.queued = []) (hheld : w.held e = none) (c : ReplyId) :
    ¬ w.Live c := by
  rintro (hc | ⟨f, job, hf, -⟩)
  · rw [World.JobIn, hqueue] at hc; cases hc
  · have hholds : (w.phase f).holds = true := by
      obtain ⟨future, hp⟩ := Phase.held_eq_some.1 hf
      rw [hp]
      rfl
    have hfe := ((hw f).1 hholds).symm.trans ((hw e).1 he)
    rw [Option.some.inj hfe, hheld] at hf
    cases hf

theorem World.Steps.owned {w w' : World Req Resp Frame Code}
    {a : Action Resp Frame Code} {t obs : List (Obs Req Resp Frame)}
    (h : w.Steps resume a obs w') (hlock : w'.LockWf) (hjobs : JobsInv t w)
    (hfetch : w.staleFetch resume a = false) (hw : w.Owned t) :
    w'.Owned (t ++ obs) := by
  intro e he hne c hc owner request hmem
  rcases h.past he hne with ⟨he₀, hne₀⟩ | ⟨hqueue, hheld⟩
  · rcases h.jobStep.live hc with hlive | ⟨rfl, owner', request', hobs⟩
    · have hlt := hjobs.live_lt hlive
      rcases List.mem_append.1 hmem with hmem | hmem
      · exact hw e he₀ hne₀ c hlive owner request hmem
      · -- a step shows a submission only of a channel it makes
        cases h with
        | fetch =>
            cases List.mem_singleton.1 hmem
            exact absurd hlt (Nat.lt_irrefl _)
        | _ => simp at hmem
    · cases h with
      | @fetch f i answer owner₀ code request₀ next giveUp hin htask hcode =>
          rcases List.mem_append.1 hmem with hmem | hmem
          · exact absurd (hjobs.submitted_lt hmem) (Nat.lt_irrefl _)
          · cases List.mem_singleton.1 hmem
            have hown : owner = f := by
              simpa [World.staleFetch, htask, hcode] using hfetch
            have hf : w.lock = some f := hlock.of_inRuntime hin
            have he' : w.lock = some e := (hlock e).1 he
            rw [hown]
            exact Option.some.inj (hf.symm.trans he')
      | _ => simp at hobs
  · exact absurd hc (hlock.not_live he hqueue hheld c)

/-! ## Every run -/

/-- A world whose calls own what they perform is confined. -/
theorem World.Owned.confined {t : List (Obs Req Resp Frame)}
    {w : World Req Resp Frame Code} (h : w.Owned t) (hlock : w.LockWf) :
    Confined t w := by
  intro e job holder owner request hjob hholder hmem
  have he : (w.phase e).holds = true ∧ w.phase e ≠ .locked := by
    obtain ⟨future, hp⟩ := Phase.held_eq_some.1 hjob
    rw [hp]
    exact ⟨rfl, fun h => by cases h⟩
  have hown := h e he.1 he.2 job.reply (.inr ⟨e, job, hjob, rfl⟩) owner request
    hmem
  rw [hown]
  exact Option.some.inj (((hlock e).1 he.1).symm.trans hholder)

theorem confined_run {w : World Req Resp Frame Code}
    {as : List (Action Resp Frame Code)}
    (h : run (World.step resume) .init as = some w)
    (hmeets : Meets (World.step resume)
      (fun w a => w.staleFetch resume a = false) .init as) :
    Confined (trace (World.step resume) (World.emit resume) .init as) w := by
  have hinit : (World.init : World Req Resp Frame Code).LockWf ∧
      JobsInv [] (World.init : World Req Resp Frame Code) ∧
      (World.init : World Req Resp Frame Code).Owned [] :=
    ⟨World.lockWf_init, jobsInv_init, fun _ he => by cases he⟩
  have hstep : ∀ t w (a : Action Resp Frame Code) w',
      w.LockWf ∧ JobsInv t w ∧ w.Owned t → w.staleFetch resume a = false →
        w.step resume a = some w' →
          w'.LockWf ∧ JobsInv (t ++ w.emit resume a) w' ∧
            w'.Owned (t ++ w.emit resume a) := by
    intro t w a w' hw hfetch hstep
    have hsteps := World.step_steps hstep
    have hlock' := hsteps.lockWf hw.1
    exact ⟨hlock', hsteps.jobStep.inv hw.1.heldOnce hlock'.heldOnce hw.2.1,
      hsteps.owned hlock' hw.2.1 hfetch hw.2.2⟩
  have hinv := trace_invariant
    (I := fun t w => w.LockWf ∧ JobsInv t w ∧ w.Owned t) hstep hinit hmeets h
  exact hinv.2.2.confined hinv.1

/-! ## The other direction -/

theorem World.offer_take {w : World Req Resp Frame Code} (e : ExchangeId)
    {job : Job Req} {rest : List (Job Req)} (hq : w.channels.queue = job :: rest) :
    w.offer e .take = some (.took job) := by
  simp [World.offer, Channels.pollNextJob, hq]

theorem World.effect_took_queue {w : World Req Resp Frame Code}
    (e : ExchangeId) {job : Job Req} {rest : List (Job Req)}
    (hq : w.channels.queue = job :: rest) :
    (w.effect e (.took job)).channels.queue = rest := by
  simp [World.effect, Channels.pollNextJob, hq]

/-- A drive can perform the queue up to any job and take that one. -/
theorem drive_takes {e : ExchangeId} {future : Driving Frame}
    (pre : List (Job Req)) {job : Job Req} {rest : List (Job Req)}
    {w : World Req Resp Frame Code} (hp : w.phase e = .driving future)
    (hq : w.channels.queue = pre ++ job :: rest) :
    ∃ as w', run (World.step resume) w as = some w' ∧
      w'.held e = some job ∧ w'.lock = w.lock := by
  have take : ∀ {first : Job Req} {more : List (Job Req)},
      w.channels.queue = first :: more →
      w.step resume (.exchange e .take) =
        some ((w.effect e (.took first)).setPhase e (.performing future first)) :=
    fun hq' => World.step_exchange (World.offer_take e hq') (by rw [hp]; rfl)
  induction pre generalizing w with
  | nil =>
      refine ⟨[.exchange e .take], _, run_cons.2 ⟨_, take hq, rfl⟩, ?_, rfl⟩
      rw [World.held, World.setPhase_self]
      rfl
  | cons first pre ih =>
      have hq' : w.channels.queue = first :: (pre ++ job :: rest) := hq
      have htook := take hq'
      -- perform the first job with any result and go on
      generalize hw₁ : (w.effect e (.took first)).setPhase e
        (.performing future first) = w₁ at htook
      have hp₁ : w₁.phase e = .performing future first := by
        rw [← hw₁]; exact World.setPhase_self _ _ _
      have hq₁ : w₁.channels.queue = pre ++ job :: rest := by
        rw [← hw₁]; exact World.effect_took_queue e hq'
      have hreply : w₁.step resume (.exchange e (.reply (.error .bridgeClosed))) =
          some ((w₁.effect e (.replied first (.error .bridgeClosed))).setPhase e
            (.driving future)) :=
        World.step_exchange (by simp [World.offer, hp₁, Phase.held])
          (by rw [hp₁]; rfl)
      have hp₂ := World.setPhase_self
        (w₁.effect e (.replied first (.error .bridgeClosed))) e (.driving future)
      obtain ⟨as, w', hrun, hheld, hlock⟩ := ih hp₂ hq₁ (fun hq'' =>
        World.step_exchange (World.offer_take e hq'') (by rw [hp₂]; rfl))
      refine ⟨_ :: _ :: as, w', run_cons.2 ⟨_, htook, run_cons.2
        ⟨_, hreply, hrun⟩⟩, hheld, hlock.trans ?_⟩
      rw [← hw₁]
      rfl

/-- After a stale `fetch` the drive can take its job, and then it performs
another exchange's request. -/
theorem staleFetch_escapes {w w' : World Req Resp Frame Code}
    {as : List (Action Resp Frame Code)} {a : Action Resp Frame Code}
    (h : run (World.step resume) .init as = some w)
    (hstep : w.step resume a = some w') (hstale : w.staleFetch resume a = true) :
    ∃ bs w'', run (World.step resume) w' bs = some w'' ∧
      ¬ Confined (trace (World.step resume) (World.emit resume) .init
        (as ++ a :: bs)) w'' := by
  have hlock := lockWf_run h
  have hsteps := World.step_steps hstep
  have htrace : ∀ bs, trace (World.step resume) (World.emit resume) w (a :: bs) =
      w.emit resume a ++ trace (World.step resume) (World.emit resume) w' bs :=
    fun bs => trace_cons hstep
  generalize World.emit resume w a = obs at hsteps htrace
  cases hsteps with
  | @fetch e i answer owner code request next giveUp hin htask hcode =>
      have hne : owner ≠ e := by
        simpa [World.staleFetch, htask, hcode] using hstale
      obtain ⟨future, hp⟩ := Phase.inRuntime_iff.1 hin
      generalize hw' : ({ w.setTask i ⟨owner, .waiting w.channels.fresh next
        giveUp⟩ with channels := (w.channels.submit request).2 } :
          World Req Resp Frame Code) = w' at htrace hstep
      have hp' : w'.phase e = .driving future := by rw [← hw']; exact hp
      have hlock' : w'.lock = some e := by
        rw [← hw']; exact hlock.of_inRuntime hin
      have hq : w'.channels.queue =
          w.channels.queue ++ [⟨request, w.channels.fresh⟩] := by
        rw [← hw']; rfl
      have htakes : ∃ bs w'', run (World.step resume) w' bs = some w'' ∧
          w''.held e = some ⟨request, w.channels.fresh⟩ ∧ w''.lock = w'.lock :=
        drive_takes w.channels.queue hp' hq
      obtain ⟨bs, w'', hrun, hheld, hlock''⟩ := htakes
      refine ⟨bs, w'', hrun, fun hconf => hne ?_⟩
      refine hconf e _ e owner request hheld (hlock''.trans hlock') ?_
      rw [trace_append h, htrace]
      simp
  | _ => simp_all [World.staleFetch]

/-- In every run in which no task comes to a `fetch` inside another exchange's
drive, a drive performs only requests of the exchange that holds the lock; and
wherever a run does come to such a step, it can go on to perform a request of
one exchange under the lock of another. -/
theorem outbound_work_confined (resume : Code → Resume Req Resp Code) :
    (∀ (as : List (Action Resp Frame Code)) w,
      run (World.step resume) .init as = some w →
      Meets (World.step resume) (fun w a => w.staleFetch resume a = false) .init
        as →
      Confined (trace (World.step resume) (World.emit resume) .init as) w) ∧
    ∀ (as : List (Action Resp Frame Code)) w a w',
      run (World.step resume) .init as = some w →
      w.step resume a = some w' → w.staleFetch resume a = true →
      ∃ bs w'', run (World.step resume) w' bs = some w'' ∧
        ¬ Confined (trace (World.step resume) (World.emit resume) .init
          (as ++ a :: bs)) w'' :=
  ⟨fun _ _ => confined_run, fun _ _ _ _ => staleFetch_escapes⟩

/-- A tool that waits for something else and then fetches. -/
def sleepyTool : Nat → Resume Nat Nat Nat
  | 0 => .await fun _ => 1
  | 1 => .fetch 5 (fun _ => 2) none
  | _ => .finish

/-- Exchange 0 ends early while its tool sleeps; exchange 1 drives. -/
def earlyEnd : List (Action Nat Nat Nat) :=
  [.exchange 0 .buffer, .exchange 0 .acquire, .exchange 0 .drain,
    .dispatch 0 0, .exchange 0 (.respond [7]), .exchange 0 .stream,
    .exchange 0 .pull, .exchange 0 (.send [(.ready false, false)]),
    .exchange 0 .drain, .exchange 0 .release, .exchange 1 .buffer,
    .exchange 1 .acquire, .exchange 1 .drain, .poll 1 0 0]

/-- The tool of exchange 0 wakes up, fetches, and exchange 1 performs it. -/
theorem outbound_work_not_confined :
    ¬ ∀ w, run (World.step sleepyTool) .init
        (earlyEnd ++ [.poll 1 0 0, .exchange 1 .take]) = some w →
      Confined (trace (World.step sleepyTool) (World.emit sleepyTool) .init
        (earlyEnd ++ [.poll 1 0 0, .exchange 1 .take])) w := by
  intro h
  have hconf := h _ rfl 1 ⟨5, 0⟩ 1 0 5 rfl rfl
    (List.mem_of_getElem? (i := 12) rfl)
  exact absurd hconf (by decide)

/-- The first direction where the tool fetches in time, the second where it
does not. -/
theorem outbound_work_confined_runs :
    (∃ w, run (World.step sleepyTool) .init
        (earlyEnd.take 4 ++ [.poll 0 0 0, .poll 0 0 0, .exchange 0 .take]) =
          some w ∧
      Confined (trace (World.step sleepyTool) (World.emit sleepyTool) .init
        (earlyEnd.take 4 ++ [.poll 0 0 0, .poll 0 0 0, .exchange 0 .take])) w) ∧
    ∃ bs, ∃ w : World Nat Nat Nat Nat,
      ¬ Confined (trace (World.step sleepyTool) (World.emit sleepyTool) .init
        (earlyEnd ++ .poll 1 0 0 :: bs)) w := by
  constructor
  · exact ⟨_, rfl, (outbound_work_confined sleepyTool).1 _ _ rfl (by decide)⟩
  · obtain ⟨bs, w, -, hconf⟩ :=
      (outbound_work_confined sleepyTool).2 earlyEnd _ (.poll 1 0 0) _ rfl rfl rfl
    exact ⟨bs, w, hconf⟩

end McpTemplate.Bridge
