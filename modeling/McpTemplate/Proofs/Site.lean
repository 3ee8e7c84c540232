import McpTemplate.Proofs.Front

/-!
# The front and the instance behind it

A run of `Site` is a run of `World` with the front's moves filled in, so what
holds of every run of the instance holds of it; and the front of a call is what
`Told` says of its request and its uploads. Together: whoever gets the lock has
been read whole, within the limit, and is no probe.

A call that the front answers by itself, or that never comes past it, is
invisible behind it. Its steps move nothing but its own front and phase, so
they can be taken out of the run, and nothing else changes. And no lock is in
the way of a front: into a run of the others its steps can be put wherever the
thread is free, whoever has the lock there, and one thread is still enough.
-/

namespace McpTemplate.Handle

open Lib Lib.Machine Bridge Discovery

variable {host : Host} {Req Resp Frame Code : Type} {config : Config}
  {resume : Code → Resume Req Resp Code}

/-! ## Steps behind the front -/

/-- No step leads back to where requests are received. -/
theorem phase_ne_receiving {w w' : World Req Resp Frame Code}
    {a : Action Resp Frame Code} (h : w.step resume a = some w') {e : ExchangeId}
    (hp : w.phase e ≠ .receiving) : w'.phase e ≠ .receiving := by
  by_cases hactor : a.actor = e
  · subst hactor
    have hsteps := World.step_steps h
    generalize w.emit resume a = obs at hsteps
    cases hsteps with
    | @exchange e move ev p hoffer hnext =>
        show ((w.effect e ev).setPhase e p).phase e ≠ .receiving
        rw [World.setPhase_self]
        have hedge := Phase.edge hnext
        generalize w.phase e = q at hedge
        cases hedge <;> simp
    | _ => exact hp
  · rw [World.phase_of_step h hactor]
    exact hp

/-- Of a call that is being received, only the front moves on; anything else
is that it is given up. -/
theorem step_receiving {w w' : World Req Resp Frame Code}
    {a : Action Resp Frame Code} (h : w.step resume a = some w')
    (hof : ofFront a = false) (hp : w.phase a.actor = .receiving) :
    a = .exchange a.actor .cancel ∧ w' = w.setPhase a.actor .finished := by
  have hsteps := World.step_steps h
  generalize w.emit resume a = obs at hsteps
  cases hsteps with
  | @exchange e move ev p hoffer hnext =>
      simp only [Action.actor] at hp
      have hby := World.madeBy hoffer
      have hedge := Phase.edge hnext
      rw [hp] at hedge
      cases hedge with
      | answer => cases hby; cases hof
      | buffer => cases hby; cases hof
      | cancelReceiving dropped =>
          cases hby
          have hpriv : (w.phase e).Private (Move.cancel : Move Resp Frame) .finished := by
            rw [hp]
            exact .cancelReceiving
          rw [World.step_private hpriv] at h
          exact ⟨rfl, (Option.some.inj h).symm⟩
  | dispatch hin | finish hin | await hin | spawn hin | fetch hin | resolve hin
  | giveUp hin =>
      simp only [Action.actor] at hp
      rw [hp] at hin
      cases hin

/-! ## Steps of the site -/

/-- The instance goes along with a front. -/
def Settled (resume : Code → Resume Req Resp Code) (w : World Req Resp Frame Code)
    (e : ExchangeId) (front : Front host) (w' : World Req Resp Frame Code) : Prop :=
  (front.move = (none : Option (Move Resp Frame)) ∧ w' = w) ∨
    ∃ move, front.move = some move ∧ w.step resume (.exchange e move) = some w'

/-- Everything a step of the site can be. -/
inductive Site.Steps (config : Config) (resume : Code → Resume Req Resp Code)
    (s : Site host Req Resp Frame Code) : SiteAction host Resp Frame Code →
      Site host Req Resp Frame Code → Prop
  | arrive {e request w} (hnew : s.front e = none)
      (hset : Settled resume s.world e (arrive config request : Front host) w) :
      Steps config resume s (.arrive e request)
        ⟨w, Function.update s.front e (some (Handle.arrive config request))⟩
  | upload {e event front w} (hfront : s.front e = some front)
      (hbuf : ∃ parts body, front = .buffering parts body)
      (hp : s.world.phase e = .receiving)
      (hset : Settled resume s.world e (front.upload config event) w) :
      Steps config resume s (.upload e event)
        ⟨w, Function.update s.front e (some (front.upload config event))⟩
  | inside {a w front} (hfront : s.front a.actor = some front)
      (hof : ofFront a = false) (hstep : s.world.step resume a = some w) :
      Steps config resume s (.inside a) ⟨w, s.front⟩

theorem settle_eq_some {s s' : Site host Req Resp Frame Code} {e : ExchangeId}
    {front : Front host} (h : s.settle resume e front = some s') :
    Settled resume s.world e front s'.world ∧
      s' = ⟨s'.world, Function.update s.front e (some front)⟩ := by
  unfold Site.settle at h
  cases hmove : (front.move : Option (Move Resp Frame)) with
  | none =>
      simp only [hmove] at h
      cases h
      exact ⟨.inl ⟨hmove, rfl⟩, rfl⟩
  | some move =>
      simp only [hmove] at h
      obtain ⟨w, hw, rfl⟩ := Option.map_eq_some_iff.1 h
      exact ⟨.inr ⟨move, hmove, hw⟩, rfl⟩

theorem Site.step_steps {s s' : Site host Req Resp Frame Code}
    {a : SiteAction host Resp Frame Code} (h : s.step config resume a = some s') :
    s.Steps config resume a s' := by
  cases a with
  | arrive e request =>
      simp only [Site.step, Option.isNone_iff_eq_none] at h
      split at h
      · next hnew =>
          obtain ⟨hset, heq⟩ := settle_eq_some h
          rw [heq]
          exact .arrive hnew hset
      · cases h
  | upload e event =>
      simp only [Site.step] at h
      split at h
      · next parts body hfront hp =>
          obtain ⟨hset, heq⟩ := settle_eq_some h
          rw [heq]
          exact .upload hfront ⟨parts, body, rfl⟩ hp hset
      · cases h
  | inside a =>
      simp only [Site.step] at h
      split at h
      · cases h
      · next hcond =>
          obtain ⟨w, hw, rfl⟩ := Option.map_eq_some_iff.1 h
          simp only [Bool.or_eq_true, not_or, Bool.not_eq_true, Option.isNone_eq_false_iff,
            Option.isSome_iff_exists] at hcond
          obtain ⟨hof, front, hfront⟩ := hcond
          exact .inside hfront hof hw

/-! ## Where a call with a front stands -/

/-- Where a call with this front can stand. -/
def FrontAt : Option (Front host) → Phase Req Frame → Prop
  | none, p => p = .receiving
  | some (.buffering _ _), p => p = .receiving ∨ p = .finished
  | some (.returned _), p => p = .finished
  | some (.passed _ _), p => p ≠ .receiving

/-- A call that is being received moves with its front, and nothing else does. -/
theorem Settled.spec {w w' : World Req Resp Frame Code} {e : ExchangeId}
    {front : Front host} (h : Settled resume w e front w')
    (hp : w.phase e = .receiving) :
    ∃ p, w' = w.setPhase e p ∧ FrontAt (some front) p ∧
      (p = .locking → ∃ parts bytes, front = .passed parts bytes) := by
  have hsame : w = w.setPhase e .receiving := by
    unfold World.setPhase
    rw [← hp, Function.update_eq_self]
  rcases h with ⟨hmove, rfl⟩ | ⟨move, hmove, hstep⟩
  · cases front with
    | buffering parts body => exact ⟨.receiving, hsame, .inl rfl, by simp⟩
    | _ => cases hmove
  · cases front with
    | buffering parts body => cases hmove
    | returned result =>
        cases hmove
        have hpriv : (w.phase e).Private (Move.answer : Move Resp Frame) .finished := by
          rw [hp]; exact .answer
        rw [World.step_private hpriv] at hstep
        exact ⟨.finished, (Option.some.inj hstep).symm, rfl, by simp⟩
    | passed parts bytes =>
        cases hmove
        have hpriv : (w.phase e).Private (Move.buffer : Move Resp Frame) .locking := by
          rw [hp]; exact .buffer
        rw [World.step_private hpriv] at hstep
        refine ⟨.locking, (Option.some.inj hstep).symm, ?_, fun _ => ⟨parts, bytes, rfl⟩⟩
        simp [FrontAt]

/-- Every call stands where its front says. -/
def Site.Fronted (s : Site host Req Resp Frame Code) : Prop :=
  ∀ e, FrontAt (s.front e) (s.world.phase e)

theorem fronted_init : (Site.init : Site host Req Resp Frame Code).Fronted :=
  fun _ => rfl

theorem FrontAt.settle {s : Site host Req Resp Frame Code} (hs : s.Fronted)
    {e : ExchangeId} {front : Front host} {w : World Req Resp Frame Code}
    (h : Settled resume s.world e front w) (hp : s.world.phase e = .receiving) :
    (⟨w, Function.update s.front e (some front)⟩ :
      Site host Req Resp Frame Code).Fronted := by
  obtain ⟨p, rfl, hat, -⟩ := h.spec hp
  intro f
  by_cases hf : f = e
  · subst hf
    show FrontAt (Function.update s.front f (some front) f)
      ((s.world.setPhase f p).phase f)
    rw [Function.update_self, World.setPhase_self]
    exact hat
  · show FrontAt (Function.update s.front e (some front) f)
      ((s.world.setPhase e p).phase f)
    rw [Function.update_of_ne hf, World.setPhase_phase_of_ne p hf]
    exact hs f

theorem Site.Steps.fronted {s s' : Site host Req Resp Frame Code}
    {a : SiteAction host Resp Frame Code} (h : s.Steps config resume a s')
    (hs : s.Fronted) : s'.Fronted := by
  cases h with
  | @arrive e request w hnew hset =>
      have hp := hs e
      rw [hnew] at hp
      exact FrontAt.settle hs hset hp
  | upload hfront hbuf hp hset => exact FrontAt.settle hs hset hp
  | @inside a w front hfront hof hstep =>
      intro f
      by_cases hf : a.actor = f
      · subst hf
        have hat := hs a.actor
        show FrontAt (s.front a.actor) (w.phase a.actor)
        rw [hfront] at hat ⊢
        cases front with
        | buffering parts body =>
            rcases hat with hp | hp
            · rw [(step_receiving hstep hof hp).2, World.setPhase_self]
              exact .inr rfl
            · rw [World.step_finished hp] at hstep
              cases hstep
        | returned result =>
            rw [World.step_finished hat] at hstep
            cases hstep
        | passed parts bytes => exact phase_ne_receiving hstep hat
      · show FrontAt (s.front f) (w.phase f)
        rw [World.phase_of_step hstep hf]
        exact hs f

theorem fronted_run {s : Site host Req Resp Frame Code}
    {as : List (SiteAction host Resp Frame Code)}
    (h : run (Site.step config resume) .init as = some s) : s.Fronted :=
  run_invariant (fun _ _ _ hs hstep => (Site.step_steps hstep).fronted hs)
    fronted_init h

/-! ## What the front has been told -/

/-- The requests that have arrived under a name. -/
def requestsOf (e : ExchangeId) (as : List (SiteAction host Resp Frame Code)) :
    List host.Request :=
  as.filterMap fun
    | .arrive f request => if f = e then some request else none
    | _ => none

/-- What the body of a call has brought. -/
def uploadsOf (e : ExchangeId) (as : List (SiteAction host Resp Frame Code)) :
    List (BodyEvent UInt8 host.ErrorCode) :=
  as.filterMap fun
    | .upload f event => if f = e then some event else none
    | _ => none

theorem requestsOf_concat (e : ExchangeId) (as : List (SiteAction host Resp Frame Code))
    (a : SiteAction host Resp Frame Code) :
    requestsOf e (as ++ [a]) = requestsOf e as ++
      match a with
      | .arrive f request => if f = e then [request] else []
      | _ => [] := by
  cases a with
  | arrive f request =>
      by_cases hf : f = e <;> simp [requestsOf, hf]
  | _ => simp [requestsOf]

theorem uploadsOf_concat (e : ExchangeId) (as : List (SiteAction host Resp Frame Code))
    (a : SiteAction host Resp Frame Code) :
    uploadsOf e (as ++ [a]) = uploadsOf e as ++
      match a with
      | .upload f event => if f = e then [event] else []
      | _ => [] := by
  cases a with
  | upload f event =>
      by_cases hf : f = e <;> simp [uploadsOf, hf]
  | _ => simp [uploadsOf]

/-- The front of a call is the one of its request and its uploads. -/
def FrontOf (config : Config) (requests : List host.Request)
    (uploads : List (BodyEvent UInt8 host.ErrorCode)) (front : Option (Front host)) :
    Prop :=
  (requests = [] ∧ uploads = [] ∧ front = none) ∨
    ∃ request, requests = [request] ∧ front = some (frontOf config request uploads)

theorem frontOf_concat (config : Config) (request : host.Request)
    (es : List (BodyEvent UInt8 host.ErrorCode)) (e : BodyEvent UInt8 host.ErrorCode) :
    frontOf config request (es ++ [e]) = (frontOf config request es).upload config e := by
  rw [frontOf, List.foldl_append]
  rfl

theorem Site.Steps.frontOf {s s' : Site host Req Resp Frame Code}
    {a : SiteAction host Resp Frame Code} (h : s.Steps config resume a s')
    {as : List (SiteAction host Resp Frame Code)}
    (hs : ∀ e, FrontOf config (requestsOf e as) (uploadsOf e as) (s.front e))
    (e : ExchangeId) :
    FrontOf config (requestsOf e (as ++ [a])) (uploadsOf e (as ++ [a])) (s'.front e) := by
  rw [requestsOf_concat, uploadsOf_concat]
  have hold := hs e
  cases h with
  | @arrive f request w hnew hset =>
      by_cases hf : f = e
      · subst hf
        rw [hnew] at hold
        obtain ⟨hreq, hup, -⟩ | ⟨request', -, hfront⟩ := hold
        · rw [hreq, hup]
          refine .inr ⟨request, by simp, ?_⟩
          exact Function.update_self ..
        · cases hfront
      · have hne : e ≠ f := fun h => hf h.symm
        simpa [hf, Function.update_of_ne hne] using hold
  | @upload f event front w hfront hbuf hp hset =>
      by_cases hf : f = e
      · subst hf
        rw [hfront] at hold
        obtain ⟨-, -, hnone⟩ | ⟨request, hreq, hsome⟩ := hold
        · cases hnone
        · rw [hreq]
          refine .inr ⟨request, by simp, ?_⟩
          simp only [if_true, frontOf_concat, ← Option.some.inj hsome]
          exact Function.update_self ..
      · have hne : e ≠ f := fun h => hf h.symm
        simpa [hf, Function.update_of_ne hne] using hold
  | inside hfront hof hstep => simpa using hold

/-- A body brings nothing behind its stop. -/
theorem Site.Steps.stopped {s s' : Site host Req Resp Frame Code}
    {a : SiteAction host Resp Frame Code} (h : s.Steps config resume a s')
    {as : List (SiteAction host Resp Frame Code)}
    (hfront : ∀ e, FrontOf config (requestsOf e as) (uploadsOf e as) (s.front e))
    (hs : ∀ e, Frames (uploadsOf e as).dropLast) (e : ExchangeId) :
    Frames (uploadsOf e (as ++ [a])).dropLast := by
  rw [uploadsOf_concat]
  cases h with
  | @upload f event front w hsome hbuf hp hset =>
      by_cases hf : f = e
      · subst hf
        obtain ⟨parts, body, rfl⟩ := hbuf
        have hof := hfront f
        rw [hsome] at hof
        obtain ⟨-, -, hnone⟩ | ⟨request, -, hof⟩ := hof
        · cases hnone
        · have htold := told_iff.1 (Option.some.inj hof).symm
          simp only [if_true, List.dropLast_concat]
          generalize uploadsOf f as = es at htold
          cases htold with
          | reading _ _ hes _ => exact hes
      · simpa [hf] using hs e
  | _ => simpa using hs e

/-- What the site knows of every call. -/
theorem told_run {s : Site host Req Resp Frame Code}
    {as : List (SiteAction host Resp Frame Code)}
    (h : run (Site.step config resume) .init as = some s) (e : ExchangeId) :
    FrontOf config (requestsOf e as) (uploadsOf e as) (s.front e) ∧
      Frames (uploadsOf e as).dropLast := by
  have hself := trace_actions h
  have hall : ∀ t, t = trace (Site.step config resume) (fun _ a => [a]) .init as →
      (∀ e, FrontOf config (requestsOf e t) (uploadsOf e t) (s.front e)) ∧
        ∀ e, Frames (uploadsOf e t).dropLast := by
    rintro t rfl
    refine trace_invariant_all
      (I := fun t s => (∀ e, FrontOf config (requestsOf e t) (uploadsOf e t) (s.front e)) ∧
        ∀ e, Frames (uploadsOf e t).dropLast) ?_ ?_ h
    · intro t s a s' hs hstep
      have hsteps := Site.step_steps hstep
      exact ⟨hsteps.frontOf hs.1, hsteps.stopped hs.1 hs.2⟩
    · exact ⟨fun e => .inl ⟨rfl, rfl, rfl⟩, fun e => List.forall_mem_nil _⟩
  obtain ⟨hfront, hframes⟩ := hall as hself.symm
  exact ⟨hfront e, hframes e⟩

/-! ## The site does what the instance does -/

theorem Settled.run_under {w w' : World Req Resp Frame Code} {e : ExchangeId}
    {front : Front host} (h : Settled resume w e front w') :
    run (World.step resume) w ((front.move.map (Action.exchange e)).toList) = some w' := by
  rcases h with ⟨hmove, rfl⟩ | ⟨move, hmove, hstep⟩
  · rw [hmove]; rfl
  · rw [hmove]
    exact run_cons.2 ⟨w', hstep, rfl⟩

theorem Site.Steps.run_under {s s' : Site host Req Resp Frame Code}
    {a : SiteAction host Resp Frame Code} (h : s.Steps config resume a s') :
    run (World.step resume) s.world (s.under config a) = some s'.world := by
  cases h with
  | arrive hnew hset => exact hset.run_under
  | upload hfront hbuf hp hset =>
      simp only [Site.under, hfront]
      exact hset.run_under
  | inside hfront hof hstep => exact run_cons.2 ⟨_, hstep, rfl⟩

theorem trace_under {s s' : Site host Req Resp Frame Code}
    {a : SiteAction host Resp Frame Code} (h : s.Steps config resume a s') :
    trace (World.step resume) (World.emit resume) s.world (s.under config a) =
      s.emit config resume a := by
  have hrun := h.run_under
  unfold Site.emit
  have hshort : ∃ o : Option (Action Resp Frame Code), s.under config a = o.toList := by
    cases h with
    | arrive hnew hset => exact ⟨_, rfl⟩
    | upload hfront hbuf hp hset =>
        simp only [Site.under, hfront]
        exact ⟨_, rfl⟩
    | @inside a w front hfront hof hstep => exact ⟨some a, rfl⟩
  obtain ⟨o, ho⟩ := hshort
  rw [ho] at hrun ⊢
  cases o with
  | none => rfl
  | some b =>
      obtain ⟨w, hw, -⟩ := run_cons.1 hrun
      rw [Option.toList_some, trace_cons hw, List.flatMap_cons]
      rfl

/-- A site runs as the instance behind it does, and shows what that shows. -/
theorem site_run {s : Site host Req Resp Frame Code}
    {as : List (SiteAction host Resp Frame Code)}
    (h : run (Site.step config resume) .init as = some s) :
    let under := trace (Site.step config resume) (Site.under config) .init as
    run (World.step resume) .init under = some s.world ∧
      trace (World.step resume) (World.emit resume) .init under =
        trace (Site.step config resume) (Site.emit config resume) .init as := by
  have hstep : ∀ (s : Site host Req Resp Frame Code) a s',
      s.step config resume a = some s' →
        run (World.step resume) s.world (s.under config a) = some s'.world :=
    fun s a s' ha => (Site.step_steps ha).run_under
  obtain ⟨hrun, htrace⟩ := run_simulates (World.emit resume) Site.world
    (Site.under config) hstep h
  refine ⟨hrun, htrace.trans ?_⟩
  clear htrace hrun
  generalize Site.init = s₀ at h
  induction as generalizing s₀ with
  | nil => rfl
  | cons a as ih =>
      obtain ⟨s₁, ha, hr⟩ := run_cons.1 h
      rw [trace_cons ha, trace_cons ha, ih s₁ hr, trace_under (Site.step_steps ha)]

/-- The call has been received: one request, no probe, whose body came to its
end within the limit; and the front holds exactly its content. -/
structure ReadWhole (config : Config) (as : List (SiteAction host Resp Frame Code))
    (s : Site host Req Resp Frame Code) (e : ExchangeId) (request : host.Request)
    (parts : host.Parts) (body : List (BodyEvent UInt8 host.ErrorCode)) : Prop where
  requests : requestsOf e as = [request]
  uploads : uploadsOf e as = body ++ [.ended]
  frames : Frames body
  converted : host.fromWasiRequest request = .ok parts
  noProbe : ¬ IsProbe host parts
  limit : (BodyEvent.content body).length ≤ config.maxRequestBodyBytes
  front : s.front e = some (.passed parts (BodyEvent.content body))

/-- In every run of the site the instance behind it does one of its own runs,
and a call is past receiving, with the lock or on its way to it, only after its
request was read whole. -/
theorem behind_the_front (config : Config) (resume : Code → Resume Req Resp Code)
    (as : List (SiteAction host Resp Frame Code)) (s : Site host Req Resp Frame Code)
    (h : run (Site.step config resume) .init as = some s) :
    (∃ under, run (World.step resume) .init under = some s.world ∧
      trace (World.step resume) (World.emit resume) .init under =
        trace (Site.step config resume) (Site.emit config resume) .init as) ∧
    ∀ e, s.world.phase e = .locking ∨ s.world.lock = some e →
      ∃ request parts body, ReadWhole config as s e request parts body := by
  have hworld := site_run h
  refine ⟨⟨_, hworld⟩, ?_⟩
  intro e he
  have hphase : s.world.phase e ≠ .receiving ∧ s.world.phase e ≠ .finished := by
    rcases he with he | he
    · rw [he]; simp
    · have hholds := (lockWf_run hworld.1 e).2 he
      constructor <;> intro hp <;> rw [hp] at hholds <;> cases hholds
  have hat := fronted_run h e
  obtain ⟨hof, hstop⟩ := told_run h e
  obtain ⟨-, -, hnone⟩ | ⟨request, hreq, hsome⟩ := hof
  · rw [hnone] at hat
    exact absurd hat hphase.1
  · rw [hsome] at hat
    have htold := told_iff.1 (rfl : frontOf config request (uploadsOf e as) = _)
    generalize hfront : frontOf config request (uploadsOf e as) = front at htold hsome hat
    generalize huploads : uploadsOf e as = es at htold hstop
    cases htold with
    | refused | probe | tooLarge | failed => exact absurd hat hphase.2
    | reading => exact absurd (hat.resolve_right hphase.2) hphase.1
    | @whole parts hparts hprobe pre rest hes hpre hle =>
        have hrest : rest = [] := by
          cases rest with
          | nil => rfl
          | cons x rest =>
              have hmem : (.ended : BodyEvent UInt8 host.ErrorCode) ∈ es.dropLast := by
                rw [hes, List.dropLast_append_of_ne_nil (by simp)]
                simp [List.dropLast]
              exact absurd (hstop _ hmem) (by simp [BodyEvent.isFrame])
        subst hrest
        exact ⟨request, parts, pre, hreq, huploads.trans hes, hpre, hparts, hprobe, hle,
          hsome⟩

/-- A call that gets the lock and is stuck with it, a probe, an upload that is
refused, and one that never ends. -/
def crowd : List (SiteAction plainHost Nat Nat Unit) :=
  [.arrive 0 ("POST".toList, "/mcp".toList), .upload 0 (.data [1, 2]),
    .arrive 1 ("GET".toList, "/health".toList), .upload 0 .ended,
    .inside (.exchange 0 .acquire), .arrive 2 ("POST".toList, "/".toList),
    .upload 2 (.data [1, 2, 3]), .inside (.exchange 0 .drain),
    .upload 2 (.data [4, 5]), .arrive 3 ("POST".toList, "/".toList),
    .upload 3 (.data [9])]

theorem behind_the_front_crowd :
    let config : Config := ⟨4, "\x7b\x7d".toList⟩
    let resume : Unit → Resume Nat Nat Unit := fun _ => .finish
    ∃ s, run (Site.step config resume) .init crowd = some s ∧
      s.world.lock = some 0 ∧
      ∃ request parts body, ReadWhole config crowd s 0 request parts body := by
  intro config resume
  obtain ⟨s, hs, hlock⟩ : ∃ s, run (Site.step config resume) .init crowd = some s ∧
      s.world.lock = some 0 := ⟨_, rfl, rfl⟩
  exact ⟨s, hs, hlock, (behind_the_front config resume crowd s hs).2 0 (.inr hlock)⟩

/-! ## A call taken out -/

/-- The site as if the call had never come. -/
def Site.without (e : ExchangeId) (s : Site host Req Resp Frame Code) :
    Site host Req Resp Frame Code :=
  ⟨s.world.setPhase e .receiving, Function.update s.front e none⟩

/-- The call has not come past its front. -/
def Site.Unpassed (s : Site host Req Resp Frame Code) (e : ExchangeId) : Prop :=
  ∀ parts bytes, s.front e ≠ some (.passed parts bytes)

theorem without_init (e : ExchangeId) :
    (Site.init : Site host Req Resp Frame Code).without e = Site.init := by
  simp only [Site.without, Site.init, World.init, World.setPhase,
    Function.update_eq_self_iff.2]

theorem without_settle {e f : ExchangeId} (h : f ≠ e)
    (s : Site host Req Resp Frame Code) (front : Front host) :
    (s.without e).settle resume f front = (s.settle resume f front).map (·.without e) := by
  have hfronts : Function.update (Function.update s.front e none) f (some front) =
      Function.update (Function.update s.front f (some front)) e none :=
    Function.update_comm h.symm _ _ _
  unfold Site.settle Site.without
  cases (front.move : Option (Move Resp Frame)) with
  | none => simp only [hfronts, Option.map_some]
  | some move =>
      have hstep : (s.world.setPhase e .receiving).step resume (.exchange f move) =
          (s.world.step resume (.exchange f move)).map (·.setPhase e .receiving) :=
        World.step_setPhase _ h
      simp only [hstep, hfronts, Option.map_map]
      rfl

/-- The others do as they did. -/
theorem without_step {e : ExchangeId} {a : SiteAction host Resp Frame Code}
    (h : a.actor ≠ e) (s : Site host Req Resp Frame Code) :
    (s.without e).step config resume a = (s.step config resume a).map (·.without e) := by
  have hfront : (s.without e).front a.actor = s.front a.actor :=
    Function.update_of_ne h _ _
  have hphase : (s.without e).world.phase a.actor = s.world.phase a.actor :=
    World.setPhase_phase_of_ne _ h
  cases a with
  | arrive f request =>
      simp only [SiteAction.actor] at h hfront hphase
      simp only [Site.step, hfront, without_settle h]
      split <;> rfl
  | upload f event =>
      simp only [SiteAction.actor] at h hfront hphase
      simp only [Site.step, hfront, hphase, without_settle h]
      split <;> rfl
  | inside a =>
      simp only [SiteAction.actor] at h hfront hphase
      simp only [Site.step, hfront]
      split
      · rfl
      · have hstep : (s.world.setPhase e .receiving).step resume a =
            (s.world.step resume a).map (·.setPhase e .receiving) :=
          World.step_setPhase _ h
        simp only [Site.without, hstep, Option.map_map]
        rfl

theorem under_actor {s : Site host Req Resp Frame Code}
    {a : SiteAction host Resp Frame Code} {b : Action Resp Frame Code}
    (h : b ∈ s.under config a) : b.actor = a.actor := by
  cases a with
  | arrive e request =>
      obtain ⟨move, -, rfl⟩ := Option.map_eq_some_iff.1 (Option.mem_toList.1 h)
      rfl
  | upload e event =>
      simp only [Site.under] at h
      split at h
      · obtain ⟨move, -, rfl⟩ := Option.map_eq_some_iff.1 (Option.mem_toList.1 h)
        rfl
      · cases h
  | inside a =>
      rw [List.mem_singleton.1 h]
      rfl

theorem without_emit {e : ExchangeId} {a : SiteAction host Resp Frame Code}
    (h : a.actor ≠ e) (s : Site host Req Resp Frame Code) :
    (s.without e).emit config resume a = s.emit config resume a := by
  have hunder : (s.without e).under config a = s.under config a := by
    have hfront : (s.without e).front a.actor = s.front a.actor :=
      Function.update_of_ne h _ _
    cases a with
    | upload f event =>
        simp only [SiteAction.actor] at hfront
        simp only [Site.under, hfront]
    | _ => rfl
  unfold Site.emit
  rw [hunder]
  refine List.flatMap_congr fun b hb => ?_
  exact World.emit_setPhase _ (by rw [under_actor hb]; exact h)

/-- The call an observation is about. -/
def call : Obs Req Resp Frame → Option ExchangeId
  | .exchange e _ => some e
  | _ => none

theorem call_of_emit {w : World Req Resp Frame Code} {a : Action Resp Frame Code}
    {o : Obs Req Resp Frame} (h : o ∈ w.emit resume a) :
    call o = none ∨ call o = some a.actor := by
  cases a with
  | exchange e move =>
      simp only [World.emit, List.mem_map] at h
      obtain ⟨ev, -, rfl⟩ := h
      exact .inr rfl
  | poll e i answer =>
      simp only [World.emit, World.observeTask] at h
      split at h
      · split at h
        · rw [List.mem_singleton.1 h]
          exact .inl rfl
        · cases h
      · obtain ⟨result, -, rfl⟩ := List.mem_map.1 h
        exact .inl rfl
      · cases h
  | dispatch e code => cases h
  | giveUp e i => cases h

/-- What others show is not about the call. -/
theorem shown_of_other {s : Site host Req Resp Frame Code} {e : ExchangeId}
    {a : SiteAction host Resp Frame Code} (h : a.actor ≠ e) :
    (s.emit config resume a).filter (fun o => call o ≠ some e) =
      s.emit config resume a := by
  refine List.filter_eq_self.2 fun o ho => ?_
  obtain ⟨b, hb, ho⟩ := List.mem_flatMap.1 ho
  rcases call_of_emit ho with hc | hc <;> simp [hc, under_actor hb, h]

theorem Front.upload_passed (config : Config) (parts : host.Parts) (bytes : List UInt8)
    (event : BodyEvent UInt8 host.ErrorCode) :
    (Front.passed parts bytes).upload config event = .passed parts bytes := rfl

/-- Once past, always past. -/
theorem Site.Steps.unpassed {s s' : Site host Req Resp Frame Code}
    {a : SiteAction host Resp Frame Code} (h : s.Steps config resume a s')
    {e : ExchangeId} (hs : s'.Unpassed e) : s.Unpassed e := by
  intro parts bytes hpassed
  refine hs parts bytes ?_
  cases h with
  | @arrive f request w hnew hset =>
      have hne : e ≠ f := by
        intro hef
        rw [hef, hnew] at hpassed
        cases hpassed
      show Function.update s.front f _ e = _
      rw [Function.update_of_ne hne]
      exact hpassed
  | @upload f event front w hfront hbuf hp hset =>
      show Function.update s.front f _ e = _
      by_cases hef : e = f
      · subst hef
        rw [hpassed] at hfront
        rw [Function.update_self, ← Option.some.inj hfront, Front.upload_passed]
      · rw [Function.update_of_ne hef]
        exact hpassed
  | inside hfront hof hstep => exact hpassed

theorem unpassed_run {s s' : Site host Req Resp Frame Code}
    {as : List (SiteAction host Resp Frame Code)}
    (h : run (Site.step config resume) s as = some s') {e : ExchangeId}
    (hs : s'.Unpassed e) : s.Unpassed e := by
  induction as generalizing s with
  | nil => cases h; exact hs
  | cons a as ih =>
      obtain ⟨s₁, ha, hr⟩ := run_cons.1 h
      exact (Site.step_steps ha).unpassed (ih hr)

theorem call_of_exchange {w : World Req Resp Frame Code} {e : ExchangeId}
    {move : Move Resp Frame} {o : Obs Req Resp Frame}
    (h : o ∈ w.emit resume (.exchange e move)) : call o = some e := by
  simp only [World.emit, List.mem_map] at h
  obtain ⟨ev, -, rfl⟩ := h
  rfl

/-- What a front shows is about its call. -/
theorem call_of_front {s : Site host Req Resp Frame Code}
    {a : SiteAction host Resp Frame Code} {o : Obs Req Resp Frame}
    (ha : ∀ b, a ≠ .inside b) (ho : o ∈ s.emit config resume a) :
    call o = some a.actor := by
  obtain ⟨b, hb, ho⟩ := List.mem_flatMap.1 ho
  cases a with
  | arrive e request =>
      obtain ⟨move, -, rfl⟩ := Option.map_eq_some_iff.1 (Option.mem_toList.1 hb)
      exact call_of_exchange ho
  | upload e event =>
      simp only [Site.under] at hb
      split at hb
      · obtain ⟨move, -, rfl⟩ := Option.map_eq_some_iff.1 (Option.mem_toList.1 hb)
        exact call_of_exchange ho
      · cases hb
  | inside b => exact absurd rfl (ha b)

theorem without_setPhase (s : Site host Req Resp Frame Code) (e : ExchangeId)
    (p : Phase Req Frame) (front : Option (Front host)) :
    (⟨s.world.setPhase e p, Function.update s.front e front⟩ :
      Site host Req Resp Frame Code).without e = s.without e := by
  simp only [Site.without, World.setPhase, Function.update_idem]

/-- A step of the call itself changes nothing but the call, and shows nothing
but of the call. -/
theorem Site.Steps.own {s s' : Site host Req Resp Frame Code}
    {a : SiteAction host Resp Frame Code} (h : s.Steps config resume a s')
    (hs : s.Fronted) (hun : s'.Unpassed a.actor) :
    s'.without a.actor = s.without a.actor ∧
      ∀ o ∈ s.emit config resume a, call o = some a.actor := by
  cases h with
  | @arrive e request w hnew hset =>
      have hp : s.world.phase e = .receiving := by
        have hat := hs e
        rw [hnew] at hat
        exact hat
      obtain ⟨p, rfl, -, -⟩ := hset.spec hp
      exact ⟨without_setPhase s e p _, fun o ho => call_of_front (by simp) ho⟩
  | @upload e event front w hfront hbuf hp hset =>
      obtain ⟨p, rfl, -, -⟩ := hset.spec hp
      exact ⟨without_setPhase s e p _, fun o ho => call_of_front (by simp) ho⟩
  | @inside a w front hfront hof hstep =>
      have hat := hs a.actor
      have hnot : ¬ s.world.phase a.actor = .finished := by
        intro hfin
        rw [World.step_finished hfin] at hstep
        cases hstep
      have hp : s.world.phase a.actor = .receiving := by
        rw [hfront] at hat
        cases front with
        | buffering parts body => exact hat.resolve_right hnot
        | returned result => exact absurd hat hnot
        | passed parts bytes => exact absurd hfront (hun parts bytes)
      obtain ⟨hcancel, rfl⟩ := step_receiving hstep hof hp
      have hself : s.front = Function.update s.front a.actor (s.front a.actor) := by
        rw [Function.update_eq_self]
      refine ⟨?_, ?_⟩
      · show Site.without a.actor ⟨s.world.setPhase a.actor .finished, s.front⟩ = _
        rw [hself]
        exact without_setPhase s a.actor .finished _
      · intro o ho
        obtain ⟨b, hb, ho⟩ := List.mem_flatMap.1 ho
        rw [List.mem_singleton.1 hb, hcancel] at ho
        exact call_of_exchange ho

/-- A run without a call that never comes past its front. -/
theorem without_run {s s' : Site host Req Resp Frame Code}
    {as : List (SiteAction host Resp Frame Code)} (hs : s.Fronted)
    (h : run (Site.step config resume) s as = some s') {e : ExchangeId}
    (hun : s'.Unpassed e) :
    run (Site.step config resume) (s.without e)
        (as.filter fun a => a.actor ≠ e) = some (s'.without e) ∧
      trace (Site.step config resume) (Site.emit config resume) (s.without e)
          (as.filter fun a => a.actor ≠ e) =
        (trace (Site.step config resume) (Site.emit config resume) s as).filter
          fun o => call o ≠ some e := by
  induction as generalizing s with
  | nil => cases h; exact ⟨rfl, rfl⟩
  | cons a as ih =>
      obtain ⟨s₁, ha, hr⟩ := run_cons.1 h
      have hsteps := Site.step_steps ha
      obtain ⟨hrun, htrace⟩ := ih (hsteps.fronted hs) hr
      rw [trace_cons ha, List.filter_append, List.filter_cons]
      by_cases hactor : a.actor = e
      · subst hactor
        obtain ⟨hsame, hshown⟩ := hsteps.own hs (unpassed_run hr hun)
        have hnone : (s.emit config resume a).filter
            (fun o => call o ≠ some a.actor) = [] := by
          refine List.filter_eq_nil_iff.2 fun o ho => ?_
          simp [hshown o ho]
        rw [if_neg (by simp), hnone, List.nil_append, ← hsame]
        exact ⟨hrun, htrace⟩
      · have hstep : (s.without e).step config resume a = some (s₁.without e) := by
          rw [without_step hactor, ha, Option.map_some]
        rw [if_pos (by simpa using hactor), trace_cons hstep, without_emit hactor,
          htrace, shown_of_other hactor]
        exact ⟨run_cons.2 ⟨_, hstep, hrun⟩, rfl⟩

/-- Nothing but the named calls is different. -/
structure SameBut (es : List ExchangeId) (s s' : Site host Req Resp Frame Code) :
    Prop where
  channels : s'.world.channels = s.world.channels
  lock : s'.world.lock = s.world.lock
  tasks : s'.world.tasks = s.world.tasks
  phase : ∀ f, f ∉ es → s'.world.phase f = s.world.phase f
  front : ∀ f, f ∉ es → s'.front f = s.front f

/-- Calls that never come past the front can be taken out of any run: probes,
uploads that were refused, that failed, that were given up or that are still
coming. What the instance does for all others stays what it was, whatever
these calls did and whenever. -/
theorem front_calls_invisible (config : Config) (resume : Code → Resume Req Resp Code)
    (as : List (SiteAction host Resp Frame Code)) (s : Site host Req Resp Frame Code)
    (h : run (Site.step config resume) .init as = some s) (es : List ExchangeId)
    (hes : ∀ e ∈ es, s.Unpassed e) :
    ∃ s', run (Site.step config resume) .init
        (as.filter fun a => a.actor ∉ es) = some s' ∧ SameBut es s s' ∧
      trace (Site.step config resume) (Site.emit config resume) .init
          (as.filter fun a => a.actor ∉ es) =
        (trace (Site.step config resume) (Site.emit config resume) .init as).filter
          fun o => ∀ e ∈ es, call o ≠ some e := by
  induction es generalizing as s with
  | nil =>
      refine ⟨s, ?_, ⟨rfl, rfl, rfl, fun _ _ => rfl, fun _ _ => rfl⟩, ?_⟩
      · simpa using h
      · simp
  | cons e es ih =>
      obtain ⟨hrun, htrace⟩ := without_run fronted_init h (hes e List.mem_cons_self)
      rw [without_init] at hrun htrace
      have hun : ∀ f ∈ es, (s.without e).Unpassed f := by
        intro f hf parts bytes
        show Function.update s.front e none f ≠ _
        by_cases hfe : f = e
        · subst hfe; simp
        · rw [Function.update_of_ne hfe]
          exact hes f (List.mem_cons_of_mem e hf) parts bytes
      obtain ⟨s', hrun', hsame, htrace'⟩ := ih _ _ hrun hun
      have hfilter : (as.filter fun a => a.actor ≠ e).filter (fun a => a.actor ∉ es) =
          as.filter fun a => a.actor ∉ e :: es := by
        rw [List.filter_filter]
        refine List.filter_congr fun a _ => ?_
        by_cases hae : a.actor = e <;> by_cases has : a.actor ∈ es <;> simp [hae, has]
      rw [hfilter] at hrun' htrace'
      refine ⟨s', hrun', ?_, ?_⟩
      · constructor
        · exact hsame.channels
        · exact hsame.lock
        · exact hsame.tasks
        · intro f hf
          simp only [List.mem_cons, not_or] at hf
          obtain ⟨hfe, hf⟩ := hf
          rw [hsame.phase f hf]
          exact World.setPhase_phase_of_ne _ hfe
        · intro f hf
          simp only [List.mem_cons, not_or] at hf
          obtain ⟨hfe, hf⟩ := hf
          rw [hsame.front f hf]
          exact Function.update_of_ne hfe _ _
      · rw [htrace', htrace, List.filter_filter]
        refine List.filter_congr fun o _ => ?_
        by_cases hoe : call o = some e <;> simp [hoe]

theorem front_calls_invisible_crowd :
    let config : Config := ⟨4, "\x7b\x7d".toList⟩
    let resume : Unit → Resume Nat Nat Unit := fun _ => .finish
    ∃ s s', run (Site.step config resume) .init crowd = some s ∧
      run (Site.step config resume) .init
        (crowd.filter fun a => a.actor ∉ [1, 2, 3]) = some s' ∧
      SameBut [1, 2, 3] s s' := by
  intro config resume
  obtain ⟨s, hs⟩ : ∃ s, run (Site.step config resume) .init crowd = some s := ⟨_, rfl⟩
  have hun : ∀ e ∈ [1, 2, 3], s.Unpassed e := by
    cases hs
    intro e he parts bytes h
    simp only [List.mem_cons, List.not_mem_nil, or_false] at he
    rcases he with rfl | rfl | rfl <;> cases h
  obtain ⟨s', hrun, hsame, -⟩ := front_calls_invisible config resume crowd s hs _ hun
  exact ⟨s, s', hs, hrun, hsame⟩

/-! ## A call put in -/

theorem SameBut.of_without (s : Site host Req Resp Frame Code) (e : ExchangeId) :
    SameBut [e] (s.without e) s where
  channels := rfl
  lock := rfl
  tasks := rfl
  phase f hf := (World.setPhase_phase_of_ne _ (by simpa using hf)).symm
  front f hf := (Function.update_of_ne (by simpa using hf) _ _).symm

/-- The thread is free: each call is over or stands at an `await`. -/
def Site.Free (s : Site host Req Resp Frame Code) : Prop :=
  ∀ f, (s.world.phase f).yields = true

/-- The step is one that the component's thread can make: a call that has the
thread keeps it up to its next `await`. -/
def OneThread (s : Site host Req Resp Frame Code) (a : SiteAction host Resp Frame Code) :
    Prop :=
  ∀ f, (s.world.phase f).yields = false → a.actor = f

/-- A step of this call comes where the thread is free. -/
def WhereFree (e : ExchangeId) (s : Site host Req Resp Frame Code)
    (a : SiteAction host Resp Frame Code) : Prop :=
  a.actor = e → s.Free

/-- Where a call stands that has done nothing but what its front does. -/
structure Site.Fresh (s : Site host Req Resp Frame Code) (e : ExchangeId)
    (front : Option (Front host)) : Prop where
  front_eq : s.front e = front
  receiving : (front = none ∨ ∃ parts body, front = some (.buffering parts body)) →
    s.world.phase e = .receiving
  yields : (s.world.phase e).yields = true

/-- The steps by which a front goes from one point to another, in order. -/
inductive Coming (config : Config) (e : ExchangeId) :
    Option (Front host) → List (SiteAction host Resp Frame Code) → Front host → Prop
  | done (front : Front host) : Coming config e (some front) [] front
  | arrive {request as front} (h : Coming config e (some (arrive config request)) as front) :
      Coming config e none (.arrive e request :: as) front
  | upload {parts body event as front}
      (h : Coming config e (some ((Front.buffering parts body).upload config event)) as
        front) :
      Coming config e (some (.buffering parts body)) (.upload e event :: as) front

/-- A front takes up every step that is for it, whatever the instance does. -/
theorem settle_receiving (resume : Code → Resume Req Resp Code)
    (s : Site host Req Resp Frame Code) {e : ExchangeId}
    (hp : s.world.phase e = .receiving) (front : Front host) :
    ∃ s', s.settle resume e front = some s' ∧ s'.without e = s.without e ∧
      s'.Fresh e (some front) := by
  have hsame : s.world = s.world.setPhase e .receiving := by
    unfold World.setPhase
    rw [← hp, Function.update_eq_self]
  have hdone : ∀ p, (∀ parts body, front = .buffering parts body → p = .receiving) →
      p.yields = true → s.settle resume e front =
        some ⟨s.world.setPhase e p, Function.update s.front e (some front)⟩ →
      ∃ s', s.settle resume e front = some s' ∧ s'.without e = s.without e ∧
        s'.Fresh e (some front) := by
    intro p hbuf hyields hsettle
    refine ⟨_, hsettle, without_setPhase s e p _, Function.update_self .., ?_, ?_⟩
    · intro hfront'
      rcases hfront' with hnone | ⟨parts, body, hfront⟩
      · cases hnone
      · exact (World.setPhase_self _ _ _).trans (hbuf parts body (Option.some.inj hfront))
    · exact (congrArg Phase.yields (World.setPhase_self _ _ _)).trans hyields
  have hstep : ∀ (move : Move Resp Frame) p, front.move = some move →
      Phase.Private .receiving move p → s.settle resume e front =
        some ⟨s.world.setPhase e p, Function.update s.front e (some front)⟩ := by
    intro move p hmove hpriv
    have hmade : s.world.step resume (.exchange e move) = some (s.world.setPhase e p) :=
      World.step_private (hp ▸ hpriv)
    simp only [Site.settle, hmove, hmade, Option.map_some]
  cases front with
  | buffering parts body =>
      refine hdone .receiving (fun _ _ _ => rfl) rfl ?_
      rw [← hsame]
      rfl
  | returned result =>
      exact hdone .finished (fun _ _ h => by cases h) rfl (hstep .answer .finished rfl .answer)
  | passed parts bytes =>
      exact hdone .locking (fun _ _ h => by cases h) rfl (hstep .buffer .locking rfl .buffer)

/-- The next step of a front. -/
theorem Coming.step {s : Site host Req Resp Frame Code} {e : ExchangeId}
    {front₀ : Option (Front host)} {a : SiteAction host Resp Frame Code}
    {as : List (SiteAction host Resp Frame Code)} {front : Front host}
    (h : Coming config e front₀ (a :: as) front) (hs : s.Fresh e front₀) :
    ∃ s' next, s.step config resume a = some s' ∧ s'.without e = s.without e ∧
      s'.Fresh e (some next) ∧ Coming config e (some next) as front ∧
      ∀ o ∈ s.emit config resume a, call o = some e := by
  cases h with
  | @arrive request as front h =>
      obtain ⟨s', hs', hwithout, hfresh⟩ :=
        settle_receiving resume s (hs.receiving (.inl rfl)) (Handle.arrive config request)
      refine ⟨s', _, ?_, hwithout, hfresh, h, fun o ho => call_of_front (by simp) ho⟩
      simp only [Site.step, hs.front_eq, Option.isNone_none, if_true]
      exact hs'
  | @upload parts body event as front h =>
      have hp := hs.receiving (.inr ⟨parts, body, rfl⟩)
      obtain ⟨s', hs', hwithout, hfresh⟩ :=
        settle_receiving resume s hp ((Front.buffering parts body).upload config event)
      refine ⟨s', _, ?_, hwithout, hfresh, h, fun o ho => call_of_front (by simp) ho⟩
      simp only [Site.step, hs.front_eq, hp]
      exact hs'

theorem Settled.other {w w' : World Req Resp Frame Code} {e f : ExchangeId}
    {front : Front host} (h : Settled resume w f front w') (hne : f ≠ e) :
    w'.phase e = w.phase e := by
  rcases h with ⟨-, rfl⟩ | ⟨move, -, hstep⟩
  · rfl
  · exact World.phase_of_step hstep hne

/-- The steps of others leave a call where it stands. -/
theorem Site.Steps.fresh {s s' : Site host Req Resp Frame Code}
    {a : SiteAction host Resp Frame Code} (h : s.Steps config resume a s')
    {e : ExchangeId} (hne : a.actor ≠ e) {front : Option (Front host)}
    (hs : s.Fresh e front) : s'.Fresh e front := by
  have hsame : s'.front e = s.front e ∧ s'.world.phase e = s.world.phase e := by
    cases h with
    | arrive hnew hset => exact ⟨Function.update_of_ne hne.symm _ _, hset.other hne⟩
    | upload hfront hbuf hp hset =>
        exact ⟨Function.update_of_ne hne.symm _ _, hset.other hne⟩
    | inside hfront hof hstep => exact ⟨rfl, World.phase_of_step hstep hne⟩
  refine ⟨hsame.1.trans hs.front_eq, fun hfront => ?_, ?_⟩
  · rw [hsame.2]
    exact hs.receiving hfront
  · rw [hsame.2]
    exact hs.yields

/-- What is one thread's step without a call that yields is so with it. -/
theorem OneThread.of_without {s : Site host Req Resp Frame Code} {e : ExchangeId}
    {a : SiteAction host Resp Frame Code} (h : OneThread (s.without e) a)
    (hyields : (s.world.phase e).yields = true) : OneThread s a := by
  intro f hf
  have hne : f ≠ e := by
    rintro rfl
    rw [hyields] at hf
    cases hf
  exact h f ((congrArg Phase.yields (World.setPhase_phase_of_ne _ hne)).trans hf)

/-- The converse of `without_run`: the steps of a front can be put into a run
of the others, in their order, and one thread makes them all where it is free
for them. -/
theorem with_run {e : ExchangeId} {bs : List (SiteAction host Resp Frame Code)} :
    ∀ {s s₂ : Site host Req Resp Frame Code} {front₀ : Option (Front host)}
      {front : Front host}, s.Fresh e front₀ →
      Coming config e front₀ (bs.filter fun a => a.actor = e) front →
      Meets (Site.step config resume) (WhereFree e) s bs →
      run (Site.step config resume) (s.without e) (bs.filter fun a => a.actor ≠ e) =
        some s₂ →
      ∃ s', run (Site.step config resume) s bs = some s' ∧ s'.without e = s₂ ∧
        s'.front e = some front ∧
        (Meets (Site.step config resume) OneThread (s.without e)
            (bs.filter fun a => a.actor ≠ e) →
          Meets (Site.step config resume) OneThread s bs) ∧
        trace (Site.step config resume) (Site.emit config resume) (s.without e)
            (bs.filter fun a => a.actor ≠ e) =
          (trace (Site.step config resume) (Site.emit config resume) s bs).filter
            fun o => call o ≠ some e := by
  induction bs with
  | nil =>
      intro s s₂ front₀ front hs hcoming _ h
      cases h
      cases hcoming with
      | done => exact ⟨s, rfl, rfl, hs.front_eq, id, rfl⟩
  | cons a bs ih =>
      intro s s₂ front₀ front hs hcoming hfree h
      by_cases hactor : a.actor = e
      · rw [List.filter_cons_of_pos (by simpa using hactor)] at hcoming
        rw [List.filter_cons_of_neg (by simpa using hactor)] at h ⊢
        obtain ⟨s₁, next, hstep, hwithout, hfresh, hnext, hshown⟩ := hcoming.step hs
        rw [← hwithout] at h ⊢
        obtain ⟨hhere, hlater⟩ := (meets_cons hstep).1 hfree
        obtain ⟨s', hrun, hs', hfront, hone, htrace⟩ := ih hfresh hnext hlater h
        have hone' : OneThread s a := fun f hf => by
          rw [hhere hactor f] at hf
          cases hf
        refine ⟨s', run_cons.2 ⟨s₁, hstep, hrun⟩, hs', hfront,
          fun hothers => (meets_cons hstep).2 ⟨hone', hone hothers⟩, ?_⟩
        have hnone : (s.emit config resume a).filter (fun o => call o ≠ some e) = [] := by
          refine List.filter_eq_nil_iff.2 fun o ho => ?_
          simp [hshown o ho]
        rw [trace_cons hstep, List.filter_append, hnone, List.nil_append]
        exact htrace
      · rw [List.filter_cons_of_neg (by simpa using hactor)] at hcoming
        rw [List.filter_cons_of_pos (by simpa using hactor)] at h ⊢
        obtain ⟨s₁', hstep', hrest⟩ := run_cons.1 h
        rw [trace_cons hstep', without_emit hactor, meets_cons hstep']
        rw [without_step hactor] at hstep'
        obtain ⟨s₁, hstep, rfl⟩ := Option.map_eq_some_iff.1 hstep'
        have hfresh := (Site.step_steps hstep).fresh hactor hs
        have hlater := ((meets_cons hstep).1 hfree).2
        obtain ⟨s', hrun, hs', hfront, hone, htrace⟩ := ih hfresh hcoming hlater hrest
        refine ⟨s', run_cons.2 ⟨s₁, hstep, hrun⟩, hs', hfront, fun hothers => ?_, ?_⟩
        · exact (meets_cons hstep).2 ⟨hothers.1.of_without hs.yields, hone hothers.2⟩
        rw [trace_cons hstep, List.filter_append, shown_of_other hactor, htrace]

/-- Every event of a body comes while the front still reads. -/
def ReadUpTo (config : Config) (request : host.Request)
    (es : List (BodyEvent UInt8 host.ErrorCode)) : Prop :=
  ∀ pre event post, es = pre ++ event :: post →
    ∃ parts body, frontOf config request pre = .buffering parts body

theorem ReadUpTo.coming {e : ExchangeId} {request : host.Request} :
    ∀ {post pre : List (BodyEvent UInt8 host.ErrorCode)},
      ReadUpTo config request (pre ++ post) →
      Coming config e (some (frontOf config request pre))
        (post.map (.upload e) : List (SiteAction host Resp Frame Code))
        (frontOf config request (pre ++ post)) := by
  intro post
  induction post with
  | nil =>
      intro pre h
      rw [List.append_nil]
      exact .done _
  | cons event post ih =>
      intro pre h
      obtain ⟨parts, body, hfront⟩ := h pre event post rfl
      have hnext := frontOf_concat config request pre event
      rw [hfront] at hnext
      have hsplit : pre ++ event :: post = (pre ++ [event]) ++ post := by simp
      rw [hsplit] at h ⊢
      have hcoming := ih h
      rw [hnext] at hcoming
      rw [hfront]
      exact .upload hcoming

/-- Nobody waits in front, whoever has the lock and whatever it waits for: into
any run of the others, the arrival of a request and the events of its body can
be put wherever the thread is free, as long as the front still reads. The front
comes to what it is told, for all others the run is what it was, and one thread
makes the run if it makes theirs. -/
theorem front_never_waits (config : Config) (resume : Code → Resume Req Resp Code)
    (bs : List (SiteAction host Resp Frame Code)) (s : Site host Req Resp Frame Code)
    (e : ExchangeId) (request : host.Request)
    (es : List (BodyEvent UInt8 host.ErrorCode)) (hread : ReadUpTo config request es)
    (hown : (bs.filter fun a => a.actor = e) = .arrive e request :: es.map (.upload e))
    (hfree : Meets (Site.step config resume) (WhereFree e) .init bs)
    (h : run (Site.step config resume) .init (bs.filter fun a => a.actor ≠ e) = some s) :
    ∃ s' front, run (Site.step config resume) .init bs = some s' ∧ SameBut [e] s s' ∧
      s'.front e = some front ∧ Told config request es front ∧
      (Meets (Site.step config resume) OneThread .init (bs.filter fun a => a.actor ≠ e) →
        Meets (Site.step config resume) OneThread .init bs) ∧
      trace (Site.step config resume) (Site.emit config resume) .init
          (bs.filter fun a => a.actor ≠ e) =
        (trace (Site.step config resume) (Site.emit config resume) .init bs).filter
          fun o => call o ≠ some e := by
  have hcoming : Coming config e none (bs.filter fun a => a.actor = e)
      (frontOf config request es) := by
    have hall : ReadUpTo config request ([] ++ es) := hread
    rw [hown]
    exact .arrive hall.coming
  have hfresh : (Site.init : Site host Req Resp Frame Code).Fresh e none :=
    ⟨rfl, fun _ => rfl, rfl⟩
  rw [← without_init e] at h
  obtain ⟨s', hrun, rfl, hfront, hone, htrace⟩ := with_run hfresh hcoming hfree h
  rw [without_init] at hone htrace
  exact ⟨s', _, hrun, .of_without s' e, hfront, told_iff.1 rfl, hone, htrace⟩

/-- While a call with the lock waits for the answer to a tool's request, another
comes, and its upload is refused. -/
def meanwhile : List (SiteAction plainHost Nat Nat Nat) :=
  [.arrive 0 ("POST".toList, "/mcp".toList), .upload 0 .ended,
    .inside (.exchange 0 .acquire), .inside (.exchange 0 .drain),
    .inside (.dispatch 0 0), .inside (.poll 0 0 0), .inside (.exchange 0 .take),
    .arrive 1 ("POST".toList, "/".toList), .upload 1 (.data [1, 2, 3]),
    .upload 1 (.data [4, 5]), .inside (.exchange 0 (.reply (.ok 8))),
    .inside (.poll 0 0 0), .inside (.exchange 0 (.respond []))]

theorem front_never_waits_meanwhile :
    let config : Config := ⟨4, "\x7b\x7d".toList⟩
    let resume : Nat → Resume Nat Nat Nat
      | 0 => .fetch 7 (fun _ => 1) none
      | _ => .finish
    let es : List (BodyEvent UInt8 plainHost.ErrorCode) := [.data [1, 2, 3], .data [4, 5]]
    ∃ s s' front, run (Site.step config resume) .init
        (meanwhile.filter fun a => a.actor ≠ 1) = some s ∧
      run (Site.step config resume) .init meanwhile = some s' ∧ SameBut [1] s s' ∧
      s'.front 1 = some front ∧ Told config ("POST".toList, "/".toList) es front ∧
      Meets (Site.step config resume) OneThread .init meanwhile := by
  intro config resume es
  have hread : ReadUpTo config ("POST".toList, "/".toList) es := by
    intro pre event post h
    match pre with
    | [] => exact ⟨_, _, rfl⟩
    | [first] =>
        obtain rfl : BodyEvent.data [1, 2, 3] = first := (List.cons.inj h).1
        exact ⟨_, _, rfl⟩
    | _ :: _ :: _ => simp [es] at h
  obtain ⟨s, hs⟩ : ∃ s, run (Site.step config resume) .init
      (meanwhile.filter fun a => a.actor ≠ 1) = some s := ⟨_, rfl⟩
  have hfree : Meets (Site.step config resume) (WhereFree 1) .init meanwhile := by
    iterate 7 refine (meets_cons rfl).2 ⟨nofun, ?_⟩
    iterate 3
      refine (meets_cons rfl).2 ⟨fun _ f => ?_, ?_⟩
      · match f with
        | 0 | 1 | _ + 2 => rfl
    iterate 3 refine (meets_cons rfl).2 ⟨nofun, ?_⟩
    trivial
  have hone : Meets (Site.step config resume) OneThread .init
      (meanwhile.filter fun a => a.actor ≠ 1) := by
    iterate 10
      refine (meets_cons rfl).2 ⟨fun f hf => ?_, ?_⟩
      · match f with
        | 0 => rfl
        | _ + 1 => cases hf
    trivial
  obtain ⟨s', front, hrun, hsame, hfront, htold, hthread, -⟩ :=
    front_never_waits config resume meanwhile s 1 _ es hread rfl hfree hs
  exact ⟨s, s', front, hs, hrun, hsame, hfront, htold, hthread hone⟩

end McpTemplate.Handle
