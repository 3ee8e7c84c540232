import McpTemplate.Lib.Movers
import McpTemplate.Proofs.Exchanges

/-!
# One exchange at a time

An instance runs many calls of `handle` at once, and its comment says that it
serves one exchange at a time. Both are true. A call that has no lock guard
touches nothing the others can see: until it gets the lock it only receives,
buffers and waits, and after its release it only watches the transmission.
Such steps are the `Private` ones, and they commute with every step of every
other call. So a run can be sorted: first everything the calls do before they
get the lock, then the locked intervals, one behind the other in the order in
which the lock was handed out, then the watching. The sorted run has the same
steps of each call in the same order, shows each call the same events, and
ends in the same world.
-/

namespace McpTemplate.Bridge

open Lib Lib.Machine

variable {Req Resp Frame Code : Type} {resume : Code → Resume Req Resp Code}

/-! ## Private steps -/

/-- The moves that change nothing but where the call itself stands. -/
inductive Phase.Private :
    Phase Req Frame → Move Resp Frame → Phase Req Frame → Prop
  | answer : Private .receiving .answer .finished
  | buffer : Private .receiving .buffer .locking
  | cancelReceiving : Private .receiving .cancel .finished
  | cancelLocking : Private .locking .cancel .finished
  | observe : Private .observing .observe .finished

/-- 0 before a call has the lock, 2 once it has released it, 1 between. -/
def Phase.stage : Phase Req Frame → Nat
  | .receiving | .locking => 0
  | .observing => 2
  | _ => 1

/-- The stage a step belongs to; taking the lock belongs to the interval it
opens. -/
def World.stage (w : World Req Resp Frame Code) : Action Resp Frame Code → Nat
  | .exchange _ .acquire => 1
  | .exchange e _ => (w.phase e).stage
  | _ => 1

theorem World.stage_le (w : World Req Resp Frame Code)
    (a : Action Resp Frame Code) : w.stage a ≤ 2 := by
  have hphase : ∀ p : Phase Req Frame, p.stage ≤ 2 := by
    intro p
    cases p <;> simp [Phase.stage]
  unfold World.stage
  split
  · omega
  · exact hphase _
  · omega

theorem World.step_private {w : World Req Resp Frame Code} {e : ExchangeId}
    {move : Move Resp Frame} {p : Phase Req Frame}
    (h : (w.phase e).Private move p) :
    w.step resume (.exchange e move) = some (w.setPhase e p) := by
  generalize hq : w.phase e = q at h
  cases h <;> simp [World.step, World.offer, World.effect, Phase.next, Phase.held,
    Phase.holds, hq]

/-- The move that makes an event, for the events around the lock. -/
def Event.MadeBy : Event Req Resp Frame → Move Resp Frame → Prop
  | .answered, move => move = .answer
  | .buffered, move => move = .buffer
  | .acquired, move => move = .acquire
  | .released, move => move = .release
  | .cancelled _, move => move = .cancel
  | .observed, move => move = .observe
  | _, _ => True

theorem World.madeBy {w : World Req Resp Frame Code} {e : ExchangeId}
    {move : Move Resp Frame} {ev : Event Req Resp Frame}
    (h : w.offer e move = some ev) : ev.MadeBy move := by
  cases move <;> simp only [World.offer, Option.some.injEq] at h
  case acquire => split at h <;> cases h; rfl
  case take => obtain ⟨jc, -, rfl⟩ := Option.map_eq_some_iff.1 h; trivial
  case reply => obtain ⟨job, -, rfl⟩ := Option.map_eq_some_iff.1 h; trivial
  case pull => split at h <;> cases h; trivial
  case send =>
    split at h
    · obtain ⟨outcome, -, rfl⟩ := Option.map_eq_some_iff.1 h; trivial
    · cases h
  all_goals cases h; trivial

theorem Phase.private_of_edge {p p' : Phase Req Frame} {ev : Event Req Resp Frame}
    {move : Move Resp Frame} (h : p.Edge ev p') (hstage : p.stage ≠ 1)
    (hmove : move ≠ .acquire) (hby : ev.MadeBy move) : p.Private move p' := by
  cases h
  case answer => cases hby; exact .answer
  case buffer => cases hby; exact .buffer
  case cancelReceiving => cases hby; exact .cancelReceiving
  case cancelLocking => cases hby; exact .cancelLocking
  case observe => cases hby; exact .observe
  case acquire => exact absurd hby hmove
  all_goals exact absurd rfl hstage

/-- A step outside stage 1 is a private one. -/
theorem World.private_of_stage {w w' : World Req Resp Frame Code}
    {a : Action Resp Frame Code} (h : w.step resume a = some w')
    (hstage : w.stage a ≠ 1) :
    ∃ e move p, a = .exchange e move ∧ (w.phase e).Private move p ∧
      w.stage a = (w.phase e).stage ∧ w' = w.setPhase e p := by
  have hsteps := World.step_steps h
  generalize w.emit resume a = obs at hsteps
  cases hsteps with
  | @exchange e move ev p hoffer hnext =>
      have hmove : move ≠ .acquire := by
        intro hm
        subst hm
        exact hstage rfl
      have hst : w.stage (.exchange e move) = (w.phase e).stage := by
        cases move with
        | acquire => exact absurd rfl hmove
        | _ => rfl
      rw [hst] at hstage
      have hp : (w.phase e).Private move p :=
        Phase.private_of_edge (Phase.edge hnext) hstage hmove (World.madeBy hoffer)
      rw [World.step_private hp] at h
      exact ⟨e, move, p, rfl, hp, hst, (Option.some.inj h).symm⟩
  | _ => exact absurd rfl hstage

/-! ## Steps of different calls -/

section apart

variable {w : World Req Resp Frame Code} {e : ExchangeId} (p : Phase Req Frame)

theorem World.setPhase_phase_of_ne {f : ExchangeId} (h : f ≠ e) :
    (w.setPhase e p).phase f = w.phase f := by
  rw [World.setPhase_phase, Function.update_of_ne h]

theorem World.setPhase_comm {f : ExchangeId} (h : f ≠ e) (q : Phase Req Frame) :
    (w.setPhase e p).setPhase f q = (w.setPhase f q).setPhase e p := by
  unfold World.setPhase
  rw [Function.update_comm h.symm]

theorem World.offer_setPhase {f : ExchangeId} (h : f ≠ e) (move : Move Resp Frame) :
    (w.setPhase e p).offer f move = w.offer f move := by
  have hphase := World.setPhase_phase_of_ne (w := w) p h
  cases move <;> simp only [World.offer, hphase] <;> rfl

theorem World.effect_setPhase {f : ExchangeId} (h : f ≠ e)
    (ev : Event Req Resp Frame) :
    (w.setPhase e p).effect f ev = (w.effect f ev).setPhase e p := by
  have hphase := World.setPhase_phase_of_ne (w := w) p h
  cases ev <;> simp only [World.effect, hphase] <;> rfl

theorem World.pollTask_setPhase (i answer : Nat) :
    (w.setPhase e p).pollTask resume i answer =
      (w.pollTask resume i answer).map (·.setPhase e p) := by
  have htasks : (w.setPhase e p).tasks = w.tasks := rfl
  unfold World.pollTask
  rw [htasks]
  split
  · split <;> rfl
  · rw [Option.map_map]
    rfl
  · rfl

theorem World.giveUpTask_setPhase (i : Nat) :
    (w.setPhase e p).giveUpTask i = (w.giveUpTask i).map (·.setPhase e p) := by
  have htasks : (w.setPhase e p).tasks = w.tasks := rfl
  unfold World.giveUpTask
  rw [htasks]
  split <;> rfl

/-- Where one call stands matters to no step of another. -/
theorem World.step_setPhase {a : Action Resp Frame Code} (h : a.actor ≠ e) :
    (w.setPhase e p).step resume a = (w.step resume a).map (·.setPhase e p) := by
  have hphase : (w.setPhase e p).phase a.actor = w.phase a.actor :=
    World.setPhase_phase_of_ne p h
  cases a with
  | exchange f move =>
      have hoffer := World.offer_setPhase (w := w) p h move
      simp only [Action.actor] at hphase h hoffer
      simp only [World.step, hoffer, hphase]
      cases w.offer f move with
      | none => rfl
      | some ev =>
          cases hnext : (w.phase f).next ev with
          | none => simp [hnext]
          | some q =>
              simp only [Option.bind_eq_bind, Option.bind_some, hnext, Option.map_some,
                World.effect_setPhase p h, World.setPhase_comm p h]
  | dispatch f code =>
      simp only [Action.actor] at hphase
      simp only [World.step, hphase]
      split <;> rfl
  | poll f i answer =>
      simp only [Action.actor] at hphase
      simp only [World.step, hphase, World.pollTask_setPhase]
      split <;> rfl
  | giveUp f i =>
      simp only [Action.actor] at hphase
      simp only [World.step, hphase, World.giveUpTask_setPhase]
      split <;> rfl

theorem World.emit_setPhase {a : Action Resp Frame Code} (h : a.actor ≠ e) :
    (w.setPhase e p).emit resume a = w.emit resume a := by
  cases a with
  | exchange f move =>
      have hoffer := World.offer_setPhase (w := w) p h move
      simp only [Action.actor] at hoffer
      simp only [World.emit, hoffer]
  | _ => rfl

theorem World.stage_setPhase {a : Action Resp Frame Code} (h : a.actor ≠ e) :
    (w.setPhase e p).stage a = w.stage a := by
  have hphase : (w.setPhase e p).phase a.actor = w.phase a.actor :=
    World.setPhase_phase_of_ne p h
  cases a with
  | exchange f move =>
      simp only [Action.actor] at hphase
      cases move <;> simp only [World.stage, hphase]
  | _ => rfl

/-- A step moves no other call. -/
theorem World.phase_of_step {w' : World Req Resp Frame Code}
    {a : Action Resp Frame Code} (h : w.step resume a = some w')
    (hactor : a.actor ≠ e) : w'.phase e = w.phase e := by
  have hsame : w.setPhase e (w.phase e) = w := by
    unfold World.setPhase
    rw [Function.update_eq_self]
  have hstep : (w.setPhase e (w.phase e)).step resume a =
      (w.step resume a).map (·.setPhase e (w.phase e)) := World.step_setPhase _ hactor
  rw [hsame, h, Option.map_some] at hstep
  have hw : w' = w'.setPhase e (w.phase e) := Option.some.inj hstep
  rw [hw]
  exact World.setPhase_self _ _ _

end apart

/-! ## The run can be sorted -/

theorem Phase.Private.stage_ne {p p' : Phase Req Frame} {move : Move Resp Frame}
    (h : p.Private move p') : p.stage ≠ 1 ∧ move ≠ .acquire := by
  cases h <;> simp [Phase.stage]

theorem World.stage_private {w : World Req Resp Frame Code} {e : ExchangeId}
    {move : Move Resp Frame} {p : Phase Req Frame} (h : (w.phase e).Private move p) :
    w.stage (.exchange e move : Action Resp Frame Code) = (w.phase e).stage := by
  cases move with
  | acquire => exact absurd rfl h.stage_ne.2
  | _ => rfl

theorem World.emit_private {w : World Req Resp Frame Code} {e : ExchangeId}
    {move : Move Resp Frame} {p : Phase Req Frame} (h : (w.phase e).Private move p)
    {w' : World Req Resp Frame Code} (hphase : w'.phase e = w.phase e) :
    w.emit resume (.exchange e move) = w'.emit resume (.exchange e move) := by
  have hoffer : w.offer e move = w'.offer e move := by
    generalize w.phase e = q at h
    cases h <;> simp only [World.offer, hphase]
  simp only [World.emit, hoffer]

/-- A call that has begun its locked interval never waits again. -/
theorem World.stage_of_step {w w' : World Req Resp Frame Code}
    {a : Action Resp Frame Code} (h : w.step resume a = some w')
    (hstage : w.stage a ≠ 0) : (w'.phase a.actor).stage ≠ 0 := by
  have hsteps := World.step_steps h
  generalize w.emit resume a = obs at hsteps
  cases hsteps with
  | @exchange e move ev p hoffer hnext =>
      show (((w.effect e ev).setPhase e p).phase e).stage ≠ 0
      rw [World.setPhase_self]
      have hby := World.madeBy hoffer
      have hedge := Phase.edge hnext
      generalize hq : w.phase e = q at hedge
      cases hedge
      case buffer =>
        cases hby
        simp [World.stage, hq, Phase.stage] at hstage
      all_goals simp [Phase.stage]
  | dispatch hin | finish hin | await hin | spawn hin | fetch hin | resolve hin | giveUp hin =>
      obtain ⟨future, hp⟩ := Phase.inRuntime_iff.1 hin
      simp only [Action.actor]
      first
        | rw [hp]; simp [Phase.stage]
        | (show (w.phase _).stage ≠ 0; rw [hp]; simp [Phase.stage])

/-- A finished call makes no step. -/
theorem World.step_finished {w : World Req Resp Frame Code}
    {a : Action Resp Frame Code} (h : w.phase a.actor = .finished) :
    w.step resume a = none := by
  cases a with
  | exchange e move =>
      simp only [Action.actor] at h
      cases hoffer : w.offer e move with
      | none => simp [World.step, hoffer]
      | some ev => cases ev <;> simp [World.step, hoffer, h, Phase.next]
  | _ => simp_all [Action.actor, World.step, Phase.inRuntime]

/-- A private step and a step of another call before it change places. -/
theorem World.private_first {w w₁ : World Req Resp Frame Code}
    {a : Action Resp Frame Code} {e : ExchangeId} {move : Move Resp Frame}
    {p : Phase Req Frame} (ha : w.step resume a = some w₁) (hne : a.actor ≠ e)
    (hp : (w₁.phase e).Private move p) :
    (w.phase e).Private move p ∧
      (w.setPhase e p).step resume a = some (w₁.setPhase e p) := by
  refine ⟨World.phase_of_step ha hne ▸ hp, ?_⟩
  rw [World.step_setPhase p hne, ha, Option.map_some]

/-- The same for a private step that stands before. -/
theorem World.private_last {w w₂ : World Req Resp Frame Code}
    {b : Action Resp Frame Code} {e : ExchangeId} {move : Move Resp Frame}
    {p : Phase Req Frame} (hp : (w.phase e).Private move p) (hne : b.actor ≠ e)
    (hb : (w.setPhase e p).step resume b = some w₂) :
    ∃ w₁, w.step resume b = some w₁ ∧ (w₁.phase e).Private move p ∧
      w₂ = w₁.setPhase e p := by
  rw [World.step_setPhase p hne] at hb
  obtain ⟨w₁, hw₁, rfl⟩ := Option.map_eq_some_iff.1 hb
  exact ⟨w₁, hw₁, (World.phase_of_step hw₁ hne).symm ▸ hp, rfl⟩

theorem sortable (resume : Code → Resume Req Resp Code) :
    Sortable (World.step resume : World Req Resp Frame Code → _) (World.emit resume)
      World.stage Action.actor := by
  intro w w₁ w₂ a b ha hb hlt
  by_cases hb0 : w₁.stage b = 0
  · -- `b` is made without the lock: it goes before `a`
    obtain ⟨e, move, p, rfl, hp, hst, rfl⟩ := World.private_of_stage hb (by omega)
    have hne : a.actor ≠ e := by
      intro he
      have hpast := World.stage_of_step ha (by omega)
      rw [he] at hpast
      omega
    obtain ⟨hp', ha'⟩ := World.private_first ha hne hp
    have hphase : w.phase e = w₁.phase e := (World.phase_of_step ha hne).symm
    refine ⟨hne, w.setPhase e p, World.step_private hp', ha', ?_,
      World.stage_setPhase p hne, ?_, World.emit_setPhase p hne⟩
    · rw [World.stage_private hp', World.stage_private hp, hphase]
    · exact World.emit_private hp' hphase.symm
  · -- `a` only watches the transmission: it goes behind `b`
    have hle := w.stage_le a
    obtain ⟨e, move, p, rfl, hp, hst, rfl⟩ := World.private_of_stage ha (by omega)
    have hfin : p = .finished := by
      have h2 : (w.phase e).stage = 2 := by omega
      generalize w.phase e = q at hp h2
      cases hp <;> simp [Phase.stage] at h2 ⊢
    have hne : b.actor ≠ e := by
      intro he
      have hphase : (w.setPhase e p).phase b.actor = .finished := by
        rw [he, World.setPhase_self, hfin]
      rw [World.step_finished hphase] at hb
      cases hb
    obtain ⟨w₁', hb', hp', rfl⟩ := World.private_last hp hne hb
    have hphase : w₁'.phase e = w.phase e := World.phase_of_step hb' hne
    refine ⟨hne.symm, w₁', hb', World.step_private hp',
      (World.stage_setPhase p hne).symm, ?_, (World.emit_setPhase p hne).symm, ?_⟩
    · rw [World.stage_private hp', World.stage_private hp, hphase]
    · exact World.emit_private hp' hphase.symm

/-! ## Locked intervals -/

/-- The step takes the lock or gives it up. -/
def Action.crosses : Action Resp Frame Code → Bool
  | .exchange _ .acquire | .exchange _ .release | .exchange _ .cancel => true
  | _ => false

/-- Locked intervals one behind the other; `some e` where that of `e` is still
open at the end. -/
inductive Serial : Option ExchangeId → List (Action Resp Frame Code) → Prop
  | nil : Serial none []
  | acquire (e : ExchangeId) {as} (h : Serial none as) :
      Serial (some e) (as ++ [.exchange e .acquire])
  | inside {e as a} (h : Serial (some e) as) (hactor : a.actor = e)
      (hin : a.crosses = false) : Serial (some e) (as ++ [a])
  | release {e as} (h : Serial (some e) as) :
      Serial none (as ++ [.exchange e .release])
  | cancel {e as} (h : Serial (some e) as) :
      Serial none (as ++ [.exchange e .cancel])

/-- The steps of the locked intervals of a run, in order. -/
def lockedSteps (l : List (Entry (Action Resp Frame Code) (Obs Req Resp Frame))) :
    List (Action Resp Frame Code) :=
  (l.filter fun x => x.rank = 1).map Entry.action

theorem lockedSteps_concat
    (l : List (Entry (Action Resp Frame Code) (Obs Req Resp Frame)))
    (x : Entry (Action Resp Frame Code) (Obs Req Resp Frame)) :
    lockedSteps (l ++ [x]) = lockedSteps l ++ if x.rank = 1 then [x.action] else [] := by
  by_cases h : x.rank = 1 <;> simp [lockedSteps, h]

theorem Phase.holds_of_stage {p p' : Phase Req Frame} {ev : Event Req Resp Frame}
    (h : p.Edge ev p') (hstage : p.stage = 1) : p.holds = true := by
  cases h <;> simp_all [Phase.stage, Phase.holds]

/-- Only the events around the lock come from moves around the lock. -/
theorem Event.crosses_of_madeBy {ev : Event Req Resp Frame} {move : Move Resp Frame}
    {w : World Req Resp Frame Code} {e : ExchangeId}
    (h : w.offer e move = some ev) (hcross : match ev with
      | .acquired | .released | .cancelled _ => False
      | _ => True) : (Action.exchange e move : Action Resp Frame Code).crosses = false := by
  cases move with
  | acquire =>
      simp only [World.offer] at h
      split at h <;> cases h
      exact hcross.elim
  | release => cases h; exact hcross.elim
  | cancel => cases h; exact hcross.elim
  | _ => rfl

/-- What a step of a locked interval does to the lock. -/
theorem World.Steps.serial {w w' : World Req Resp Frame Code}
    {a : Action Resp Frame Code} {obs : List (Obs Req Resp Frame)}
    (h : w.Steps resume a obs w') (hlock : w.LockWf) (hstage : w.stage a = 1)
    {as : List (Action Resp Frame Code)} (hs : Serial w.lock as) :
    Serial w'.lock (as ++ [a]) := by
  cases h with
  | @exchange e move ev p hoffer hnext =>
      have hby := World.madeBy hoffer
      have hlockev := World.effect_lock w e ev
      show Serial (w.effect e ev).lock _
      by_cases hacq : move = .acquire
      · subst hacq
        have hev : ev = .acquired := by
          simp only [World.offer] at hoffer
          split at hoffer <;> cases hoffer
          rfl
        subst hev
        rw [(World.offer_spec hoffer).2] at hs
        rw [hlockev]
        exact .acquire e hs
      · have hst : (w.phase e).stage = 1 := by
          cases move with
          | acquire => exact absurd rfl hacq
          | _ => exact hstage
        have hholds := Phase.holds_of_stage (Phase.edge hnext) hst
        rw [(hlock e).1 hholds] at hs
        rw [hlockev]
        cases ev with
        | acquired => exact absurd hby hacq
        | released => cases hby; exact .release hs
        | cancelled dropped =>
            cases hby
            rw [hholds]
            exact .cancel hs
        | _ =>
            show Serial w.lock _
            rw [(hlock e).1 hholds]
            exact .inside hs rfl (Event.crosses_of_madeBy hoffer trivial)
  | dispatch hin | finish hin | await hin | spawn hin | fetch hin | resolve hin
  | giveUp hin =>
      have hown := hlock.of_inRuntime hin
      rw [hown] at hs
      show Serial w.lock _
      rw [hown]
      exact .inside hs rfl rfl

/-- The locked intervals of a run stand one behind the other. -/
theorem serial_run {w : World Req Resp Frame Code}
    {as : List (Action Resp Frame Code)}
    (h : run (World.step resume) .init as = some w) :
    Serial w.lock (lockedSteps
      (log (World.step resume) (World.emit resume) World.stage .init as)) := by
  have hinit : (World.init : World Req Resp Frame Code).LockWf ∧
      Serial (World.init : World Req Resp Frame Code).lock
        (lockedSteps ([] : List (Entry (Action Resp Frame Code) (Obs Req Resp Frame)))) :=
    ⟨World.lockWf_init, .nil⟩
  refine (trace_invariant_all
    (I := fun l w => w.LockWf ∧ Serial w.lock (lockedSteps l)) ?_ hinit h).2
  intro l w a w' hI hstep
  have hsteps := World.step_steps hstep
  refine ⟨hsteps.lockWf hI.1, ?_⟩
  rw [entryAt, lockedSteps_concat]
  by_cases hstage : w.stage a = 1
  · rw [if_pos hstage]
    exact hsteps.serial hI.1 hstage hI.2
  · -- a private step leaves the lock alone
    obtain ⟨e, move, p, -, -, -, rfl⟩ := World.private_of_stage hstep hstage
    rw [if_neg hstage, List.append_nil]
    exact hI.2

/-! ## Serializability -/

/-- A step a call makes before it gets the lock. -/
def Action.Waits (a : Action Resp Frame Code) : Prop :=
  ∃ e, a = .exchange e .answer ∨ a = .exchange e .buffer ∨ a = .exchange e .cancel

/-- A `fetch` submitted or resolved. -/
def Obs.ofTool : Obs Req Resp Frame → Bool
  | .exchange _ _ => false
  | _ => true

/-- What the log of a run says about each of its steps. -/
structure EntryOk (x : Entry (Action Resp Frame Code) (Obs Req Resp Frame)) :
    Prop where
  le : x.rank ≤ 2
  waits : x.rank = 0 → x.action.Waits
  watches : x.rank = 2 → ∃ e, x.action = .exchange e .observe
  shows : ∀ e, x.action.actor ≠ e → eventsOf e x.shown = []
  quiet : x.rank ≠ 1 → x.shown.filter Obs.ofTool = []

theorem World.entryOk {w w' : World Req Resp Frame Code}
    {a : Action Resp Frame Code} (h : w.step resume a = some w') :
    EntryOk ⟨a, w.emit resume a, w.stage a⟩ where
  le := w.stage_le a
  waits := by
    intro h0
    obtain ⟨e, move, p, rfl, hp, hst, -⟩ := World.private_of_stage h (by
      show w.stage a ≠ 1
      exact fun h1 => absurd (h0.symm.trans h1) (by omega))
    have hphase : (w.phase e).stage = 0 := hst.symm.trans h0
    generalize w.phase e = q at hp hphase
    cases hp with
    | answer => exact ⟨e, .inl rfl⟩
    | buffer => exact ⟨e, .inr (.inl rfl)⟩
    | cancelReceiving | cancelLocking => exact ⟨e, .inr (.inr rfl)⟩
    | observe => simp [Phase.stage] at hphase
  watches := by
    intro h2
    obtain ⟨e, move, p, rfl, hp, hst, -⟩ := World.private_of_stage h (by
      show w.stage a ≠ 1
      exact fun h1 => absurd (h2.symm.trans h1) (by omega))
    have hphase : (w.phase e).stage = 2 := hst.symm.trans h2
    generalize w.phase e = q at hp hphase
    cases hp with
    | observe => exact ⟨e, rfl⟩
    | _ => simp [Phase.stage] at hphase
  shows := by
    intro e hne
    have hcall := (World.step_steps h)
    generalize w.emit resume a = obs at hcall
    cases hcall with
    | exchange => simpa [eventsOf, Action.actor] using hne
    | _ => rfl
  quiet := by
    intro h1
    obtain ⟨e, move, p, rfl, -⟩ := World.private_of_stage h h1
    show (w.emit resume (.exchange e move)).filter Obs.ofTool = []
    cases hoffer : w.offer e move <;> simp [World.emit, hoffer, Obs.ofTool]

theorem log_ok {w : World Req Resp Frame Code} {as : List (Action Resp Frame Code)}
    (h : run (World.step resume) .init as = some w) :
    ∀ x ∈ log (World.step resume) (World.emit resume) World.stage .init as,
      EntryOk x := by
  refine trace_invariant_all (I := fun l _ => ∀ x ∈ l, EntryOk x) ?_ ?_ h
  · intro l w a w' hI hstep x hx
    rcases List.mem_append.1 hx with hx | hx
    · exact hI x hx
    · rw [entryAt, List.mem_singleton] at hx
      rw [hx]
      exact World.entryOk hstep
  · intro x hx
    cases hx

/-- What a call is shown is read off its own steps. -/
theorem eventsOf_shown {l : List (Entry (Action Resp Frame Code) (Obs Req Resp Frame))}
    (h : ∀ x ∈ l, EntryOk x) (e : ExchangeId) :
    eventsOf e (l.flatMap Entry.shown) =
      (l.filter fun x => x.action.actor = e).flatMap fun x => eventsOf e x.shown := by
  induction l with
  | nil => rfl
  | cons x l ih =>
      have ih' := ih fun y hy => h y (List.mem_cons_of_mem x hy)
      rw [List.flatMap_cons, eventsOf_append, ih', List.filter_cons]
      by_cases hx : x.action.actor = e
      · rw [if_pos (decide_eq_true hx), List.flatMap_cons]
      · rw [if_neg (by simpa using hx), (h x List.mem_cons_self).shows e hx,
          List.nil_append]

/-- What the tools do is read off the locked steps. -/
theorem ofTool_shown {l : List (Entry (Action Resp Frame Code) (Obs Req Resp Frame))}
    (h : ∀ x ∈ l, EntryOk x) :
    (l.flatMap Entry.shown).filter Obs.ofTool =
      (l.filter fun x => x.rank = 1).flatMap fun x => x.shown.filter Obs.ofTool := by
  induction l with
  | nil => rfl
  | cons x l ih =>
      have ih' := ih fun y hy => h y (List.mem_cons_of_mem x hy)
      rw [List.flatMap_cons, List.filter_append, ih', List.filter_cons]
      by_cases hx : x.rank = 1
      · rw [if_pos (decide_eq_true hx), List.flatMap_cons]
      · rw [if_neg (by simpa using hx), (h x List.mem_cons_self).quiet hx,
          List.nil_append]

/-- The run `before ++ locked ++ after` tells what `as` tells, with the locked
intervals contiguous. -/
structure SerialOrder (resume : Code → Resume Req Resp Code)
    (as : List (Action Resp Frame Code)) (w : World Req Resp Frame Code)
    (before locked after : List (Action Resp Frame Code)) : Prop where
  run : run (World.step resume) .init (before ++ locked ++ after) = some w
  steps : ∀ e, (before ++ locked ++ after).filter (fun a => a.actor = e) =
    as.filter fun a => a.actor = e
  events : ∀ e, eventsOf e (trace (World.step resume) (World.emit resume) .init
    (before ++ locked ++ after)) =
      eventsOf e (trace (World.step resume) (World.emit resume) .init as)
  tools : (trace (World.step resume) (World.emit resume) .init
    (before ++ locked ++ after)).filter Obs.ofTool =
      (trace (World.step resume) (World.emit resume) .init as).filter Obs.ofTool
  waits : ∀ a ∈ before, a.Waits
  serial : Serial w.lock locked
  order : locked.Sublist as
  watches : ∀ a ∈ after, ∃ e, a = .exchange e .observe

/-- Every run of an instance amounts to one in which the exchanges have the
instance one after another, each from getting the lock to giving it up: the
same final state, each call's own steps and events as they were, and the
fetches of all tools in the same order with the same results. -/
theorem exchanges_serializable (resume : Code → Resume Req Resp Code)
    (as : List (Action Resp Frame Code)) (w : World Req Resp Frame Code)
    (h : run (World.step resume) .init as = some w) :
    ∃ before locked after, SerialOrder resume as w before locked after := by
  obtain ⟨as', hrun, hsorted, hex⟩ := exists_sorted (sortable resume) h
  have hok := log_ok hrun
  have hok₀ := log_ok h
  have hacts := log_actions (World.emit resume) World.stage hrun
  have hacts₀ := log_actions (World.emit resume) World.stage h
  have hshown := log_shown (World.emit resume) World.stage hrun
  have hshown₀ := log_shown (World.emit resume) World.stage h
  have hserial := serial_run h
  generalize hl : log (World.step resume) (World.emit resume) World.stage .init as' = l
    at hsorted hex hok hacts hshown
  generalize hl₀ : log (World.step resume) (World.emit resume) World.stage .init as = l₀
    at hex hok₀ hacts₀ hshown₀ hserial
  have hcut := congrArg (List.map Entry.action) (hsorted.cut fun x hx => (hok x hx).le)
  rw [List.map_append, List.map_append, hacts] at hcut
  have hlocked : lockedSteps l = lockedSteps l₀ :=
    congrArg (List.map Entry.action) (hex.same_rank 1).symm
  refine ⟨(l.filter fun x => x.rank = 0).map Entry.action, lockedSteps l,
    (l.filter fun x => x.rank = 2).map Entry.action, ?_⟩
  have hsplit : (l.filter fun x => x.rank = 0).map Entry.action ++ lockedSteps l ++
      (l.filter fun x => x.rank = 2).map Entry.action = as' := hcut.symm
  constructor
  · rw [hsplit]; exact hrun
  · intro e
    have hfilter : ∀ m : List (Entry (Action Resp Frame Code) (Obs Req Resp Frame)),
        (m.map Entry.action).filter (fun a => a.actor = e) =
          (m.filter fun x => x.action.actor = e).map Entry.action :=
      fun m => List.filter_map
    rw [hsplit, ← hacts, ← hacts₀, hfilter, hfilter, hex.same_actor e]
  · intro e
    rw [hsplit, ← hshown, ← hshown₀, eventsOf_shown hok, eventsOf_shown hok₀,
      hex.same_actor e]
  · rw [hsplit, ← hshown, ← hshown₀, ofTool_shown hok, ofTool_shown hok₀,
      hex.same_rank 1]
  · intro a ha
    obtain ⟨x, hx, rfl⟩ := List.mem_map.1 ha
    obtain ⟨hmem, hrank⟩ := List.mem_filter.1 hx
    exact (hok x hmem).waits (of_decide_eq_true hrank)
  · rw [hlocked]; exact hserial
  · rw [hlocked, ← hacts₀]
    exact List.filter_sublist.map Entry.action
  · intro a ha
    obtain ⟨x, hx, rfl⟩ := List.mem_map.1 ha
    obtain ⟨hmem, hrank⟩ := List.mem_filter.1 hx
    exact (hok x hmem).watches (of_decide_eq_true hrank)

/-- Two exchanges, a probe in the middle of the first, and a tool that fetches. -/
theorem exchanges_serializable_overlap :
    let resume : Nat → Resume Nat Nat Nat := fun
      | 0 => .fetch 7 (fun _ => 1) none
      | _ => .finish
    let as : List (Action Nat Nat Nat) :=
      [.exchange 1 .buffer, .exchange 1 .acquire, .exchange 1 .drain, .dispatch 1 0,
        .exchange 0 .buffer, .poll 1 0 0, .exchange 2 .answer, .exchange 1 .take,
        .exchange 3 .cancel, .exchange 1 (.reply (.ok 8)), .poll 1 0 0,
        .exchange 1 (.respond []), .exchange 1 .stream, .exchange 1 .pull,
        .exchange 1 .write, .exchange 1 .drain, .exchange 1 .release,
        .exchange 0 .acquire, .exchange 1 .observe, .exchange 0 .drain]
    ∃ w, run (World.step resume) .init as = some w ∧
      ∃ before locked after, SerialOrder resume as w before locked after :=
  ⟨_, rfl, exchanges_serializable _ _ _ rfl⟩

end McpTemplate.Bridge
