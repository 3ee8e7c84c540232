import McpTemplate.Proofs.Progress

/-!
# Whether a pump lets go

A pump goes on whatever becomes of a frame that it sends, and it comes to an
end, since its moves are `Bounded`. What is left is where it can come to rest.
`Peer` is what the outside world does with what a pump hands it, and `Rests`
that the call has no move left with such a peer.

A send has a deadline, so each of its outcomes leads on, to the next frame or
to a drain and a release. The write of the final result has none. So a call
rests with the lock in one place only, and every other pump that has come to
rest has let go, once, right after it has drained.
-/

namespace McpTemplate.Bridge

open Lib Lib.Machine

variable {Req Resp Frame Code : Type} {resume : Code → Resume Req Resp Code}

/-! ## The peer of a pump -/

def Event.sendOutcome : Event Req Resp Frame → Option SendOutcome
  | .sent _ outcome => some outcome
  | _ => none

/-- What has become of the frames sent, in order. -/
def outcomes (evs : List (Event Req Resp Frame)) : List SendOutcome :=
  evs.filterMap Event.sendOutcome

/-- What the outside world does with what a pump hands it: what becomes of each
frame, by how many were sent before it, and whether the final result is taken,
or its reader goes away. Until then `result_writer.write` does not return. -/
structure Peer where
  sends : Nat → SendOutcome
  takesResult : Bool

/-- The events of a call are what this peer makes of them. -/
structure Peer.Explains (peer : Peer) (evs : List (Event Req Resp Frame)) : Prop where
  sends : ∀ i outcome, (outcomes evs)[i]? = some outcome → outcome = peer.sends i
  result : .wrote ∈ evs → peer.takesResult = true

/-- The moves that this peer lets a call make after these events. The transport
goes on by itself, and so does `perform`, which has a deadline. -/
def Peer.Lets (peer : Peer) (evs : List (Event Req Resp Frame)) : Move Resp Frame → Prop
  | .send polls => sendOutcome polls = some (peer.sends (outcomes evs).length)
  | .write => peer.takesResult = true
  | _ => True

/-- The call can make no move that the peer lets it make. -/
def Rests (resume : Code → Resume Req Resp Code) (peer : Peer)
    (evs : List (Event Req Resp Frame)) (w : World Req Resp Frame Code)
    (e : ExchangeId) : Prop :=
  ∀ move : Move Resp Frame, peer.Lets evs move → w.step resume (.exchange e move) = none

/-! ## Where a call can rest -/

/-- Every outcome of a send is one that `timeout` comes to. -/
theorem exists_sendOutcome (outcome : SendOutcome) :
    ∃ polls, sendOutcome polls = some outcome := by
  cases outcome with
  | accepted => exact ⟨[(.ready true, false)], rfl⟩
  | peerDropped => exact ⟨[(.ready false, false)], rfl⟩
  | timedOut => exact ⟨[(.pending, true)], rfl⟩

section rests

variable {peer : Peer} {evs : List (Event Req Resp Frame)}
  {w : World Req Resp Frame Code} {e : ExchangeId}

theorem Rests.not_move (h : Rests resume peer evs w e) (move : Move Resp Frame)
    (hlets : peer.Lets evs move) {ev : Event Req Resp Frame}
    (hoffer : w.offer e move = some ev) : (w.phase e).next ev = none := by
  cases hnext : (w.phase e).next ev with
  | none => rfl
  | some p =>
      have hstep : w.step resume (.exchange e move) = some _ :=
        World.step_exchange hoffer hnext
      rw [h move hlets] at hstep
      cases hstep

/-- A call that rests before its end waits for the lock, or for its final
result to be taken. -/
theorem Rests.phase (h : Rests resume peer evs w e) :
    w.phase e = .finished ∨ w.phase e = .locking ∨
      w.phase e = .closing ∧ peer.takesResult = false := by
  cases hp : w.phase e with
  | finished => exact .inl rfl
  | locking => exact .inr (.inl rfl)
  | closing =>
      refine .inr (.inr ⟨rfl, ?_⟩)
      by_contra htakes
      have hlets : peer.Lets evs (.write : Move Resp Frame) := by
        simpa [Peer.Lets] using htakes
      have hnone := h.not_move .write hlets rfl
      rw [hp] at hnone
      cases hnone
  | sending frame body =>
      obtain ⟨polls, hpolls⟩ := exists_sendOutcome (peer.sends (outcomes evs).length)
      have hoffer : w.offer e (.send polls) =
          some (.sent frame (peer.sends (outcomes evs).length)) := by
        simp only [World.offer, hp, hpolls, Option.map_some]
      have hnone := h.not_move (.send polls) hpolls hoffer
      rw [hp] at hnone
      cases houtcome : peer.sends (outcomes evs).length <;> rw [houtcome] at hnone <;>
        cases hnone
  | driving future =>
      cases future with
      | dispatch =>
          have hnone := h.not_move (.respond []) trivial rfl
          rw [hp] at hnone
          cases hnone
      | nextFrame body =>
          have hoffer : w.offer e .pull = some (.pulled body.head?) := by
            simp only [World.offer, hp]
          have hnone := h.not_move .pull trivial hoffer
          rw [hp] at hnone
          cases body <;> cases hnone
  | performing future job =>
      have hoffer : w.offer e (.reply (.error .bridgeClosed)) =
          some (.replied job (.error .bridgeClosed)) := by
        simp only [World.offer, hp, Phase.held, Option.map_some]
      have hnone := h.not_move (.reply (.error .bridgeClosed)) trivial hoffer
      rw [hp] at hnone
      cases hnone
  | receiving =>
      have hnone := h.not_move .buffer trivial rfl
      rw [hp] at hnone
      cases hnone
  | locked | stopping | closed =>
      have hnone := h.not_move .drain trivial rfl
      rw [hp] at hnone
      cases hnone
  | responding body =>
      have hnone := h.not_move .stream trivial rfl
      rw [hp] at hnone
      cases hnone
  | refusing | stopped | drained =>
      have hnone := h.not_move .release trivial rfl
      rw [hp] at hnone
      cases hnone
  | observing =>
      have hnone := h.not_move .observe trivial rfl
      rw [hp] at hnone
      cases hnone

theorem Rests.of_finished (hp : w.phase e = .finished) : Rests resume peer evs w e := by
  intro move _
  cases move <;> simp [World.step, hp, Phase.next]

/-- A call that writes its final result does nothing else. -/
theorem eq_write_of_offer {move : Move Resp Frame} {ev : Event Req Resp Frame}
    {p : Phase Req Frame} (hp : w.phase e = .closing) (hoffer : w.offer e move = some ev)
    (hnext : (w.phase e).next ev = some p) : move = .write := by
  rw [hp] at hnext
  cases Phase.edge hnext
  cases move <;> simp [World.offer, hp] at hoffer
  rfl

theorem Rests.of_closing (hp : w.phase e = .closing) (hnot : peer.takesResult = false) :
    Rests resume peer evs w e := by
  intro move hlets
  by_contra hstep
  obtain ⟨w', hstep⟩ := Option.ne_none_iff_exists'.1 hstep
  obtain ⟨ev, hoffer, p, hnext, -⟩ : ∃ ev, w.offer e move = some ev ∧
      ∃ p, (w.phase e).next ev = some p ∧ (w.effect e ev).setPhase e p = w' := by
    simpa [World.step, Option.bind_eq_some_iff] using hstep
  obtain rfl := eq_write_of_offer hp hoffer hnext
  have htakes : peer.takesResult = true := hlets
  rw [hnot] at htakes
  cases htakes

end rests

/-! ## What has become of the frames -/

/-- The last frame sent was not accepted, and all before it were. -/
def FailedLast (evs : List (Event Req Resp Frame)) : Prop :=
  ∃ outcome, outcome ≠ .accepted ∧
    outcomes evs = List.replicate (accepted evs).length .accepted ++ [outcome]

/-- What has become of the frames sent so far, in each phase. -/
def SentAt (evs : List (Event Req Resp Frame)) : Phase Req Frame → Prop
  | .stopping | .stopped => FailedLast evs
  | .finished => .streaming ∈ evs → .wrote ∉ evs → FailedLast evs
  | _ => outcomes evs = List.replicate (accepted evs).length .accepted

theorem outcomes_concat (evs : List (Event Req Resp Frame)) (ev : Event Req Resp Frame) :
    outcomes (evs ++ [ev]) = outcomes evs ++ ev.sendOutcome.toList := by
  simp only [outcomes, List.filterMap_append]
  cases h : ev.sendOutcome <;> simp [h]

theorem sentAt_next {evs : List (Event Req Resp Frame)} {p p' : Phase Req Frame}
    {ev : Event Req Resp Frame} (hb : BodyAt evs p) (hp : SentAt evs p)
    (h : p.next ev = some p') : SentAt (evs ++ [ev]) p' := by
  cases Phase.edge h
  case accept frame frame' body =>
    have hall : outcomes evs = List.replicate (accepted evs).length .accepted := hp
    simp [SentAt, outcomes_concat, accepted_concat, Event.sendOutcome, Event.acceptedFrame,
      hall, List.replicate_succ']
  case fail frame frame' body outcome hfail =>
    have hall : outcomes evs = List.replicate (accepted evs).length .accepted := hp
    have hacc : (Event.sent frame' outcome : Event Req Resp Frame).acceptedFrame = none := by
      cases outcome <;> first | rfl | exact absurd rfl hfail
    refine ⟨outcome, hfail, ?_⟩
    rw [outcomes_concat, accepted_concat, hacc, hall, Option.toList_none, List.append_nil]
    rfl
  case releaseStopped =>
    obtain ⟨outcome, hfail, houtcomes⟩ := hp
    intro _ _
    refine ⟨outcome, hfail, ?_⟩
    simpa [outcomes_concat, accepted_concat, Event.sendOutcome, Event.acceptedFrame]
      using houtcomes
  case drainStopping dropped =>
    obtain ⟨outcome, hfail, houtcomes⟩ := hp
    refine ⟨outcome, hfail, ?_⟩
    simpa [outcomes_concat, accepted_concat, Event.sendOutcome, Event.acceptedFrame]
      using houtcomes
  all_goals
    simp_all [SentAt, BodyAt, DrivingAt, Left, Unsent, outcomes_concat, accepted_concat,
      Event.sendOutcome, Event.acceptedFrame]

theorem sentAt_run {w : World Req Resp Frame Code} {as : List (Action Resp Frame Code)}
    (h : run (World.step resume) .init as = some w) (e : ExchangeId) :
    SentAt (eventsOf e (trace (World.step resume) (World.emit resume) .init as))
      (w.phase e) := by
  have hinit : CallAt (eventsOf e ([] : List (Obs Req Resp Frame)))
        ((World.init : World Req Resp Frame Code).phase e) ∧
      SentAt (eventsOf e ([] : List (Obs Req Resp Frame)))
        ((World.init : World Req Resp Frame Code).phase e) := ⟨callAt_nil, rfl⟩
  refine (trace_invariant_all (I := fun t w => CallAt (eventsOf e t) (w.phase e) ∧
    SentAt (eventsOf e t) (w.phase e)) ?_ hinit h).2
  intro t w a w' hI hstep
  rw [eventsOf_append]
  rcases (World.step_steps hstep).call e with ⟨hobs, hp⟩ | ⟨ev, p, hobs, hfits, hnext, hp⟩
  · rw [hobs, hp, List.append_nil]
    exact hI
  · rw [hobs, hp]
    exact ⟨callAt_next hI.1 hfits hnext, sentAt_next hI.1.body hI.2 hnext⟩

/-! ## What a pump that rests has done -/

/-- A pump has delivered, and let go: a prefix of the body, the final result
exactly after the whole of it, and one release, right after a drain. -/
structure HandedOver (evs : List (Event Req Resp Frame)) : Prop where
  delivers : accepted evs <+: produced evs
  result : .wrote ∈ evs ↔ accepted evs = produced evs
  released : ∃ pre dropped post, evs = pre ++ .drained dropped :: .released :: post ∧
    .released ∉ pre ∧ .released ∉ post

section handed

variable {peer : Peer} {evs : List (Event Req Resp Frame)}

theorem CleanPump.handedOver (h : CleanPump evs .finished) (hstr : .streaming ∈ evs) :
    HandedOver evs where
  delivers := h.delivers
  result := h.result rfl hstr
  released := by
    obtain ⟨pre, post, heq, hpre, hpost⟩ := h.once rfl hstr
    have htail : post <+: [.observed] := h.releases pre post heq
    have hstr' : .streaming ∈ pre := by
      rw [heq, List.mem_append, List.mem_cons] at hstr
      rcases hstr with hstr | hstr | hstr
      · exact hstr
      · cases hstr
      · simpa using htail.subset hstr
    obtain ⟨pre', dropped, rfl⟩ := h.drains pre post heq hstr'
    refine ⟨pre', dropped, post, ?_, ?_, hpost⟩
    · rw [heq, List.append_assoc]
      rfl
    · exact fun hmem => hpre (List.mem_append_left _ hmem)

/-- A pump that has failed was given less than the whole body to deliver. -/
theorem FailedLast.refused (h : FailedLast evs) (hx : peer.Explains evs)
    (hdelivers : accepted evs <+: produced evs) (hne : accepted evs ≠ produced evs) :
    ∃ i < (produced evs).length, peer.sends i ≠ .accepted := by
  obtain ⟨outcome, hfail, houtcomes⟩ := h
  refine ⟨(accepted evs).length, ?_, ?_⟩
  · refine Nat.lt_of_le_of_ne hdelivers.length_le fun hlen => ?_
    exact hne (hdelivers.eq_of_length hlen)
  · have hlast : (outcomes evs)[(accepted evs).length]? = some outcome := by
      rw [houtcomes, List.getElem?_append_right (by simp)]
      simp
    rw [← hx.sends _ _ hlast]
    exact hfail

/-- A peer that explains a body accepted as a whole accepts all its frames. -/
theorem Peer.Explains.accepts (hx : peer.Explains evs)
    (hall : outcomes evs = List.replicate (produced evs).length .accepted) :
    ∀ i < (produced evs).length, peer.sends i = .accepted := by
  intro i hi
  have hget : (outcomes evs)[i]? = some .accepted := by
    rw [hall, List.getElem?_replicate, if_pos hi]
  exact (hx.sends i _ hget).symm

theorem handedOver_iff {p : Phase Req Frame} (hc : CallAt evs p) (hs : SentAt evs p)
    (hx : peer.Explains evs) (hstr : .streaming ∈ evs)
    (hp : p = .finished ∨ p = .closing ∧ peer.takesResult = false) :
    HandedOver evs ↔ peer.takesResult = true ∨
      ∃ i < (produced evs).length, peer.sends i ≠ .accepted := by
  have hclean := callAt_clean hc
  rcases hp with rfl | ⟨rfl, hnot⟩
  · refine iff_of_true (hclean.handedOver hstr) ?_
    by_cases hwrote : .wrote ∈ evs
    · exact .inl (hx.result hwrote)
    · refine .inr ((hs hstr hwrote).refused hx hclean.delivers fun heq => ?_)
      exact hwrote ((hclean.result rfl hstr).2 heq)
  · have hleft : produced evs = accepted evs ++ [] := hc.body.1
    have hall : outcomes evs = List.replicate (produced evs).length .accepted := by
      rw [hleft, List.append_nil]
      exact hs
    refine iff_of_false ?_ ?_
    · intro hover
      obtain ⟨pre, dropped, post, heq, -⟩ := hover.released
      have hholds : HoldsLock evs := hc.guard
      refine hholds.2.1 ?_
      rw [heq]
      simp
    · intro hcond
      rcases hcond with htakes | ⟨i, hi, hfail⟩
      · rw [hnot] at htakes
        cases htakes
      · exact hfail (hx.accepts hall i hi)

end handed

/-! ## A final result that is not taken -/

theorem closing_step {w w' : World Req Resp Frame Code} {e : ExchangeId}
    {a : Action Resp Frame Code} (hp : w.phase e = .closing)
    (h : w.step resume a = some w') (hno : a ≠ .exchange e .write) :
    w'.phase e = .closing := by
  have hsteps := World.step_steps h
  generalize w.emit resume a = obs at hsteps
  cases hsteps with
  | @exchange f move ev p hoffer hnext =>
      by_cases hf : f = e
      · subst hf
        exact absurd (congrArg _ (eq_write_of_offer hp hoffer hnext)) hno
      · rw [World.setPhase_phase, Function.update_of_ne (Ne.symm hf), World.effect_phase]
        exact hp
  | _ => exact hp

/-- While its final result is not taken, a call keeps the lock, whatever all
others do. -/
theorem closing_keeps {w w' : World Req Resp Frame Code} {e : ExchangeId}
    {bs : List (Action Resp Frame Code)} (hlock : w.LockWf) (hp : w.phase e = .closing)
    (h : run (World.step resume) w bs = some w') (hno : .exchange e .write ∉ bs) :
    w'.lock = some e := by
  induction bs generalizing w with
  | nil =>
      cases h
      refine (hlock e).1 ?_
      rw [hp]
      rfl
  | cons a bs ih =>
      obtain ⟨w₁, hstep, hrun⟩ := run_cons.1 h
      have hhead : a ≠ .exchange e .write :=
        fun heq => hno (List.mem_cons.2 (.inl heq.symm))
      have htail : .exchange e .write ∉ bs := fun hmem => hno (List.mem_cons_of_mem a hmem)
      exact ih ((World.step_steps hstep).lockWf hlock) (closing_step hp hstep hhead) hrun htail

/-! ## Every run -/

/-- Over every run of the instance: each call delivers a prefix of its body
and lets go of the lock in the right order, with the queue empty when its pump
releases; at most one call is between acquiring and releasing; a drive lies
inside that interval; and a call comes to rest after boundedly many moves.
With a peer that explains what it has done, a call that rests with the lock
waits for its final result to be taken, and a pump that rests has handed over
exactly if the peer takes that result, or does not accept some frame. -/
theorem pump_delivers_and_hands_over (resume : Code → Resume Req Resp Code)
    (as : List (Action Resp Frame Code)) (w : World Req Resp Frame Code)
    (h : run (World.step resume) .init as = some w) :
    let evs := fun e =>
      eventsOf e (trace (World.step resume) (World.emit resume) .init as)
    (∀ e, CleanPump (evs e) (w.phase e)) ∧
      (∀ e p, (w.phase e).next (.released : Event Req Resp Frame) = some p →
        .streaming ∈ evs e → w.channels.queue = []) ∧
      (∀ e f, HoldsLock (evs e) → HoldsLock (evs f) → e = f) ∧
      (∀ e, (w.phase e).inDrive = true → HoldsLock (evs e)) ∧
      (∀ e, (evs e).length ≤
        10 + 2 * (jobsTaken (evs e)).length + 2 * (produced (evs e)).length) ∧
      ∀ (e : ExchangeId) (peer : Peer), peer.Explains (evs e) →
        Rests resume peer (evs e) w e →
          (HoldsLock (evs e) → w.phase e = .closing ∧ peer.takesResult = false) ∧
          (.streaming ∈ evs e →
            (HandedOver (evs e) ↔ peer.takesResult = true ∨
              ∃ i < (produced (evs e)).length, peer.sends i ≠ .accepted)) := by
  intro evs
  have hcall : ∀ e, CallAt (evs e) (w.phase e) := calls_run h
  have hlock : w.LockWf := lockWf_run h
  have hholds : ∀ e, (w.phase e).holds = true ↔ HoldsLock (evs e) :=
    fun e => guardAt_holds (hcall e).guard
  refine ⟨fun e => callAt_clean (hcall e), ?_, ?_, ?_, ?_, ?_⟩
  · intro e p hnext hstr
    exact emptied_run h e (Phase.next_released_emptied (hcall e).body hstr hnext)
  · intro e f he hf
    have he' := (hlock e).1 ((hholds e).2 he)
    have hf' := (hlock f).1 ((hholds f).2 hf)
    rw [he'] at hf'
    exact Option.some.inj hf'
  · intro e hdrive
    refine (hholds e).1 ?_
    cases hp : w.phase e <;> simp_all [Phase.inDrive, Phase.holds]
  · intro e
    have hbound := bounded_run h e
    unfold Bounded at hbound
    exact le_trans (Nat.le_add_right _ _) hbound
  · intro e peer hx hrests
    constructor
    · intro he
      have hheld := (hholds e).2 he
      rcases hrests.phase with hp | hp | hp
      · rw [hp] at hheld
        cases hheld
      · rw [hp] at hheld
        cases hheld
      · exact hp
    · intro hstr
      refine handedOver_iff (hcall e) (sentAt_run h e) hx hstr ?_
      rcases hrests.phase with hp | hp | hp
      · exact .inl hp
      · -- a call that waits for the lock has not streamed
        have hbody := (hcall e).body
        rw [hp] at hbody
        exact absurd hstr hbody.2.2.1
      · exact .inr hp

/-- A body of two frames, accepted and not read in time, by a peer that would
not take a final result either. -/
theorem pump_delivers_and_hands_over_refused :
    let resume : Unit → Resume Nat Nat Unit := fun _ => .finish
    let as : List (Action Nat Nat Unit) :=
      [.exchange 1 .buffer, .exchange 0 .buffer, .exchange 0 .acquire,
        .exchange 0 .drain, .exchange 0 (.respond [7, 8]), .exchange 0 .stream,
        .exchange 0 .pull, .exchange 0 (.send [(.pending, false), (.ready true, true)]),
        .exchange 0 .pull, .exchange 0 (.send [(.pending, true)]),
        .exchange 0 .drain, .exchange 0 .release, .exchange 1 .acquire]
    let evs := eventsOf 0 (trace (World.step resume) (World.emit resume) .init as)
    ∃ w, run (World.step resume) .init as = some w ∧
      CleanPump evs (w.phase 0) ∧ HandedOver evs ∧ w.lock = some 1 := by
  intro resume as evs
  obtain ⟨hclean, -, -, -, -, hrest⟩ := pump_delivers_and_hands_over resume as _ rfl
  let peer : Peer := ⟨fun i => if i = 0 then .accepted else .timedOut, false⟩
  have hevs : evs = [.buffered, .acquired, .drained [], .responded [7, 8], .streaming,
      .pulled (some 7), .sent 7 .accepted, .pulled (some 8), .sent 8 .timedOut,
      .drained [], .released] := rfl
  have hx : peer.Explains evs := by
    refine ⟨fun i outcome houtcome => ?_, ?_⟩
    · have hpair : ([.accepted, .timedOut] : List SendOutcome)[i]? = some outcome := houtcome
      match i with
      | 0 | 1 => exact (Option.some.inj hpair).symm
      | i + 2 => cases hpair
    · rw [hevs]
      simp
  have hstr : .streaming ∈ evs := by
    rw [hevs]
    simp
  have hover : HandedOver evs :=
    ((hrest 0 peer hx (.of_finished rfl)).2 hstr).2 (.inr ⟨1, by decide, nofun⟩)
  exact ⟨_, rfl, hclean 0, hover, rfl⟩

/-- A body of one frame is accepted, and the final result is not taken: the
pump rests without having let go, and a call that waits for the lock does not
get it, whatever happens, until the result is taken. -/
theorem pump_keeps_lock_untaken :
    let resume : Unit → Resume Nat Nat Unit := fun _ => .finish
    let as : List (Action Nat Nat Unit) :=
      [.exchange 1 .buffer, .exchange 0 .buffer, .exchange 0 .acquire,
        .exchange 0 .drain, .exchange 0 (.respond [7]), .exchange 0 .stream,
        .exchange 0 .pull, .exchange 0 (.send [(.ready true, false)]), .exchange 0 .pull]
    let evs := eventsOf 0 (trace (World.step resume) (World.emit resume) .init as)
    let peer : Peer := ⟨fun _ => .accepted, false⟩
    ∃ w, run (World.step resume) .init as = some w ∧
      peer.Explains evs ∧ Rests resume peer evs w 0 ∧
      accepted evs = [7] ∧ produced evs = [7] ∧ ¬ HandedOver evs ∧
      w.phase 1 = .locking ∧
      ∀ bs w', run (World.step resume) w bs = some w' → .exchange 0 .write ∉ bs →
        w'.lock = some 0 := by
  intro resume as evs peer
  have hevs : evs = [.buffered, .acquired, .drained [], .responded [7], .streaming,
      .pulled (some 7), .sent 7 .accepted, .pulled none] := rfl
  refine ⟨_, rfl, ⟨fun i outcome houtcome => ?_, ?_⟩, .of_closing rfl rfl, rfl, rfl, ?_,
    rfl, ?_⟩
  · have hone : ([.accepted] : List SendOutcome)[i]? = some outcome := houtcome
    match i with
    | 0 => exact (Option.some.inj hone).symm
    | i + 1 => cases hone
  · rw [hevs]
    simp
  · intro hover
    obtain ⟨pre, dropped, post, heq, -⟩ := hover.released
    have hreleased : .released ∈ evs := by
      rw [heq]
      simp
    rw [hevs] at hreleased
    simp at hreleased
  · intro bs w' h hno
    have hrun : run (World.step resume) .init as = some _ := rfl
    exact closing_keeps (lockWf_run hrun) rfl h hno

end McpTemplate.Bridge
