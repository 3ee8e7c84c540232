import McpTemplate.Proofs.Channels
import McpTemplate.Proofs.Exchanges

/-!
# Every job has one life

A job is named by its reply channel, and channels are numbered in the order
they are made. From its submission on it is queued, being performed, answered
or dropped, and what a run shows of it comes in that order. `JobsInv` ties the
three places a job can be found in (the queue, a call in the middle of
`perform`, the cell of its channel) to what has been shown so far.

The steps that touch a job are few: `JobStep` lists them, and every other step
leaves the queue, the cells and the held jobs alone. The lock comes in at one
point: only one call can be performing, so a reply never takes the cell away
from a job that another call still holds.
-/

namespace McpTemplate.Bridge

open Lib Lib.Machine

variable {Req Resp Frame Code : Type} {resume : Code → Resume Req Resp Code}

/-- The job a call of the instance is performing. -/
def World.held (w : World Req Resp Frame Code) (e : ExchangeId) :
    Option (Job Req) :=
  (w.phase e).held

/-! ## What a run shows of jobs -/

def Obs.submission : Obs Req Resp Frame → List ReplyId
  | .submitted reply _ _ => [reply]
  | _ => []

/-- The jobs an observation shows leaving the queue, in order. -/
def Obs.leaving : Obs Req Resp Frame → List ReplyId
  | .exchange _ (.took job) => [job.reply]
  | .exchange _ (.drained dropped) => dropped.map Job.reply
  | _ => []

/-- The jobs an observation shows starting to be performed. -/
def Obs.taking : Obs Req Resp Frame → List ReplyId
  | .exchange _ (.took job) => [job.reply]
  | _ => []

def Obs.resolution : Obs Req Resp Frame → List ReplyId
  | .resolved reply _ => [reply]
  | _ => []

def submits (t : List (Obs Req Resp Frame)) : List ReplyId :=
  t.flatMap Obs.submission

def leaves (t : List (Obs Req Resp Frame)) : List ReplyId :=
  t.flatMap Obs.leaving

def takes (t : List (Obs Req Resp Frame)) : List ReplyId :=
  t.flatMap Obs.taking

def resolves (t : List (Obs Req Resp Frame)) : List ReplyId :=
  t.flatMap Obs.resolution

theorem takes_sublist_leaves (t : List (Obs Req Resp Frame)) :
    (takes t).Sublist (leaves t) := by
  induction t with
  | nil => exact List.Sublist.slnil
  | cons o t ih =>
      refine List.Sublist.append ?_ ih
      unfold Obs.taking
      split
      · exact List.Sublist.refl _
      · exact List.nil_sublist _

/-! ## The steps that touch a job -/

inductive JobStep (w : World Req Resp Frame Code) :
    List (Obs Req Resp Frame) → World Req Resp Frame Code → Prop
  | idle {obs w'} (hch : w'.channels = w.channels) (hheld : w'.held = w.held)
      (hsub : submits obs = []) (hleave : leaves obs = []) : JobStep w obs w'
  | submit {owner request w'} (hch : w'.channels = (w.channels.submit request).2)
      (hheld : w'.held = w.held) :
      JobStep w [.submitted w.channels.fresh owner request] w'
  | drain {e w'} (hch : w'.channels = w.channels.drainStaleJobs)
      (hheld : w'.held = w.held) :
      JobStep w [.exchange e (.drained w.channels.queue)] w'
  | take {e job w'} (hpoll : w.channels.pollNextJob = some (job, w'.channels))
      (hfree : w.held e = none)
      (hheld : w'.held = Function.update w.held e (some job)) :
      JobStep w [.exchange e (.took job)] w'
  | reply {e job result w'} (hjob : w.held e = some job)
      (hch : w'.channels = w.channels.sendReply job result)
      (hheld : w'.held = Function.update w.held e none) :
      JobStep w [.exchange e (.replied job result)] w'
  | drop {e job w'} (hjob : w.held e = some job)
      (hch : w'.channels = w.channels.dropJob job)
      (hheld : w'.held = Function.update w.held e none) :
      JobStep w [.exchange e (.cancelled (some job))] w'

/-- What each event does to the job a call holds. -/
theorem Phase.next_held {p p' : Phase Req Frame} {ev : Event Req Resp Frame}
    (h : p.next ev = some p') :
    match ev with
    | .took job => p.held = none ∧ p'.held = some job
    | .replied _ _ | .cancelled _ => p'.held = none
    | _ => p.held = none ∧ p'.held = none := by
  cases Phase.edge h <;> simp [Phase.held]

theorem World.held_setPhase (w : World Req Resp Frame Code) (e : ExchangeId)
    (p : Phase Req Frame) :
    (w.setPhase e p).held = Function.update w.held e p.held := by
  funext f
  by_cases hf : f = e
  · subst hf; simp [held]
  · simp [held, Function.update_of_ne hf]

theorem World.held_effect (w : World Req Resp Frame Code) (e : ExchangeId)
    (ev : Event Req Resp Frame) : (w.effect e ev).held = w.held := by
  funext f
  simp [held]

theorem World.Steps.jobStep {w w' : World Req Resp Frame Code}
    {a : Action Resp Frame Code} {obs : List (Obs Req Resp Frame)}
    (h : w.Steps resume a obs w') : JobStep w obs w' := by
  cases h with
  | @exchange e move ev p hoffer hnext =>
      have hheld : ((w.effect e ev).setPhase e p).held =
          Function.update w.held e p.held := by
        rw [World.held_setPhase, World.held_effect]
      have hp := Phase.next_held hnext
      have hoff := (World.offer_spec hoffer).2
      -- a call that holds nothing before and after has changed nothing
      have hsame : (w.phase e).held = none → p.held = none →
          ((w.effect e ev).setPhase e p).held = w.held := by
        intro h₁ h₂
        rw [hheld, h₂]
        exact Function.update_eq_self_iff.2 h₁.symm
      cases ev with
      | took job =>
          obtain ⟨b, hpoll⟩ := hoff
          refine .take ?_ hp.1 (by rw [hheld, hp.2])
          show w.channels.pollNextJob = some (job,
            (w.channels.pollNextJob.map Prod.snd).getD w.channels)
          simp [hpoll]
      | drained dropped =>
          cases hoff
          exact .drain rfl (hsame hp.1 hp.2)
      | replied job result => exact .reply hoff rfl (by rw [hheld, hp])
      | cancelled dropped =>
          cases dropped with
          | none =>
              exact .idle rfl (hsame hoff.symm hp) rfl rfl
          | some job => exact .drop hoff.symm rfl (by rw [hheld, hp])
      | _ => exact .idle rfl (hsame hp.1 hp.2) rfl rfl
  | fetch => exact .submit rfl rfl
  | _ => exact .idle rfl rfl rfl rfl

/-! ## Where a job is -/

/-- The queue by name. -/
def Channels.queued (b : Channels Req Resp) : List ReplyId :=
  b.queue.map Job.reply

inductive JobState where
  | queued
  | performing
  | answered
  | dropped
  deriving DecidableEq

/-- The job `c` is in this state. -/
def World.JobIn (w : World Req Resp Frame Code) (c : ReplyId) : JobState → Prop
  | .queued => c ∈ w.channels.queued
  | .performing => ∃ e job, w.held e = some job ∧ job.reply = c
  | .answered => ∃ result, w.channels.slots c = .sent result
  | .dropped => w.channels.slots c = .closed

/-- A job was submitted, and taken from the queue by this call, in order. -/
def TakenBy (t : List (Obs Req Resp Frame)) (e : ExchangeId) (job : Job Req) :
    Prop :=
  ∃ owner, List.Sublist [.submitted job.reply owner job.request,
    .exchange e (.took job)] t

/-- A job was submitted, taken by a call, and performed by it with this
result, in order. -/
def PerformedAs (t : List (Obs Req Resp Frame)) (c : ReplyId)
    (result : Reply Resp) : Prop :=
  ∃ e job owner, job.reply = c ∧
    List.Sublist [.submitted c owner job.request, .exchange e (.took job),
      .exchange e (.replied job result)] t

theorem TakenBy.append {t : List (Obs Req Resp Frame)} {e : ExchangeId}
    {job : Job Req} (h : TakenBy t e job) (t' : List (Obs Req Resp Frame)) :
    TakenBy (t ++ t') e job := by
  obtain ⟨owner, hsub⟩ := h
  exact ⟨owner, hsub.trans (List.sublist_append_left t t')⟩

theorem PerformedAs.append {t : List (Obs Req Resp Frame)} {c : ReplyId}
    {result : Reply Resp} (h : PerformedAs t c result)
    (t' : List (Obs Req Resp Frame)) : PerformedAs (t ++ t') c result := by
  obtain ⟨e, job, owner, hc, hsub⟩ := h
  exact ⟨e, job, owner, hc, hsub.trans (List.sublist_append_left t t')⟩

/-- What is known of the jobs of an instance that has shown `t`. -/
structure JobsInv (t : List (Obs Req Resp Frame))
    (w : World Req Resp Frame Code) : Prop where
  wf : w.channels.Wf
  held : ∀ e job, w.held e = some job →
    job.reply < w.channels.fresh ∧ job.reply ∉ w.channels.queued ∧
      w.channels.slots job.reply = .pending
  order : leaves t ++ w.channels.queued = submits t
  count : submits t = List.range w.channels.fresh
  cover : ∀ c < w.channels.fresh, w.channels.slots c = .pending →
    w.JobIn c .queued ∨ w.JobIn c .performing
  asked : ∀ job ∈ w.channels.queue, ∃ owner,
    .submitted job.reply owner job.request ∈ t
  taken : ∀ e job, w.held e = some job → TakenBy t e job
  sent : ∀ c result, w.channels.slots c = .sent result → PerformedAs t c result

theorem jobsInv_init : JobsInv [] (World.init : World Req Resp Frame Code) where
  wf := .of_queue_nil rfl
  held _ _ h := by cases h
  order := rfl
  count := rfl
  cover _ h := absurd h (Nat.not_lt_zero _)
  asked _ h := by cases h
  taken _ _ h := by cases h
  sent _ _ h := by cases h

/-- At most one call is performing, because performing needs the lock. -/
def World.HeldOnce (w : World Req Resp Frame Code) : Prop :=
  ∀ e f job job', w.held e = some job → w.held f = some job' → e = f

theorem World.LockWf.heldOnce {w : World Req Resp Frame Code} (hw : w.LockWf) :
    w.HeldOnce := by
  have hlock : ∀ e job, w.held e = some job → w.lock = some e := by
    intro e job he
    refine (hw e).1 ?_
    obtain ⟨future, hp⟩ := Phase.held_eq_some.1 he
    rw [hp]
    rfl
  intro e f job job' he hf
  have h := hlock e job he
  rw [hlock f job' hf] at h
  exact (Option.some.inj h).symm

theorem submits_append (t t' : List (Obs Req Resp Frame)) :
    submits (t ++ t') = submits t ++ submits t' := List.flatMap_append

theorem leaves_append (t t' : List (Obs Req Resp Frame)) :
    leaves (t ++ t') = leaves t ++ leaves t' := List.flatMap_append

theorem asked_append {t : List (Obs Req Resp Frame)} {job : Job Req}
    (h : ∃ owner, .submitted job.reply owner job.request ∈ t)
    (t' : List (Obs Req Resp Frame)) :
    ∃ owner, .submitted job.reply owner job.request ∈ t ++ t' := by
  obtain ⟨owner, hmem⟩ := h
  exact ⟨owner, List.mem_append_left t' hmem⟩

section step

variable {w w' : World Req Resp Frame Code} {t : List (Obs Req Resp Frame)}

theorem JobsInv.idle {obs : List (Obs Req Resp Frame)} (h : JobsInv t w)
    (hch : w'.channels = w.channels) (hheld : w'.held = w.held)
    (hsub : submits obs = []) (hleave : leaves obs = []) :
    JobsInv (t ++ obs) w' where
  wf := by rw [hch]; exact h.wf
  held := by rw [hch, hheld]; exact h.held
  order := by
    rw [leaves_append, submits_append, hsub, hleave, hch, List.append_nil,
      List.append_nil]
    exact h.order
  count := by rw [submits_append, hsub, hch, List.append_nil]; exact h.count
  cover := by simp only [World.JobIn, hch, hheld]; exact h.cover
  asked job hjob := by
    rw [hch] at hjob
    exact asked_append (h.asked job hjob) obs
  taken e job he := (h.taken e job (by rw [← hheld]; exact he)).append obs
  sent c result hc := (h.sent c result (by rw [← hch]; exact hc)).append obs

theorem JobsInv.submit {owner : ExchangeId} {request : Req} (h : JobsInv t w)
    (hch : w'.channels = (w.channels.submit request).2)
    (hheld : w'.held = w.held) :
    JobsInv (t ++ [.submitted w.channels.fresh owner request]) w' := by
  have hqueued : w'.channels.queued = w.channels.queued ++ [w.channels.fresh] := by
    simp [Channels.queued, hch]
  have hfresh : w'.channels.fresh = w.channels.fresh + 1 := by rw [hch]; rfl
  have hslots : ∀ c, c < w.channels.fresh →
      w'.channels.slots c = w.channels.slots c := by
    intro c hc
    rw [hch, Channels.submit_slots, Function.update_of_ne (Nat.ne_of_lt hc)]
  refine ⟨?wf, ?held, ?order, ?count, ?cover, ?asked, ?taken, ?sent⟩
  case wf =>
    rw [hch]
    exact h.wf.submit request
  case held =>
    intro e job he
    rw [hheld] at he
    obtain ⟨hlt, hnot, hpend⟩ := h.held e job he
    refine ⟨by rw [hfresh]; exact Nat.lt_succ_of_lt hlt, ?_,
      by rw [hslots _ hlt]; exact hpend⟩
    rw [hqueued, List.mem_append, List.mem_singleton]
    exact fun hor => hor.elim hnot (Nat.ne_of_lt hlt)
  case order =>
    rw [leaves_append, submits_append, hqueued, ← h.order]
    simp [leaves, submits, Obs.leaving, Obs.submission]
  case count =>
    rw [submits_append, h.count, hfresh, List.range_succ]
    simp [submits, Obs.submission]
  case cover =>
    intro c hc hpend
    rw [hfresh] at hc
    rcases Nat.lt_succ_iff_lt_or_eq.1 hc with hc | rfl
    · rw [hslots c hc] at hpend
      refine (h.cover c hc hpend).imp (fun hq => ?_) (fun hp => ?_)
      · show c ∈ w'.channels.queued
        rw [hqueued]
        exact List.mem_append_left _ hq
      · simpa [World.JobIn, hheld] using hp
    · left
      show w.channels.fresh ∈ w'.channels.queued
      rw [hqueued]
      exact List.mem_append_right _ (List.mem_singleton_self _)
  case asked =>
    intro job hjob
    rw [hch, Channels.submit_queue] at hjob
    rcases List.mem_append.1 hjob with hjob | hjob
    · exact asked_append (h.asked job hjob) _
    · rw [List.mem_singleton.1 hjob]
      exact ⟨owner, List.mem_append_right _ (List.mem_singleton_self _)⟩
  case taken =>
    exact fun e job he => (h.taken e job (by rw [← hheld]; exact he)).append _
  case sent =>
    intro c result hc
    rw [hch, Channels.submit_slots] at hc
    by_cases hcf : c = w.channels.fresh
    · rw [hcf, Function.update_self] at hc; cases hc
    · rw [Function.update_of_ne hcf] at hc
      exact (h.sent c result hc).append _

theorem JobsInv.drain {e : ExchangeId} (h : JobsInv t w)
    (hch : w'.channels = w.channels.drainStaleJobs)
    (hheld : w'.held = w.held) :
    JobsInv (t ++ [.exchange e (.drained w.channels.queue)]) w' := by
  have hqueued : w'.channels.queued = [] := by
    simp [Channels.queued, hch]
  have hfresh : w'.channels.fresh = w.channels.fresh := by
    rw [hch, Channels.drainStaleJobs_fresh]
  have hslots : ∀ c, w'.channels.slots c =
      if c ∈ w.channels.queued then .closed else w.channels.slots c := by
    intro c
    rw [hch]
    exact Channels.drainStaleJobs_slots _ c
  refine ⟨?wf, ?held, ?order, ?count, ?cover, ?asked, ?taken, ?sent⟩
  case wf =>
    rw [hch]
    exact Channels.Wf.drainStaleJobs _
  case held =>
    intro f job hf
    rw [hheld] at hf
    obtain ⟨hlt, hnot, hpend⟩ := h.held f job hf
    rw [hfresh, hqueued, hslots, if_neg hnot]
    exact ⟨hlt, List.not_mem_nil, hpend⟩
  case order =>
    rw [leaves_append, submits_append, hqueued, ← h.order]
    simp [leaves, submits, Obs.leaving, Obs.submission, Channels.queued]
  case count =>
    rw [submits_append, h.count, hfresh]
    simp [submits, Obs.submission]
  case cover =>
    intro c hc hpend
    rw [hslots] at hpend
    by_cases hq : c ∈ w.channels.queued
    · rw [if_pos hq] at hpend; cases hpend
    · rw [if_neg hq] at hpend
      refine (h.cover c (by rwa [hfresh] at hc) hpend).elim
        (fun hin => absurd hin hq) (fun hp => .inr ?_)
      simpa [World.JobIn, hheld] using hp
  case asked =>
    intro job hjob
    have hnil : w'.channels.queue = [] := by simpa [Channels.queued] using hqueued
    rw [hnil] at hjob
    cases hjob
  case taken =>
    exact fun f job hf => (h.taken f job (by rw [← hheld]; exact hf)).append _
  case sent =>
    intro c result hc
    rw [hslots] at hc
    split at hc
    · cases hc
    · exact (h.sent c result hc).append _

theorem JobsInv.take {e : ExchangeId} {job : Job Req} (h : JobsInv t w)
    (hpoll : w.channels.pollNextJob = some (job, w'.channels))
    (hfree : w.held e = none)
    (hheld : w'.held = Function.update w.held e (some job))
    (honce : w'.HeldOnce) :
    JobsInv (t ++ [.exchange e (.took job)]) w' := by
  obtain ⟨hqueue, hch⟩ := Channels.pollNextJob_eq_some.1 hpoll
  obtain ⟨hwf, hnot, hlt, hpend⟩ := h.wf.pollNextJob hpoll
  have hfresh : w'.channels.fresh = w.channels.fresh := by rw [hch]
  have hslots : w'.channels.slots = w.channels.slots := by rw [hch]
  have hqueued : w.channels.queued = job.reply :: w'.channels.queued := by
    rw [Channels.queued, hqueue]; rfl
  have hself : w'.held e = some job := by rw [hheld, Function.update_self]
  -- nobody else performs anything while this call does
  have honly : ∀ f job', w'.held f = some job' → f = e ∧ job' = job := by
    intro f job' hf
    have hfe := honce f e job' job hf hself
    subst hfe
    exact ⟨rfl, Option.some.inj (hf.symm.trans hself)⟩
  refine ⟨?wf, ?held, ?order, ?count, ?cover, ?asked, ?taken, ?sent⟩
  case wf => exact hwf
  case held =>
    intro f job' hf
    obtain ⟨-, rfl⟩ := honly f job' hf
    exact ⟨hlt, hnot, hpend⟩
  case order =>
    rw [leaves_append, submits_append, ← h.order, hqueued]
    simp [leaves, submits, Obs.leaving, Obs.submission]
  case count =>
    rw [submits_append, h.count, hfresh]
    simp [submits, Obs.submission]
  case cover =>
    intro c hc hp
    rw [hfresh] at hc
    rw [hslots] at hp
    have hin : c ∈ job.reply :: w'.channels.queued ∨
        ∃ f job', w.held f = some job' ∧ job'.reply = c := by
      rw [← hqueued]
      exact h.cover c hc hp
    rcases hin with hin | ⟨f, job', hf, hc'⟩
    · rcases List.mem_cons.1 hin with rfl | hin
      · exact .inr ⟨e, job, hself, rfl⟩
      · exact .inl hin
    · have hfe : f ≠ e := by rintro rfl; rw [hfree] at hf; cases hf
      refine .inr ⟨f, job', ?_, hc'⟩
      rw [hheld, Function.update_of_ne hfe]
      exact hf
  case asked =>
    intro job' hjob'
    have hmem : job' ∈ w.channels.queue := by
      rw [hqueue]; exact List.mem_cons_of_mem _ hjob'
    exact asked_append (h.asked job' hmem) _
  case taken =>
    intro f job' hf
    obtain ⟨rfl, rfl⟩ := honly f job' hf
    obtain ⟨owner, hmem⟩ := h.asked job' (by rw [hqueue]; exact List.mem_cons_self)
    exact ⟨owner, (List.singleton_sublist.2 hmem).append (List.Sublist.refl _)⟩
  case sent =>
    intro c result hc
    rw [hslots] at hc
    exact (h.sent c result hc).append _

/-- The job in hand is answered or dropped: its cell is written and the call
holds nothing. -/
theorem JobsInv.settle {e : ExchangeId} {job : Job Req} {slot : Slot Resp}
    {obs : List (Obs Req Resp Frame)} (h : JobsInv t w)
    (hjob : w.held e = some job)
    (hch : w'.channels =
      { w.channels with slots := Function.update w.channels.slots job.reply slot })
    (hheld : w'.held = Function.update w.held e none) (honce : w.HeldOnce)
    (hslot : slot ≠ .pending) (hsub : submits obs = [])
    (hleave : leaves obs = [])
    (hsent : ∀ result, slot = .sent result →
      PerformedAs (t ++ obs) job.reply result) : JobsInv (t ++ obs) w' := by
  have hfresh : w'.channels.fresh = w.channels.fresh := by rw [hch]
  have hqueue : w'.channels.queue = w.channels.queue := by rw [hch]
  have hqueued : w'.channels.queued = w.channels.queued := by
    rw [Channels.queued, hqueue]; rfl
  have hslots : w'.channels.slots =
      Function.update w.channels.slots job.reply slot := by rw [hch]
  -- the call was the only one performing, so now none is
  have hnone : ∀ f, w'.held f = none := by
    intro f
    rw [hheld]
    by_cases hfe : f = e
    · rw [hfe, Function.update_self]
    · rw [Function.update_of_ne hfe]
      cases hf : w.held f with
      | none => rfl
      | some job' => exact absurd (honce f e job' job hf hjob) hfe
  refine ⟨?wf, ?held, ?order, ?count, ?cover, ?asked, ?taken, ?sent⟩
  case wf =>
    rw [hch]
    exact h.wf.update (h.held e job hjob).2.1 slot
  case held =>
    intro f job' hf; rw [hnone f] at hf; cases hf
  case order =>
    rw [leaves_append, submits_append, hsub, hleave, hqueued, List.append_nil,
      List.append_nil]
    exact h.order
  case count =>
    rw [submits_append, hsub, hfresh, List.append_nil]; exact h.count
  case cover =>
    intro c hc hpend
    rw [hslots] at hpend
    by_cases hcj : c = job.reply
    · rw [hcj, Function.update_self] at hpend
      exact absurd hpend hslot
    · rw [Function.update_of_ne hcj] at hpend
      refine (h.cover c (by rwa [hfresh] at hc) hpend).elim (fun hq => .inl ?_)
        (fun hp => ?_)
      · show c ∈ w'.channels.queued
        rw [hqueued]
        exact hq
      · obtain ⟨f, job', hf, hc'⟩ := hp
        have hfe := honce f e job' job hf hjob
        subst hfe
        rw [hjob] at hf
        cases hf
        exact absurd hc'.symm hcj
  case asked =>
    intro job' hjob'
    rw [hqueue] at hjob'
    exact asked_append (h.asked job' hjob') _
  case taken =>
    intro f job' hf; rw [hnone f] at hf; cases hf
  case sent =>
    intro c result hc
    rw [hslots] at hc
    by_cases hcj : c = job.reply
    · rw [hcj, Function.update_self] at hc
      rw [hcj]
      exact hsent result hc
    · rw [Function.update_of_ne hcj] at hc
      exact (h.sent c result hc).append _

theorem JobStep.inv {obs : List (Obs Req Resp Frame)} (hstep : JobStep w obs w')
    (honce : w.HeldOnce) (honce' : w'.HeldOnce) (h : JobsInv t w) :
    JobsInv (t ++ obs) w' := by
  cases hstep with
  | idle hch hheld hsub hleave => exact h.idle hch hheld hsub hleave
  | submit hch hheld => exact h.submit hch hheld
  | drain hch hheld => exact h.drain hch hheld
  | take hpoll hfree hheld => exact h.take hpoll hfree hheld honce'
  | @reply e job result _ hjob hch hheld =>
      refine h.settle hjob hch hheld honce (by simp) rfl rfl ?_
      intro result' heq
      cases heq
      obtain ⟨owner, hsub⟩ := h.taken e job hjob
      exact ⟨e, job, owner, rfl, hsub.append (List.Sublist.refl _)⟩
  | drop hjob hch hheld =>
      exact h.settle hjob hch hheld honce (by simp) rfl rfl
        (fun _ heq => by cases heq)

end step

theorem jobsInv_run {w : World Req Resp Frame Code}
    {as : List (Action Resp Frame Code)}
    (h : run (World.step resume) .init as = some w) :
    JobsInv (trace (World.step resume) (World.emit resume) .init as) w := by
  have hinit : (World.init : World Req Resp Frame Code).LockWf ∧
      JobsInv [] (World.init : World Req Resp Frame Code) :=
    ⟨World.lockWf_init, jobsInv_init⟩
  refine (trace_invariant_all (I := fun t w => w.LockWf ∧ JobsInv t w) ?_ hinit
    h).2
  intro t w a w' hw hstep
  have hsteps := World.step_steps hstep
  have hlock' := hsteps.lockWf hw.1
  exact ⟨hlock', hsteps.jobStep.inv hw.1.heldOnce hlock'.heldOnce hw.2⟩

end McpTemplate.Bridge
