import McpTemplate.Lib.Machine
import McpTemplate.Src.Exchange

/-!
# One call of `handle`, from the events it shows

`Phase.next` is a control flow graph with one loop, so what a call has done is
readable off where it stands. This file reads it: which frames the host has
accepted, whether the final result was written, whether the lock guard is
alive, and, for the events whose order matters, what has come just before and
what can still come after.

`Phase.Edge` lists the edges of the graph, and each fact is kept by every one
of them. An edge whose event carries data has to carry the data of the phase it
leaves, which is `Phase.Fits`; the instance only offers events that do. What
may follow an event is one rule, `follows_concat`, used at a failed send and at
a release: from there the graph has no way back into a drive, and what follows
is a list of two at most.
-/

namespace McpTemplate.Bridge

open Lib Lib.Machine

variable {Req Resp Frame : Type}

/-- The edges of the graph: every way a call goes on. -/
inductive Phase.Edge :
    Phase Req Frame → Event Req Resp Frame → Phase Req Frame → Prop
  | answer : Edge .receiving .answered .finished
  | buffer : Edge .receiving .buffered .locking
  | cancelReceiving (dropped) : Edge .receiving (.cancelled dropped) .finished
  | acquire : Edge .locking .acquired .locked
  | cancelLocking (dropped) : Edge .locking (.cancelled dropped) .finished
  | drainLocked (dropped) : Edge .locked (.drained dropped) (.driving .dispatch)
  | take (future job) : Edge (.driving future) (.took job) (.performing future job)
  | reply (future job job' result) :
      Edge (.performing future job) (.replied job' result) (.driving future)
  | cancelPerforming (job dropped) :
      Edge (.performing .dispatch job) (.cancelled dropped) .finished
  | respond (body) :
      Edge (.driving .dispatch) (.responded body) (.responding body)
  | refuse (body) : Edge (.responding body) .refused .refusing
  | stream (body) :
      Edge (.responding body) .streaming (.driving (.nextFrame body))
  | releaseRefusing : Edge .refusing .released .finished
  | pull (frame frame' body) :
      Edge (.driving (.nextFrame (frame :: body))) (.pulled (some frame'))
        (.sending frame body)
  | pullEnd : Edge (.driving (.nextFrame [])) (.pulled none) .closing
  | accept (frame frame' body) :
      Edge (.sending frame body) (.sent frame' .accepted)
        (.driving (.nextFrame body))
  | fail (frame frame' body) {outcome} (hfail : outcome ≠ .accepted) :
      Edge (.sending frame body) (.sent frame' outcome) .stopping
  | drainStopping (dropped) : Edge .stopping (.drained dropped) .stopped
  | releaseStopped : Edge .stopped .released .finished
  | write : Edge .closing .wrote .closed
  | drainClosed (dropped) : Edge .closed (.drained dropped) .drained
  | release : Edge .drained .released .observing
  | observe : Edge .observing .observed .finished

theorem Phase.edge {p p' : Phase Req Frame} {ev : Event Req Resp Frame}
    (h : p.next ev = some p') : p.Edge ev p' := by
  unfold Phase.next at h
  split at h <;> cases h
  -- the two outcomes of a send share a row of the table
  case h_17 haccepted => exact .fail _ _ _ haccepted
  all_goals constructor

theorem Phase.held_eq_some {p : Phase Req Frame} {job : Job Req} :
    p.held = some job ↔ ∃ future, p = .performing future job := by
  cases p <;> simp [Phase.held]

theorem Phase.inRuntime_iff {p : Phase Req Frame} :
    p.inRuntime = true ↔ ∃ future, p = .driving future := by
  cases p <;> simp [Phase.inRuntime]

/-- The event carries what the phase it leaves holds. -/
def Phase.Fits : Phase Req Frame → Event Req Resp Frame → Prop
  | .sending frame _, .sent frame' _ => frame' = frame
  | .performing _ job, .replied job' _ => job' = job
  | p, .cancelled dropped => dropped = p.held
  | .driving (.nextFrame body), .pulled frame => frame = body.head?
  | _, _ => True

def Event.acceptedFrame : Event Req Resp Frame → Option Frame
  | .sent frame .accepted => some frame
  | _ => none

def Event.producedBody : Event Req Resp Frame → List Frame
  | .responded body => body
  | _ => []

/-- The frames the host has accepted. -/
def accepted (evs : List (Event Req Resp Frame)) : List Frame :=
  evs.filterMap Event.acceptedFrame

/-- The frames of the body the transport produced. -/
def produced (evs : List (Event Req Resp Frame)) : List Frame :=
  evs.flatMap Event.producedBody

theorem accepted_concat (evs : List (Event Req Resp Frame))
    (ev : Event Req Resp Frame) :
    accepted (evs ++ [ev]) = accepted evs ++ ev.acceptedFrame.toList := by
  simp only [accepted, List.filterMap_append]
  cases h : ev.acceptedFrame <;> simp [h]

theorem produced_concat (evs : List (Event Req Resp Frame))
    (ev : Event Req Resp Frame) :
    produced (evs ++ [ev]) = produced evs ++ ev.producedBody := by
  simp [produced]

/-! ## The body -/

/-- Nothing of the response has been handed over yet. -/
def Unsent (evs : List (Event Req Resp Frame)) : Prop :=
  accepted evs = [] ∧ .streaming ∉ evs ∧ .wrote ∉ evs

/-- The pump runs, and these frames of the body are left. -/
def Left (evs : List (Event Req Resp Frame)) (rest : List Frame) : Prop :=
  produced evs = accepted evs ++ rest ∧ .streaming ∈ evs ∧ .wrote ∉ evs

def DrivingAt (evs : List (Event Req Resp Frame)) : Driving Frame → Prop
  | .dispatch => produced evs = [] ∧ Unsent evs
  | .nextFrame rest => Left evs rest

/-- Which frames are left, and what has been written, in each phase. -/
def BodyAt (evs : List (Event Req Resp Frame)) : Phase Req Frame → Prop
  | .receiving | .locking | .locked => produced evs = [] ∧ Unsent evs
  | .driving future | .performing future _ => DrivingAt evs future
  | .responding body => produced evs = body ∧ Unsent evs
  | .refusing => Unsent evs
  | .sending frame rest => Left evs (frame :: rest)
  | .stopping | .stopped => ∃ frame rest, Left evs (frame :: rest)
  | .closing => Left evs []
  | .closed | .drained | .observing =>
      produced evs = accepted evs ∧ .streaming ∈ evs ∧ .wrote ∈ evs
  | .finished =>
      accepted evs <+: produced evs ∧
        (.streaming ∈ evs → (.wrote ∈ evs ↔ accepted evs = produced evs)) ∧
        (.wrote ∈ evs → .streaming ∈ evs)

/-- The four events that a body is made of. -/
def Event.OfBody (ev : Event Req Resp Frame) : Prop :=
  ev.acceptedFrame ≠ none ∨ ev.producedBody ≠ [] ∨ ev = .streaming ∨ ev = .wrote

theorem drivingAt_concat {evs : List (Event Req Resp Frame)}
    {future : Driving Frame} {ev : Event Req Resp Frame} (hev : ¬ ev.OfBody) :
    DrivingAt (evs ++ [ev]) future ↔ DrivingAt evs future := by
  simp only [Event.OfBody, not_or, not_not] at hev
  obtain ⟨hacc, hprod, hstr, hwr⟩ := hev
  have hstr' : Event.streaming ≠ ev := fun h => hstr h.symm
  have hwr' : Event.wrote ≠ ev := fun h => hwr h.symm
  cases future <;>
    simp [DrivingAt, Left, Unsent, accepted_concat, produced_concat, hacc,
      hprod, hstr', hwr']

theorem left_finished {evs : List (Event Req Resp Frame)} {frame : Frame}
    {rest : List Frame} (h : Left evs (frame :: rest)) : BodyAt evs .finished := by
  obtain ⟨hprod, hstr, hwr⟩ := h
  refine ⟨⟨_, hprod.symm⟩, fun _ => ⟨fun hw => absurd hw hwr, fun heq => ?_⟩,
    fun _ => hstr⟩
  rw [← heq] at hprod
  simp at hprod

theorem bodyAt_next {evs : List (Event Req Resp Frame)}
    {p p' : Phase Req Frame} {ev : Event Req Resp Frame} (hp : BodyAt evs p)
    (hfits : p.Fits ev) (h : p.next ev = some p') : BodyAt (evs ++ [ev]) p' := by
  cases Phase.edge h
  -- a drive goes on around a job, whatever its future is
  case take future job => exact (drivingAt_concat (by simp [Event.OfBody,
    Event.acceptedFrame, Event.producedBody])).2 hp
  case reply future job job' result =>
    exact (drivingAt_concat (by simp [Event.OfBody,
    Event.acceptedFrame, Event.producedBody])).2 hp
  case releaseStopped =>
    obtain ⟨frame, rest, hleft⟩ := hp
    have hdriving : DrivingAt evs (.nextFrame (frame :: rest)) := hleft
    have hleft' : DrivingAt (evs ++ [.released]) (.nextFrame (frame :: rest)) :=
      (drivingAt_concat (by simp [Event.OfBody, Event.acceptedFrame,
        Event.producedBody])).2 hdriving
    exact left_finished hleft'
  all_goals
    simp_all [BodyAt, DrivingAt, Left, Unsent, accepted_concat,
      produced_concat, Event.acceptedFrame, Event.producedBody, Phase.Fits]

theorem bodyAt_clean {evs : List (Event Req Resp Frame)} {p : Phase Req Frame}
    (hp : BodyAt evs p) :
    accepted evs <+: produced evs ∧
      (.wrote ∈ evs → accepted evs = produced evs) := by
  have left : ∀ {rest : List Frame}, Left evs rest →
      accepted evs <+: produced evs ∧
        (.wrote ∈ evs → accepted evs = produced evs) :=
    fun h => ⟨⟨_, h.1.symm⟩, fun hw => absurd hw h.2.2⟩
  have unsent : Unsent evs → accepted evs <+: produced evs ∧
      (.wrote ∈ evs → accepted evs = produced evs) :=
    fun h => ⟨by rw [h.1]; exact List.nil_prefix, fun hw => absurd hw h.2.2⟩
  have written : produced evs = accepted evs ∧ .streaming ∈ evs ∧
        .wrote ∈ evs → accepted evs <+: produced evs ∧
      (.wrote ∈ evs → accepted evs = produced evs) :=
    fun h => ⟨⟨[], by rw [h.1, List.append_nil]⟩, fun _ => h.1.symm⟩
  have driving : ∀ future, DrivingAt evs future →
      accepted evs <+: produced evs ∧
        (.wrote ∈ evs → accepted evs = produced evs) := by
    intro future h
    cases future with
    | dispatch => exact unsent h.2
    | nextFrame rest => exact left h
  cases p with
  | receiving | locking | locked | responding => exact unsent hp.2
  | refusing => exact unsent hp
  | driving future => exact driving future hp
  | performing future job => exact driving future hp
  | sending frame rest => exact left hp
  | stopping | stopped => obtain ⟨_, _, h⟩ := hp; exact left h
  | closing => exact left hp
  | closed | drained | observing => exact written hp
  | finished => exact ⟨hp.1, fun hw => (hp.2.1 (hp.2.2 hw)).1 hw⟩

/-! ## The lock -/

/-- The call has acquired the lock and neither released it nor been
dropped. -/
def HoldsLock (evs : List (Event Req Resp Frame)) : Prop :=
  .acquired ∈ evs ∧ .released ∉ evs ∧ ∀ dropped, .cancelled dropped ∉ evs

/-- What has happened to the lock guard in each phase. -/
def GuardAt (evs : List (Event Req Resp Frame)) : Phase Req Frame → Prop
  | .receiving | .locking =>
      .acquired ∉ evs ∧ .released ∉ evs ∧ ∀ dropped, .cancelled dropped ∉ evs
  | .observing => .released ∈ evs
  | .finished => (.streaming ∈ evs → .released ∈ evs) ∧ ¬ HoldsLock evs
  | _ => HoldsLock evs

theorem guardAt_next {evs : List (Event Req Resp Frame)}
    {p p' : Phase Req Frame} {ev : Event Req Resp Frame} (hb : BodyAt evs p)
    (hp : GuardAt evs p) (h : p.next ev = some p') :
    GuardAt (evs ++ [ev]) p' := by
  cases Phase.edge h <;>
    simp_all [GuardAt, HoldsLock, BodyAt, DrivingAt, Unsent]

theorem guardAt_holds {evs : List (Event Req Resp Frame)}
    {p : Phase Req Frame} (hp : GuardAt evs p) : p.holds = true ↔ HoldsLock evs := by
  cases p <;> simp_all [GuardAt, Phase.holds, HoldsLock]

/-! ## What comes before and after -/

def Event.IsFailedSend : Event Req Resp Frame → Prop
  | .sent _ outcome => outcome ≠ .accepted
  | _ => False

/-- What may have followed a failed send. -/
def AfterFailure (post : List (Event Req Resp Frame)) : Phase Req Frame → Prop
  | .stopping => post = []
  | .stopped => ∃ js, post = [.drained js]
  | .finished => ∃ js, post = [.drained js, .released]
  | _ => False

/-- What may have followed a release. -/
def AfterRelease (post : List (Event Req Resp Frame)) : Phase Req Frame → Prop
  | .observing => post = []
  | .finished => post = [] ∨ post = [.observed]
  | _ => False

/-- What the last event was, where the next one depends on it. -/
def LastAt (evs : List (Event Req Resp Frame)) : Phase Req Frame → Prop
  | .stopped | .drained => ∃ pre js, evs = pre ++ [.drained js]
  | .observing => ∃ pre, evs = pre ++ [.released]
  | _ => True

theorem afterFailure_next {post : List (Event Req Resp Frame)}
    {p p' : Phase Req Frame} {ev : Event Req Resp Frame}
    (h : p.next ev = some p') (hp : AfterFailure post p) :
    AfterFailure (post ++ [ev]) p' := by
  cases Phase.edge h
  case releaseStopped => obtain ⟨js, rfl⟩ := hp; exact ⟨js, rfl⟩
  all_goals simp_all [AfterFailure]

theorem afterRelease_next {post : List (Event Req Resp Frame)}
    {p p' : Phase Req Frame} {ev : Event Req Resp Frame}
    (h : p.next ev = some p') (hp : AfterRelease post p) :
    AfterRelease (post ++ [ev]) p' := by
  cases Phase.edge h <;> simp_all [AfterRelease]

theorem failed_next {p p' : Phase Req Frame} {ev : Event Req Resp Frame}
    (h : p.next ev = some p') (hev : ev.IsFailedSend) :
    AfterFailure ([] : List (Event Req Resp Frame)) p' := by
  cases Phase.edge h <;> simp_all [AfterFailure, Event.IsFailedSend]

theorem released_next {p p' : Phase Req Frame}
    (h : p.next (.released : Event Req Resp Frame) = some p') :
    AfterRelease ([] : List (Event Req Resp Frame)) p' := by
  cases Phase.edge h <;> simp_all [AfterRelease]

theorem lastAt_next {evs : List (Event Req Resp Frame)}
    {p p' : Phase Req Frame} {ev : Event Req Resp Frame}
    (h : p.next ev = some p') : LastAt (evs ++ [ev]) p' := by
  cases Phase.edge h <;> simp_all [LastAt]

/-! ## A whole call -/

/-- Everything known of a call that stands at `p` and has shown `evs`. -/
structure CallAt (evs : List (Event Req Resp Frame)) (p : Phase Req Frame) :
    Prop where
  body : BodyAt evs p
  guard : GuardAt evs p
  last : LastAt evs p
  failure : ∀ pre x post, evs = pre ++ x :: post → x.IsFailedSend →
    AfterFailure post p
  release : ∀ pre x post, evs = pre ++ x :: post → x = .released →
    AfterRelease post p
  drained : ∀ pre x post, evs = pre ++ x :: post → x = .released →
    .streaming ∈ pre → ∃ pre' js, pre = pre' ++ [.drained js]
  released : ∀ pre x post, evs = pre ++ x :: post → x = .observed →
    ∃ pre', pre = pre' ++ [.released]

theorem callAt_nil : CallAt ([] : List (Event Req Resp Frame)) .receiving where
  body := by simp [BodyAt, Unsent, produced, accepted]
  guard := by simp [GuardAt]
  last := trivial
  failure := by simp
  release := by simp
  drained := by simp
  released := by simp

theorem released_last {evs : List (Event Req Resp Frame)}
    {p p' : Phase Req Frame} (hb : BodyAt evs p) (hl : LastAt evs p)
    (h : p.next (.released : Event Req Resp Frame) = some p')
    (hstr : .streaming ∈ evs) : ∃ pre js, evs = pre ++ [.drained js] := by
  cases Phase.edge h <;> simp_all [LastAt, BodyAt, Unsent]

theorem observed_last {evs : List (Event Req Resp Frame)}
    {p p' : Phase Req Frame} (hl : LastAt evs p)
    (h : p.next (.observed : Event Req Resp Frame) = some p') :
    ∃ pre, evs = pre ++ [.released] := by
  cases Phase.edge h
  exact hl

theorem callAt_next {evs : List (Event Req Resp Frame)}
    {p p' : Phase Req Frame} {ev : Event Req Resp Frame} (hc : CallAt evs p)
    (hfits : p.Fits ev) (h : p.next ev = some p') : CallAt (evs ++ [ev]) p' where
  body := bodyAt_next hc.body hfits h
  guard := guardAt_next hc.body hc.guard h
  last := lastAt_next h
  failure := follows_concat (failed_next h)
    (fun _ => afterFailure_next h) hc.failure
  release := follows_concat (fun hev => released_next (hev ▸ h))
    (fun _ => afterRelease_next h) hc.release
  drained := precedes_concat
    (fun hev => released_last hc.body hc.last (hev ▸ h)) hc.drained
  released := precedes_concat
    (fun hev => observed_last hc.last (hev ▸ h)) hc.released

/-- What a call has delivered and in what order it let go, at any moment. -/
structure CleanPump (evs : List (Event Req Resp Frame)) (p : Phase Req Frame) :
    Prop where
  /-- The host has accepted a prefix of the body. -/
  delivers : accepted evs <+: produced evs
  /-- The final result is only ever written after the whole body. -/
  wrote : .wrote ∈ evs → accepted evs = produced evs
  /-- A pump that ends has written it exactly when every frame was accepted. -/
  result : p = .finished → .streaming ∈ evs →
    (.wrote ∈ evs ↔ accepted evs = produced evs)
  /-- After a failed send there is a drain and a release, nothing else. -/
  failure : ∀ pre frame outcome post, evs = pre ++ .sent frame outcome :: post →
    outcome ≠ .accepted → ∃ js, post <+: [.drained js, .released]
  /-- The pump drains right before it releases. -/
  drains : ∀ pre post, evs = pre ++ .released :: post → .streaming ∈ pre →
    ∃ pre' js, pre = pre' ++ [.drained js]
  /-- A release is followed by the transmission result at most. -/
  releases : ∀ pre post, evs = pre ++ .released :: post → post <+: [.observed]
  /-- The transmission result comes right after the release. -/
  observes : ∀ pre post, evs = pre ++ .observed :: post →
    ∃ pre', pre = pre' ++ [.released]
  /-- A pump that ends has released exactly once. -/
  once : p = .finished → .streaming ∈ evs →
    ∃ pre post, evs = pre ++ .released :: post ∧
      .released ∉ pre ∧ .released ∉ post

theorem afterFailure_tail {post : List (Event Req Resp Frame)}
    {p : Phase Req Frame} (h : AfterFailure post p) :
    ∃ js, post <+: [.drained js, .released] := by
  unfold AfterFailure at h
  split at h
  · exact ⟨[], by rw [h]; exact List.nil_prefix⟩
  · obtain ⟨js, rfl⟩ := h; exact ⟨js, [.released], rfl⟩
  · obtain ⟨js, rfl⟩ := h; exact ⟨js, List.prefix_rfl⟩
  · exact h.elim

theorem afterRelease_tail {post : List (Event Req Resp Frame)}
    {p : Phase Req Frame} (h : AfterRelease post p) : post <+: [.observed] := by
  unfold AfterRelease at h
  split at h
  · rw [h]; exact List.nil_prefix
  · rcases h with rfl | rfl
    · exact List.nil_prefix
    · exact List.prefix_rfl
  · exact h.elim

theorem released_not_mem {post : List (Event Req Resp Frame)}
    (h : post <+: [.observed]) : .released ∉ post := fun hmem => by
  simpa using h.subset hmem

theorem callAt_clean {evs : List (Event Req Resp Frame)} {p : Phase Req Frame}
    (hc : CallAt evs p) : CleanPump evs p where
  delivers := (bodyAt_clean hc.body).1
  wrote := (bodyAt_clean hc.body).2
  result hp := by subst hp; exact hc.body.2.1
  failure pre frame outcome post heq ho :=
    afterFailure_tail (hc.failure pre _ post heq ho)
  drains pre post heq := hc.drained pre _ post heq rfl
  releases pre post heq := afterRelease_tail (hc.release pre _ post heq rfl)
  observes pre post heq := hc.released pre _ post heq rfl
  once hp hstr := by
    subst hp
    obtain ⟨pre, post, heq⟩ := List.append_of_mem (hc.guard.1 hstr)
    refine ⟨pre, post, heq, fun hpre => ?_, ?_⟩
    · -- an earlier release would be followed by this one
      obtain ⟨pre₁, pre₂, rfl⟩ := List.append_of_mem hpre
      have hfol := afterRelease_tail (hc.release pre₁ _
        (pre₂ ++ .released :: post) (by simpa using heq) rfl)
      exact released_not_mem hfol (by simp)
    · exact released_not_mem (afterRelease_tail (hc.release pre _ post heq rfl))

end McpTemplate.Bridge
