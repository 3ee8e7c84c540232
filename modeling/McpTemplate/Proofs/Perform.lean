import McpTemplate.Src.Perform

/-!
# What an outbound exchange comes to

A future that is polled at some times, against a deadline, comes to what its
answers up to one time make of it: the first poll at which the deadline has
passed. The polls before it change nothing, because feeding is feeding in
parts. That is `timeout_pollsAt`, and it takes the times out of everything
after it.

What is left is a function of what the other side has sent by then. `Replied`
lists its cases in the words of the source, and `outbound_reply_exact` says
that `perform` does these. `outbound_settings_exact` is about the two settings
it goes by.
-/

namespace McpTemplate.Bridge

open Lib

variable {σ I ω : Type} {step : σ → I → Progress σ ω}

/-- What is there later is what was there before, and what has come since. -/
theorem ready_append {t t' : Nat} (h : t ≤ t') (answers : List (Nat × I)) :
    ready t' answers = ready t answers ++
      ready t' (answers.dropWhile fun answer => answer.1 ≤ t) := by
  induction answers with
  | nil => rfl
  | cons answer answers ih =>
      by_cases ht : answer.1 ≤ t
      · have ht' : answer.1 ≤ t' := by omega
        have hl : ready t' (answer :: answers) = answer.2 :: ready t' answers := by
          simp [ready, ht']
        have hr : ready t (answer :: answers) = answer.2 :: ready t answers := by
          simp [ready, ht]
        rw [hl, hr, List.dropWhile_cons_of_pos (by simpa using ht), ih, List.cons_append]
      · have hr : ready t (answer :: answers) = [] := by simp [ready, ht]
        rw [hr, List.dropWhile_cons_of_neg (by simpa using ht), List.nil_append]

/-- The value of a future when the deadline has passed. -/
def atDeadline : Progress σ ω → Except Unit ω
  | .waiting _ => .error ()
  | .done value => .ok value

/-- Polled against a deadline, a future comes to what the answers up to the
first poll behind the deadline make of it. -/
theorem timeout_pollsAt {deadline t : Nat} {times : List Nat}
    (hsorted : times.Pairwise (· ≤ ·))
    (ht : times.find? (fun t => deadline ≤ t) = some t) (p : Progress σ ω)
    (answers : List (Nat × I)) :
    timeout (pollsAt step deadline times p answers) =
      some (atDeadline (feed step p (ready t answers))) := by
  induction times generalizing p answers with
  | nil => cases ht
  | cons t₀ times ih =>
      obtain ⟨hle, hsorted'⟩ := List.pairwise_cons.1 hsorted
      have hmem := List.mem_of_find?_eq_some ht
      have ht₀ : t₀ ≤ t := by
        rcases List.mem_cons.1 hmem with rfl | hmem
        · exact Nat.le_refl _
        · exact hle t hmem
      rw [pollsAt, ready_append ht₀, feed_append]
      cases feed step p (ready t₀ answers) with
      | done value =>
          rw [feed_done]
          rfl
      | waiting s =>
          by_cases hlate : deadline ≤ t₀
          · -- the deadline has passed, and this is the first poll behind it
            have heq : t₀ = t := by
              rw [List.find?_cons_of_pos (by simpa using hlate)] at ht
              exact Option.some.inj ht
            have hnone : ready t (answers.dropWhile fun answer => answer.1 ≤ t₀) = [] := by
              have hself := ready_append (Nat.le_of_eq heq) answers
              have hready : ready t answers = ready t₀ answers := by rw [heq]
              rw [hready] at hself
              exact List.self_eq_append_right.1 hself
            rw [hnone, feed_nil]
            simp [Poll.ofProgress, timeout, hlate, atDeadline]
          · rw [List.find?_cons_of_neg (by simpa using hlate)] at ht
            have hrest := ih hsorted' ht (.waiting s)
              (answers.dropWhile fun answer => answer.1 ≤ t₀)
            simpa [Poll.ofProgress, timeout, hlate] using hrest

/-- The first poll behind a deadline is the earliest of them. -/
theorem first_le {deadline t t' : Nat} {times : List Nat}
    (hsorted : times.Pairwise (· ≤ ·))
    (ht : times.find? (fun t => deadline ≤ t) = some t) (hmem : t' ∈ times)
    (hlate : deadline ≤ t') : t ≤ t' := by
  obtain ⟨_, before, after, htimes, hbefore⟩ := List.find?_eq_some_iff_append.1 ht
  rw [htimes] at hmem hsorted
  rcases List.mem_append.1 hmem with hin | hin
  · have hnot := hbefore t' hin
    simp only [Bool.not_eq_eq_eq_not, Bool.not_true, decide_eq_false_iff_not] at hnot
    exact absurd hlate hnot
  · rcases List.mem_cons.1 hin with rfl | hin
    · exact Nat.le_refl _
    · exact (List.pairwise_cons.1 (List.pairwise_append.1 hsorted).2.1).1 t' hin

/-- A clock fires at the first poll at which the deadline has passed. -/
structure Clock.FiresAt {deadline : Nat} (clock : Clock deadline) (t : Nat) : Prop where
  mem : t ∈ clock.times
  late : deadline ≤ t
  first : ∀ t' ∈ clock.times, deadline ≤ t' → t ≤ t'

theorem Clock.fires {deadline : Nat} (clock : Clock deadline) :
    ∃ t, clock.times.find? (fun t => deadline ≤ t) = some t ∧ clock.FiresAt t := by
  obtain ⟨t, ht, hlate⟩ := clock.reaches
  have hsome : (clock.times.find? fun t => deadline ≤ t).isSome := by
    rw [List.find?_isSome]
    exact ⟨t, ht, by simpa using hlate⟩
  obtain ⟨t', ht'⟩ := Option.isSome_iff_exists.1 hsome
  exact ⟨t', ht', List.mem_of_find?_eq_some ht', by simpa using List.find?_some ht',
    fun t'' hmem hlate => first_le clock.sorted ht' hmem hlate⟩

namespace Outbound

variable {Options : Type} {wasi : Wasi} {compat : Compat}

/-! ## What the other side has sent -/

/-- What of the body is there at a time. -/
def Upstream.bodyBy (upstream : Upstream compat) (t : Nat) :
    List (BodyEvent UInt8 Str) :=
  ready t upstream.body

/-- All events are frames of a body that goes on. -/
def Frames (es : List (BodyEvent UInt8 Str)) : Prop := ∀ e ∈ es, e.isFrame = true

/-- What comes of a request, by what is there of the other side at a time. -/
inductive Replied (wasi : Wasi) (var : Str → Option Str) (t : Nat)
    (upstream : WasiRequest wasi Options → Upstream compat)
    (request : Request Options) : Reply (Response compat.Parts) → Prop
  | rejected {code} (hreject : intoWasiRequest wasi request = .error code) :
      Replied wasi var t upstream request (.error (.wasi (wasi.displayCode code)))
  | silent {sent} (hsent : intoWasiRequest wasi request = .ok sent)
      (hhead : ∀ head, (upstream sent).head = some head → t < head.1) :
      Replied wasi var t upstream request (.error (.timedOut (timeoutMs var)))
  | failed {sent s code} (hsent : intoWasiRequest wasi request = .ok sent)
      (hhead : (upstream sent).head = some (s, .error code)) (hs : s ≤ t) :
      Replied wasi var t upstream request (.error (.wasi code))
  | unreadable {sent s response code} (hsent : intoWasiRequest wasi request = .ok sent)
      (hhead : (upstream sent).head = some (s, .ok response)) (hs : s ≤ t)
      (hresponse : compat.fromWasiResponse response = .error code) :
      Replied wasi var t upstream request (.error (.wasi code))
  | unfinished {sent s response parts} (hsent : intoWasiRequest wasi request = .ok sent)
      (hhead : (upstream sent).head = some (s, .ok response)) (hs : s ≤ t)
      (hresponse : compat.fromWasiResponse response = .ok parts)
      (hbody : Frames ((upstream sent).bodyBy t))
      (hle : (BodyEvent.content ((upstream sent).bodyBy t)).length ≤
        maxResponseBytes var) :
      Replied wasi var t upstream request (.error (.timedOut (timeoutMs var)))
  | tooLarge {sent s response parts pre rest}
      (hsent : intoWasiRequest wasi request = .ok sent)
      (hhead : (upstream sent).head = some (s, .ok response)) (hs : s ≤ t)
      (hresponse : compat.fromWasiResponse response = .ok parts)
      (hbody : (upstream sent).bodyBy t = pre ++ rest) (hpre : Frames pre)
      (hlt : maxResponseBytes var < (BodyEvent.content pre).length) :
      Replied wasi var t upstream request (.error .responseTooLarge)
  | broken {sent s response parts pre err rest}
      (hsent : intoWasiRequest wasi request = .ok sent)
      (hhead : (upstream sent).head = some (s, .ok response)) (hs : s ≤ t)
      (hresponse : compat.fromWasiResponse response = .ok parts)
      (hbody : (upstream sent).bodyBy t = pre ++ .failed err :: rest) (hpre : Frames pre)
      (hle : (BodyEvent.content pre).length ≤ maxResponseBytes var) :
      Replied wasi var t upstream request (.error (.wasi err))
  | complete {sent s response parts pre rest}
      (hsent : intoWasiRequest wasi request = .ok sent)
      (hhead : (upstream sent).head = some (s, .ok response)) (hs : s ≤ t)
      (hresponse : compat.fromWasiResponse response = .ok parts)
      (hbody : (upstream sent).bodyBy t = pre ++ .ended :: rest) (hpre : Frames pre)
      (hle : (BodyEvent.content pre).length ≤ maxResponseBytes var) :
      Replied wasi var t upstream request (.ok ⟨parts, BodyEvent.content pre⟩)

/-! ## The future of `perform` -/

/-- The future reads the body as `Limited` does. -/
theorem feed_collecting (maxBytes : Nat) (parts : compat.Parts)
    (p : Progress (Limited UInt8) (Except (CollectError Str) (List UInt8)))
    (es : List (BodyEvent UInt8 Str)) :
    feed (Performing.resume maxBytes) (collectedBody parts p)
        (es.map (@Answer.frame compat)) =
      collectedBody parts (feed Limited.take p es) := by
  induction es generalizing p with
  | nil => rw [List.map_nil, feed_nil, feed_nil]
  | cons e es ih =>
      cases p with
      | waiting body => exact ih (body.take e)
      | done value =>
          rw [feed_done]
          match value with
          | .ok bytes => rfl
          | .error .lengthLimit => rfl
          | .error (.inner err) => rfl

theorem ready_map {I J : Type} (f : I → J) (t : Nat) (answers : List (Nat × I)) :
    ready t (answers.map fun answer => (answer.1, f answer.2)) =
      (ready t answers).map f := by
  induction answers with
  | nil => rfl
  | cons answer answers ih =>
      by_cases h : answer.1 ≤ t
      · simpa [ready, h] using ih
      · simp [ready, h]

theorem ready_answers {t s : Nat} {upstream : Upstream compat}
    {result : Except Str compat.Response} (hhead : upstream.head = some (s, result))
    (hs : s ≤ t) :
    ready t upstream.answers =
      .sent result :: (upstream.bodyBy t).map (@Answer.frame compat) := by
  have hanswers : upstream.answers =
      (s, .sent result) :: upstream.body.map fun event => (event.1, .frame event.2) := by
    simp only [Upstream.answers, hhead]
  have hcons : ready t upstream.answers = .sent result ::
      ready t (upstream.body.map fun event => (event.1, Answer.frame event.2)) := by
    rw [hanswers]
    simp [ready, hs]
  rw [hcons, ready_map]
  rfl

theorem ready_silent {t : Nat} {upstream : Upstream compat}
    (hhead : ∀ head, upstream.head = some head → t < head.1) :
    ready t upstream.answers = [] := by
  unfold Upstream.answers
  cases h : upstream.head with
  | none => rfl
  | some head =>
      have hlt := hhead head h
      have hno : ¬ head.1 ≤ t := by omega
      simp [ready, hno]

/-- What the future comes to when it is given what is there at a time. -/
def replyBy (wasi : Wasi) (var : Str → Option Str) (t : Nat)
    (upstream : WasiRequest wasi Options → Upstream compat)
    (request : Request Options) : Reply (Response compat.Parts) :=
  timedReply (timeoutMs var) (atDeadline
    (feed (Performing.resume (maxResponseBytes var)) (Performing.start compat wasi request)
      (ready t (answersTo wasi upstream request))))

section replies

variable {var : Str → Option Str} {t : Nat}
  {upstream : WasiRequest wasi Options → Upstream compat} {request : Request Options}

theorem start_sent {sent : WasiRequest wasi Options}
    (hsent : intoWasiRequest wasi request = .ok sent) :
    Performing.start compat wasi request = .waiting .sending := by
  simp only [Performing.start, hsent]

theorem answersTo_sent {sent : WasiRequest wasi Options}
    (hsent : intoWasiRequest wasi request = .ok sent) :
    answersTo wasi upstream request = (upstream sent).answers := by
  simp only [answersTo, hsent]

/-- The reply where the response is there, by its body. -/
theorem replyBy_head {sent : WasiRequest wasi Options} {s : Nat}
    {response : compat.Response} {parts : compat.Parts}
    (hsent : intoWasiRequest wasi request = .ok sent)
    (hhead : (upstream sent).head = some (s, .ok response)) (hs : s ≤ t)
    (hresponse : compat.fromWasiResponse response = .ok parts) :
    replyBy wasi var t upstream request = timedReply (timeoutMs var) (atDeadline
      (collectedBody parts (feed Limited.take
        (.waiting (Limited.new (maxResponseBytes var))) ((upstream sent).bodyBy t)))) := by
  have hresume : Performing.resume (maxResponseBytes var) .sending (.sent (.ok response)) =
      collectedBody parts (.waiting (Limited.new (maxResponseBytes var))) := by
    simp only [Performing.resume, hresponse, collectedBody]
  rw [replyBy, start_sent hsent, answersTo_sent hsent, ready_answers hhead hs, feed_cons,
    hresume, feed_collecting]

theorem Replied.eq {reply : Reply (Response compat.Parts)}
    (h : Replied wasi var t upstream request reply) :
    replyBy wasi var t upstream request = reply := by
  cases h with
  | @rejected code hreject =>
      have hstart : Performing.start compat wasi request =
          .done (.error (.wasi (wasi.displayCode code))) := by
        simp only [Performing.start, hreject]
      rw [replyBy, hstart, feed_done]
      rfl
  | silent hsent hhead =>
      rw [replyBy, start_sent hsent, answersTo_sent hsent, ready_silent hhead]
      rfl
  | failed hsent hhead hs =>
      rw [replyBy, start_sent hsent, answersTo_sent hsent, ready_answers hhead hs, feed_cons]
      simp only [Performing.resume, feed_done]
      rfl
  | unreadable hsent hhead hs hresponse =>
      rw [replyBy, start_sent hsent, answersTo_sent hsent, ready_answers hhead hs, feed_cons]
      simp only [Performing.resume, hresponse, feed_done]
      rfl
  | unfinished hsent hhead hs hresponse hbody hle =>
      rw [replyBy_head hsent hhead hs hresponse,
        feed_frames hbody (Limited.new (maxResponseBytes var)) hle]
      rfl
  | @tooLarge sent s response parts pre rest hsent hhead hs hresponse hbody hpre hlt =>
      rw [replyBy_head hsent hhead hs hresponse, hbody, feed_append,
        feed_over_limit hpre (Limited.new (maxResponseBytes var)) hlt, feed_done]
      rfl
  | @broken sent s response parts pre err rest hsent hhead hs hresponse hbody hpre hle =>
      have hstop := feed_stop hpre (maxResponseBytes var) (.error err) rest
      rw [collected.eq_def, if_neg (by omega)] at hstop
      rw [replyBy_head hsent hhead hs hresponse, hbody]
      exact congrArg (fun p => timedReply _ (atDeadline (collectedBody parts p))) hstop
  | @complete sent s response parts pre rest hsent hhead hs hresponse hbody hpre hle =>
      have hstop := feed_stop hpre (maxResponseBytes var) (.ok ()) rest
      rw [collected.eq_def, if_neg (by omega)] at hstop
      rw [replyBy_head hsent hhead hs hresponse, hbody]
      exact congrArg (fun p => timedReply _ (atDeadline (collectedBody parts p))) hstop

/-- There is a reply to everything. -/
theorem replied (wasi : Wasi) (var : Str → Option Str) (t : Nat)
    (upstream : WasiRequest wasi Options → Upstream compat) (request : Request Options) :
    ∃ reply, Replied wasi var t upstream request reply := by
  cases hsent : intoWasiRequest wasi request with
  | error code => exact ⟨_, .rejected hsent⟩
  | ok sent =>
      by_cases hhead : ∀ head, (upstream sent).head = some head → t < head.1
      · exact ⟨_, .silent hsent hhead⟩
      · simp only [not_forall, Nat.not_lt] at hhead
        obtain ⟨⟨s, result⟩, hhead, hs⟩ := hhead
        cases result with
        | error code => exact ⟨_, .failed hsent hhead hs⟩
        | ok response =>
            cases hresponse : compat.fromWasiResponse response with
            | error code => exact ⟨_, .unreadable hsent hhead hs hresponse⟩
            | ok parts =>
                rcases BodyEvent.frames_or_stop ((upstream sent).bodyBy t) with
                  hbody | ⟨pre, last, rest, hpre, hbody⟩
                · by_cases hle : (BodyEvent.content ((upstream sent).bodyBy t)).length ≤
                      maxResponseBytes var
                  · exact ⟨_, .unfinished hsent hhead hs hresponse hbody hle⟩
                  · exact ⟨_, .tooLarge hsent hhead hs hresponse (List.append_nil _).symm
                      hbody (by omega)⟩
                · by_cases hle : (BodyEvent.content pre).length ≤ maxResponseBytes var
                  · cases last with
                    | ok u => exact ⟨_, .complete hsent hhead hs hresponse hbody hpre hle⟩
                    | error err =>
                        exact ⟨_, .broken hsent hhead hs hresponse hbody hpre hle⟩
                  · exact ⟨_, .tooLarge hsent hhead hs hresponse hbody hpre (by omega)⟩

theorem replied_iff {reply : Reply (Response compat.Parts)} :
    replyBy wasi var t upstream request = reply ↔
      Replied wasi var t upstream request reply := by
  refine ⟨?_, Replied.eq⟩
  intro h
  obtain ⟨reply', hreplied⟩ := replied wasi var t upstream request
  rw [← h, hreplied.eq]
  exact hreplied

/-- However it is polled: what is there when the clock fires decides. -/
theorem performAt_fires (wasi : Wasi) (var : Str → Option Str)
    (upstream : WasiRequest wasi Options → Upstream compat) (request : Request Options)
    (clock : Clock (deadlineNanos (timeoutMs var))) :
    ∃ t, clock.FiresAt t ∧ performAt wasi var clock.times upstream request =
      some (replyBy wasi var t upstream request) := by
  obtain ⟨t, ht, hfires⟩ := clock.fires
  refine ⟨t, hfires, ?_⟩
  rw [performAt, timeout_pollsAt clock.sorted ht]
  rfl

/-- What is received is within the limit, and the bridge is there. -/
theorem Replied.bounded {reply : Reply (Response compat.Parts)}
    (h : Replied wasi var t upstream request reply) :
    reply ≠ .error .bridgeClosed ∧
      ∀ response, reply = .ok response → response.body.length ≤ maxResponseBytes var := by
  cases h with
  | complete hsent hhead hs hresponse hbody hpre hle =>
      refine ⟨by simp, ?_⟩
      intro response heq
      cases heq
      exact hle
  | _ => simp

end replies

/-- Whatever the host answers and whenever it polls, `perform` returns, and
what it returns is what has come of the exchange when the clock fires. -/
theorem outbound_reply_exact (wasi : Wasi) (var : Str → Option Str)
    (upstream : WasiRequest wasi Options → Upstream compat) (request : Request Options)
    (clock : Clock (deadlineNanos (timeoutMs var))) :
    ∃ t, clock.FiresAt t ∧
      ∀ reply, performAt wasi var clock.times upstream request = some reply ↔
        Replied wasi var t upstream request reply := by
  obtain ⟨t, hfires, hperform⟩ := performAt_fires wasi var upstream request clock
  refine ⟨t, hfires, ?_⟩
  intro reply
  rw [hperform, Option.some.injEq]
  exact replied_iff

/-! ## Settings -/

/-- A variable that reads as a number: digits, or a plus sign and digits, of a
value below the bound. -/
def Reads (var : Str → Option Str) (name : Str) (bound n : Nat) : Prop :=
  ∃ digits, digits ≠ [] ∧ (∀ c ∈ digits, c.isDigit = true) ∧
    (var name = some digits ∨ var name = some ('+' :: digits)) ∧
    Nat.ofDigitChars 10 digits 0 = n ∧ n < bound

theorem reads_iff {var : Str → Option Str} {name : Str} {bound n : Nat}
    (hbound : 0 < bound) :
    Reads var name bound n ↔ (var name).bind (parseUnsigned bound) = some n := by
  rw [Option.bind_eq_some_iff]
  constructor
  · intro ⟨digits, hne, hall, hvar, hval, hlt⟩
    have hparse : ∀ s, (s = digits ∨ s = '+' :: digits) →
        parseUnsigned bound s = some n := fun s hs =>
      (parseUnsigned_eq_some hbound).2 ⟨digits, hne, hall, hs, hval, hlt⟩
    rcases hvar with hvar | hvar
    · exact ⟨_, hvar, hparse _ (.inl rfl)⟩
    · exact ⟨_, hvar, hparse _ (.inr rfl)⟩
  · intro ⟨s, hvar, hparse⟩
    obtain ⟨digits, hne, hall, hs, hval, hlt⟩ := (parseUnsigned_eq_some hbound).1 hparse
    refine ⟨digits, hne, hall, ?_, hval, hlt⟩
    rcases hs with rfl | rfl
    · exact .inl hvar
    · exact .inr hvar

/-- A setting is the number its variable reads as, and the default where it
reads as none. -/
theorem setting_eq {var : Str → Option Str} {name : Str} {bound default n : Nat}
    (hbound : 0 < bound) :
    setting var name bound default = n ↔
      Reads var name bound n ∨ (n = default ∧ ∀ m, ¬ Reads var name bound m) := by
  simp only [reads_iff hbound, setting]
  cases (var name).bind (parseUnsigned bound) with
  | none => simp [eq_comm]
  | some m => simp

/-- The two settings of an exchange: each variable is taken where it is a
number of its type, written in digits, and is as good as unset where it is
anything else, a number that is too large included. The deadline is that many
milliseconds, or the last nanosecond there is. -/
theorem outbound_settings_exact (var : Str → Option Str) :
    (∀ n, timeoutMs var = n ↔ Reads var MCP_OUTBOUND_TIMEOUT_MS (2 ^ 64) n ∨
      (n = 30000 ∧ ∀ m, ¬ Reads var MCP_OUTBOUND_TIMEOUT_MS (2 ^ 64) m)) ∧
    (∀ n, maxResponseBytes var = n ↔ Reads var MCP_OUTBOUND_MAX_BYTES (2 ^ 32) n ∨
      (n = 4194304 ∧ ∀ m, ¬ Reads var MCP_OUTBOUND_MAX_BYTES (2 ^ 32) m)) ∧
    (∀ n, n < 2 ^ 64 → var MCP_OUTBOUND_TIMEOUT_MS = some (Nat.toDigits 10 n) →
      timeoutMs var = n) ∧
    (∀ n, n < 2 ^ 32 → var MCP_OUTBOUND_MAX_BYTES = some (Nat.toDigits 10 n) →
      maxResponseBytes var = n) ∧
    deadlineNanos (timeoutMs var) < 2 ^ 64 ∧
    (deadlineNanos (timeoutMs var) = timeoutMs var * 1000000 ∨
      2 ^ 64 ≤ timeoutMs var * 1000000 ∧ deadlineNanos (timeoutMs var) = 2 ^ 64 - 1) := by
  refine ⟨fun n => setting_eq (by decide), fun n => setting_eq (by decide), ?_, ?_, ?_, ?_⟩
  · intro n hn hvar
    rw [timeoutMs, setting, hvar, Option.bind_some, parseUnsigned_toDigits hn,
      Option.getD_some]
  · intro n hn hvar
    rw [maxResponseBytes, setting, hvar, Option.bind_some, parseUnsigned_toDigits hn,
      Option.getD_some]
  · show min _ _ < _
    omega
  · show min _ _ = _ ∨ _ ∧ min _ _ = _
    omega

end Outbound

end McpTemplate.Bridge
