import Mathlib.Data.List.Basic

/-!
# Code that waits for answers, and bodies read up to a limit

An async computation, seen from the one who polls it, is a state and what it
makes of the next answer from outside: it goes on waiting in a new state, or it
is done. `feed` hands it a list of answers. It does not matter how the list was
cut into polls, since feeding two lists in turn is feeding their concatenation.

`Limited` is the computation that reads a body frame by frame and gives up once
more than a limit has come. `feed_frames` says what it holds while it waits, and
`feed_stop` what comes out, both in terms of the content alone.
-/

namespace Lib

variable {σ I ω : Type*}

/-- Where a computation stands. -/
inductive Progress (σ ω : Type*) where
  | waiting (state : σ)
  | done (value : ω)
  deriving DecidableEq

/-- Hands answers to a computation until it is done. -/
def feed (step : σ → I → Progress σ ω) : Progress σ ω → List I → Progress σ ω
  | .done value, _ => .done value
  | .waiting s, [] => .waiting s
  | .waiting s, i :: is => feed step (step s i) is

section feed

variable {step : σ → I → Progress σ ω}

@[simp] theorem feed_done (v : ω) (is : List I) :
    feed step (.done v) is = .done v := by
  cases is <;> rfl

@[simp] theorem feed_nil (p : Progress σ ω) : feed step p [] = p := by
  cases p <;> rfl

@[simp] theorem feed_cons (s : σ) (i : I) (is : List I) :
    feed step (.waiting s) (i :: is) = feed step (step s i) is := rfl

theorem feed_append (p : Progress σ ω) (is js : List I) :
    feed step p (is ++ js) = feed step (feed step p is) js := by
  induction is generalizing p with
  | nil => rw [List.nil_append, feed_nil]
  | cons i is ih =>
      cases p with
      | done v => simp
      | waiting s => exact ih (step s i)

end feed

/-! ## A body read up to a limit -/

variable {α ε : Type*}

/-- What a body yields next. Frames that are not data count for nothing. -/
inductive BodyEvent (α ε : Type*) where
  | data (chunk : List α)
  | trailers
  | failed (err : ε)
  | ended
  deriving DecidableEq

/-- Why a body was not read to its end. -/
inductive CollectError (ε : Type*) where
  | lengthLimit
  | inner (err : ε)
  deriving DecidableEq

/-- What has been read, and how much more may come. -/
structure Limited (α : Type*) where
  buffered : List α
  remaining : Nat
  deriving DecidableEq

namespace Limited

def new (limit : Nat) : Limited α := ⟨[], limit⟩

/-- One event of the body. A chunk that does not fit any more is not kept. -/
def take (body : Limited α) :
    BodyEvent α ε → Progress (Limited α) (Except (CollectError ε) (List α))
  | .data chunk =>
      if body.remaining < chunk.length then .done (.error .lengthLimit)
      else .waiting ⟨body.buffered ++ chunk, body.remaining - chunk.length⟩
  | .trailers => .waiting body
  | .failed err => .done (.error (.inner err))
  | .ended => .done (.ok body.buffered)

theorem take_data (body : Limited α) (chunk : List α) :
    body.take (.data chunk : BodyEvent α ε) =
      if body.remaining < chunk.length then .done (.error .lengthLimit)
      else .waiting ⟨body.buffered ++ chunk, body.remaining - chunk.length⟩ := rfl

end Limited

namespace BodyEvent

/-- The data of the frames. -/
def content : List (BodyEvent α ε) → List α
  | [] => []
  | .data chunk :: es => chunk ++ content es
  | _ :: es => content es

/-- Nothing but frames: the body goes on. -/
def isFrame : BodyEvent α ε → Bool
  | .data _ | .trailers => true
  | _ => false

end BodyEvent

open BodyEvent

/-- The frames that have come so far, read. -/
theorem feed_frames {es : List (BodyEvent α ε)} (h : ∀ e ∈ es, e.isFrame = true)
    (body : Limited α) (hle : (content es).length ≤ body.remaining) :
    feed Limited.take (.waiting body) es =
      .waiting ⟨body.buffered ++ content es,
        body.remaining - (content es).length⟩ := by
  induction es generalizing body with
  | nil => simp [content]
  | cons e es ih =>
      have hes : ∀ e ∈ es, e.isFrame = true := fun e he => h e (List.mem_cons_of_mem _ he)
      cases e with
      | data chunk =>
          have hlen : (content (.data chunk :: es)).length =
              chunk.length + (content es).length := List.length_append
          have hfit : ¬ body.remaining < chunk.length := by omega
          rw [feed_cons, Limited.take_data, if_neg hfit, ih hes]
          · show Progress.waiting (⟨body.buffered ++ chunk ++ content es,
                body.remaining - chunk.length - (content es).length⟩ : Limited α) = _
            rw [hlen, List.append_assoc, Nat.sub_sub]
            rfl
          · show (content es).length ≤ body.remaining - chunk.length
            omega
      | trailers => exact ih hes body hle
      | failed err => exact absurd (h _ List.mem_cons_self) (by simp [isFrame])
      | ended => exact absurd (h _ List.mem_cons_self) (by simp [isFrame])

/-- The frames of a body past which the limit is broken. -/
theorem feed_over_limit {es : List (BodyEvent α ε)} (h : ∀ e ∈ es, e.isFrame = true)
    (body : Limited α) (hlt : body.remaining < (content es).length) :
    feed Limited.take (.waiting body) es = .done (.error .lengthLimit) := by
  induction es generalizing body with
  | nil => exact absurd hlt (by simp [content])
  | cons e es ih =>
      have hes : ∀ e ∈ es, e.isFrame = true := fun e he => h e (List.mem_cons_of_mem _ he)
      cases e with
      | data chunk =>
          have hlen : (content (.data chunk :: es)).length =
              chunk.length + (content es).length := List.length_append
          rw [feed_cons, Limited.take_data]
          by_cases hfit : body.remaining < chunk.length
          · rw [if_pos hfit, feed_done]
          · rw [if_neg hfit]
            refine ih hes _ ?_
            show body.remaining - chunk.length < (content es).length
            omega
      | trailers => exact ih hes body hlt
      | failed err => exact absurd (h _ List.mem_cons_self) (by simp [isFrame])
      | ended => exact absurd (h _ List.mem_cons_self) (by simp [isFrame])

/-- What is made of a body that comes to `last` after the frames `es`. -/
def collected (limit : Nat) (es : List (BodyEvent α ε)) (last : Except ε Unit) :
    Except (CollectError ε) (List α) :=
  if limit < (content es).length then .error .lengthLimit
  else
    match last with
    | .ok () => .ok (content es)
    | .error err => .error (.inner err)

/-- How a body stops: at its end, or with an error. -/
def BodyEvent.stop : Except ε Unit → BodyEvent α ε
  | .ok () => .ended
  | .error err => .failed err

/-- What comes out depends on the content and on how the body stops, and not
on how the content was cut into frames, nor on anything behind the stop. -/
theorem feed_stop {es : List (BodyEvent α ε)} (h : ∀ e ∈ es, e.isFrame = true)
    (limit : Nat) (last : Except ε Unit) (rest : List (BodyEvent α ε)) :
    feed Limited.take (.waiting (Limited.new limit)) (es ++ stop last :: rest) =
      .done (collected limit es last) := by
  unfold collected
  rw [feed_append]
  by_cases hlt : limit < (content es).length
  · rw [feed_over_limit h (Limited.new limit) hlt, feed_done, if_pos hlt]
  · have hle : (content es).length ≤ limit := by omega
    rw [feed_frames h (Limited.new limit) hle, if_neg hlt]
    cases last with
    | ok u => simp [stop, Limited.take, Limited.new]
    | error err => simp [stop, Limited.take]

/-- A list of events is all frames, or it has a first stop. -/
theorem BodyEvent.frames_or_stop (es : List (BodyEvent α ε)) :
    (∀ e ∈ es, e.isFrame = true) ∨
      ∃ pre last rest, (∀ e ∈ pre, e.isFrame = true) ∧ es = pre ++ stop last :: rest := by
  induction es with
  | nil => exact .inl fun e he => by cases he
  | cons e es ih =>
      by_cases he : e.isFrame = true
      · rcases ih with hall | ⟨pre, last, rest, hpre, rfl⟩
        · exact .inl (List.forall_mem_cons.2 ⟨he, hall⟩)
        · exact .inr ⟨e :: pre, last, rest, List.forall_mem_cons.2 ⟨he, hpre⟩, rfl⟩
      · cases e with
        | data chunk => exact absurd rfl he
        | trailers => exact absurd rfl he
        | failed err => exact .inr ⟨[], .error err, es, List.forall_mem_nil _, rfl⟩
        | ended => exact .inr ⟨[], .ok (), es, List.forall_mem_nil _, rfl⟩

end Lib
