import McpTemplate.Src.Handle
import McpTemplate.Proofs.Serial

/-!
# What the front makes of a call

Before the lock, `handle` is a function of the request and of what its body
brings. `Told` says which: the conversion failed, the request was a probe, the
body is still coming, it was too large, it could not be read, or it is whole.
`told_iff` is that the code does exactly this. The cut of the body into frames
appears nowhere in it, only the content.
-/

namespace McpTemplate.Handle

open Lib Lib.Machine Bridge Discovery

variable {host : Host} {Req Resp Frame Code : Type}

/-- A read of the discovery document. -/
def IsProbe (host : Host) (parts : host.Parts) : Prop :=
  (host.method parts = "GET".toList ∨ host.method parts = "HEAD".toList) ∧
    (host.path parts = "/".toList ∨ host.path parts = "/health".toList)

theorem matchesRequest_iff {parts : host.Parts} :
    matchesRequest (host.method parts) (host.path parts) = true ↔ IsProbe host parts := by
  simp [matchesRequest, IsProbe, DISCOVERY_PATHS]

/-- All events are frames of a body that goes on. -/
def Frames (es : List (BodyEvent UInt8 host.ErrorCode)) : Prop :=
  ∀ e ∈ es, e.isFrame = true

/-- What comes of a request whose body has brought `es` so far. -/
inductive Told (config : Config) (request : host.Request)
    (es : List (BodyEvent UInt8 host.ErrorCode)) : Front host → Prop
  | refused {code} (hrefused : host.fromWasiRequest request = .error code) :
      Told config request es (.returned (.error code))
  | probe {parts} (hparts : host.fromWasiRequest request = .ok parts)
      (hprobe : IsProbe host parts) :
      Told config request es (.returned
        (staticResponse host 200 "application/json".toList config.document))
  | reading {parts} (hparts : host.fromWasiRequest request = .ok parts)
      (hprobe : ¬ IsProbe host parts) (hes : Frames es)
      (hle : (BodyEvent.content es).length ≤ config.maxRequestBodyBytes) :
      Told config request es (.buffering parts ⟨BodyEvent.content es,
        config.maxRequestBodyBytes - (BodyEvent.content es).length⟩)
  | tooLarge {parts} (hparts : host.fromWasiRequest request = .ok parts)
      (hprobe : ¬ IsProbe host parts) {pre rest} (hes : es = pre ++ rest)
      (hpre : Frames pre)
      (hlt : config.maxRequestBodyBytes < (BodyEvent.content pre).length) :
      Told config request es
        (.returned (payloadTooLarge host config.maxRequestBodyBytes))
  | failed {parts} (hparts : host.fromWasiRequest request = .ok parts)
      (hprobe : ¬ IsProbe host parts) {pre err rest}
      (hes : es = pre ++ .failed err :: rest) (hpre : Frames pre)
      (hle : (BodyEvent.content pre).length ≤ config.maxRequestBodyBytes) :
      Told config request es (.returned (bodyFailed host err))
  | whole {parts} (hparts : host.fromWasiRequest request = .ok parts)
      (hprobe : ¬ IsProbe host parts) {pre rest}
      (hes : es = pre ++ .ended :: rest) (hpre : Frames pre)
      (hle : (BodyEvent.content pre).length ≤ config.maxRequestBodyBytes) :
      Told config request es (.passed parts (BodyEvent.content pre))

/-- Where the call stands after these events. -/
def frontOf (config : Config) (request : host.Request)
    (es : List (BodyEvent UInt8 host.ErrorCode)) : Front host :=
  es.foldl (Front.upload config) (arrive config request)

theorem upload_returned (config : Config) (result : Except host.ErrorCode StaticResponse)
    (es : List (BodyEvent UInt8 host.ErrorCode)) :
    es.foldl (Front.upload config) (.returned result) = .returned result := by
  induction es with
  | nil => rfl
  | cons e es ih => exact ih

theorem upload_passed (config : Config) (parts : host.Parts) (bytes : List UInt8)
    (es : List (BodyEvent UInt8 host.ErrorCode)) :
    es.foldl (Front.upload config) (.passed parts bytes) = .passed parts bytes := by
  induction es with
  | nil => rfl
  | cons e es ih => exact ih

theorem upload_reached (config : Config) (parts : host.Parts)
    (p : Progress (Limited UInt8) (Except (CollectError host.ErrorCode) (List UInt8)))
    (es : List (BodyEvent UInt8 host.ErrorCode)) :
    es.foldl (Front.upload config) (reached config parts p) =
      reached config parts (feed Limited.take p es) := by
  induction es generalizing p with
  | nil => rw [feed_nil]; rfl
  | cons e es ih =>
      cases p with
      | done value =>
          rw [feed_done]
          match value with
          | .ok bytes => exact upload_passed config parts bytes _
          | .error .lengthLimit => exact upload_returned config _ _
          | .error (.inner err) => exact upload_returned config _ _
      | waiting body => exact ih (body.take e)

theorem frontOf_reading {config : Config} {request : host.Request} {parts : host.Parts}
    (hparts : host.fromWasiRequest request = .ok parts) (hprobe : ¬ IsProbe host parts)
    (es : List (BodyEvent UInt8 host.ErrorCode)) :
    frontOf config request es = reached config parts
      (feed Limited.take (.waiting (Limited.new config.maxRequestBodyBytes)) es) := by
  have harrive : arrive config request =
      reached config parts (.waiting (Limited.new config.maxRequestBodyBytes)) := by
    have hno : ¬ matchesRequest (host.method parts) (host.path parts) = true :=
      fun h => hprobe (matchesRequest_iff.1 h)
    simp only [arrive, hparts, if_neg hno, reached]
  rw [frontOf, harrive, upload_reached]

/-- What is told is what the code comes to. -/
theorem Told.eq {config : Config} {request : host.Request}
    {es : List (BodyEvent UInt8 host.ErrorCode)} {front : Front host}
    (h : Told config request es front) : frontOf config request es = front := by
  cases h with
  | @refused code hrefused =>
      have harrive : arrive config request = .returned (.error code) := by
        simp only [arrive, hrefused]
      rw [frontOf, harrive, upload_returned]
  | probe hparts hprobe =>
      have harrive : arrive config request = .returned
          (staticResponse host 200 "application/json".toList config.document) := by
        simp only [arrive, hparts, if_pos (matchesRequest_iff.2 hprobe)]
      rw [frontOf, harrive, upload_returned]
  | reading hparts hprobe hes hle =>
      rw [frontOf_reading hparts hprobe, feed_frames hes (Limited.new _) hle]
      rfl
  | @tooLarge parts hparts hprobe pre rest hes hpre hlt =>
      rw [frontOf_reading hparts hprobe, hes, feed_append,
        feed_over_limit hpre (Limited.new _) hlt, feed_done]
      rfl
  | @failed parts hparts hprobe pre err rest hes hpre hle =>
      have hstop := feed_stop hpre config.maxRequestBodyBytes (.error err) rest
      rw [collected.eq_def, if_neg (by omega)] at hstop
      rw [frontOf_reading hparts hprobe, hes]
      exact congrArg (reached config parts) hstop
  | @whole parts hparts hprobe pre rest hes hpre hle =>
      have hstop := feed_stop hpre config.maxRequestBodyBytes (.ok ()) rest
      rw [collected.eq_def, if_neg (by omega)] at hstop
      rw [frontOf_reading hparts hprobe, hes]
      exact congrArg (reached config parts) hstop

/-- Something is told of every request and every body. -/
theorem told (config : Config) (request : host.Request)
    (es : List (BodyEvent UInt8 host.ErrorCode)) :
    ∃ front, Told config request es front := by
  cases hparts : host.fromWasiRequest request with
  | error code => exact ⟨_, .refused hparts⟩
  | ok parts =>
      by_cases hprobe : IsProbe host parts
      · exact ⟨_, .probe hparts hprobe⟩
      · rcases BodyEvent.frames_or_stop es with hes | ⟨pre, last, rest, hpre, hes⟩
        · by_cases hle : (BodyEvent.content es).length ≤ config.maxRequestBodyBytes
          · exact ⟨_, .reading hparts hprobe hes hle⟩
          · exact ⟨_, .tooLarge hparts hprobe (List.append_nil es).symm hes (by omega)⟩
        · by_cases hle : (BodyEvent.content pre).length ≤ config.maxRequestBodyBytes
          · cases last with
            | ok u => exact ⟨_, .whole hparts hprobe hes hpre hle⟩
            | error err => exact ⟨_, .failed hparts hprobe hes hpre hle⟩
          · exact ⟨_, .tooLarge hparts hprobe hes hpre (by omega)⟩

/-- The front of `handle` does exactly what is told of it. -/
theorem told_iff {config : Config} {request : host.Request}
    {es : List (BodyEvent UInt8 host.ErrorCode)} {front : Front host} :
    frontOf config request es = front ↔ Told config request es front := by
  refine ⟨?_, Told.eq⟩
  intro h
  obtain ⟨front', htold⟩ := told config request es
  rw [← h, htold.eq]
  exact htold

theorem staticResponse_ok {status : Nat} {contentType body : Str}
    {response : StaticResponse}
    (h : staticResponse host status contentType body = .ok response) :
    response = ⟨status, staticFields contentType, asBytes body⟩ := by
  unfold staticResponse at h
  split at h
  · cases h
  · split at h
    · cases h; rfl
    · cases h

/-- What a response of the front is: the document for a probe, or the refusal
of a body that has brought more than the limit. -/
structure OwnResponse (config : Config) (request : host.Request)
    (es : List (BodyEvent UInt8 host.ErrorCode)) (response : StaticResponse) : Prop where
  fields : response.headers.map Prod.fst =
    ["content-type".toList, "cache-control".toList]
  cause : (response.status = 200 ∧ response.body = asBytes config.document ∧
      ∃ parts, host.fromWasiRequest request = .ok parts ∧ IsProbe host parts) ∨
    (response.status = 413 ∧ ∃ pre, pre <+: es ∧ Frames pre ∧
      config.maxRequestBodyBytes < (BodyEvent.content pre).length)

/-- The front of `handle` for every request and every body: exactly what
`Told` says; the same for all cuts of one content into frames; never more
buffered than the limit; and its own responses only where they belong, with
two fields and no others. -/
theorem front_outcome (config : Config) (request : host.Request) :
    (∀ es front, frontOf config request es = front ↔ Told config request es front) ∧
    (∀ es es' last, Frames es → Frames es' →
      BodyEvent.content es = BodyEvent.content es' →
      frontOf config request (es ++ [BodyEvent.stop last]) =
        frontOf config request (es' ++ [BodyEvent.stop last])) ∧
    (∀ es parts body, frontOf config request es = .buffering parts body →
      body.buffered.length ≤ config.maxRequestBodyBytes) ∧
    ∀ es response, frontOf config request es = .returned (.ok response) →
      OwnResponse config request es response := by
  refine ⟨fun _ _ => told_iff, ?_, ?_, ?_⟩
  · intro es es' last hes hes' hcontent
    cases hparts : host.fromWasiRequest request with
    | error code =>
        have hall : ∀ es, frontOf config request es = .returned (.error code) :=
          fun es => (Told.refused hparts).eq
        rw [hall, hall]
    | ok parts =>
        by_cases hprobe : IsProbe host parts
        · have hall : ∀ es, frontOf config request es = .returned _ :=
            fun es => (Told.probe hparts hprobe).eq
          rw [hall, hall]
        · rw [frontOf_reading hparts hprobe, frontOf_reading hparts hprobe,
            feed_stop hes, feed_stop hes', collected.eq_def, collected.eq_def, hcontent]
  · intro es parts body h
    cases told_iff.1 h with
    | reading hparts hprobe hes hle => exact hle
  · intro es response h
    have htold := told_iff.1 h
    generalize hfront : Front.returned (Except.ok response) = front at htold
    cases htold with
    | refused hrefused => cases hfront
    | probe hparts hprobe =>
        have hresponse := staticResponse_ok (Front.returned.inj hfront).symm
        subst hresponse
        exact ⟨rfl, .inl ⟨rfl, rfl, _, hparts, hprobe⟩⟩
    | reading => cases hfront
    | @tooLarge parts hparts hprobe pre rest hes hpre hlt =>
        have hresponse := staticResponse_ok (Front.returned.inj hfront).symm
        subst hresponse
        exact ⟨rfl, .inr ⟨rfl, pre, ⟨rest, hes.symm⟩, hpre, hlt⟩⟩
    | failed => cases hfront
    | whole => cases hfront

/-- A host that takes everything: a request is its method and its path. -/
def plainHost : Host where
  Request := Str × Str
  Parts := Str × Str
  ErrorCode := Option Str
  fromWasiRequest := .ok
  method := Prod.fst
  path := Prod.snd
  internalError := id
  displayCode := fun code => code.getD []
  refusesFields := fun _ => none
  takesStatus := fun status => 100 ≤ status && status < 1000

end McpTemplate.Handle
