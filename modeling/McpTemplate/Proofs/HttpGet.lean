import McpTemplate.Proofs.Drive
import McpTemplate.Proofs.Outbound
import McpTemplate.Proofs.Perform
import McpTemplate.Proofs.Rendering
import McpTemplate.Proofs.SsrfGuard
import McpTemplate.Proofs.Tasks

/-!
# A call of the outbound tool

The layers under `http_get` put together: the tool and its guard, `drive` that
runs it, the request as it is converted, the exchange against its deadline,
and the body as it is shown. `Calls` says what a caller gets and what the host
is sent on the way, with nothing of the layers left in it but the clock, and
`http_get_end_to_end` is that a call comes to one of its cases.

The host answers by what it has been sent so far, so it may keep whatever
state it likes.

The last section is about many calls at once, over the runs of the instance:
`http_gets_apart` is that they do not get into each other's way.
-/

namespace McpTemplate.Server

open Lib Lib.Machine Bridge Outbound

variable {Options : Type} {wasi : Wasi} {compat : Compat}

/-- The `http` crate, as the tool and the bridge use it between them. -/
structure HttpCrate (compat : Compat) extends Http where
  /-- The accessors that the bridge uses. -/
  accessors : Uri → Outbound.Uri
  status : compat.Parts → Nat

/-- What a host has been sent, in order. -/
abbrev Sent (wasi : Wasi) (Options : Type) := List (WasiRequest wasi Options)

/-- What a host does about a request, and when it polls the component
meanwhile. -/
structure Outside (wasi : Wasi) (compat : Compat) (Options : Type) where
  upstream : Sent wasi Options → WasiRequest wasi Options → Upstream compat
  clock : Sent wasi Options → (deadline : Nat) → Clock deadline

/-- A request of the tool, as the bridge gets it. -/
def HttpCrate.outbound (http : HttpCrate compat) (request : Request http.Uri) :
    Outbound.Request Options where
  method := request.method
  uri := http.accessors request.uri
  headers := ⟨fun _ => []⟩
  options := none
  body := request.body

/-- A response of the bridge, as the tool gets it. -/
def HttpCrate.response (http : HttpCrate compat)
    (response : Outbound.Response compat.Parts) : Response :=
  ⟨http.status response.parts, response.body⟩

/-- What the host has been sent once a request has been converted. -/
def sentBy (wasi : Wasi) (seen : Sent wasi Options) (request : Outbound.Request Options) :
    Sent wasi Options :=
  match intoWasiRequest wasi request with
  | .ok sent => seen ++ [sent]
  | .error _ => seen

section calls

variable (http : HttpCrate compat) (outside : Outside wasi compat Options)
  (var : Str → Option Str)

/-- `outbound::perform` of a request of the tool. -/
def Outside.perform (seen : Sent wasi Options) (request : Request http.Uri) :
    Reply Response × Sent wasi Options :=
  let request : Outbound.Request Options := http.outbound request
  let clock := outside.clock seen (deadlineNanos (timeoutMs var))
  let reply := (performAt wasi var clock.times (outside.upstream seen) request).get <| by
    obtain ⟨t, -, hreply⟩ := performAt_fires wasi var (outside.upstream seen) request clock
    rw [hreply]
    rfl
  (reply.map http.response, sentBy wasi seen request)

/-! ## What a call comes to -/

/-- What a caller is shown of a body. One that is text is shown as it is. -/
structure ShowsBody (body : List UInt8) (shown : Str) : Prop where
  lossy : Shows (fromUtf8Lossy body) shown
  text : ∀ s, body = asBytes s → Shows s shown

/-- What a caller gets for a reply. -/
inductive Answers (http : Http) : Reply Response → CallToolResult → Prop
  | failed {err} (hopen : err ≠ .bridgeClosed) :
      Answers http (.error err) (.error ["fetch failed: ".toList ++ displayError err])
  | fetched {response shown} (hbody : ShowsBody response.body shown) :
      Answers http (.ok response) (.success
        ["HTTP ".toList ++ http.displayStatus response.status ++ '\n' :: shown])

/-- The request for a URL. -/
def HttpCrate.getRequest (uri : http.Uri) : Outbound.Request Options :=
  http.outbound ⟨"GET".toList, uri, []⟩

/-- What a call of the tool returns, and what the host is sent for it. -/
inductive Calls (url : Str) (seen : Sent wasi Options) :
    Except ErrorData CallToolResult → Sent wasi Options → Prop
  | invalid {err} (hurl : http.get url = .error err) :
      Calls url seen (.error (.invalidParams err)) []
  | denied {uri reason} (hurl : http.get url = .ok uri)
      (hdenied : denyPrivateTarget http.toHttp var uri = some reason) :
      Calls url seen (.ok (.error [reason])) []
  | refused {uri code} (hurl : http.get url = .ok uri)
      (hallowed : denyPrivateTarget http.toHttp var uri = none)
      (hrefused : refusal wasi (http.getRequest uri : Outbound.Request Options)
        (http.getRequest uri : Outbound.Request Options).otherHeaders
        (http.accessors uri).authority = some code) :
      Calls url seen (.ok (.error
        ["fetch failed: ".toList ++ displayError (.wasi (wasi.displayCode code))])) []
  | sent {uri request t reply result} (hurl : http.get url = .ok uri)
      (hallowed : denyPrivateTarget http.toHttp var uri = none)
      (hsent : intoWasiRequest wasi (http.getRequest uri) = .ok request)
      (hcarries : Carries wasi (http.getRequest uri) request)
      (hfires : (outside.clock seen (deadlineNanos (timeoutMs var))).FiresAt t)
      (hreply : Replied wasi var t (outside.upstream seen) (http.getRequest uri) reply)
      (hresult : Answers http.toHttp (reply.map http.response) result) :
      Calls url seen (.ok result) [request]

end calls

/-! ## That it does -/

theorem showsBody (body : List UInt8) :
    ∃ shown, renderBody body = some shown ∧ ShowsBody body shown := by
  obtain ⟨shown, hrender, hshows⟩ := renderBody_shows body
  refine ⟨shown, hrender, hshows, ?_⟩
  intro s hs
  rw [hs, fromUtf8Lossy_asBytes] at hshows
  exact hshows

theorem fetched_answers (http : Http) {reply : Reply Response}
    (hopen : reply ≠ .error .bridgeClosed) :
    ∃ result, fetched http reply = some (.ok result) ∧ Answers http reply result := by
  cases reply with
  | error err =>
      have herr : err ≠ .bridgeClosed := fun h => hopen (congrArg _ h)
      exact ⟨_, rfl, .failed herr⟩
  | ok response =>
      obtain ⟨shown, hrender, hbody⟩ := showsBody response.body
      exact ⟨_, by rw [fetched, hrender]; rfl, .fetched hbody⟩

theorem sentBy_ok (seen : Sent wasi Options) {request : Outbound.Request Options}
    {sent : WasiRequest wasi Options} (h : intoWasiRequest wasi request = .ok sent) :
    sentBy wasi seen request = seen ++ [sent] := by
  rw [sentBy, h]

theorem sentBy_error (seen : Sent wasi Options) {request : Outbound.Request Options}
    {code : ErrorCode} (h : intoWasiRequest wasi request = .error code) :
    sentBy wasi seen request = seen := by
  rw [sentBy, h]

section calls

variable (http : HttpCrate compat) (outside : Outside wasi compat Options)
  (var : Str → Option Str)

theorem Outside.perform_fires (seen : Sent wasi Options) (request : Request http.Uri) :
    ∃ t, (outside.clock seen (deadlineNanos (timeoutMs var))).FiresAt t ∧
      outside.perform http var seen request =
        ((replyBy wasi var t (outside.upstream seen) (http.outbound request)).map
          http.response, sentBy wasi seen (http.outbound request)) := by
  obtain ⟨t, hfires, hreply⟩ := performAt_fires wasi var (outside.upstream seen)
    (http.outbound request) (outside.clock seen (deadlineNanos (timeoutMs var)))
  refine ⟨t, hfires, ?_⟩
  simp only [Outside.perform, hreply, Option.get_some]

/-- The tool names no host of its own, so the URL decides alone. -/
theorem getRequest_target (uri : http.Uri) :
    (http.getRequest uri : Outbound.Request Options).target =
      (http.accessors uri).authority :=
  Option.or_none

theorem replyBy_open (t : Nat) (upstream : WasiRequest wasi Options → Upstream compat)
    (request : Outbound.Request Options) :
    (replyBy wasi var t upstream request).map http.response ≠ .error .bridgeClosed := by
  have hopen := (replied_iff.1 (rfl : replyBy wasi var t upstream request = _)).bounded.1
  cases hreply : replyBy wasi var t upstream request with
  | ok response => simp [Except.map]
  | error err =>
      rw [hreply] at hopen
      simpa [Except.map] using hopen

/-- A call whose request is sent or refused. -/
theorem calls_fetch {url : Str} {uri : http.Uri} (seen : Sent wasi Options)
    (hurl : http.get url = .ok uri)
    (hallowed : denyPrivateTarget http.toHttp var uri = none) :
    ∃ result sent, fetched http.toHttp
        (outside.perform http var seen ⟨"GET".toList, uri, []⟩).1 = some (.ok result) ∧
      (outside.perform http var seen ⟨"GET".toList, uri, []⟩).2 = seen ++ sent ∧
      Calls http outside var url seen (.ok result) sent := by
  obtain ⟨t, hfires, hperform⟩ := outside.perform_fires http var seen
    ⟨"GET".toList, uri, []⟩
  let request : Outbound.Request Options := http.getRequest uri
  have hinto := intoWasiRequest_nil wasi (rfl : request.hosts = [])
  rw [hperform]
  cases hrefused : refusal wasi request request.otherHeaders request.target with
  | some code =>
      have hrejected : intoWasiRequest wasi request = .error code := by
        rw [hinto, build_eq, hrefused]
      have hreply : replyBy wasi var t (outside.upstream seen) request =
          .error (.wasi (wasi.displayCode code)) := (Replied.rejected hrejected).eq
      rw [getRequest_target] at hrefused
      refine ⟨_, [], ?_, ?_, .refused hurl hallowed hrefused⟩
      · exact congrArg (fun reply => fetched http.toHttp (reply.map http.response)) hreply
      · have hseen := sentBy_error seen hrejected
        rw [List.append_nil]
        exact hseen
  | none =>
      obtain ⟨sent, hbuild, hcarries⟩ := carries_build hrefused
      have hsent : intoWasiRequest wasi request = .ok sent := hinto.trans hbuild
      obtain ⟨result, hresult, hanswers⟩ := fetched_answers http.toHttp
        (replyBy_open http var t (outside.upstream seen) request)
      exact ⟨result, [sent], hresult, sentBy_ok seen hsent,
        .sent hurl hallowed hsent hcarries hfires (replied_iff.1 rfl) hanswers⟩

/-- Run directly, the tool does what a call comes to. -/
theorem calls_direct (url : Str) (seen : Sent wasi Options) :
    ∃ result sent requests, Calls http outside var url seen result sent ∧
      (httpGet http.toHttp var url).direct (outside.perform http var) seen =
        (some result, requests, seen ++ sent) := by
  cases hurl : http.get url with
  | error err =>
      refine ⟨_, [], [], .invalid hurl, ?_⟩
      rw [httpGet, hurl, List.append_nil]
      rfl
  | ok uri =>
      cases hguard : denyPrivateTarget http.toHttp var uri with
      | some reason =>
          refine ⟨_, [], [], .denied hurl hguard, ?_⟩
          simp only [httpGet, hurl, hguard, List.append_nil]
          rfl
      | none =>
          obtain ⟨result, sent, hresult, hsent, hcalls⟩ :=
            calls_fetch http outside var seen hurl hguard
          refine ⟨_, sent, [⟨"GET".toList, uri, []⟩], hcalls, ?_⟩
          simp only [httpGet, hurl, hguard, Tool.direct]
          rw [hresult, hsent]

/-- A call of `http_get` always returns. It is refused for what is wrong with
its URL or by the guard, and then nothing leaves the component; or the host is
sent one request, for the URL and nothing beside it, and the caller is told
what had come of it when the clock fired. -/
theorem http_get_end_to_end (url : Str) (seen : Sent wasi Options)
    (b : Channels (Request http.Uri) Response) :
    ∃ out result sent, Calls http outside var url seen result sent ∧
      out.value = some result ∧ out.world = seen ++ sent ∧ out.bridge.queue = [] ∧
      ∃ n, ∀ m, n ≤ m →
        drive Tool.poll (outside.perform http var) m
          (.ready (httpGet http.toHttp var url)) b.drainStaleJobs seen = some out := by
  obtain ⟨result, sent, requests, hcalls, hdirect⟩ :=
    calls_direct http outside var url seen
  obtain ⟨n, b', hqueue, hdrive⟩ := drive_of_poll_eq (outside.perform http var)
    (httpGet http.toHttp var url) (.ready (httpGet http.toHttp var url))
    b.drainStaleJobs seen (Channels.drainStaleJobs_queue b) rfl
  rw [hdirect] at hdrive
  exact ⟨_, result, sent, hcalls, rfl, rfl, hqueue, n,
    fun m hm => drive_mono hdrive hm⟩

end calls

/-! ## Many calls at once -/

section many

variable {Frame : Type} {http : Http} {var : Str → Option Str}

/-- The request that a URL is fetched with. -/
def getFor (uri : http.Uri) : Request http.Uri := ⟨"GET".toList, uri, []⟩

/-- The tool asks for a URL: it is one, and the guard lets it through. -/
structure Asks (http : Http) (var : Str → Option Str) (url : Str) (uri : http.Uri) :
    Prop where
  valid : http.get url = .ok uri
  allowed : denyPrivateTarget http var uri = none

/-- Where a task of the tool can stand, called with a URL for an exchange. -/
inductive GetsUrl (http : Http) (var : Str → Option Str)
    (t : List (Obs (Request http.Uri) Response Frame)) (owner : ExchangeId) (url : Str) :
    TaskState Response (Tool (Request http.Uri) Response Outcome) → Prop
  | called : GetsUrl http var t owner url (.ready (httpGet http var url))
  | asking {uri reply next giveUp} (hasks : Asks http var url uri)
      (hsub : .submitted reply owner (getFor uri) ∈ t) :
      GetsUrl http var t owner url (.waiting reply next giveUp)
  | told {uri reply result answer} (hasks : Asks http var url uri)
      (hanswer : AnsweredBy t owner reply (getFor uri) result)
      (hfetched : fetched http result = some answer) :
      GetsUrl http var t owner url (.ready (.done (some answer)))
  | finished : GetsUrl http var t owner url .finished

/-- What the tool does when it is first polled. -/
theorem asCode_httpGet (url : Str) :
    (httpGet http var url).asCode = .finish ∨ ∃ uri, Asks http var url uri ∧
      (httpGet http var url).asCode =
        .fetch (getFor uri) (fun reply => .done (fetched http reply)) none := by
  unfold httpGet
  cases hurl : http.get url with
  | error err => exact .inl rfl
  | ok uri =>
      cases hguard : denyPrivateTarget http var uri with
      | some reason =>
          simp only [hguard]
          exact .inl rfl
      | none =>
          simp only [hguard]
          exact .inr ⟨uri, ⟨hurl, hguard⟩, rfl⟩

/-- The points a call of the tool can come to, with what it has asked for: it
asks once. -/
inductive GetCode (http : Http) (var : Str → Option Str) (url : Str) :
    List (Asked (Request http.Uri) Response) →
      Tool (Request http.Uri) Response Outcome → Prop
  | called : GetCode http var url [] (httpGet http var url)
  | told {uri} (hasks : Asks http var url uri) (reply : ReplyId)
      (result : Reply Response) :
      GetCode http var url [⟨reply, getFor uri, some result⟩] (.done (fetched http result))

theorem GetCode.step {url : Str} {asked : List (Asked (Request http.Uri) Response)}
    {code : Tool (Request http.Uri) Response Outcome} (h : GetCode http var url asked code) :
    code.asCode = .finish ∨ asked = [] ∧ ∃ uri, Asks http var url uri ∧ code.asCode =
      .fetch (getFor uri) (fun reply => .done (fetched http reply)) none := by
  cases h with
  | called => exact (asCode_httpGet url).imp id fun hasks => ⟨rfl, hasks⟩
  | told => exact .inl rfl

theorem GetCode.fetch {url : Str} {asked : List (Asked (Request http.Uri) Response)}
    {code : Tool (Request http.Uri) Response Outcome} (h : GetCode http var url asked code)
    {request : Request http.Uri}
    {next : Reply Response → Tool (Request http.Uri) Response Outcome}
    {giveUp : Option (Tool (Request http.Uri) Response Outcome)}
    (hcode : code.asCode = .fetch request next giveUp) :
    asked = [] ∧ giveUp = none ∧ (next = fun reply => .done (fetched http reply)) ∧
      ∃ uri, Asks http var url uri ∧ request = getFor uri := by
  obtain hfin | ⟨hnil, uri, hasks, heq⟩ := h.step
  · rw [hcode] at hfin
    cases hfin
  · rw [hcode] at heq
    obtain ⟨hrequest, hnext, hgive⟩ := Resume.fetch.inj heq
    exact ⟨hnil, hgive, hnext, uri, hasks, hrequest⟩

theorem direct_httpGet {url : Str} {asked : List (Asked (Request http.Uri) Response)}
    {code : Tool (Request http.Uri) Response Outcome}
    (h : Direct Tool.asCode (httpGet http var url) asked code) :
    GetCode http var url asked code := by
  induction h with
  | start => exact .called
  | await answer h hcode ih =>
      obtain hfin | ⟨-, uri, -, heq⟩ := ih.step
      · rw [hcode] at hfin
        cases hfin
      · rw [hcode] at heq
        cases heq
  | parent h hcode ih | child h hcode ih =>
      obtain hfin | ⟨-, uri, -, heq⟩ := ih.step
      · rw [hcode] at hfin
        cases hfin
      · rw [hcode] at heq
        cases heq
  | fetch reply result h hcode ih =>
      obtain ⟨rfl, -, rfl, uri, hasks, rfl⟩ := ih.fetch hcode
      exact .told hasks reply result
  | gaveUp reply h hcode ih =>
      obtain ⟨-, hgive, -⟩ := ih.fetch hcode
      cases hgive

theorem fetched_isSome (http : Http) (result : Reply Response) :
    ∃ answer, fetched http result = some answer := by
  cases result with
  | error err => exact ⟨_, rfl⟩
  | ok response =>
      obtain ⟨shown, hrender, -⟩ := renderBody_shows response.body
      exact ⟨_, by rw [fetched, hrender]; rfl⟩

theorem getsUrl_of_explained {url : Str}
    {t : List (Obs (Request http.Uri) Response Frame)} {owner : ExchangeId}
    {state : TaskState Response (Tool (Request http.Uri) Response Outcome)}
    (h : Explained Tool.asCode (httpGet http var url) t owner state) :
    GetsUrl http var t owner url state := by
  cases h with
  | ready hdirect hasked =>
      cases direct_httpGet hdirect with
      | called => exact .called
      | told hasks reply result =>
          obtain ⟨answer, hanswer⟩ := fetched_isSome http result
          rw [hanswer]
          exact .told hasks (hasked.answered _ List.mem_cons_self result rfl).2 hanswer
  | waiting hdirect hcode hasked =>
      obtain ⟨rfl, -, -, uri, hasks, rfl⟩ := (direct_httpGet hdirect).fetch hcode
      exact .asking hasks (hasked.submitted _ List.mem_cons_self)
  | finished => exact .finished

/-- The tools of the template: `http_get`, and those that return what they have
without waiting for anything. -/
def Shipped (http : Http) (var : Str → Option Str)
    (code : Tool (Request http.Uri) Response Outcome) : Prop :=
  (∃ url, code = httpGet http var url) ∨ ∃ outcome, code = .done outcome

/-- However many tools are on the way at once, and whatever else the instance
does: nothing is performed but a GET of a URL that some call of `http_get` was
made with and that the guard lets through, and a call of it is told what was
fetched for its own URL, on its own request, or that the bridge is unavailable. -/
theorem http_gets_apart (http : Http) (var : Str → Option Str)
    (as : List (Action Response Frame (Tool (Request http.Uri) Response Outcome)))
    (w : World (Request http.Uri) Response Frame
      (Tool (Request http.Uri) Response Outcome))
    (h : run (World.step Tool.asCode) .init as = some w)
    (htools : ∀ e code, .dispatch e code ∈ as → Shipped http var code) :
    let t := trace (World.step Tool.asCode) (World.emit Tool.asCode) .init as
    (∀ e job, .exchange e (.took job) ∈ t → ∃ owner url uri,
      .dispatch owner (httpGet http var url) ∈ as ∧ Asks http var url uri ∧
        job.request = getFor uri) ∧
    ∀ task ∈ w.tasks,
      (∃ url, .dispatch task.owner (httpGet http var url) ∈ as ∧
        GetsUrl http var t task.owner url task.state) ∨
      ∃ outcome, .dispatch task.owner (.done outcome) ∈ as ∧
        (task.state = .ready (.done outcome) ∨ task.state = .finished) := by
  intro t
  have hinv : RunInv Tool.asCode as t w := runInv h
  constructor
  · intro e job hmem
    obtain ⟨owner, hsub⟩ := hinv.taken e job hmem
    obtain ⟨root, asked, code, next, giveUp, hroot, hdirect, hcode⟩ :=
      hinv.asked _ _ _ hsub
    obtain ⟨url, rfl⟩ | ⟨outcome, rfl⟩ := htools owner root hroot
    · obtain ⟨-, -, -, uri, hasks, hrequest⟩ := (direct_httpGet hdirect).fetch hcode
      exact ⟨owner, url, uri, hroot, hasks, hrequest⟩
    · obtain ⟨-, rfl⟩ := hdirect.of_finish rfl
      cases hcode
  · intro task htask
    obtain ⟨root, hroot, hex⟩ := hinv.tasks task htask
    obtain ⟨url, rfl⟩ | ⟨outcome, rfl⟩ := htools _ root hroot
    · exact .inl ⟨url, hroot, getsUrl_of_explained hex⟩
    · refine .inr ⟨outcome, hroot, ?_⟩
      generalize task.state = state at hex
      cases hex with
      | ready hdirect =>
          obtain ⟨-, rfl⟩ := hdirect.of_finish rfl
          exact .inl rfl
      | waiting hdirect hcode =>
          obtain ⟨-, rfl⟩ := hdirect.of_finish rfl
          cases hcode
      | finished => exact .inr rfl

/-- One call is cut short while its fetch is performed, another is answered,
and a tool that fetches nothing returns beside it. -/
theorem http_gets_apart_two :
    let var : Str → Option Str := fun _ => none
    let code (url : String) : Tool (Request plainHttp.Uri) Response Outcome :=
      httpGet plainHttp var url.toList
    let as : List (Action Response Unit (Tool (Request plainHttp.Uri) Response Outcome)) :=
      [.exchange 0 .buffer, .exchange 0 .acquire, .exchange 0 .drain,
        .dispatch 0 (code "http://a.example/"), .poll 0 0 0, .exchange 0 .take,
        .exchange 0 .cancel, .exchange 1 .buffer, .exchange 1 .acquire,
        .exchange 1 .drain, .dispatch 1 (code "https://b.example/"), .poll 1 1 0,
        .dispatch 1 (.done (some (.ok (.success ["hello".toList])))), .poll 1 2 0,
        .exchange 1 .take, .exchange 1 (.reply (.ok ⟨200, []⟩)), .poll 1 0 0,
        .poll 1 1 0]
    let t := trace (World.step Tool.asCode) (World.emit Tool.asCode) .init as
    ∃ w, run (World.step Tool.asCode) .init as = some w ∧ w.tasks.length = 3 ∧
      (∀ e job, .exchange e (.took job) ∈ t → ∃ owner url uri,
        .dispatch owner (httpGet plainHttp var url) ∈ as ∧
          Asks plainHttp var url uri ∧ job.request = getFor uri) ∧
      ∀ task ∈ w.tasks,
        (∃ url, .dispatch task.owner (httpGet plainHttp var url) ∈ as ∧
          GetsUrl plainHttp var t task.owner url task.state) ∨
        ∃ outcome, .dispatch task.owner (.done outcome) ∈ as ∧
          (task.state = .ready (.done outcome) ∨ task.state = .finished) := by
  intro var code as t
  refine ⟨_, rfl, rfl, http_gets_apart _ _ _ _ rfl fun e root hroot => ?_⟩
  simp only [as, List.mem_cons, reduceCtorEq, false_or, or_false, List.not_mem_nil,
    Action.dispatch.injEq] at hroot
  obtain ⟨-, rfl⟩ | ⟨-, rfl⟩ | ⟨-, rfl⟩ := hroot
  · exact .inl ⟨_, rfl⟩
  · exact .inl ⟨_, rfl⟩
  · exact .inr ⟨_, rfl⟩

end many

end McpTemplate.Server
