import McpTemplate.Src.Outbound

/-!
# Where a request goes

A request names its target in two places: the authority of its URI, and its
`Host` fields, of which there may be any number. It is ambiguous where these
do not come to one name, and an ambiguous request should go nowhere.

The code looks at the first `Host` field only. So it refuses exactly the
requests whose first field cannot be read or is not the authority, and an
ambiguity that only a later field brings in is missed: the request is sent, to
the authority if there is one, and else to the first field.
-/

namespace McpTemplate.Bridge.Outbound

open Lib

variable {Options : Type}

/-! ## What should happen -/

def Request.hosts (request : Request Options) : List HeaderValue :=
  request.headers.getAll HOST

/-- The target of the request does not come to one name. -/
inductive Ambiguous (request : Request Options) : Prop
  | unreadable (value : HeaderValue) (hvalue : value ∈ request.hosts)
      (h : toStr value = none)
  | differs (value : HeaderValue) (hvalue : value ∈ request.hosts)
      (host authority : Str) (hhost : toStr value = some host)
      (hauthority : request.uri.authority = some authority)
      (h : eqIgnoreAsciiCase authority host = false)
  | disagree (value other : HeaderValue) (hvalue : value ∈ request.hosts)
      (hother : other ∈ request.hosts) (hnone : request.uri.authority = none)
      (h : value ≠ other)

/-- The authority where there is one, and else what `Host` says. -/
def Request.target (request : Request Options) : Option Str :=
  request.uri.authority.or (request.hosts.head?.bind toStr)

/-- The header fields that are sent along. -/
def Request.otherHeaders (request : Request Options) : HeaderMap :=
  (request.headers.remove HOST).2

/-- Where the host itself refuses a request with these header fields and this
target, and with which code. Its setters are asked one after another. -/
def refusal (wasi : Wasi) (request : Request Options) (headers : HeaderMap)
    (authority : Option Str) : Option ErrorCode :=
  match wasi.refusesHeaders headers with
  | some err => some (invalidHeaders err)
  | none =>
      if !wasi.takesMethod (wasi.intoMethod request.method) then
        some .httpRequestMethodInvalid
      else if !wasi.takesScheme (request.uri.scheme.map wasi.intoScheme) then
        some .httpProtocolError
      else if !wasi.takesAuthority authority then some .httpRequestUriInvalid
      else if !wasi.takesPathWithQuery request.uri.pathAndQuery then
        some .httpRequestUriInvalid
      else none

/-- `sent` is the request, to its target and without its `Host` fields. -/
structure Carries (wasi : Wasi) (request : Request Options)
    (sent : WasiRequest wasi Options) : Prop where
  authority : sent.authority = request.target
  host : sent.headers.getAll HOST = []
  headers : ∀ name, name ≠ HOST →
    sent.headers.getAll name = request.headers.getAll name
  method : sent.method = wasi.intoMethod request.method
  scheme : sent.scheme = request.uri.scheme.map wasi.intoScheme
  path : sent.pathWithQuery = request.uri.pathAndQuery
  options : sent.options = request.options
  body : sent.body = request.body

/-- The host is asked for an unambiguous request, and for no other. -/
structure SendsFaithfully (wasi : Wasi) (request : Request Options) : Prop where
  ambiguous : Ambiguous request →
    intoWasiRequest wasi request = .error .httpRequestUriInvalid
  refused : ¬ Ambiguous request → ∀ code,
    refusal wasi request request.otherHeaders request.target = some code →
      intoWasiRequest wasi request = .error code
  sent : ¬ Ambiguous request →
    refusal wasi request request.otherHeaders request.target = none →
      ∃ sent, intoWasiRequest wasi request = .ok sent ∧ Carries wasi request sent

/-! ## What a `Host` field says -/

/-- A `Host` field that can be read, and is the authority where there is one. -/
def Accepted (uri : Uri) (value : HeaderValue) : Prop :=
  ∃ host, toStr value = some host ∧
    ∀ authority, uri.authority = some authority →
      eqIgnoreAsciiCase authority host = true

/-- The first field is accepted, and a later one is not, or is another. -/
def MissesLater (request : Request Options) : Prop :=
  ∃ first later, request.hosts = first :: later ∧ Accepted request.uri first ∧
    ∃ value ∈ later, ¬ Accepted request.uri value ∨
      (request.uri.authority = none ∧ value ≠ first)

theorem Ambiguous.of_not_accepted {request : Request Options} {value : HeaderValue}
    (hvalue : value ∈ request.hosts) (h : ¬ Accepted request.uri value) :
    Ambiguous request := by
  cases hhost : toStr value with
  | none => exact .unreadable value hvalue hhost
  | some host =>
      have hdiffers : ∃ authority, request.uri.authority = some authority ∧
          eqIgnoreAsciiCase authority host = false := by
        by_contra hno
        refine h ⟨host, hhost, fun authority hauthority => ?_⟩
        by_contra heq
        exact hno ⟨authority, hauthority, Bool.not_eq_true _ ▸ heq⟩
      obtain ⟨authority, hauthority, heq⟩ := hdiffers
      exact .differs value hvalue host authority hhost hauthority heq

/-- An ambiguity is in a field that is not accepted, or in two that differ. -/
theorem Ambiguous.cases {request : Request Options} (h : Ambiguous request) :
    (∃ value ∈ request.hosts, ¬ Accepted request.uri value) ∨
      (request.uri.authority = none ∧
        ∃ value ∈ request.hosts, ∃ other ∈ request.hosts, value ≠ other) := by
  cases h with
  | unreadable value hvalue h =>
      refine .inl ⟨value, hvalue, fun haccepted => ?_⟩
      obtain ⟨host, hhost, -⟩ := haccepted
      rw [h] at hhost
      cases hhost
  | differs value hvalue host authority hhost hauthority h =>
      refine .inl ⟨value, hvalue, fun haccepted => ?_⟩
      obtain ⟨host', hhost', hall⟩ := haccepted
      cases hhost.symm.trans hhost'
      rw [hall authority hauthority] at h
      cases h
  | disagree value other hvalue hother hnone h =>
      exact .inr ⟨hnone, value, hvalue, other, hother, h⟩

theorem not_ambiguous_nil {request : Request Options} (h : request.hosts = []) :
    ¬ Ambiguous request := by
  intro hambiguous
  rcases hambiguous.cases with ⟨value, hvalue, -⟩ | ⟨-, value, hvalue, -⟩
  · rw [h] at hvalue
    cases hvalue
  · rw [h] at hvalue
    cases hvalue

/-- Where the first field is accepted, an ambiguity is one that is missed. -/
theorem ambiguous_iff_missesLater {request : Request Options} {first : HeaderValue}
    {later : List HeaderValue} (hhosts : request.hosts = first :: later)
    (hfirst : Accepted request.uri first) :
    Ambiguous request ↔ MissesLater request := by
  have hlater : ∀ value ∈ request.hosts, value ≠ first → value ∈ later := by
    intro value hvalue hne
    rw [hhosts] at hvalue
    exact (List.mem_cons.1 hvalue).resolve_left hne
  constructor
  · intro h
    refine ⟨first, later, hhosts, hfirst, ?_⟩
    rcases h.cases with ⟨value, hvalue, hnot⟩ |
      ⟨hnone, value, hvalue, other, hother, hne⟩
    · have hother : value ≠ first := fun heq => hnot (heq ▸ hfirst)
      exact ⟨value, hlater value hvalue hother, .inl hnot⟩
    · -- two fields that differ are not both the first
      by_cases heq : value = first
      · have hother' : other ≠ first := fun h => hne (heq.trans h.symm)
        exact ⟨other, hlater other hother hother', .inr ⟨hnone, hother'⟩⟩
      · exact ⟨value, hlater value hvalue heq, .inr ⟨hnone, heq⟩⟩
  · intro h
    obtain ⟨first', later', hhosts', -, value, hvalue, hmissed⟩ := h
    have hmem : ∀ value ∈ first' :: later', value ∈ request.hosts := by
      rw [hhosts']
      exact fun _ h => h
    rcases hmissed with hnot | ⟨hnone, hne⟩
    · exact .of_not_accepted (hmem value (List.mem_cons_of_mem _ hvalue)) hnot
    · exact .disagree value first' (hmem value (List.mem_cons_of_mem _ hvalue))
        (hmem first' List.mem_cons_self) hnone hne

/-! ## What happens -/

/-- Past the authority, it is up to the host. -/
theorem build_eq (wasi : Wasi) (request : Request Options) (headers : HeaderMap)
    (authority : Option Str) :
    build wasi request headers authority =
      match refusal wasi request headers authority with
      | some code => .error code
      | none => .ok
          { headers := headers
            options := request.options
            body := request.body
            method := wasi.intoMethod request.method
            scheme := request.uri.scheme.map wasi.intoScheme
            authority := authority
            pathWithQuery := request.uri.pathAndQuery } := by
  unfold build refusal
  cases wasi.refusesHeaders headers with
  | some err => rfl
  | none =>
      cases hmethod : wasi.takesMethod (wasi.intoMethod request.method) <;>
        cases hscheme : wasi.takesScheme
          (request.uri.scheme.map wasi.intoScheme) <;>
        cases hauthority : wasi.takesAuthority authority <;>
        cases hpath : wasi.takesPathWithQuery request.uri.pathAndQuery <;>
        simp [WasiRequest.new, WasiRequest.setMethod, WasiRequest.setScheme,
          WasiRequest.setAuthority, WasiRequest.setPathWithQuery, Except.mapError,
          hmethod, hscheme, hauthority, hpath] <;> rfl

/-- The first field is all that is looked at. -/
theorem intoWasiRequest_eq (wasi : Wasi) (request : Request Options) :
    intoWasiRequest wasi request =
      (hostOf request.hosts.head?).bind fun host =>
        (authorityOf request.uri host).bind fun authority =>
          build wasi request request.otherHeaders authority := rfl

/-- Without a `Host` field nothing is compared. -/
theorem intoWasiRequest_nil (wasi : Wasi) {request : Request Options}
    (hhosts : request.hosts = []) :
    intoWasiRequest wasi request =
      build wasi request request.otherHeaders request.target := by
  have htarget : request.target = request.uri.authority := by
    rw [Request.target, hhosts]
    exact Option.or_none
  rw [intoWasiRequest_eq, hhosts, htarget]
  cases hauthority : request.uri.authority <;>
    simp [hostOf, authorityOf, hauthority, Except.bind]

/-- The first field decides, whatever the later ones are. -/
theorem intoWasiRequest_cons (wasi : Wasi) {request : Request Options}
    {first : HeaderValue} {later : List HeaderValue}
    (hhosts : request.hosts = first :: later) :
    (Accepted request.uri first → intoWasiRequest wasi request =
      build wasi request request.otherHeaders request.target) ∧
      (¬ Accepted request.uri first →
        intoWasiRequest wasi request = .error .httpRequestUriInvalid) := by
  have htarget : request.target = request.uri.authority.or (toStr first) := by
    rw [Request.target, hhosts]
    rfl
  rw [intoWasiRequest_eq, hhosts, List.head?_cons, htarget]
  cases hhost : toStr first with
  | none =>
      refine ⟨fun haccepted => ?_, fun _ => ?_⟩
      · obtain ⟨host, hsome, -⟩ := haccepted
        rw [hhost] at hsome
        cases hsome
      · simp [hostOf, hhost, Except.bind]
  | some host =>
      cases hauthority : request.uri.authority with
      | none =>
          refine ⟨fun _ => ?_, fun hnot => ?_⟩
          · simp [hostOf, hhost, authorityOf, hauthority, Except.bind]
          · refine absurd ⟨host, hhost, fun authority hsome => ?_⟩ hnot
            rw [hauthority] at hsome
            cases hsome
      | some authority =>
          refine ⟨fun haccepted => ?_, fun hnot => ?_⟩
          · obtain ⟨host', hsome, hall⟩ := haccepted
            cases hhost.symm.trans hsome
            simp [hostOf, hhost, authorityOf, hauthority, Except.bind,
              hall authority hauthority]
          · have hdiffers : eqIgnoreAsciiCase authority host = false := by
              rw [← Bool.not_eq_true]
              intro heq
              refine hnot ⟨host, hhost, fun authority' hsome => ?_⟩
              cases hauthority.symm.trans hsome
              exact heq
            simp [hostOf, hhost, authorityOf, hauthority, Except.bind, hdiffers]

theorem carries_build {wasi : Wasi} {request : Request Options}
    (h : refusal wasi request request.otherHeaders request.target = none) :
    ∃ sent, build wasi request request.otherHeaders request.target = .ok sent ∧
      Carries wasi request sent := by
  rw [build_eq, h]
  refine ⟨_, rfl, rfl, ?_, ?_, rfl, rfl, rfl, rfl, rfl⟩
  · exact HeaderMap.getAll_remove_self _ _
  · intro name hname
    exact HeaderMap.getAll_remove_of_ne hname _

/-- Where it is up to the host, an unambiguous request is sent as it should be. -/
theorem SendsFaithfully.of_build {wasi : Wasi} {request : Request Options}
    (hclear : ¬ Ambiguous request)
    (h : intoWasiRequest wasi request =
      build wasi request request.otherHeaders request.target) :
    SendsFaithfully wasi request where
  ambiguous hambiguous := absurd hambiguous hclear
  refused _ code hcode := by rw [h, build_eq, hcode]
  sent _ hnone := by
    rw [h]
    exact carries_build hnone

/-- A host that takes everything. -/
def permissive : Wasi where
  Method := Str
  Scheme := Str
  intoMethod := id
  intoScheme := id
  refusesHeaders _ := none
  takesMethod _ := true
  takesScheme _ := true
  takesAuthority _ := true
  takesPathWithQuery _ := true
  displayCode _ := "HttpRequestUriInvalid".toList

theorem sendsFaithfully_of_not_misses {request : Request Options}
    (h : ¬ MissesLater request) (wasi : Wasi) : SendsFaithfully wasi request := by
  cases hhosts : request.hosts with
  | nil => exact .of_build (not_ambiguous_nil hhosts) (intoWasiRequest_nil wasi hhosts)
  | cons first later =>
      by_cases hfirst : Accepted request.uri first
      · have hclear : ¬ Ambiguous request := fun hambiguous =>
          h ((ambiguous_iff_missesLater hhosts hfirst).1 hambiguous)
        exact .of_build hclear ((intoWasiRequest_cons wasi hhosts).1 hfirst)
      · have hambiguous : Ambiguous request :=
          .of_not_accepted (hhosts ▸ List.mem_cons_self) hfirst
        exact
          { ambiguous := fun _ => (intoWasiRequest_cons wasi hhosts).2 hfirst
            refused := fun hclear => absurd hambiguous hclear
            sent := fun hclear => absurd hambiguous hclear }

/-- A host that takes everything is sent a request that is missed. -/
theorem not_sendsFaithfully_of_misses {request : Request Options}
    (h : MissesLater request) : ¬ SendsFaithfully permissive request := by
  intro hfaithful
  obtain ⟨first, later, hhosts, hfirst, -⟩ := id h
  have hfails := hfaithful.ambiguous ((ambiguous_iff_missesLater hhosts hfirst).2 h)
  rw [(intoWasiRequest_cons permissive hhosts).1 hfirst, build_eq] at hfails
  cases hfails

/-- A request goes out faithfully, whatever the host, exactly if no later
`Host` field is missed. -/
theorem sendsFaithfully_iff (request : Request Options) :
    (∀ wasi, SendsFaithfully wasi request) ↔ ¬ MissesLater request := by
  constructor
  · intro h hmissed
    exact not_sendsFaithfully_of_misses hmissed (h permissive)
  · exact sendsFaithfully_of_not_misses

/-! ## Two `Host` fields -/

/-- A request for `/data` that names two hosts. -/
def twoHosts : Request Unit where
  method := "GET".toList
  uri := ⟨none, none, some "/data".toList⟩
  headers := ⟨fun name => if name = HOST then
    [asBytes "a.example".toList, asBytes "b.example".toList] else []⟩
  options := none
  body := []

/-- It goes to the first of them. -/
theorem not_sendsFaithfully_twoHosts :
    Ambiguous twoHosts ∧ ¬ SendsFaithfully permissive twoHosts ∧
      ∃ sent, intoWasiRequest permissive twoHosts = .ok sent ∧
        sent.authority = some "a.example".toList := by
  have hambiguous : Ambiguous twoHosts :=
    .disagree (asBytes "a.example".toList) (asBytes "b.example".toList)
      (by decide) (by decide) rfl (by decide)
  have hfirst : Accepted twoHosts.uri (asBytes "a.example".toList) :=
    ⟨"a.example".toList, by decide, fun _ h => by cases h⟩
  have htaken : refusal permissive twoHosts twoHosts.otherHeaders twoHosts.target =
      none := rfl
  obtain ⟨sent, hsent, hcarries⟩ := carries_build htaken
  have hhosts : twoHosts.hosts =
      [asBytes "a.example".toList, asBytes "b.example".toList] := rfl
  have hinto : intoWasiRequest permissive twoHosts = .ok sent := by
    rw [(intoWasiRequest_cons permissive hhosts).1 hfirst, hsent]
  refine ⟨hambiguous, fun h => ?_, sent, hinto, ?_⟩
  · have hfails := h.ambiguous hambiguous
    rw [hinto] at hfails
    cases hfails
  · rw [hcarries.authority]
    decide

end McpTemplate.Bridge.Outbound
