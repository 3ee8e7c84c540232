import McpTemplate.Proofs.SsrfGuard

/-!
# The spellings of a local name

`localhost` and every name below it reach the loopback interface, whatever the
case of their letters and whether or not the dot of the root is written. The
guard compares the name it is given: without regard to case, but with the dot
where there is one. So the case of a name never matters, a name without the
dot is judged by what it reaches, and a local name that ends in the dot is let
through.
-/

namespace McpTemplate.Server

open Lib Lib.Net

/-- A name, in lower case and without the dot of the root, that is local. -/
def IsLocalhost (name : Str) : Prop :=
  name = "localhost".toList ∨ ".localhost".toList <:+ name

instance : DecidablePred IsLocalhost := fun _ => inferInstanceAs (Decidable (_ ∨ _))

/-- A name without the dot of the root, of which there is at most one. -/
def withoutRoot (name : Str) : Str :=
  if name.getLast? = some '.' then name.dropLast else name

/-- The one spelling that a name is compared by. -/
def normalized (name : Str) : Str := toAsciiLowercase (withoutRoot name)

/-- A host that is a name and no address. -/
structure DnsName where
  text : Str
  no_bracket : ∀ c ∈ text, c ≠ '[' ∧ c ≠ ']'
  not_address : IpAddr.parse text = none

/-- The two conditions, evaluated. -/
def dnsName (text : Str) (hbracket : (text.all fun c => c ≠ '[' && c ≠ ']') = true)
    (haddress : (IpAddr.parse text).isNone = true) : DnsName where
  text := text
  no_bracket c hc := by
    have hboth := List.all_eq_true.1 hbracket c hc
    rw [Bool.and_eq_true] at hboth
    exact ⟨of_decide_eq_true hboth.1, of_decide_eq_true hboth.2⟩
  not_address := Option.isNone_iff_eq_none.1 haddress

/-- A URL that the guard judges by its name. -/
structure NamedTarget (http : Http) where
  uri : http.Uri
  scheme : http.schemeStr uri = some "http".toList ∨
    http.schemeStr uri = some "https".toList
  name : DnsName
  host : http.host uri = some name.text

def NamedTarget.Refused {http : Http} (var : Str → Option Str)
    (target : NamedTarget http) : Prop :=
  ∃ reason, denyPrivateTarget http var target.uri = some reason

/-- The dot of the root, written after a local name. -/
def RootDotted (name : Str) : Prop :=
  ∃ m, name = m ++ ['.'] ∧ IsLocalhost (toAsciiLowercase m)

/-! ## The dot of the root -/

theorem withoutRoot_append_dot (m : Str) : withoutRoot (m ++ ['.']) = m := by
  rw [withoutRoot, if_pos List.getLast?_concat, List.dropLast_concat]

theorem withoutRoot_eq_self {name : Str} (h : ¬ ∃ m, name = m ++ ['.']) :
    withoutRoot name = name := by
  rw [withoutRoot, if_neg]
  intro hlast
  obtain ⟨m, hm⟩ := List.getLast?_eq_some_iff.1 hlast
  exact h ⟨m, hm⟩

theorem IsLocalhost.getLast? {name : Str} (h : IsLocalhost name) :
    name.getLast? = some 't' := by
  rcases h with rfl | ⟨front, rfl⟩
  · decide
  · rw [List.getLast?_append]
    rfl

theorem toAsciiLowercase_append_dot (m : Str) :
    toAsciiLowercase (m ++ ['.']) = toAsciiLowercase m ++ ['.'] := by
  rw [toAsciiLowercase, List.map_append]
  rfl

/-- The guard compares the name with its dot. -/
theorem not_isLocalhost_append_dot (m : Str) :
    ¬ IsLocalhost (toAsciiLowercase (m ++ ['.'])) := by
  intro h
  have hlast := h.getLast?
  rw [toAsciiLowercase_append_dot, List.getLast?_concat] at hlast
  exact absurd hlast (by decide)

/-! ## The verdict -/

theorem isLocal_name {text : Str} (h : IpAddr.parse text = none) :
    isLocal text = true ↔ IsLocalhost (toAsciiLowercase text) := by
  have hlower : toAsciiLowercase "localhost".toList = "localhost".toList := by decide
  rw [isLocal, h]
  dsimp only
  rw [Bool.or_eq_true, eqIgnoreAsciiCase, decide_eq_true_eq, hlower,
    List.isSuffixOf_iff_suffix, IsLocalhost]

theorem DnsName.trim_text (name : DnsName) : trimBrackets name.text = name.text := by
  have htrim : trimBrackets ([] ++ name.text ++ []) = name.text :=
    trimBrackets_eq (by simp) name.no_bracket (by simp)
  rwa [List.nil_append, List.append_nil] at htrim

/-- The name is compared as it is written, but for its case. -/
theorem NamedTarget.refused_iff {http : Http} {var : Str → Option Str}
    (hvar : var MCP_HTTP_GET_ALLOW_LOCAL ≠ some "true".toList ∧
      var MCP_HTTP_GET_ALLOW_LOCAL ≠ some "1".toList)
    (target : NamedTarget http) :
    target.Refused var ↔ IsLocalhost (toAsciiLowercase target.name.text) := by
  rw [Refused, denyPrivateTarget_eq target.scheme hvar target.host,
    target.name.trim_text, ← isLocal_name target.name.not_address]
  by_cases hlocal : isLocal target.name.text = true
  · rw [if_pos hlocal]
    exact iff_of_true ⟨_, rfl⟩ hlocal
  · rw [if_neg hlocal]
    refine iff_of_false ?_ hlocal
    intro hrefused
    obtain ⟨reason, hreason⟩ := hrefused
    cases hreason

/-- What is compared is local just where the name is, but for the dot. -/
theorem isLocalhost_iff_normalized (name : Str) :
    (IsLocalhost (toAsciiLowercase name) ↔ IsLocalhost (normalized name)) ↔
      ¬ RootDotted name := by
  by_cases hdot : ∃ m, name = m ++ ['.']
  · obtain ⟨m, rfl⟩ := hdot
    have hrooted : RootDotted (m ++ ['.']) ↔ IsLocalhost (toAsciiLowercase m) := by
      constructor
      · intro h
        obtain ⟨m', hm, hlocal⟩ := h
        rwa [List.append_cancel_right hm]
      · intro h
        exact ⟨m, rfl, h⟩
    have hnot := not_isLocalhost_append_dot m
    rw [normalized, withoutRoot_append_dot, hrooted]
    tauto
  · rw [normalized, withoutRoot_eq_self hdot]
    refine iff_of_true Iff.rfl ?_
    intro hrooted
    obtain ⟨m, hm, -⟩ := hrooted
    exact hdot ⟨m, hm⟩

example : ¬ IsLocalhost (normalized "notlocalhost".toList) ∧
    ¬ IsLocalhost (normalized "localhost.example".toList) := by decide

/-- A URL with a name for its host is refused just where the normalized name
is local, unless it is a local name with the dot of the root. Two spellings
that differ in case are always judged alike; a name and the name with the dot,
just where the name is not a local one. -/
theorem refused_iff_localhost_iff (http : Http) (var : Str → Option Str)
    (hvar : var MCP_HTTP_GET_ALLOW_LOCAL ≠ some "true".toList ∧
      var MCP_HTTP_GET_ALLOW_LOCAL ≠ some "1".toList) :
    (∀ target : NamedTarget http,
      (target.Refused var ↔ IsLocalhost (normalized target.name.text)) ↔
        ¬ RootDotted target.name.text) ∧
      (∀ target other : NamedTarget http,
        eqIgnoreAsciiCase target.name.text other.name.text = true →
          (target.Refused var ↔ other.Refused var)) ∧
      ∀ target other : NamedTarget http,
        other.name.text = target.name.text ++ ['.'] →
          ((target.Refused var ↔ other.Refused var) ↔
            ¬ RootDotted other.name.text) := by
  refine ⟨?_, ?_, ?_⟩
  · intro target
    rw [target.refused_iff hvar]
    exact isLocalhost_iff_normalized _
  · intro target other hsame
    rw [target.refused_iff hvar, other.refused_iff hvar,
      of_decide_eq_true hsame]
  · intro target other hdot
    have hroot : normalized other.name.text = toAsciiLowercase target.name.text := by
      rw [hdot, normalized, withoutRoot_append_dot]
    rw [target.refused_iff hvar, other.refused_iff hvar,
      ← isLocalhost_iff_normalized, hroot]
    exact Iff.comm

/-! ## Two URLs -/

def upperCase : NamedTarget plainHttp where
  uri := ("http".toList, "API.LocalHost".toList)
  scheme := .inl rfl
  name := dnsName "API.LocalHost".toList (by decide) (by decide)
  host := rfl

theorem refused_upperCase : upperCase.Refused fun _ => none :=
  (((refused_iff_localhost_iff plainHttp (fun _ => none)
    ⟨by decide, by decide⟩).1 upperCase).2 fun h => by
      obtain ⟨m, hm, -⟩ := h
      have hlast := congrArg List.getLast? hm
      rw [List.getLast?_concat] at hlast
      exact absurd hlast (by decide)).2 (.inr ⟨"api".toList, by decide⟩)

def withRootDot : NamedTarget plainHttp where
  uri := ("http".toList, "localhost.".toList)
  scheme := .inl rfl
  name := dnsName "localhost.".toList (by decide) (by decide)
  host := rfl

/-- `http://localhost./` reaches what `http://localhost/` does. -/
theorem not_refused_withRootDot :
    plainHttp.get "http://localhost./".toList = .ok withRootDot.uri ∧
      ¬ (withRootDot.Refused (fun _ => none) ↔
        IsLocalhost (normalized withRootDot.name.text)) := by
  have hnone : denyPrivateTarget plainHttp (fun _ => none) withRootDot.uri = none := by
    decide
  refine ⟨rfl, fun h => ?_⟩
  obtain ⟨reason, hreason⟩ := h.2 (.inl (by decide))
  rw [hnone] at hreason
  cases hreason

end McpTemplate.Server
