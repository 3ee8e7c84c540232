import McpTemplate.Lib.IpSyntax
import McpTemplate.Src.HttpGet

/-!
# What the outbound guard lets through

Where the host of a URL is an address, what the guard should refuse is a
matter of the address that a connection reaches: one of a few blocks of either
form, and an address of the longer form that only carries one of the shorter
reaches that one.

The guard asks the parser, and so it is right wherever the parser answers with
the address itself. It goes wrong in two places. A carried address is asked
about as what it is written as, and none of the blocks of the longer form
holds it. And a zone is no part of an address to the parser, so a literal with
a zone is taken for a name, which is local exactly if the zone happens to end
in `.localhost`.
-/

namespace McpTemplate.Server

open Lib Lib.Net Bridge

/-! ## The addresses the guard is there for -/

def LOCAL_V4 : List (Block 32) :=
  [⟨0x7f000000, 8⟩, ⟨0x0a000000, 8⟩, ⟨0xac100000, 12⟩, ⟨0xc0a80000, 16⟩,
    ⟨0xa9fe0000, 16⟩, ⟨0x00000000, 32⟩, ⟨0xffffffff, 32⟩]

def LOCAL_V6 : List (Block 128) :=
  [⟨1, 128⟩, ⟨0, 128⟩, ⟨0xfc000000000000000000000000000000, 7⟩,
    ⟨0xfe800000000000000000000000000000, 10⟩]

/-- `::ffff:0:0/96`, the addresses that carry one of the shorter form. -/
def MAPPED : Block 128 := ⟨0xffff00000000, 96⟩

/-- An address that a connection reaches. -/
inductive Address where
  | v4 (bits : BitVec 32)
  | v6 (bits : BitVec 128)

def Address.Local : Address → Prop
  | v4 bits => ∃ block ∈ LOCAL_V4, bits ∈ block
  | v6 bits => ∃ block ∈ LOCAL_V6, bits ∈ block

/-- Where a connection to an address of the longer form ends up. -/
def reachedV6 (bits : BitVec 128) : Address :=
  if bits ∈ MAPPED then .v4 (bits.setWidth 32) else .v6 bits

/-! ## Literals -/

/-- Dotted decimal, as the standard library or the RFC has it. -/
inductive SpellsV4 (text : Str) (addr : Ipv4Addr) : Prop where
  | std (h : Ipv4Addr.parse text = some addr)
  | rfc (t : Ipv4Text) (htext : text = t.text) (haddr : addr = t.value)

inductive SpellsV6 (text : Str) (addr : Ipv6Addr) : Prop where
  | std (h : Ipv6Addr.parse text = some addr)
  | rfc (t : Ipv6Text) (htext : text = t.text) (haddr : addr = t.value)

theorem SpellsV4.parse {text : Str} {addr : Ipv4Addr} (h : SpellsV4 text addr) :
    Ipv4Addr.parse text = some addr := by
  cases h with
  | std h => exact h
  | rfc t htext haddr => rw [htext, haddr, t.parse_text]

theorem SpellsV6.parse {text : Str} {addr : Ipv6Addr} (h : SpellsV6 text addr) :
    Ipv6Addr.parse text = some addr := by
  cases h with
  | std h => exact h
  | rfc t htext haddr => rw [htext, haddr, t.parse_text]

/-- What stands after the `%` of a literal: the `25` of a URL and the id. -/
structure Zone where
  text : Str
  ne_nil : text ≠ []
  no_bracket : ∀ c ∈ text, c ≠ '[' ∧ c ≠ ']'

/-- An address as the host of a URL. -/
inductive Literal where
  | v4 (text : Str) (addr : Ipv4Addr) (spelt : SpellsV4 text addr)
  | v6 (text : Str) (addr : Ipv6Addr) (spelt : SpellsV6 text addr)
  | zoned (text : Str) (addr : Ipv6Addr) (spelt : SpellsV6 text addr) (zone : Zone)

namespace Literal

/-- The literal without its brackets. -/
def inner : Literal → Str
  | v4 text _ _ => text
  | v6 text _ _ => text
  | zoned text _ _ zone => text ++ '%' :: zone.text

def host : Literal → Str
  | v4 text _ _ => text
  | v6 text _ _ => '[' :: (text ++ [']'])
  | zoned text _ _ zone => '[' :: (text ++ '%' :: zone.text ++ [']'])

def reached : Literal → Address
  | v4 _ addr _ => .v4 addr.toBits
  | v6 _ addr _ => reachedV6 addr.toBits
  | zoned _ addr _ _ => reachedV6 addr.toBits

end Literal

/-- A zone that reads as the end of a local name. -/
def Zone.Localhost (zone : Zone) : Prop :=
  ".localhost".toList <:+ toAsciiLowercase zone.text

/-- The literals the guard is right about. -/
def Literal.Covered : Literal → Prop
  | v4 _ _ _ => True
  | v6 _ addr _ => ¬ (addr.toBits ∈ MAPPED ∧ (reachedV6 addr.toBits).Local)
  | zoned _ addr _ zone => (reachedV6 addr.toBits).Local ↔ zone.Localhost

/-! ## The blocks -/

theorem local_v4_iff {addr : Ipv4Addr} :
    (Address.v4 addr.toBits).Local ↔
      (addr.isLoopback || addr.isPrivate || addr.isLinkLocal ||
        addr.isUnspecified || addr.isBroadcast) = true := by
  simp only [Address.Local, LOCAL_V4, List.mem_cons, List.not_mem_nil, or_false,
    exists_eq_or_imp, exists_eq_left, Bool.or_eq_true, Ipv4Addr.isLoopback_iff,
    Ipv4Addr.isPrivate_iff, Ipv4Addr.isLinkLocal_iff, Ipv4Addr.isUnspecified,
    Ipv4Addr.isBroadcast, beq_iff_eq, Block.mem_single, or_assoc]

theorem local_v6_iff {addr : Ipv6Addr} :
    (Address.v6 addr.toBits).Local ↔
      (addr.isLoopback || addr.isUnspecified || addr.isUniqueLocal ||
        addr.isUnicastLinkLocal) = true := by
  simp only [Address.Local, LOCAL_V6, List.mem_cons, List.not_mem_nil, or_false,
    exists_eq_or_imp, exists_eq_left, Bool.or_eq_true, Ipv6Addr.isLoopback,
    Ipv6Addr.isUnspecified, Ipv6Addr.isUniqueLocal_iff,
    Ipv6Addr.isUnicastLinkLocal_iff, beq_iff_eq, Block.mem_single, or_assoc]

/-- No block of the longer form holds a carried address. -/
theorem not_local_of_mapped {bits : BitVec 128} (h : bits ∈ MAPPED) :
    ¬ (Address.v6 bits).Local := by
  simp only [MAPPED, Block.mem_def, Block.size, BitVec.reduceToNat] at h
  rintro ⟨block, hblock, hmem⟩
  simp only [LOCAL_V6, List.mem_cons, List.not_mem_nil, or_false] at hblock
  rcases hblock with rfl | rfl | rfl | rfl
  all_goals
    simp only [Block.mem_def, Block.size, BitVec.reduceToNat] at hmem
    omega

/-! ## The verdict on a literal -/

theorem trimBrackets_eq {pre s post : Str} (hpre : ∀ c ∈ pre, c = '[')
    (hs : ∀ c ∈ s, c ≠ '[' ∧ c ≠ ']') (hpost : ∀ c ∈ post, c = ']') :
    trimBrackets (pre ++ s ++ post) = s := by
  refine trimWith_pad (fun c hc => ?_) (fun c hc => ?_) (fun c hc => ?_)
  · simp [hpre c hc]
  · simp [hs c hc]
  · simp [hpost c hc]

theorem not_bracket_of_isAddrChar {c : Char} (h : IsAddrChar c) :
    c ≠ '[' ∧ c ≠ ']' := by
  constructor <;> rintro rfl <;> exact absurd h (by decide)

theorem Literal.trim_host (literal : Literal) :
    trimBrackets literal.host = literal.inner := by
  cases literal with
  | v4 text addr spelt =>
      have hchars := fun c hc =>
        not_bracket_of_isAddrChar (Ipv4Addr.chars_of_parse spelt.parse c hc)
      have htrim : trimBrackets ([] ++ text ++ []) = text :=
        trimBrackets_eq (by simp) hchars (by simp)
      rwa [List.nil_append, List.append_nil] at htrim
  | v6 text addr spelt =>
      have hchars := fun c hc =>
        not_bracket_of_isAddrChar (Ipv6Addr.chars_of_parse spelt.parse c hc)
      have htrim : trimBrackets (['['] ++ text ++ [']']) = text :=
        trimBrackets_eq (by simp) hchars (by simp)
      exact htrim
  | zoned text addr spelt zone =>
      have hchars : ∀ c ∈ text ++ '%' :: zone.text, c ≠ '[' ∧ c ≠ ']' := by
        intro c hc
        rcases List.mem_append.1 hc with hc | hc
        · exact not_bracket_of_isAddrChar (Ipv6Addr.chars_of_parse spelt.parse c hc)
        · rcases List.mem_cons.1 hc with rfl | hc
          · decide
          · exact zone.no_bracket c hc
      have htrim : trimBrackets (['['] ++ (text ++ '%' :: zone.text) ++ [']']) =
          text ++ '%' :: zone.text := trimBrackets_eq (by simp) hchars (by simp)
      exact htrim

theorem isLocal_v4 {text : Str} {addr : Ipv4Addr}
    (h : Ipv4Addr.parse text = some addr) :
    isLocal text = true ↔ (Address.v4 addr.toBits).Local := by
  rw [local_v4_iff, isLocal, IpAddr.parse_v4 h]

theorem isLocal_v6 {text : Str} {addr : Ipv6Addr}
    (h : Ipv6Addr.parse text = some addr) :
    isLocal text = true ↔ (Address.v6 addr.toBits).Local := by
  rw [local_v6_iff, isLocal, IpAddr.parse_v6 h]

/-- A literal with a zone is asked about as a name. -/
theorem isLocal_zoned (text : Str) (zone : Zone) :
    isLocal (text ++ '%' :: zone.text) = true ↔ zone.Localhost := by
  have hparse : IpAddr.parse (text ++ '%' :: zone.text) = none :=
    IpAddr.parse_eq_none (List.mem_append_right _ List.mem_cons_self) (by decide)
  have hlower : toAsciiLowercase (text ++ '%' :: zone.text) =
      toAsciiLowercase text ++ '%' :: toAsciiLowercase zone.text := by
    rw [toAsciiLowercase, List.map_append, List.map_cons]
    rfl
  have hname : eqIgnoreAsciiCase (text ++ '%' :: zone.text) "localhost".toList =
      false := by
    rw [eqIgnoreAsciiCase, hlower, decide_eq_false_iff_not]
    intro h
    have hmem : '%' ∈ toAsciiLowercase "localhost".toList :=
      h ▸ List.mem_append_right _ List.mem_cons_self
    exact absurd hmem (by decide)
  rw [isLocal, hparse]
  dsimp only
  rw [hname, Bool.false_or, List.isSuffixOf_iff_suffix, hlower,
    suffix_append_cons (by decide)]
  rfl

theorem reachedV6_of_mapped {bits : BitVec 128} (h : bits ∈ MAPPED) :
    reachedV6 bits = .v4 (bits.setWidth 32) := if_pos h

theorem reachedV6_of_not_mapped {bits : BitVec 128} (h : bits ∉ MAPPED) :
    reachedV6 bits = .v6 bits := if_neg h

/-- The verdict is right exactly on the literals that are covered. -/
theorem Literal.isLocal_iff_covered (literal : Literal) :
    (isLocal literal.inner = true ↔ literal.reached.Local) ↔ literal.Covered := by
  cases literal with
  | v4 text addr spelt => exact iff_of_true (isLocal_v4 spelt.parse) trivial
  | v6 text addr spelt =>
      show (isLocal text = true ↔ (reachedV6 addr.toBits).Local) ↔
        ¬ (addr.toBits ∈ MAPPED ∧ (reachedV6 addr.toBits).Local)
      rw [isLocal_v6 spelt.parse]
      by_cases hmapped : addr.toBits ∈ MAPPED
      · have hnot := not_local_of_mapped hmapped
        tauto
      · rw [reachedV6_of_not_mapped hmapped]
        tauto
  | zoned text addr spelt zone =>
      show (isLocal (text ++ '%' :: zone.text) = true ↔ _) ↔ (_ ↔ _)
      rw [isLocal_zoned]
      exact Iff.comm

end McpTemplate.Server

namespace McpTemplate.Bridge

/-- The tool can come to a `fetch` of this request. -/
inductive Tool.Fetches {Req Resp Val : Type} : Tool Req Resp Val → Req → Prop
  | now (request : Req) (next : Reply Resp → Tool Req Resp Val) :
      Fetches (.fetch request next) request
  | afterPause {next : Tool Req Resp Val} {request : Req} (h : Fetches next request) :
      Fetches (.pause next) request
  | afterReply {first request : Req} {next : Reply Resp → Tool Req Resp Val}
      (reply : Reply Resp) (h : Fetches (next reply) request) :
      Fetches (.fetch first next) request

theorem Tool.not_fetches_done {Req Resp Val : Type} (value : Val) (request : Req) :
    ¬ Tool.Fetches (.done value : Tool Req Resp Val) request := by
  intro h
  cases h

end McpTemplate.Bridge

namespace McpTemplate.Server

open Lib Lib.Net Bridge

/-! ## The guard -/

theorem denyPrivateTarget_eq {http : Http} {var : Str → Option Str} {uri : http.Uri}
    {host : Str}
    (hscheme : http.schemeStr uri = some "http".toList ∨
      http.schemeStr uri = some "https".toList)
    (hvar : var MCP_HTTP_GET_ALLOW_LOCAL ≠ some "true".toList ∧
      var MCP_HTTP_GET_ALLOW_LOCAL ≠ some "1".toList)
    (hhost : http.host uri = some host) :
    denyPrivateTarget http var uri =
      if isLocal (trimBrackets host) then some (deniedHost (trimBrackets host))
      else none := by
  have hallowed : ¬ (http.schemeStr uri ≠ some "http".toList ∧
      http.schemeStr uri ≠ some "https".toList) := by tauto
  have hguarded : ¬ (var MCP_HTTP_GET_ALLOW_LOCAL = some "true".toList ∨
      var MCP_HTTP_GET_ALLOW_LOCAL = some "1".toList) := by tauto
  rw [denyPrivateTarget, if_neg hallowed, if_neg hguarded, hhost]
  rfl

/-- The guard does right by a URL with this literal for its host. -/
structure Guarded (http : Http) (var : Str → Option Str) (url : Str) (uri : http.Uri)
    (literal : Literal) : Prop where
  refused : literal.reached.Local →
    (∃ reason, denyPrivateTarget http var uri = some reason) ∧
      ∀ request, ¬ (httpGet http var url).Fetches request
  allowed : ¬ literal.reached.Local → denyPrivateTarget http var uri = none ∧
    (httpGet http var url).Fetches ⟨"GET".toList, uri, []⟩

/-- A URL whose host is a literal is guarded exactly where the literal is
covered: it carries no local address of the shorter form, and has no zone, or
one that ends in `.localhost` just where the address is local. -/
theorem guarded_iff_covered (http : Http) (var : Str → Option Str) (url : Str)
    (uri : http.Uri) (literal : Literal) (hget : http.get url = .ok uri)
    (hscheme : http.schemeStr uri = some "http".toList ∨
      http.schemeStr uri = some "https".toList)
    (hhost : http.host uri = some literal.host)
    (hvar : var MCP_HTTP_GET_ALLOW_LOCAL ≠ some "true".toList ∧
      var MCP_HTTP_GET_ALLOW_LOCAL ≠ some "1".toList) :
    Guarded http var url uri literal ↔ literal.Covered := by
  have hdeny := denyPrivateTarget_eq hscheme hvar hhost
  rw [literal.trim_host] at hdeny
  rw [← literal.isLocal_iff_covered]
  constructor
  · intro h
    constructor
    · intro hlocal
      by_contra hreached
      have hnone := (h.allowed hreached).1
      rw [hdeny, if_pos hlocal] at hnone
      cases hnone
    · intro hreached
      obtain ⟨⟨reason, hreason⟩, -⟩ := h.refused hreached
      by_contra hlocal
      rw [hdeny, if_neg hlocal] at hreason
      cases hreason
  · intro h
    constructor
    · intro hreached
      rw [if_pos (h.2 hreached)] at hdeny
      refine ⟨⟨_, hdeny⟩, fun request => ?_⟩
      rw [httpGet, hget]
      dsimp only
      rw [hdeny]
      exact Tool.not_fetches_done _ _
    · intro hreached
      rw [if_neg fun hlocal => hreached (h.1 hlocal)] at hdeny
      refine ⟨hdeny, ?_⟩
      rw [httpGet, hget]
      dsimp only
      rw [hdeny]
      exact .now _ _

/-! ## Two URLs -/

/-- URLs that are a scheme, an authority without user and port, and a path. -/
def plainHttp : Http where
  Uri := Str × Str
  get url :=
    match breakOn "://".toList url with
    | none => .error "invalid format".toList
    | some (scheme, rest) => .ok (scheme, rest.takeWhile fun c => c ≠ '/')
  schemeStr uri := some uri.1
  host uri := some uri.2
  displayStatus status := Nat.toDigits 10 status

def linkLocal : Literal :=
  .v6 "fe80::1".toList (.ofGroups [0xfe80] [1]) (.std (by decide))

theorem guarded_linkLocal : Guarded plainHttp (fun _ => none) "http://[fe80::1]/".toList
    ("http".toList, "[fe80::1]".toList) linkLocal :=
  (guarded_iff_covered plainHttp (fun _ => none) "http://[fe80::1]/".toList
    ("http".toList, "[fe80::1]".toList) linkLocal rfl (.inl rfl) rfl
    ⟨by decide, by decide⟩).2 fun h => absurd h.1 (by decide)

/-- `::ffff:127.0.0.1` reaches the loopback address. -/
def carriedLoopback : Literal :=
  .v6 "::ffff:127.0.0.1".toList (.ofGroups [] [0xffff, 0x7f00, 1]) (.std (by decide))

theorem not_guarded_carriedLoopback :
    plainHttp.get "http://[::ffff:127.0.0.1]/".toList =
        .ok ("http".toList, carriedLoopback.host) ∧
      ¬ Guarded plainHttp (fun _ => none) "http://[::ffff:127.0.0.1]/".toList
        ("http".toList, carriedLoopback.host) carriedLoopback := by
  refine ⟨rfl, fun h => ?_⟩
  have hlocal : carriedLoopback.reached.Local := by
    show (reachedV6 _).Local
    rw [reachedV6_of_mapped (by decide)]
    exact ⟨⟨0x7f000000, 8⟩, List.mem_cons_self, by decide⟩
  obtain ⟨⟨reason, hreason⟩, -⟩ := h.refused hlocal
  have hnone : denyPrivateTarget plainHttp (fun _ => none)
      ("http".toList, carriedLoopback.host) = none := by decide
  rw [hnone] at hreason
  cases hreason

end McpTemplate.Server
