import McpTemplate.Src.Transport

/-!
# When the Host guard fails closed

An empty list of hosts means two things to the transport: the operator wrote
`*`, or nothing was left of the value once its fields were trimmed and the
blank ones dropped. The second is not a `*`, so the guard fails closed exactly
when the value is a `*` or has a field that is not blank.

What is relied on of the SDK is `HostGuard`: what it does with an empty list,
and that otherwise a request is accepted by one of the entries.
-/

namespace McpTemplate.Transport

open Lib

/-- The SDK's check of a request's `Host` against `allowed_hosts`: an empty
list accepts everything, and otherwise some entry has to match. -/
structure HostGuard (Host : Type) where
  entryMatches : Str → Host → Prop
  accepts : List Str → Host → Prop
  accepts_nil : ∀ host, accepts [] host
  accepts_cons : ∀ entry entries host, accepts (entry :: entries) host ↔
    ∃ e ∈ entry :: entries, entryMatches e host

/-- A host name an operator can list. -/
structure HostName where
  text : Str
  ne_nil : text ≠ []
  no_comma : ',' ∉ text
  no_blank : ∀ c ∈ text, isWhitespace c = false

/-- A name with the whitespace an operator put around it. -/
structure HostField where
  before : Str
  name : HostName
  after : Str
  before_blank : ∀ c ∈ before, isWhitespace c = true
  after_blank : ∀ c ∈ after, isWhitespace c = true

def HostField.text (field : HostField) : Str :=
  field.before ++ field.name.text ++ field.after

/-- A field of the value that is not blank, trimmed. -/
def Listed (hosts entry : Str) : Prop :=
  entry ≠ [] ∧ ∃ field ∈ hosts.splitOn ',', trim field = entry

/-- The guard fails closed under this environment. -/
structure FailsClosed {Host : Type} (guard : HostGuard Host)
    (default : StreamableHttpServerConfig) (var : Str → Option Str) : Prop where
  /-- The guard is off exactly where the value is a `*`. -/
  off : (transportConfig default var).allowedHosts = [] ↔
    ∃ hosts, var MCP_ALLOWED_HOSTS = some hosts ∧ trim hosts = ['*']
  /-- Unset leaves the SDK's list in force. -/
  unset : var MCP_ALLOWED_HOSTS = none →
    (transportConfig default var).allowedHosts = default.allowedHosts
  /-- Whatever is accepted matches a field of the value. -/
  listed : ∀ hosts, var MCP_ALLOWED_HOSTS = some hosts → trim hosts ≠ ['*'] →
    ∀ host, guard.accepts (transportConfig default var).allowedHosts host →
      ∃ entry, Listed hosts entry ∧ guard.entryMatches entry host
  /-- A list that was joined comes back. -/
  joined : ∀ fields : List HostField, fields ≠ [] →
    fields.map (fun field => field.name.text) ≠ [['*']] →
    var MCP_ALLOWED_HOSTS =
      some ([','].intercalate (fields.map HostField.text)) →
    (transportConfig default var).allowedHosts =
      fields.map fun field => field.name.text

/-! ## The list the value gives -/

theorem allowedHosts_none {default : StreamableHttpServerConfig}
    {var : Str → Option Str} (h : var MCP_ALLOWED_HOSTS = none) :
    (transportConfig default var).allowedHosts = default.allowedHosts := by
  simp [transportConfig, h]

theorem allowedHosts_star {default : StreamableHttpServerConfig}
    {var : Str → Option Str} {hosts : Str}
    (h : var MCP_ALLOWED_HOSTS = some hosts) (hstar : trim hosts = ['*']) :
    (transportConfig default var).allowedHosts = [] := by
  simp [transportConfig, h, hstar]

theorem allowedHosts_list {default : StreamableHttpServerConfig}
    {var : Str → Option Str} {hosts : Str}
    (h : var MCP_ALLOWED_HOSTS = some hosts) (hstar : trim hosts ≠ ['*']) :
    (transportConfig default var).allowedHosts =
      ((hosts.splitOn ',').map trim).filter fun host => !host.isEmpty := by
  simp only [transportConfig, h]

theorem mem_allowedHosts {default : StreamableHttpServerConfig}
    {var : Str → Option Str} {hosts : Str}
    (h : var MCP_ALLOWED_HOSTS = some hosts) (hstar : trim hosts ≠ ['*'])
    (entry : Str) :
    entry ∈ (transportConfig default var).allowedHosts ↔ Listed hosts entry := by
  rw [allowedHosts_list h hstar, List.mem_filter, List.mem_map, Listed,
    and_comm]
  simp

/-! ## Joining and splitting -/

theorem trim_field (field : HostField) : trim field.text = field.name.text :=
  trimWith_pad field.before_blank field.name.no_blank field.after_blank

theorem comma_not_blank : isWhitespace ',' = false := by decide

theorem comma_not_mem_field (field : HostField) : ',' ∉ field.text := by
  intro h
  unfold HostField.text at h
  rcases List.mem_append.1 h with h | h
  · rcases List.mem_append.1 h with h | h
    · exact absurd (field.before_blank _ h) (by decide)
    · exact field.name.no_comma h
  · exact absurd (field.after_blank _ h) (by decide)

theorem splitOn_join {fields : List HostField} (hne : fields ≠ []) :
    ([','].intercalate (fields.map HostField.text)).splitOn ',' =
      fields.map HostField.text :=
  List.splitOn_intercalate ','
    (fun _ hl => by
      obtain ⟨field, -, rfl⟩ := List.mem_map.1 hl
      exact comma_not_mem_field field)
    (by simpa using hne)

/-- A joined value is not a `*` in disguise: with two fields it keeps its
comma when it is trimmed. -/
theorem trim_join_ne_star {fields : List HostField} (hne : fields ≠ [])
    (hstar : fields.map (fun field => field.name.text) ≠ [['*']]) :
    trim ([','].intercalate (fields.map HostField.text)) ≠ ['*'] := by
  match fields, hne with
  | [field], _ =>
      intro h
      have hone : [','].intercalate ([field].map HostField.text) = field.text := by
        simp [List.intercalate]
      rw [hone, trim_field] at h
      exact hstar (by simp [h])
  | field :: next :: rest, _ =>
      intro h
      have hmem : ',' ∈ [','].intercalate
          ((field :: next :: rest).map HostField.text) := by
        simp [List.intercalate]
      have hkept := mem_trimWith hmem comma_not_blank
      rw [← trim, h] at hkept
      exact absurd hkept (by decide)

theorem allowedHosts_join {default : StreamableHttpServerConfig}
    {var : Str → Option Str} {fields : List HostField} (hne : fields ≠ [])
    (hstar : fields.map (fun field => field.name.text) ≠ [['*']])
    (h : var MCP_ALLOWED_HOSTS =
      some ([','].intercalate (fields.map HostField.text))) :
    (transportConfig default var).allowedHosts =
      fields.map fun field => field.name.text := by
  rw [allowedHosts_list h (trim_join_ne_star hne hstar), splitOn_join hne,
    List.map_map]
  have hmap : fields.map (trim ∘ HostField.text) =
      fields.map fun field => field.name.text :=
    List.map_congr_left fun field _ => trim_field field
  rw [hmap]
  refine List.filter_eq_self.2 fun name hname => ?_
  obtain ⟨field, -, rfl⟩ := List.mem_map.1 hname
  simpa using field.name.ne_nil

/-! ## The guard -/

theorem HostGuard.accepts_listed {Host : Type} (guard : HostGuard Host)
    {entries : List Str} {host : Host} (hne : entries ≠ [])
    (h : guard.accepts entries host) :
    ∃ e ∈ entries, guard.entryMatches e host := by
  match entries, hne with
  | entry :: entries, _ => exact (guard.accepts_cons entry entries host).1 h

/-- For an SDK whose own list is not empty, the guard fails closed exactly
where the variable is unset, is a `*`, or has a field that is not blank. -/
theorem failsClosed_iff {Host : Type} (guard : HostGuard Host)
    (default : StreamableHttpServerConfig) (hdefault : default.allowedHosts ≠ [])
    (var : Str → Option Str) :
    FailsClosed guard default var ↔
      ∀ hosts, var MCP_ALLOWED_HOSTS = some hosts →
        trim hosts = ['*'] ∨ ∃ entry, Listed hosts entry := by
  constructor
  · intro h hosts hvar
    by_cases hstar : trim hosts = ['*']
    · exact .inl hstar
    · right
      -- an empty list would have to be a `*`
      have hne : (transportConfig default var).allowedHosts ≠ [] := by
        intro hnil
        obtain ⟨hosts', hvar', hstar'⟩ := h.off.1 hnil
        rw [hvar] at hvar'
        exact hstar (Option.some.inj hvar' ▸ hstar')
      obtain ⟨entry, hentry⟩ := List.exists_mem_of_ne_nil _ hne
      exact ⟨entry, (mem_allowedHosts hvar hstar entry).1 hentry⟩
  · intro h
    have hkept : ∀ hosts, var MCP_ALLOWED_HOSTS = some hosts →
        trim hosts ≠ ['*'] → (transportConfig default var).allowedHosts ≠ [] := by
      intro hosts hvar hstar hnil
      obtain ⟨entry, hentry⟩ := (h hosts hvar).resolve_left hstar
      have hmem : entry ∈ (transportConfig default var).allowedHosts :=
        (mem_allowedHosts hvar hstar entry).2 hentry
      rw [hnil] at hmem
      cases hmem
    refine ⟨⟨fun hnil => ?_, ?_⟩, allowedHosts_none, ?_, ?_⟩
    · cases hvar : var MCP_ALLOWED_HOSTS with
      | none =>
          rw [allowedHosts_none hvar] at hnil
          exact absurd hnil hdefault
      | some hosts =>
          refine ⟨hosts, rfl, ?_⟩
          by_contra hstar
          exact hkept hosts hvar hstar hnil
    · rintro ⟨hosts, hvar, hstar⟩
      exact allowedHosts_star hvar hstar
    · intro hosts hvar hstar host hacc
      obtain ⟨e, he, hmatch⟩ := guard.accepts_listed (hkept hosts hvar hstar) hacc
      exact ⟨e, (mem_allowedHosts hvar hstar e).1 he, hmatch⟩
    · exact fun fields hne hstar hvar => allowedHosts_join hne hstar hvar

structure RequestHost where
  name : Str
  port : Option Str

/-- The documented guard: `host` matches any port, `host:port` is exact. -/
def rmcpGuard : HostGuard RequestHost where
  entryMatches entry host :=
    entry = host.name ∨ ∃ port, host.port = some port ∧
      entry = host.name ++ ':' :: port
  accepts entries host := entries = [] ∨ ∃ e ∈ entries,
    e = host.name ∨ ∃ port, host.port = some port ∧ e = host.name ++ ':' :: port
  accepts_nil _ := .inl rfl
  accepts_cons entry entries host := by simp

def localhostOnly : StreamableHttpServerConfig where
  allowedHosts := ["localhost".toList, "127.0.0.1".toList, "::1".toList]
  legacySessionMode := true

/-- An empty value switches the guard off. -/
theorem not_failsClosed_empty :
    ¬ FailsClosed rmcpGuard localhostOnly fun _ => some [] := by
  intro h
  obtain ⟨hosts, hvar, hstar⟩ := h.off.1 (by decide)
  cases hvar
  exact absurd hstar (by decide)

/-- Two names and a stray comma keep it on. -/
theorem failsClosed_two_names :
    FailsClosed rmcpGuard localhostOnly fun _ =>
      some " mcp-server.localhost, ,127.0.0.1:8000".toList := by
  refine (failsClosed_iff rmcpGuard localhostOnly (by decide) _).2 ?_
  intro hosts hvar
  cases hvar
  exact .inr ⟨"mcp-server.localhost".toList, by decide,
    " mcp-server.localhost".toList, by decide, by decide⟩

end McpTemplate.Transport
