import Mathlib.Data.List.Nodup
import McpTemplate.Proofs.Resolve
import McpTemplate.Src.Server

/-!
# What the extension methods answer

`skills/get` and `resources/directory/read` have one shape: take `uri` from
the parameters, look it up, and wrap what is found, with `-32602` where either
fails. `lookup_ok` and `lookup_error` say that once.

What `entry` looks up is then compared with what `skills/list` lists. The
listing walks references into the table and the lookup finds one by name; a
reference's place in the cache is its own index, so both end in the entry
built from the same skill.

What an answer says is what a client reads out of it, field by field, which is
`HasFields`; `LooksUp` is a lookup as its client sees it.
-/

namespace McpTemplate.Server

open Lib Json Skills

variable {crates : Crates} {toJson : Resource → Value} {table : List Skill}

/-- The parameters are an object with this string as its `uri`. -/
def UriParam (params : Option Value) (uri : Str) : Prop :=
  ∃ fields, params = some (.object fields) ∧
    Map.get "uri".toList fields = some (.string uri)

theorem uriParam_ok {method uri : Str} {params : Option Value} :
    uriParam method params = .ok uri ↔ UriParam params uri := by
  have hproj : (params.bind fun p => p.get "uri".toList).bind Value.asStr =
      some uri ↔ UriParam params uri := by
    constructor
    · intro h
      obtain ⟨value, hvalue, hstr⟩ := Option.bind_eq_some_iff.1 h
      obtain ⟨p, rfl, hget⟩ := Option.bind_eq_some_iff.1 hvalue
      cases value <;> cases hstr
      cases p with
      | object fields => exact ⟨fields, rfl, hget⟩
      | _ => cases hget
    · rintro ⟨fields, rfl, hget⟩
      exact Option.bind_eq_some_iff.2 ⟨_, hget, rfl⟩
  rw [← hproj, uriParam]
  split
  · next heq => rw [heq]; simp
  · next heq => rw [heq]; simp

theorem uriParam_error {method : Str} {params : Option Value}
    (h : ∀ uri, ¬ UriParam params uri) :
    uriParam method params = .error (.invalidParams
      (method ++ " requires a string `uri` parameter".toList)) := by
  cases hparam : uriParam method params with
  | ok uri => exact absurd (uriParam_ok.1 hparam) (h uri)
  | error err =>
      unfold uriParam at hparam
      split at hparam
      · cases hparam
      · exact hparam.symm

/-! ## The entries -/

theorem findRef_eq (hn : Named table) (self : Fin table.length) :
    findRef table (table.get self).name = some self := by
  have hnodup : ((iter table).map fun i => (table.get i).name).Nodup := by
    rw [map_iter]
    exact hn.nodup
  exact find?_key hnodup (List.mem_finRange self)

/-- `entry` finds the listed entries by their URIs, and nothing else. -/
theorem entry_eq_some (hn : Named table) {uri : Str} {e : Value} :
    entry crates table uri = some e ↔
      e ∈ entries crates table ∧ e.get "uri".toList = some (.string uri) := by
  rw [entries_eq, List.mem_map]
  constructor
  · intro h
    simp only [entry, Option.bind_eq_bind, Option.bind_eq_some_iff,
      Prod.exists] at h
    obtain ⟨rest, hrest, name, path, hsplit, h⟩ := h
    split at h
    · cases h
    · next hpath =>
        obtain ⟨self, hself, rfl⟩ := Option.map_eq_some_iff.1 h
        obtain ⟨-, rfl⟩ := find?_key_eq_some hself
        have huri : uri = (table.get self).entryUri := by
          rw [split_eq_fileUri hrest hsplit, not_not.1 hpath]; rfl
        rw [entryOf_eq, entry_uri, huri]
        exact ⟨⟨_, List.get_mem table self, rfl⟩, rfl⟩
  · rintro ⟨⟨skill, hskill, rfl⟩, huri⟩
    rw [entry_uri] at huri
    cases huri
    obtain ⟨self, rfl⟩ := List.mem_iff_get.1 hskill
    have hslash := hn.no_slash _ hskill
    simp only [entry, Skill.entryUri, stripPrefix_uri, splitOnce_uri hslash,
      Option.bind_eq_bind, Option.bind_some]
    rw [if_neg (not_not.2 rfl), findRef_eq hn, Option.map_some, entryOf_eq]

/-! ## The methods -/

/-- What a method answers that looks its `uri` up. -/
def lookup {α : Type} (method : Str) (params : Option Value)
    (find : Str → Option α) (wrap : α → Value) (refuse : Str → Str) :
    Except ErrorData Value := do
  let uri ← uriParam method params
  match find uri with
  | some found => return wrap found
  | none => throw (.invalidParams (refuse uri))

section lookup

variable {α : Type} {method : Str} {params : Option Value}
  {find : Str → Option α} {wrap : α → Value} {refuse : Str → Str}

theorem lookup_ok {result : Value} :
    lookup method params find wrap refuse = .ok result ↔
      ∃ uri found, UriParam params uri ∧ find uri = some found ∧
        result = wrap found := by
  constructor
  · intro h
    unfold lookup at h
    cases hparam : uriParam method params with
    | error err => rw [hparam] at h; cases h
    | ok uri =>
        rw [hparam] at h
        cases hfind : find uri with
        | none => simp only [bind, Except.bind, hfind] at h; cases h
        | some found =>
            simp only [bind, Except.bind, hfind] at h
            cases h
            exact ⟨uri, found, uriParam_ok.1 hparam, hfind, rfl⟩
  · rintro ⟨uri, found, hparam, hfind, rfl⟩
    simp only [lookup, uriParam_ok.2 hparam, bind, Except.bind, hfind]
    rfl

/-- Where nothing is found, the answer is an invalid-params error. -/
theorem lookup_error
    (h : ∀ uri found, UriParam params uri → find uri ≠ some found) :
    ∃ message, lookup method params find wrap refuse =
      .error (.invalidParams message) := by
  unfold lookup
  cases hparam : uriParam method params with
  | error err =>
      have hnone : ∀ uri, ¬ UriParam params uri := by
        intro uri huri
        rw [uriParam_ok.2 huri] at hparam
        cases hparam
      rw [uriParam_error hnone] at hparam
      cases hparam
      exact ⟨_, rfl⟩
  | ok uri =>
      cases hfind : find uri with
      | some found => exact absurd hfind (h uri found (uriParam_ok.1 hparam))
      | none =>
          simp only [bind, Except.bind, hfind]
          exact ⟨_, rfl⟩

end lookup

theorem onCustomRequest_list (params : Option Value) :
    onCustomRequest crates toJson table LIST_METHOD params =
      .ok (listResult (entries crates table)) := rfl

theorem onCustomRequest_get (params : Option Value) :
    onCustomRequest crates toJson table GET_METHOD params =
      lookup GET_METHOD params (entry crates table) getResult
        fun uri => "No skill is served at ".toList ++ uri := by
  rw [onCustomRequest, if_neg (by decide), if_pos rfl, lookup]
  refine congrArg (uriParam GET_METHOD params >>= ·) (funext fun uri => ?_)
  cases entry crates table uri <;> rfl

theorem onCustomRequest_directory (params : Option Value) :
    onCustomRequest crates toJson table DIRECTORY_READ_METHOD params =
      lookup DIRECTORY_READ_METHOD params (directory table)
        (fun resources => directoryResult (resources.map toJson))
        fun uri =>
          uri ++ " is not a directory resource this server serves".toList := by
  rw [onCustomRequest, if_neg (by decide), if_neg (by decide), if_pos rfl,
    lookup]
  refine congrArg (uriParam DIRECTORY_READ_METHOD params >>= ·)
    (funext fun uri => ?_)
  cases directory table uri <;> rfl

theorem onCustomRequest_other {method : Str} (params : Option Value)
    (hlist : method ≠ LIST_METHOD) (hget : method ≠ GET_METHOD)
    (hdir : method ≠ DIRECTORY_READ_METHOD) :
    onCustomRequest crates toJson table method params =
      .error ⟨METHOD_NOT_FOUND, method, none⟩ := by
  rw [onCustomRequest, if_neg hlist, if_neg hget, if_neg hdir]
  rfl

theorem get_ok (hn : Named table) (params : Option Value) (result : Value) :
    onCustomRequest crates toJson table GET_METHOD params = .ok result ↔
      ∃ uri, UriParam params uri ∧ ∃ e ∈ entries crates table,
        e.get "uri".toList = some (.string uri) ∧ result = getResult e := by
  rw [onCustomRequest_get, lookup_ok]
  constructor
  · rintro ⟨uri, e, hparam, hfind, hresult⟩
    obtain ⟨hmem, huri⟩ := (entry_eq_some hn).1 hfind
    exact ⟨uri, hparam, e, hmem, huri, hresult⟩
  · rintro ⟨uri, hparam, e, hmem, huri, hresult⟩
    exact ⟨uri, e, hparam, (entry_eq_some hn).2 ⟨hmem, huri⟩, hresult⟩

theorem get_error (hn : Named table) (params : Option Value)
    (h : ∀ uri, UriParam params uri → ∀ e ∈ entries crates table,
      e.get "uri".toList ≠ some (.string uri)) :
    ∃ message, onCustomRequest crates toJson table GET_METHOD params =
      .error (.invalidParams message) := by
  rw [onCustomRequest_get]
  refine lookup_error fun uri e hparam hfind => ?_
  obtain ⟨hmem, huri⟩ := (entry_eq_some hn).1 hfind
  exact h uri hparam e hmem huri

theorem directory_ok (params : Option Value) (result : Value) :
    onCustomRequest crates toJson table DIRECTORY_READ_METHOD params =
        .ok result ↔
      ∃ uri, UriParam params uri ∧ ∃ children,
        directory table uri = some children ∧
          result = directoryResult (children.map toJson) := by
  rw [onCustomRequest_directory, lookup_ok]
  constructor
  · rintro ⟨uri, children, hparam, hfind, hresult⟩
    exact ⟨uri, hparam, children, hfind, hresult⟩
  · rintro ⟨uri, hparam, children, hfind, hresult⟩
    exact ⟨uri, children, hparam, hfind, hresult⟩

theorem directory_error (params : Option Value)
    (h : ∀ uri, UriParam params uri → directory table uri = none) :
    ∃ message, onCustomRequest crates toJson table DIRECTORY_READ_METHOD params =
      .error (.invalidParams message) := by
  rw [onCustomRequest_directory]
  refine lookup_error fun uri children hparam hfind => ?_
  rw [h uri hparam] at hfind
  cases hfind

/-! ## What is read out of an answer -/

/-- A value has these fields and no others. -/
def HasFields (value : Value) (fields : List (Str × Value)) : Prop :=
  ∀ key content, value.get key = some content ↔ (key, content) ∈ fields

theorem hasFields_json {fields : List (Str × Value)} (h : (fields.map Prod.fst).Nodup) :
    HasFields (json fields) fields := by
  have hnodup : (fields.reverse.map Prod.fst).Nodup := by
    rw [List.map_reverse]
    exact List.nodup_reverse.2 h
  intro key content
  rw [get_json, Option.map_eq_some_iff]
  constructor
  · intro h
    obtain ⟨⟨key', content'⟩, hfind, rfl⟩ := h
    obtain ⟨hmem, rfl⟩ := find?_key_eq_some hfind
    exact List.mem_reverse.1 hmem
  · intro hmem
    exact ⟨_, find?_key hnodup (List.mem_reverse.2 hmem), rfl⟩

/-- A result that is complete and may be kept for an hour, with this content. -/
def cachedFields (key : Str) (content : Value) : List (Str × Value) :=
  [("resultType".toList, .string "complete".toList), (key, content),
    ("ttlMs".toList, .ofNat 3600000), ("cacheScope".toList, .string "public".toList)]

/-- A result that is complete, with this content. -/
def completeFields (key : Str) (content : Value) : List (Str × Value) :=
  [("resultType".toList, .string "complete".toList), (key, content)]

theorem hasFields_cached {key : Str} (content : Value)
    (h : ["resultType".toList, key, "ttlMs".toList, "cacheScope".toList].Nodup) :
    HasFields (json (cachedFields key content)) (cachedFields key content) :=
  hasFields_json h

theorem hasFields_listResult (entries : List Value) :
    HasFields (listResult entries) (cachedFields "skills".toList (.array entries)) :=
  hasFields_cached _ (by decide)

theorem hasFields_getResult (entry : Value) :
    HasFields (getResult entry) (cachedFields "skill".toList entry) :=
  hasFields_cached _ (by decide)

theorem hasFields_directoryResult (resources : List Value) :
    HasFields (directoryResult resources)
      (completeFields "resources".toList (.array resources)) := by
  have hkeys : ["resultType".toList, "resources".toList].Nodup := by decide
  exact hasFields_json hkeys

theorem HasFields.content {value content : Value} {fields : List (Str × Value)} {key : Str}
    (h : HasFields value fields) (hmem : (key, content) ∈ fields) :
    value.get key = some content :=
  (h key content).2 hmem

/-- A method that looks its `uri` up: it succeeds exactly where the parameters
have one at which something is found, and then its result has the fields of
that; everything else is an invalid-params error. -/
def LooksUp (answer : Option Value → Except ErrorData Value)
    (found : Str → Value → Prop) (fields : Value → List (Str × Value)) : Prop :=
  ∀ params,
    (∀ uri content, UriParam params uri → found uri content →
      ∃ result, answer params = .ok result ∧ HasFields result (fields content)) ∧
    ((∀ uri content, UriParam params uri → ¬ found uri content) →
      ∃ message, answer params = .error (.invalidParams message))

/-- An entry is listed under a URI. -/
def ListedUnder (listed : List Value) (uri : Str) (entry : Value) : Prop :=
  entry ∈ listed ∧ entry.get "uri".toList = some (.string uri)

/-- The children of a directory, as they are written. -/
def ChildrenOf (toJson : Resource → Value) (table : List Skill) (uri : Str)
    (content : Value) : Prop :=
  ∃ children, directory table uri = some children ∧
    content = .array (children.map toJson)

theorem get_answers (hn : Named table) :
    LooksUp (onCustomRequest crates toJson table GET_METHOD)
      (ListedUnder (entries crates table)) (cachedFields "skill".toList) := by
  intro params
  refine ⟨?_, ?_⟩
  · intro uri e hparam hfound
    obtain ⟨hmem, huri⟩ := hfound
    exact ⟨getResult e, (get_ok hn params _).2 ⟨uri, hparam, e, hmem, huri, rfl⟩,
      hasFields_getResult e⟩
  · intro hnone
    exact get_error hn params fun uri hparam e hmem huri => hnone uri e hparam ⟨hmem, huri⟩

theorem directory_answers :
    LooksUp (onCustomRequest crates toJson table DIRECTORY_READ_METHOD)
      (ChildrenOf toJson table) (completeFields "resources".toList) := by
  intro params
  refine ⟨?_, ?_⟩
  · intro uri content hparam hfound
    obtain ⟨children, hfind, rfl⟩ := hfound
    exact ⟨directoryResult (children.map toJson),
      (directory_ok params _).2 ⟨uri, hparam, children, hfind, rfl⟩,
      hasFields_directoryResult _⟩
  · intro hnone
    refine directory_error params fun uri hparam => ?_
    cases hfind : directory table uri with
    | none => rfl
    | some children => exact absurd ⟨children, hfind, rfl⟩ (hnone uri _ hparam)

/-- The parameters that a client asks with. -/
def uriParams (uri : Str) : Option Value := some (json [("uri".toList, .string uri)])

theorem uriParam_uriParams {uri uri' : Str} : UriParam (uriParams uri) uri' ↔ uri' = uri := by
  constructor
  · intro h
    obtain ⟨fields, hfields, hget⟩ := h
    cases hfields
    cases hget
    rfl
  · rintro rfl
    exact ⟨_, rfl, rfl⟩

/-- A client that asks for the URI of a listed entry gets that entry. -/
theorem get_listedUnder (toJson : Resource → Value) (hn : Named table) {uri : Str} {e : Value}
    (h : ListedUnder (entries crates table) uri e) :
    ∃ result, onCustomRequest crates toJson table GET_METHOD (uriParams uri) = .ok result ∧
      result.get "skill".toList = some e := by
  obtain ⟨result, hresult, hfields⟩ :=
    (get_answers hn (uriParams uri)).1 uri e (uriParam_uriParams.2 rfl) h
  exact ⟨result, hresult, hfields.content (List.mem_cons_of_mem _ List.mem_cons_self)⟩

/-- What a client gets that asks `skills/get` for the URI of an entry. -/
def askedFor (answer : Str → Option Value → Except ErrorData Value) (entry : Value) :
    Option Value := do
  let uri ← (← entry.get "uri".toList).asStr
  match answer GET_METHOD (uriParams uri) with
  | .ok result => result.get "skill".toList
  | .error _ => none

/-- Asking for a listed entry by its URI gives that entry. -/
theorem askedFor_listed (hn : Named table) {e : Value} (he : e ∈ entries crates table) :
    askedFor (onCustomRequest crates toJson table) e = some e := by
  obtain ⟨uri, huri⟩ : ∃ uri, e.get "uri".toList = some (.string uri) := by
    rw [entries_eq] at he
    obtain ⟨skill, -, rfl⟩ := List.mem_map.1 he
    exact ⟨_, entry_uri skill⟩
  obtain ⟨result, hresult, hskill⟩ := get_listedUnder toJson hn ⟨he, huri⟩
  rw [askedFor, huri]
  show (match onCustomRequest crates toJson table GET_METHOD (uriParams uri) with
    | .ok result => result.get "skill".toList
    | .error _ => none) = some e
  rw [hresult]
  exact hskill

/-- A URI obtains an entry exactly where it is the URI of one. -/
theorem get_uri_iff (hn : Named table) (uri : Str) :
    (∃ result, onCustomRequest crates toJson table GET_METHOD (uriParams uri) =
      .ok result) ↔ ∃ e, ListedUnder (entries crates table) uri e := by
  constructor
  · intro h
    obtain ⟨result, hresult⟩ := h
    obtain ⟨uri', hparam, e, hmem, huri, -⟩ := (get_ok hn _ _).1 hresult
    cases uriParam_uriParams.1 hparam
    exact ⟨e, hmem, huri⟩
  · intro h
    obtain ⟨e, he⟩ := h
    obtain ⟨result, hresult, -⟩ := get_listedUnder toJson hn he
    exact ⟨result, hresult⟩

/-- The three methods on every request, as a client reads the answers:
`skills/list` always has all entries in the order of the table; the two lookups
succeed exactly on a string `uri` that is the URI of a listed entry, or that
`directory` accepts, and then have that entry, or its children; everything else
is one of two errors. So asking for each listed URI gives the listing back, and
no other string obtains an entry. -/
theorem extension_methods_agree (crates : Crates) (toJson : Resource → Value)
    (table : List Skill) (hn : Named table) :
    let answer := onCustomRequest crates toJson table
    let listed := table.map fun skill => (skill.buildEntry crates).2
    (∀ params, ∃ result, answer LIST_METHOD params = .ok result ∧
      HasFields result (cachedFields "skills".toList (.array listed))) ∧
    LooksUp (answer GET_METHOD) (ListedUnder listed) (cachedFields "skill".toList) ∧
    LooksUp (answer DIRECTORY_READ_METHOD) (ChildrenOf toJson table)
      (completeFields "resources".toList) ∧
    (∀ method params, method ≠ LIST_METHOD → method ≠ GET_METHOD →
      method ≠ DIRECTORY_READ_METHOD →
      answer method params = .error ⟨METHOD_NOT_FOUND, method, none⟩) ∧
    listed.map (askedFor answer) = listed.map some ∧
    ∀ uri, (∃ result, answer GET_METHOD (uriParams uri) = .ok result) ↔
      ∃ e, ListedUnder listed uri e := by
  intro answer listed
  have hlisted : entries crates table = listed := entries_eq crates table
  rw [← hlisted]
  refine ⟨?_, get_answers hn, directory_answers, fun _ params => onCustomRequest_other params,
    ?_, get_uri_iff hn⟩
  · intro params
    exact ⟨_, onCustomRequest_list params, hasFields_listResult _⟩
  · exact List.map_congr_left fun e he => askedFor_listed hn he

theorem extension_methods_agree_manual :
    let toJson : Resource → Value := fun resource => .string resource.uri
    let answer := onCustomRequest plainCrates toJson [manual]
    let entry := (manual.buildEntry plainCrates).2
    (∃ result, answer LIST_METHOD none = .ok result ∧
      result.get "skills".toList = some (.array [entry])) ∧
      askedFor answer entry = some entry := by
  intro toJson answer entry
  have h := extension_methods_agree plainCrates toJson [manual] named_manual
  obtain ⟨result, hresult, hfields⟩ := h.1 none
  exact ⟨⟨result, hresult, hfields.content (List.mem_cons_of_mem _ List.mem_cons_self)⟩,
    List.head_eq_of_cons_eq h.2.2.2.2.1⟩

end McpTemplate.Server
