import McpTemplate.Proofs.Catalog
import McpTemplate.Proofs.Directory
import McpTemplate.Proofs.Dispatch
import McpTemplate.Proofs.Listing
import McpTemplate.Proofs.Templates
import McpTemplate.Src.Discovery
import McpTemplate.Src.Protocol

/-!
# The discovery document and what is served

The discovery document is written beside the protocol, by a module of its own,
and says what the protocol serves: who the server is, which methods there are,
and which skills. Every statement in it is about something that other code
does, and `Describes` is that the other code does it.

The methods are the hard part, because the document lists what it has: that no
method is missing is a statement about every method name there is.
-/

namespace McpTemplate.Server

open Lib Json Skills

/-! ## Reading the document -/

/-- A field of a field of a value. -/
def field (value : Value) (path : List Str) : Option Value := path.foldlM Value.get value

/-- What an item of the document says of a skill. -/
def itemPair (item : Value) : Option (Str × Str) := do
  let name ← (← item.get "name".toList).asStr
  let description ← (← item.get "description".toList).asStr
  some (name, description)

section described

variable (crates : Crates) (sdk : Sdk) (toJson : Resource → Value) (table : List Skill)

/-- A method is served: no request for it is answered that there is no such
method. -/
def Served (method : Str) : Prop :=
  ∀ params err, onCustomRequest crates toJson table method params = .error err →
    err.code ≠ METHOD_NOT_FOUND

/-- A skill is at a URI: the answers that list it have it there, at the place
it has in the table, the ones that get and read it give it there, and a
template that is listed comes to it for a plain name. -/
structure SkillAt (self : Fin table.length) (uri : Str) : Prop where
  entry : ∃ e, e.get "uri".toList = some (.string uri) ∧
    (∀ params, ∃ result items,
      onCustomRequest crates toJson table LIST_METHOD params = .ok result ∧
      result.get "skills".toList = some (.array items) ∧
      items.length = table.length ∧ items[self.val]? = some e) ∧
    ∃ result, onCustomRequest crates toJson table GET_METHOD (uriParams uri) = .ok result ∧
      result.get "skill".toList = some e
  resource : ∀ version, ∃ resource,
    (listResources crates table sdk version).items[self.val + 1]? = some resource ∧
      resource.uri = uri ∧ resource.name = (table.get self).name ∧
      resource.description = some ((table.get self).description crates)
  reads : ∀ version, readResource crates table sdk version uri =
    .ok ⟨[⟨uri, "text/markdown".toList, (table.get self).skillMd⟩], hintsFor sdk version⟩
  template : PlainName (table.get self).name → ∀ version path,
    ∃ template ∈ (listResourceTemplates sdk version).items,
      expandTemplate template.uriTemplate (bindings (table.get self).name path) = some uri

/-- The document describes what is served. -/
structure Describes (tools : List Str) (document : Value) : Prop where
  identity :
    field document ["server".toList, "name".toList] =
        some (.string (getInfo crates table).name) ∧
      field document ["server".toList, "version".toList] =
        some (.string (getInfo crates table).version)
  tools : field document ["capabilities".toList, "tools".toList] =
    some (.array (tools.map .string))
  methods : ∃ methods : List Str,
    field document ["capabilities".toList, "extensions".toList, EXTENSION_ID,
        "methods".toList] = some (.array (methods.map .string)) ∧
      ∀ method, method ∈ methods ↔ Served crates toJson table method
  settings : ∃ settings, (EXTENSION_ID, settings) ∈ (getInfo crates table).extensions ∧
    field document ["capabilities".toList, "extensions".toList, EXTENSION_ID,
      "directoryRead".toList] = Map.get "directoryRead".toList settings
  index : ∃ uri,
    field document ["capabilities".toList, "resources".toList, "skillIndex".toList] =
        some (.string uri) ∧
      ∀ version, readResource crates table sdk version uri =
        .ok ⟨[⟨uri, "application/json".toList, indexJson crates table⟩],
          hintsFor sdk version⟩
  skills : ∃ items, field document ["skills".toList] = some (.array items) ∧
    items.length = table.length ∧
    (∀ self : Fin table.length, ∃ item uri, items[self.val]? = some item ∧
      item.get "uri".toList = some (.string uri) ∧
      itemPair item = some ((table.get self).pair crates) ∧
      SkillAt crates sdk toJson table self uri) ∧
    (getInfo crates table).instructions = aboutServer ++ catalogHeader ++ '\n' ::
      (items.filterMap itemPair).flatMap fun pair => catalogLine pair ++ ['\n']
  endpoints : ∀ name path, field document ["endpoints".toList, name] = some (.string path) →
    ∀ method, Discovery.matchesRequest method path = true ↔
      name ≠ "mcp".toList ∧ (method = "GET".toList ∨ method = "HEAD".toList)

end described

/-! ## The methods -/

section methods

variable {crates : Crates} {toJson : Resource → Value} {table : List Skill}

theorem uriParam_code {method : Str} {params : Option Value} {err : ErrorData}
    (h : uriParam method params = .error err) : err.code = INVALID_PARAMS := by
  unfold uriParam at h
  split at h <;> cases h
  rfl

/-- A lookup has one code for whatever is wrong. -/
theorem lookup_code {α : Type} {method : Str} {params : Option Value}
    {find : Str → Option α} {wrap : α → Value} {refuse : Str → Str} {err : ErrorData}
    (h : lookup method params find wrap refuse = .error err) :
    err.code = INVALID_PARAMS := by
  unfold lookup at h
  cases hparam : uriParam method params with
  | error err' =>
      rw [hparam] at h
      cases h
      exact uriParam_code hparam
  | ok uri =>
      rw [hparam] at h
      simp only [bind, Except.bind] at h
      split at h <;> cases h
      rfl

theorem served_iff {method : Str} : Served crates toJson table method ↔
    method ∈ [LIST_METHOD, GET_METHOD, DIRECTORY_READ_METHOD] := by
  constructor
  · intro h
    by_contra hno
    simp only [List.mem_cons, List.not_mem_nil, or_false, not_or] at hno
    exact h none _ (onCustomRequest_other none hno.1 hno.2.1 hno.2.2) rfl
  · intro h params err herr
    simp only [List.mem_cons, List.not_mem_nil, or_false] at h
    have hcode : err.code = INVALID_PARAMS := by
      rcases h with rfl | rfl | rfl
      · rw [onCustomRequest_list] at herr
        cases herr
      · rw [onCustomRequest_get] at herr
        exact lookup_code herr
      · rw [onCustomRequest_directory] at herr
        exact lookup_code herr
    rw [hcode]
    decide

end methods

/-! ## The skills -/

section skills

variable {crates : Crates} {sdk : Sdk} {toJson : Resource → Value} {table : List Skill}

theorem getElem?_iter (self : Fin table.length) : (iter table)[self.val]? = some self := by
  rw [iter, List.getElem?_eq_getElem (by simp)]
  simp

theorem itemPair_skillItem (self : Fin table.length) :
    itemPair (Discovery.skillItem crates table self) =
      some ((table.get self).pair crates) := by
  have hname : (Discovery.skillItem crates table self).get "name".toList =
      some (.string (table.get self).name) := by
    rw [Discovery.skillItem, get_json]
    rfl
  have hdescription : (Discovery.skillItem crates table self).get "description".toList =
      some (.string (description crates table self)) := by
    rw [Discovery.skillItem, get_json]
    rfl
  rw [itemPair, hname, hdescription, description_eq]
  rfl

theorem skillAt (hn : Named table) (self : Fin table.length) :
    SkillAt crates sdk toJson table self (table.get self).entryUri where
  entry := by
    have hget : (entries crates table)[self.val]? =
        some ((table.get self).buildEntry crates).2 := by
      rw [entries_eq, List.getElem?_map, List.getElem?_eq_getElem self.isLt]
      rfl
    refine ⟨((table.get self).buildEntry crates).2, entry_uri _, ?_, ?_⟩
    · intro params
      refine ⟨_, entries crates table, onCustomRequest_list params, ?_, ?_, hget⟩
      · exact (hasFields_listResult _).content (List.mem_cons_of_mem _ List.mem_cons_self)
      · rw [entries_eq, List.length_map]
    · exact get_listedUnder toJson hn ⟨List.mem_of_getElem? hget, entry_uri _⟩
  resource := by
    intro version
    refine ⟨_, getElem?_resources crates self, rfl, rfl, ?_⟩
    exact congrArg some (description_eq crates self)
  reads := by
    intro version
    have hread : read crates table (table.get self).entryUri =
        some ("text/markdown".toList, (table.get self).skillMd) :=
      (read_path hn (List.get_mem table self) ENTRY).trans (if_pos rfl)
    rw [readResource, hread]
  template := by
    intro hplain version path
    have hexpand := expansion_playbook (table.get self).name path
    obtain ⟨template, hfind, huri⟩ := Option.bind_eq_some_iff.1 hexpand
    refine ⟨template, List.mem_of_find?_eq_some hfind, ?_⟩
    rw [huri, hplain.expandSimple_eq, Skill.entryUri, List.append_assoc]

theorem filterMap_itemPair : ((iter table).map (Discovery.skillItem crates table)).filterMap
    itemPair = table.map (Skill.pair crates) := by
  rw [List.filterMap_map, ← map_iter, ← List.filterMap_eq_map]
  exact List.filterMap_congr fun self _ => itemPair_skillItem self

theorem instructions_eq : (getInfo crates table).instructions =
    aboutServer ++ catalogHeader ++ '\n' ::
      (((iter table).map (Discovery.skillItem crates table)).filterMap itemPair).flatMap
        fun pair => catalogLine pair ++ ['\n'] := by
  rw [filterMap_itemPair, List.flatMap_map, getInfo, catalog_eq, List.flatMap_map,
    List.append_assoc]

end skills

/-! ## The document -/

theorem matchesRequest_path {method path : Str} :
    Discovery.matchesRequest method path = true ↔
      (method = "GET".toList ∨ method = "HEAD".toList) ∧
        path ∈ Discovery.DISCOVERY_PATHS := by
  simp [Discovery.matchesRequest]

/-- The endpoints that the document names: two for the document, and one for
the protocol. -/
theorem endpoints_get {name path : Str}
    (h : Discovery.endpoints.get name = some (.string path)) :
    (name = "mcp".toList ∧ path = Discovery.MCP_PATH) ∨
      (name ≠ "mcp".toList ∧ path ∈ Discovery.DISCOVERY_PATHS) := by
  rw [Discovery.endpoints, get_json, Option.map_eq_some_iff] at h
  obtain ⟨endpoint, hfind, hpath⟩ := h
  have hname := List.find?_some hfind
  have hmem := List.mem_of_find?_eq_some hfind
  simp only [decide_eq_true_eq] at hname
  simp only [List.mem_reverse, List.mem_cons, List.not_mem_nil, or_false] at hmem
  rcases hmem with rfl | rfl | rfl <;> cases hname <;> cases hpath
  · exact .inl ⟨rfl, rfl⟩
  · exact .inr ⟨by decide, by decide⟩
  · exact .inr ⟨by decide, by decide⟩

/-- The discovery document describes what is served, for every table whose
names can be told apart in a URI: the server it names is the one that
introduces itself, the methods it lists are all the methods there are, the
index it points at is read, each skill in it is the one that the listings, the
lookups and the instructions have at that place, and its endpoints are where
it is itself to be found. -/
theorem document_describes (crates : Crates) (build : Discovery.Build) (sdk : Sdk)
    (toJson : Resource → Value) (table : List Skill) (hn : Named table)
    (tools : List Str) :
    Describes crates sdk toJson table tools
      (Discovery.documentValue crates build table tools) where
  identity := ⟨rfl, rfl⟩
  tools := rfl
  methods := ⟨[LIST_METHOD, GET_METHOD, DIRECTORY_READ_METHOD], rfl,
    fun method => served_iff.symm⟩
  settings := ⟨capability, List.mem_singleton_self _, rfl⟩
  index := by
    have hread : read crates table INDEX_URI =
        some ("application/json".toList, indexJson crates table) := if_pos rfl
    exact ⟨INDEX_URI, rfl, fun version => by rw [readResource, hread]⟩
  skills := by
    refine ⟨(iter table).map (Discovery.skillItem crates table), rfl, by simp [iter], ?_,
      instructions_eq⟩
    intro self
    refine ⟨Discovery.skillItem crates table self, (table.get self).entryUri, ?_, ?_,
      itemPair_skillItem self, skillAt hn self⟩
    · rw [List.getElem?_map, getElem?_iter]
      rfl
    · rw [Discovery.skillItem, get_json]
      rfl
  endpoints := by
    intro name path hpath method
    have hfield : field (Discovery.documentValue crates build table tools)
        ["endpoints".toList, name] = (Discovery.endpoints.get name).bind some := rfl
    rw [hfield, Option.bind_fun_some] at hpath
    rw [matchesRequest_path]
    rcases endpoints_get hpath with ⟨hname, rfl⟩ | ⟨hname, hmem⟩
    · have hno : Discovery.MCP_PATH ∉ Discovery.DISCOVERY_PATHS := by decide
      simp only [hno, hname, and_false, ne_eq, not_true_eq_false, false_and]
    · simp only [hmem, hname, and_true, ne_eq, not_false_eq_true, true_and]

/-- The shipped table is all that is asked of a table, whatever its two files
hold, under any package name that can be told apart in a URI. -/
theorem walkable_SKILLS {crates : Crates} (hname : PlainName crates.CARGO_PKG_NAME)
    (skillMd toolsMd : Str) : Walkable (SKILLS crates skillMd toolsMd) where
  names := List.nodup_singleton _
  sound := by
    intro skill hskill
    rw [List.mem_singleton.1 hskill]
    refine ⟨hname.ne_nil, hname.chars, ⟨?_, ?_⟩, ?_, ?_⟩ <;>
      simp only [Skill.allFiles, List.map_cons, List.map_nil, List.forall_mem_cons,
        List.not_mem_nil, false_imp_iff, implies_true, and_true]
    · decide
    · decide
    · unfold Segments
      decide
    · decide

/-- The shipped server, whose protocol versions are dates. -/
theorem document_describes_shipped :
    let sdk : Sdk := ⟨Nat, 20260728, fun version since => since ≤ version⟩
    let build : Discovery.Build := ⟨"a server".toList, "2026-07-28".toList⟩
    let table := SKILLS plainCrates "---\nname: server\n---\n".toList "# Tools\n".toList
    let tools : List Str := ["echo".toList, "http_get".toList]
    Describes plainCrates sdk (fun r => .string r.uri) table tools
      (Discovery.documentValue plainCrates build table tools) := by
  have hname : PlainName plainCrates.CARGO_PKG_NAME :=
    plainName_of_all (by decide) (by decide)
  exact document_describes plainCrates _ _ _ _ (walkable_SKILLS hname _ _).named _

end McpTemplate.Server
