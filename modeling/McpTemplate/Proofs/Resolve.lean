import McpTemplate.Src.Skills

/-!
# The resolver is the inverse of the URI builder

A file's URI is the scheme, the name of its skill, a slash and its path. Since
a name has no slash, the first slash of what follows the scheme is that one,
and the resolver gets the name and the path back; since names, and the paths
of a skill, are pairwise distinct, its two searches find the file itself. So a
request is answered exactly where it spells a file of the table, and the
manifest, which is written with the same builder, lists exactly those.
-/

namespace McpTemplate.Skills

open Lib Json

variable {crates : Crates} {table : List Skill}

/-- The names of a table: distinct, and without a slash. -/
structure Named (table : List Skill) : Prop where
  nodup : (table.map Skill.name).Nodup
  no_slash : ∀ skill ∈ table, '/' ∉ skill.name

/-- A letter or digit of ASCII, `-` or `_`. -/
def IsNameChar (c : Char) : Prop := c.isAlphanum = true ∨ c = '-' ∨ c = '_'

instance : DecidablePred IsNameChar := fun _ => inferInstanceAs (Decidable (_ ∨ _))

/-- A name that reads the same in a URI, in a line and in an identifier. -/
structure PlainName (name : Str) : Prop where
  ne_nil : name ≠ []
  chars : ∀ c ∈ name, IsNameChar c

/-- The two conditions, evaluated. -/
theorem plainName_of_all {name : Str} (hne : name.isEmpty = false)
    (h : (name.all fun c => decide (IsNameChar c)) = true) : PlainName name where
  ne_nil hnil := by
    rw [hnil] at hne
    cases hne
  chars c hc := of_decide_eq_true (List.all_eq_true.1 h c hc)

theorem PlainName.not_mem {name : Str} (h : PlainName name) {c : Char}
    (hc : ¬ IsNameChar c) : c ∉ name := fun hmem => hc (h.chars c hmem)

/-- The files of a skill, its `SKILL.md` included. -/
def Skill.allFiles (skill : Skill) : List SkillFile :=
  ⟨ENTRY, skill.skillMd, "text/markdown".toList⟩ :: skill.files

/-- The paths of a table: distinct in each skill, `SKILL.md` included. -/
def Filed (table : List Skill) : Prop :=
  ∀ skill ∈ table, (skill.allFiles.map SkillFile.path).Nodup

theorem filed_iff : Filed table ↔ ∀ skill ∈ table,
    (∀ file ∈ skill.files, file.path ≠ ENTRY) ∧
      (skill.files.map SkillFile.path).Nodup := by
  refine forall₂_congr fun skill _ => ?_
  rw [Skill.allFiles, List.map_cons, List.nodup_cons, List.mem_map]
  simp

/-! ## One URI -/

theorem stripPrefix_uri (name path : Str) :
    stripPrefix SCHEME (SCHEME ++ name ++ '/' :: path) =
      some (name ++ '/' :: path) := by
  rw [List.append_assoc, stripPrefix_append]

theorem splitOnce_uri {name : Str} (h : '/' ∉ name) (path : Str) :
    splitOnce '/' (name ++ '/' :: path) = some (name, path) :=
  splitOnce_append h path

theorem fileUri_inj {s s' : Skill} {f f' : SkillFile} (h : '/' ∉ s.name)
    (h' : '/' ∉ s'.name) (heq : s.fileUri f = s'.fileUri f') :
    s.name = s'.name ∧ f.path = f'.path := by
  have hstrip := congrArg (stripPrefix SCHEME) heq
  rw [Skill.fileUri, Skill.fileUri, stripPrefix_uri, stripPrefix_uri] at hstrip
  have hsplit := congrArg (splitOnce '/') (Option.some.inj hstrip)
  rw [splitOnce_uri h, splitOnce_uri h'] at hsplit
  exact Prod.mk.inj (Option.some.inj hsplit)

theorem fileUri_ne_index (s : Skill) (f : SkillFile) :
    s.fileUri f ≠ INDEX_URI := by
  intro h
  have hstrip := congrArg (stripPrefix SCHEME) h
  rw [Skill.fileUri, stripPrefix_uri] at hstrip
  have hrest : stripPrefix SCHEME INDEX_URI = some "index.json".toList := by
    decide
  have hslash : '/' ∈ s.name ++ '/' :: f.path := by simp
  rw [Option.some.inj (hstrip.trans hrest)] at hslash
  exact absurd hslash (by decide)

theorem split_eq_fileUri {uri rest name path : Str}
    (hrest : stripPrefix SCHEME uri = some rest)
    (hsplit : splitOnce '/' rest = some (name, path)) :
    uri = SCHEME ++ name ++ '/' :: path := by
  rw [stripPrefix_eq_some.1 hrest, (splitOnce_eq_some.1 hsplit).1,
    List.append_assoc]

/-! ## `read` -/

/-- What is read beside the index is a file of the table. -/
theorem read_file {uri mime body : Str}
    (h : read crates table uri = some (mime, body)) (hne : uri ≠ INDEX_URI) :
    ∃ skill ∈ table, ∃ file ∈ skill.allFiles, uri = skill.fileUri file ∧
      mime = file.mimeType ∧ body = file.text := by
  simp only [read, if_neg hne, Option.bind_eq_bind, Option.bind_eq_some_iff,
    Prod.exists] at h
  obtain ⟨rest, hrest, name, path, hsplit, skill, hskill, h⟩ := h
  obtain ⟨hmem, rfl⟩ := find?_key_eq_some hskill
  have huri := split_eq_fileUri hrest hsplit
  split at h
  · next hentry =>
      cases h
      exact ⟨skill, hmem, _, List.mem_cons_self, by rw [huri, hentry]; rfl, rfl,
        rfl⟩
  · obtain ⟨file, hfile, h⟩ := Option.bind_eq_some_iff.1 h
    cases h
    obtain ⟨hfmem, rfl⟩ := find?_key_eq_some hfile
    exact ⟨skill, hmem, file, List.mem_cons_of_mem _ hfmem, huri, rfl, rfl⟩

/-- What is read at a path below a skill. -/
theorem read_path (hn : Named table) {skill : Skill} (hskill : skill ∈ table)
    (path : Str) : read crates table (SCHEME ++ skill.name ++ '/' :: path) =
      if path = ENTRY then some ("text/markdown".toList, skill.skillMd)
      else (skill.files.find? fun file => file.path = path).map fun file =>
        (file.mimeType, file.text) := by
  have hindex : SCHEME ++ skill.name ++ '/' :: path ≠ INDEX_URI :=
    fileUri_ne_index skill ⟨path, [], []⟩
  rw [read, if_neg hindex]
  simp only [stripPrefix_uri, splitOnce_uri (hn.no_slash skill hskill),
    find?_key hn.nodup hskill, Option.bind_eq_bind, Option.bind_some]
  split
  · rfl
  · cases skill.files.find? fun file => file.path = path <;> rfl

/-- Every file of the table is read at its URI. -/
theorem read_fileUri (hn : Named table) (hf : Filed table) {skill : Skill}
    (hskill : skill ∈ table) {file : SkillFile} (hfile : file ∈ skill.allFiles) :
    read crates table (skill.fileUri file) = some (file.mimeType, file.text) := by
  obtain ⟨hne, hpaths⟩ := filed_iff.1 hf skill hskill
  rw [Skill.fileUri, read_path hn hskill]
  rcases List.mem_cons.1 hfile with rfl | hfile
  · exact if_pos rfl
  · rw [if_neg (hne file hfile), find?_key hpaths hfile]
    rfl

/-! ## The manifest -/

/-- The manifest of an entry. -/
def manifest (entry : Value) : List Value :=
  match entry.get "resources".toList with
  | some (.array items) => items
  | _ => []

/-- `sha256:` and 64 lowercase hex digits that decode to the hash. -/
def IsDigest (text : Str) (hash : Vector UInt8 32) : Prop :=
  ∃ digits, text = "sha256:".toList ++ digits ∧ digits.length = 64 ∧
    (∀ c ∈ digits, IsLowerHex c) ∧ unhex digits = some hash.toList

theorem isDigest_digest (text : Str) :
    IsDigest (digest crates text) (crates.sha256 (asBytes text)) := by
  refine ⟨_, rfl, ?_, fun c => isLowerHex_of_mem_hex, unhex_hex _⟩
  rw [length_hex, Vector.length_toList]

theorem item_uri (uri text : Str) :
    (Skill.item crates uri text).get "uri".toList = some (.string uri) := by
  rw [Skill.item, get_json]; rfl

theorem item_digest (uri text : Str) :
    (Skill.item crates uri text).get "digest".toList =
      some (.string (digest crates text)) := by
  rw [Skill.item, get_json]; rfl

theorem item_size (uri text : Str) :
    (Skill.item crates uri text).get "size".toList =
      some (.ofNat (byteLen text)) := by
  rw [Skill.item, get_json]; rfl

theorem entry_uri (skill : Skill) :
    (skill.buildEntry crates).2.get "uri".toList =
      some (.string skill.entryUri) := by
  rw [Skill.buildEntry, get_json]; rfl

theorem manifest_buildEntry (skill : Skill) :
    manifest (skill.buildEntry crates).2 =
      skill.allFiles.map fun file =>
        Skill.item crates (skill.fileUri file) file.text := by
  have hget : (skill.buildEntry crates).2.get "resources".toList =
      some (.array (skill.allFiles.map fun file =>
        Skill.item crates (skill.fileUri file) file.text)) := by
    rw [Skill.buildEntry, get_json]; rfl
  rw [manifest, hget]

/-- The `k`th item of the manifest of the `i`th skill has this URI. -/
def ListedAt (crates : Crates) (table : List Skill) (uri : Str) (i k : Nat) :
    Prop :=
  ∃ skill item, table[i]? = some skill ∧
    (manifest (skill.buildEntry crates).2)[k]? = some item ∧
      item.get "uri".toList = some (.string uri)

theorem listedAt_iff {uri : Str} {i k : Nat} :
    ListedAt crates table uri i k ↔ ∃ skill file, table[i]? = some skill ∧
      skill.allFiles[k]? = some file ∧ uri = skill.fileUri file := by
  constructor
  · rintro ⟨skill, item, hi, hk, huri⟩
    rw [manifest_buildEntry, List.getElem?_map] at hk
    obtain ⟨file, hfile, rfl⟩ := Option.map_eq_some_iff.1 hk
    rw [item_uri] at huri
    cases huri
    exact ⟨skill, file, hi, hfile, rfl⟩
  · rintro ⟨skill, file, hi, hk, rfl⟩
    refine ⟨skill, Skill.item crates (skill.fileUri file) file.text, hi, ?_,
      item_uri _ _⟩
    rw [manifest_buildEntry, List.getElem?_map, hk]
    rfl

/-- A URI is listed at one place at most. -/
theorem listedAt_unique (hn : Named table) (hf : Filed table) {uri : Str}
    {i k i' k' : Nat} (h : ListedAt crates table uri i k)
    (h' : ListedAt crates table uri i' k') : i = i' ∧ k = k' := by
  obtain ⟨skill, file, hi, hk, rfl⟩ := listedAt_iff.1 h
  obtain ⟨skill', file', hi', hk', heq⟩ := listedAt_iff.1 h'
  have hmem := List.mem_of_getElem? hi
  obtain ⟨hname, hpath⟩ := fileUri_inj (hn.no_slash skill hmem)
    (hn.no_slash skill' (List.mem_of_getElem? hi')) heq
  have hii : i = i' := by
    refine (List.getElem?_inj (by
      have := (List.getElem?_eq_some_iff.1 hi).1
      simpa using this) hn.nodup).1 ?_
    rw [List.getElem?_map, List.getElem?_map, hi, hi']
    exact congrArg some hname
  subst hii
  rw [hi] at hi'
  cases hi'
  refine ⟨rfl, (List.getElem?_inj (by
    have := (List.getElem?_eq_some_iff.1 hk).1
    simpa using this) (hf skill hmem)).1 ?_⟩
  rw [List.getElem?_map, List.getElem?_map, hk, hk']
  exact congrArg some hpath

/-- The manifest and `read` describe the same files: an item's URI is read
with the size and the digest it lists, and what is read beside the index is
the text of the one item that has its URI. -/
theorem manifest_describes_read (crates : Crates) (table : List Skill)
    (hn : Named table) (hf : Filed table) :
    (∀ skill ∈ table, ∀ item ∈ manifest (skill.buildEntry crates).2,
      ∃ uri text mime body,
        item.get "uri".toList = some (.string uri) ∧
          item.get "digest".toList = some (.string text) ∧
          item.get "size".toList = some (.ofNat (asBytes body).length) ∧
          read crates table uri = some (mime, body) ∧
          IsDigest text (crates.sha256 (asBytes body))) ∧
      ∀ uri mime body, read crates table uri = some (mime, body) →
        uri = INDEX_URI ∨ ∃ i k skill file, ListedAt crates table uri i k ∧
          (∀ i' k', ListedAt crates table uri i' k' → i' = i ∧ k' = k) ∧
          table[i]? = some skill ∧ skill.allFiles[k]? = some file ∧
          mime = file.mimeType ∧ body = file.text := by
  constructor
  · intro skill hskill item hitem
    rw [manifest_buildEntry] at hitem
    obtain ⟨file, hfile, rfl⟩ := List.mem_map.1 hitem
    refine ⟨skill.fileUri file, digest crates file.text, file.mimeType,
      file.text, item_uri _ _, item_digest _ _, ?_,
      read_fileUri hn hf hskill hfile, isDigest_digest _⟩
    rw [item_size, length_asBytes]
  · intro uri mime body hread
    by_cases hindex : uri = INDEX_URI
    · exact .inl hindex
    · obtain ⟨skill, hskill, file, hfile, huri, hmime, hbody⟩ :=
        read_file hread hindex
      obtain ⟨i, hi⟩ := List.mem_iff_getElem?.1 hskill
      obtain ⟨k, hk⟩ := List.mem_iff_getElem?.1 hfile
      have hlisted : ListedAt crates table uri i k :=
        listedAt_iff.2 ⟨skill, file, hi, hk, huri⟩
      exact .inr ⟨i, k, skill, file, hlisted,
        fun i' k' h => listedAt_unique hn hf h hlisted, hi, hk, hmime, hbody⟩

/-! ## A table of one skill -/

/-- Stand-ins for the other crates: a YAML document is its text, and a hash is
made of the length. -/
def plainCrates : Crates where
  Yaml := Str
  fromStr text := if text.isEmpty then none else some text
  toValue text := some (json [("text".toList, .string text)])
  toStringPretty _ := none
  sha256 bytes := Vector.ofFn fun i => UInt8.ofNat (bytes.length + i)
  CARGO_PKG_NAME := "server".toList
  CARGO_PKG_VERSION := "0.1.0".toList

/-- The shape of the shipped skill, with a file two directories down. -/
def manual : Skill where
  name := "server".toList
  skillMd := "---\nname: server\n---\n# Manual\n".toList
  files := [⟨"references/TOOLS.md".toList, "# Tools".toList,
      "text/markdown".toList⟩,
    ⟨"references/deep/é.txt".toList, "é".toList, "text/plain".toList⟩]

theorem named_manual : Named [manual] := ⟨by decide, by decide⟩

theorem filed_manual : Filed [manual] := by
  intro skill hskill
  rw [List.mem_singleton.1 hskill]
  decide

theorem manifest_describes_read_manual :
    (∀ skill ∈ [manual], ∀ item ∈ manifest (skill.buildEntry plainCrates).2,
      ∃ uri text mime body,
        item.get "uri".toList = some (.string uri) ∧
          item.get "digest".toList = some (.string text) ∧
          item.get "size".toList = some (.ofNat (asBytes body).length) ∧
          read plainCrates [manual] uri = some (mime, body) ∧
          IsDigest text (plainCrates.sha256 (asBytes body))) ∧
      ∃ i k, ListedAt plainCrates [manual]
        "skill://server/references/deep/é.txt".toList i k := by
  have h := manifest_describes_read plainCrates [manual] named_manual filed_manual
  have hread : read plainCrates [manual]
      "skill://server/references/deep/é.txt".toList =
        some ("text/plain".toList, "é".toList) := by decide
  obtain ⟨i, k, -, -, hlisted, -⟩ := (h.2 _ _ _ hread).resolve_left (by decide)
  exact ⟨h.1, i, k, hlisted⟩

end McpTemplate.Skills
