import McpTemplate.Lib.Hex
import McpTemplate.Src.Json

/-!
# Skills

`skills.rs`, function by function. The table of skills is a parameter, as it
is for a fork of the template; a `&Skill` taken from the table is its index,
which is what a pointer into it amounts to, so the cache that is searched by
pointer is searched by index here.

`Crates` is what the module uses of other crates: the YAML parser and its
conversion to JSON, the pretty printer, SHA-256, and the two constants that
Cargo sets.
-/

namespace McpTemplate.Skills

open Lib Json

def EXTENSION_ID : Str := "io.modelcontextprotocol/skills".toList

def LIST_METHOD : Str := "skills/list".toList

def GET_METHOD : Str := "skills/get".toList

def DIRECTORY_READ_METHOD : Str := "resources/directory/read".toList

def DIRECTORY_MIME : Str := "inode/directory".toList

def META_PREFIX : Str := "io.modelcontextprotocol.skills/".toList

def INDEX_URI : Str := "skill://index.json".toList

def SCHEME : Str := "skill://".toList

def ENTRY : Str := "SKILL.md".toList

structure SkillFile where
  path : Str
  text : Str
  mimeType : Str
  deriving DecidableEq

structure Skill where
  name : Str
  skillMd : Str
  files : List SkillFile
  deriving DecidableEq

/-- What the module uses of other crates. -/
structure Crates where
  Yaml : Type
  fromStr : Str → Option Yaml
  toValue : Yaml → Option Value
  toStringPretty : Value → Option Str
  sha256 : List UInt8 → Vector UInt8 32
  CARGO_PKG_NAME : Str
  CARGO_PKG_VERSION : Str

def digest (crates : Crates) (text : Str) : Str :=
  "sha256:".toList ++ hex (crates.sha256 (asBytes text)).toList

def parseFrontmatter (crates : Crates) (markdown : Str) : Option Map := do
  let body ← (stripPrefix "---\n".toList markdown).or
    (stripPrefix "---\r\n".toList markdown)
  let (text, _) ← breakOn "\n---".toList body
  let yaml ← crates.fromStr text
  match ← crates.toValue yaml with
  | .object map => some map
  | _ => none

namespace Skill

def entryUri (skill : Skill) : Str := SCHEME ++ skill.name ++ '/' :: ENTRY

def rootUri (skill : Skill) : Str := SCHEME ++ skill.name

def fileUri (skill : Skill) (file : SkillFile) : Str :=
  SCHEME ++ skill.name ++ '/' :: file.path

/-- One item of a manifest. -/
def item (crates : Crates) (uri text : Str) : Value :=
  json [("uri".toList, .string uri),
    ("digest".toList, .string (digest crates text)),
    ("size".toList, .ofNat (byteLen text))]

def buildEntry (crates : Crates) (skill : Skill) : Map × Value :=
  let frontmatter := (parseFrontmatter crates skill.skillMd).getD []
  let resources := item crates skill.entryUri skill.skillMd ::
    skill.files.map fun file => item crates (skill.fileUri file) file.text
  let entry := json [("uri".toList, .string skill.entryUri),
    ("frontmatter".toList, .object frontmatter),
    ("resources".toList, .array resources)]
  (frontmatter, entry)

end Skill

/-- `SKILLS`, by the contents of the two files it includes. -/
def SKILLS (crates : Crates) (skillMd toolsMd : Str) : List Skill :=
  [⟨crates.CARGO_PKG_NAME, skillMd,
    [⟨"references/TOOLS.md".toList, toolsMd, "text/markdown".toList⟩]⟩]

section table

variable (crates : Crates) (table : List Skill)

/-- `SKILLS.iter()`, as references into the table. -/
def iter : List (Fin table.length) := List.finRange table.length

/-- What is done with each reference is done with each skill. -/
theorem map_iter {β : Type} (f : Skill → β) :
    (iter table).map (fun self => f (table.get self)) = table.map f := by
  have hcomp : (iter table).map (f ∘ table.get) = ((iter table).map table.get).map f :=
    List.map_map.symm
  rw [iter, List.map_get_finRange] at hcomp
  exact hcomp

/-- `SKILLS.iter().position(|s| std::ptr::eq(s, self))`. -/
def position (self : Fin table.length) : Option Nat :=
  (iter table).findIdx? fun s => s = self

theorem position_eq (self : Fin table.length) :
    position table self = some self.val := by
  have hlen : self.val < (iter table).length := by
    rw [iter, List.length_finRange]; exact self.isLt
  refine List.findIdx?_eq_some_iff_getElem.2 ⟨hlen, ?_, ?_⟩
  · simp [iter]
  · intro j hj
    have hne : (⟨j, hj.trans self.isLt⟩ : Fin table.length) ≠ self := by
      intro h
      exact Nat.ne_of_lt hj (congrArg Fin.val h)
    simpa [iter] using hne

/-- The entry of a skill, from the cache of all of them. -/
def entryParts (self : Fin table.length) : Map × Value :=
  let entries := table.map (Skill.buildEntry crates)
  let index := (position table self).get (by rw [position_eq]; rfl)
  entries.get ⟨index, by simp [index, position_eq, entries]⟩

theorem entryParts_eq (self : Fin table.length) :
    entryParts crates table self =
      Skill.buildEntry crates (table.get self) := by
  simp [entryParts, position_eq]

/-- `Skill::entry`. -/
def entryOf (self : Fin table.length) : Value := (entryParts crates table self).2

/-- `Skill::frontmatter`. -/
def frontmatter (self : Fin table.length) : Map := (entryParts crates table self).1

/-- `Skill::description`. -/
def description (self : Fin table.length) : Str :=
  ((Map.get "description".toList (frontmatter crates table self)).bind
    Value.asStr).getD []

def entries : List Value := (iter table).map (entryOf crates table)

theorem entryOf_eq (self : Fin table.length) :
    entryOf crates table self = ((table.get self).buildEntry crates).2 := by
  rw [entryOf, entryParts_eq]

theorem frontmatter_eq (self : Fin table.length) :
    frontmatter crates table self =
      (parseFrontmatter crates (table.get self).skillMd).getD [] := by
  rw [frontmatter, entryParts_eq]
  rfl

theorem entries_eq : entries crates table =
    table.map fun skill => (skill.buildEntry crates).2 := by
  rw [entries, ← map_iter]
  exact List.map_congr_left fun self _ => entryOf_eq crates table self

/-- `SKILLS.iter().find(|s| s.name == name)`, as a reference. -/
def findRef (name : Str) : Option (Fin table.length) :=
  (iter table).find? fun s => (table.get s).name = name

def entry (uri : Str) : Option Value := do
  let rest ← stripPrefix SCHEME uri
  let (name, path) ← splitOnce '/' rest
  if path ≠ ENTRY then none
  else (findRef table name).map (entryOf crates table)

/-- The first line of the catalog. -/
def catalogHeader : Str :=
  "Skills this server publishes (io.modelcontextprotocol/skills: ".toList ++
    "`skills/list` and `skills/get`; the same catalog with URIs and digests ".toList ++
    "is the `skill://index.json` resource; each playbook is the ".toList ++
    "`skill://<name>/SKILL.md` resource and names its supporting files ".toList ++
    "relative to that root):".toList

def catalog : Str :=
  (iter table).foldl (fun out skill =>
    out ++ "- ".toList ++ (table.get skill).name ++ ": ".toList ++
      description crates table skill ++ ['\n']) (catalogHeader ++ ['\n'])

def indexJson : Str :=
  let index := json [("schemaVersion".toList, .string "2".toList),
    ("extension".toList, .string EXTENSION_ID),
    ("server".toList, json [("name".toList, .string crates.CARGO_PKG_NAME),
      ("version".toList, .string crates.CARGO_PKG_VERSION)]),
    ("usage".toList, .string (String.toList
      ("The same entries as this server's `skills/list` " ++
        "(io.modelcontextprotocol/skills), for a client without the extension. " ++
        "Each entry is one skill: its SKILL.md `uri`, its `frontmatter` (the " ++
        "`description` is what a task is matched against), and `resources` — " ++
        "every file of the skill with its SHA-256 digest and size. A relative " ++
        "path a playbook names resolves to skill://<skill>/<that path>, and " ++
        "every such URI is in `resources`."))),
    ("skills".toList, .array (entries crates table))]
  (crates.toStringPretty index).getD "\x7b\"skills\":[]\x7d".toList

def read (uri : Str) : Option (Str × Str) :=
  if uri = INDEX_URI then some ("application/json".toList, indexJson crates table)
  else do
    let rest ← stripPrefix SCHEME uri
    let (name, path) ← splitOnce '/' rest
    let skill ← table.find? fun skill => skill.name = name
    if path = ENTRY then some ("text/markdown".toList, skill.skillMd)
    else
      let file ← skill.files.find? fun file => file.path = path
      some (file.mimeType, file.text)

/-! ## Resources -/

/-- A resource of the protocol, as `Resource::new` and its setters build it. -/
structure Resource where
  uri : Str
  name : Str
  mimeType : Option Str
  size : Option Nat
  deriving DecidableEq

/-- A resource with the setters that `resources` uses beside. -/
structure ListedResource extends Resource where
  title : Option Str
  description : Option Str
  /-- The `_meta` of the resource, a `MetaObject`. -/
  metaObject : Option Map

/-- The loop over the frontmatter in `resources`. -/
def metaOf (frontmatter : Map) : Map :=
  frontmatter.foldl (fun out field =>
    if field.1 ≠ "name".toList ∧ field.1 ≠ "description".toList then
      Map.insert (META_PREFIX ++ field.1) field.2 out
    else out) []

/-- The body of the loop over the skills. -/
def skillResource (self : Fin table.length) : ListedResource :=
  let skill := table.get self
  let metaObject := metaOf (frontmatter crates table self)
  { uri := skill.entryUri
    name := skill.name
    mimeType := some "text/markdown".toList
    size := some (byteLen skill.skillMd)
    title := some (skill.name ++ " skill".toList)
    description := some (description crates table self)
    metaObject := if metaObject.isEmpty then none else some metaObject }

def resources : List ListedResource :=
  { uri := INDEX_URI
    name := "skill-index".toList
    mimeType := some "application/json".toList
    size := none
    title := some "Skill catalog".toList
    description := some (String.toList
      ("The skills this server publishes — the same entries as `skills/list`, for a " ++
        "client without the io.modelcontextprotocol/skills extension: each skill's " ++
        "SKILL.md URI, its frontmatter (name and trigger description), and its file " ++
        "manifest with SHA-256 digests."))
    metaObject := none } :: (iter table).map (skillResource crates table)

structure ResourceTemplate where
  uriTemplate : Str
  name : Str
  title : Option Str
  description : Option Str
  mimeType : Option Str
  deriving DecidableEq

def PLAYBOOK_TEMPLATE : Str := "skill://\x7bskill\x7d/SKILL.md".toList

def FILE_TEMPLATE : Str := "skill://\x7bskill\x7d/\x7b+path\x7d".toList

def resourceTemplates : List ResourceTemplate :=
  [{ uriTemplate := PLAYBOOK_TEMPLATE
     name := "skill-playbook".toList
     title := some "Skill playbook".toList
     description := some (String.toList
       ("The SKILL.md of a named skill. Skill names come from skills/list, the " ++
         "skill://index.json catalog, or this server's instructions."))
     mimeType := some "text/markdown".toList },
   { uriTemplate := FILE_TEMPLATE
     name := "skill-file".toList
     title := some "Skill supporting file".toList
     description := some (String.toList
       ("A file bundled with a skill, at the path its SKILL.md names relative to the " ++
         "skill root. Every such URI is in the skill's manifest."))
     mimeType := none }]

/-! ## Directories -/

/-- The variables of the loop over a skill's files. -/
structure Listing where
  out : List Resource
  subdirs : List Str
  isDir : Bool

/-- What stands below a directory in a path of the skill. -/
def belowDir (dir path : Str) : Option Str :=
  if dir.isEmpty then some path
  else (stripPrefix dir path).bind (stripPrefix ['/'])

/-- The body of the loop: `path`, its MIME type and its length. -/
def listFile (name dir : Str) (listing : Listing) (file : Str × Str × Nat) :
    Listing :=
  let (path, mime, len) := file
  match belowDir dir path with
  | none => listing
  | some below =>
      match splitOnce '/' below with
      | none =>
          { listing with
            isDir := true
            out := listing.out ++
              [⟨SCHEME ++ name ++ '/' :: path, below, some mime, some len⟩] }
      | some (child, _) =>
          if child ∈ listing.subdirs then { listing with isDir := true }
          else
            let childPath := if dir.isEmpty then child else dir ++ '/' :: child
            { isDir := true
              subdirs := listing.subdirs ++ [child]
              out := listing.out ++
                [⟨SCHEME ++ name ++ '/' :: childPath, child, some DIRECTORY_MIME,
                  none⟩] }

/-- `SKILL.md` first, then the supporting files. -/
def Skill.fileTriples (skill : Skill) : List (Str × Str × Nat) :=
  (ENTRY, "text/markdown".toList, byteLen skill.skillMd) ::
    skill.files.map fun f => (f.path, f.mimeType, byteLen f.text)

/-- A segment that no directory of a skill has. -/
def badSegment (seg : Str) : Bool :=
  seg.isEmpty || seg = ['.'] || seg = ['.', '.']

def directory (uri : Str) : Option (List Resource) := do
  let rest ← stripPrefix SCHEME uri
  let (name, dir) := match splitOnce '/' rest with
    | some (name, dir) => (name, some dir)
    | none => (rest, none)
  if name.isEmpty then none
  else
    let skill ← table.find? fun skill => skill.name = name
    let dir ← match dir with
      | none => some []
      | some [] => none
      | some dir => some dir
    if !dir.isEmpty && (dir.splitOn '/').any badSegment then none
    else
      let listing := skill.fileTriples.foldl (listFile name dir)
        ⟨[], [], dir.isEmpty⟩
      if listing.isDir then some listing.out else none

end table

end McpTemplate.Skills
