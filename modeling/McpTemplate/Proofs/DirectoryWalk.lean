import McpTemplate.Lib.Walk
import McpTemplate.Proofs.Directory

/-!
# Walking the directories of a skill

Starting at a skill's root and going into every child that is marked as a
directory, a client comes to each file of the manifest once. The directories
of a skill are a tree in the sense of `Lib.Walk`: a child's URI is its
directory's, a slash and the child's name, so it grows with every step down and
the URIs of the files bound it; and names are distinct and have no slash, so
what lies below two directories never meets.

That the walk leaves nothing out is an induction on the length of a path: what
stands in a directory is listed there, and the directory stands in another.
-/

namespace McpTemplate.Skills

open Lib Json

variable {crates : Crates} {table : List Skill} {skill : Skill} {dir : Str}

/-- The children that a client goes into. -/
def asDirectory (r : Resource) : Option Str :=
  if r.mimeType = some DIRECTORY_MIME then some r.uri else none

theorem asDirectory_eq_some {r : Resource} {uri : Str} :
    asDirectory r = some uri ↔ r.mimeType = some DIRECTORY_MIME ∧ r.uri = uri := by
  unfold asDirectory
  split
  · next h => simp [h]
  · next h => simp [h]

/-! ## One level -/

theorem mem_listing {r : Resource} : r ∈ (listing skill dir).out ↔
    FileIn skill.name dir skill.allFiles r ∨
      ∃ child, DirIn dir skill.allFiles child ∧
        r = dirResource skill.name dir child := by
  have hl := listed_listing skill dir
  rw [hl.out]
  simp only [hl.subdirs]

/-- A child's URI is its directory's, a slash and its name. -/
theorem uri_of_listed {r : Resource} (h : r ∈ (listing skill dir).out) :
    r.uri = skill.dirUri dir ++ '/' :: r.name ∧ '/' ∉ r.name := by
  rcases mem_listing.1 h with ⟨f, -, below, hpath, hslash, rfl⟩ |
    ⟨child, ⟨-, -, -, -, hslash⟩, rfl⟩
  · refine ⟨?_, hslash⟩
    show SCHEME ++ skill.name ++ '/' :: f.path = _
    rw [hpath, Skill.dirUri_join]
    rfl
  · exact ⟨by rw [← Skill.dirUri_join]; rfl, hslash⟩

theorem uris_nodup (h : skill.Sound) (dir : Str) :
    ((listing skill dir).out.map Resource.uri).Nodup := by
  have hnames : ((listing skill dir).out.map Resource.name).Nodup :=
    names_nodup skill.name dir _ _ h.paths
  refine List.Nodup.of_map (fun uri => uri.drop ((skill.dirUri dir).length + 1)) ?_
  rw [List.map_map]
  refine (List.map_congr_left fun r hr => ?_) ▸ hnames
  rw [Function.comp_apply, (uri_of_listed hr).1]
  simp [List.drop_append]

/-- A directory listed is one of the skill's, and its URI is longer. -/
theorem dir_of_listed (h : skill.Sound) {r : Resource}
    (hr : r ∈ (listing skill dir).out) {uri : Str}
    (huri : asDirectory r = some uri) :
    ∃ child, child ≠ [] ∧ skill.HasDir (join dir child) ∧
      uri = skill.dirUri (join dir child) ∧
      uri = skill.dirUri dir ++ '/' :: child := by
  obtain ⟨hmime, rfl⟩ := asDirectory_eq_some.1 huri
  rcases mem_listing.1 hr with ⟨f, hf, _, _, _, rfl⟩ |
    ⟨child, ⟨f, hf, rest, hpath, _⟩, rfl⟩
  · exact absurd (Option.some.inj hmime) (h.mime f hf)
  · have hne : child ≠ [] := by
      have hseg := h.segments f hf
      rw [hpath] at hseg
      exact (segments_append.1 hseg.join_right).1.ne_nil
    have hjoin : join dir child ≠ [] := by
      unfold join
      split
      · exact hne
      · simp
    refine ⟨child, hne, .inr ⟨f, hf, rest, by rw [hpath, join_append]⟩, ?_, ?_⟩
    · rw [Skill.dirUri_eq hjoin]; rfl
    · rw [← Skill.dirUri_join]; rfl

/-! ## The tree -/

/-- The directories of a skill, as URIs. -/
def Skill.IsDirUri (skill : Skill) (uri : Str) : Prop :=
  ∃ dir, skill.HasDir dir ∧ uri = skill.dirUri dir

/-- A bound on the URIs of a skill's directories. -/
def Skill.uriBound (skill : Skill) : Nat :=
  skill.allFiles.foldr (fun f n => (skill.fileUri f).length + n) 0

def Skill.rank (skill : Skill) (uri : Str) : Nat := skill.uriBound - uri.length

theorem length_fileUri_le {f : SkillFile} (hf : f ∈ skill.allFiles) :
    (skill.fileUri f).length ≤ skill.uriBound := by
  unfold Skill.uriBound
  generalize skill.allFiles = files at hf ⊢
  induction files with
  | nil => cases hf
  | cons g files ih =>
      rw [List.foldr_cons]
      rcases List.mem_cons.1 hf with rfl | hf
      · omega
      · have := ih hf
        omega

theorem length_dirUri (h : skill.HasDir dir) :
    (skill.dirUri dir).length < skill.uriBound := by
  obtain ⟨f, hf, below, hpath⟩ := h.file
  refine Nat.lt_of_lt_of_le ?_ (length_fileUri_le hf)
  rw [Skill.fileUri, hpath, Skill.dirUri_join, List.length_append,
    List.length_cons]
  omega

theorem directory_isDirUri (h : Walkable table) (hskill : skill ∈ table)
    {uri : Str} (huri : skill.IsDirUri uri) {nodes : List Resource}
    (hlist : directory table uri = some nodes) :
    ∃ dir, skill.HasDir dir ∧ uri = skill.dirUri dir ∧
      nodes = (listing skill dir).out := by
  obtain ⟨dir, hdir, rfl⟩ := huri
  rw [directory_dirUri h hskill hdir] at hlist
  exact ⟨dir, hdir, rfl, (Option.some.inj hlist).symm⟩

theorem tree (h : Walkable table) (hskill : skill ∈ table) :
    Tree (directory table) asDirectory skill.rank skill.IsDirUri where
  lists := by
    intro uri huri
    obtain ⟨dir, hdir, rfl⟩ := huri
    exact ⟨_, directory_dirUri h hskill hdir⟩
  dirs := by
    intro uri huri nodes hlist r hr child hchild
    obtain ⟨dir, -, rfl, rfl⟩ := directory_isDirUri h hskill huri hlist
    obtain ⟨name, -, hdir, heq, hlen⟩ :=
      dir_of_listed (h.sound skill hskill) hr hchild
    refine ⟨⟨_, hdir, heq⟩, ?_⟩
    have hbound := length_dirUri hdir
    rw [← heq, hlen, List.length_append, List.length_cons] at hbound
    rw [Skill.rank, Skill.rank, hlen, List.length_append, List.length_cons]
    omega

/-- What lies below a directory begins with its URI and a slash. -/
def Inside (dir uri : Str) : Prop := ∃ rest, uri = dir ++ '/' :: rest

theorem apart (h : Walkable table) (hskill : skill ∈ table) :
    Apart (directory table) asDirectory Resource.uri Inside skill.IsDirUri where
  nodup := by
    intro uri huri nodes hlist
    obtain ⟨dir, -, rfl, rfl⟩ := directory_isDirUri h hskill huri hlist
    exact uris_nodup (h.sound skill hskill) dir
  inside := by
    intro uri huri nodes hlist r hr
    obtain ⟨dir, -, rfl, rfl⟩ := directory_isDirUri h hskill huri hlist
    exact ⟨_, (uri_of_listed hr).1⟩
  deeper := by
    intro uri huri nodes hlist r hr child hchild below hbelow
    obtain ⟨dir, -, rfl, rfl⟩ := directory_isDirUri h hskill huri hlist
    obtain ⟨-, rfl⟩ := asDirectory_eq_some.1 hchild
    obtain ⟨rest, rfl⟩ := hbelow
    refine ⟨r.name ++ '/' :: rest, ?_⟩
    rw [(uri_of_listed hr).1, List.append_assoc, List.cons_append]
  outside := by
    intro uri huri nodes hlist r hr child hchild r' hr' hinside
    obtain ⟨dir, -, rfl, rfl⟩ := directory_isDirUri h hskill huri hlist
    obtain ⟨-, rfl⟩ := asDirectory_eq_some.1 hchild
    obtain ⟨rest, heq⟩ := hinside
    obtain ⟨huri', hslash⟩ := uri_of_listed hr'
    rw [(uri_of_listed hr).1, huri', List.append_assoc, List.cons_append] at heq
    -- a name would have a slash
    rw [(List.cons.inj (List.append_cancel_left heq)).2] at hslash
    exact hslash (by simp)
  disjoint := by
    intro uri huri nodes hlist r hr r' hr' child child' hchild hchild' hne below
      hbelow hbelow'
    obtain ⟨dir, -, rfl, rfl⟩ := directory_isDirUri h hskill huri hlist
    obtain ⟨-, rfl⟩ := asDirectory_eq_some.1 hchild
    obtain ⟨-, rfl⟩ := asDirectory_eq_some.1 hchild'
    obtain ⟨rest, rfl⟩ := hbelow
    obtain ⟨rest', heq⟩ := hbelow'
    obtain ⟨hr, hslash⟩ := uri_of_listed hr
    obtain ⟨hr', hslash'⟩ := uri_of_listed hr'
    rw [hr, hr', List.append_assoc, List.append_assoc] at heq
    have htail := (List.cons.inj (List.append_cancel_left heq)).2
    exact hne (by rw [hr, hr', (split_unique hslash hslash' htail).1])

/-! ## Nothing is left out -/

theorem HasDir.parent (h : skill.Sound) (hdir : skill.HasDir dir)
    (hne : dir ≠ []) : ∃ parent child, skill.HasDir parent ∧
      parent.length < dir.length ∧
      dirResource skill.name parent child ∈ (listing skill parent).out ∧
      (dirResource skill.name parent child).uri = skill.dirUri dir := by
  obtain ⟨parent, child, hjoin, hslash, hlen⟩ := (hdir.segments h hne).exists_join
  obtain ⟨f, hf, below, hpath⟩ := hdir.resolve_left hne
  have hbelow : f.path = join parent (child ++ '/' :: below) := by
    rw [hpath, join_append, ← hjoin]
  refine ⟨parent, child, .of_join hf hbelow, hlen, ?_, ?_⟩
  · exact mem_listing.2 (.inr ⟨child, ⟨f, hf, below, hbelow, hslash⟩, rfl⟩)
  · rw [Skill.dirUri_eq hne, hjoin]
    rfl

/-- What is met below a directory is met from the root. -/
theorem below_root (h : Walkable table) (hskill : skill ∈ table)
    (hdir : skill.HasDir dir) {r : Resource}
    (hr : Below (directory table) asDirectory (skill.dirUri dir) r) :
    Below (directory table) asDirectory skill.rootUri r := by
  induction hlen : dir.length using Nat.strong_induction_on generalizing dir with
  | _ n ih =>
      by_cases hne : dir = []
      · rw [hne] at hr
        exact hr
      · obtain ⟨parent, child, hparent, hshorter, hlisted, huri⟩ :=
          HasDir.parent (h.sound skill hskill) hdir hne
        refine ih parent.length (hlen ▸ hshorter) hparent ?_ rfl
        exact .deep (directory_dirUri h hskill hparent) hlisted
          (asDirectory_eq_some.2 ⟨rfl, huri⟩) hr

/-- Every directory of a skill but its root is met. -/
theorem below_dir (h : Walkable table) (hskill : skill ∈ table)
    (hdir : skill.HasDir dir) (hne : dir ≠ []) :
    ∃ r, Below (directory table) asDirectory skill.rootUri r ∧
      asDirectory r = some (skill.dirUri dir) := by
  obtain ⟨parent, child, hparent, -, hlisted, huri⟩ :=
    HasDir.parent (h.sound skill hskill) hdir hne
  refine ⟨_, below_root h hskill hparent ?_, asDirectory_eq_some.2 ⟨rfl, huri⟩⟩
  exact .child (directory_dirUri h hskill hparent) hlisted

/-- Every file of a skill is met. -/
theorem below_file (h : Walkable table) (hskill : skill ∈ table)
    {f : SkillFile} (hf : f ∈ skill.allFiles) :
    ∃ below, Below (directory table) asDirectory skill.rootUri
      (fileResource skill.name f below) := by
  obtain ⟨dir, below, hpath, hslash, -⟩ :=
    ((h.sound skill hskill).segments f hf).exists_join
  have hdir : skill.HasDir dir := .of_join hf hpath
  refine ⟨below, below_root h hskill hdir ?_⟩
  exact .child (directory_dirUri h hskill hdir)
    (mem_listing.2 (.inl ⟨f, hf, below, hpath, hslash, rfl⟩))

/-- And nothing but these is met. -/
theorem below_cases (h : Walkable table) (hskill : skill ∈ table) {r : Resource}
    (hr : Below (directory table) asDirectory skill.rootUri r) :
    (∃ f ∈ skill.allFiles, ∃ below, r = fileResource skill.name f below) ∨
      r.mimeType = some DIRECTORY_MIME := by
  obtain ⟨uri, nodes, huri, hlist, hmem⟩ :=
    (tree h hskill).below_listed hr ⟨[], .inl rfl, rfl⟩
  obtain ⟨dir, -, rfl, rfl⟩ := directory_isDirUri h hskill huri hlist
  rcases mem_listing.1 hmem with ⟨f, hf, below, -, -, hr⟩ | ⟨child, -, hr⟩
  · exact .inl ⟨f, hf, below, hr⟩
  · exact .inr (by rw [hr]; rfl)

/-! ## The walk -/

/-- Nothing is read at the URI of a directory. -/
theorem read_dirUri (h : Walkable table) (hskill : skill ∈ table)
    (hdir : skill.HasDir dir) : read crates table (skill.dirUri dir) = none := by
  have hs := h.sound skill hskill
  rw [Option.eq_none_iff_forall_ne_some]
  rintro ⟨mime, body⟩ hread
  have hindex : skill.dirUri dir ≠ INDEX_URI := by
    by_cases hne : dir = []
    · intro heq
      rw [hne] at heq
      have hname : skill.name = "index.json".toList :=
        List.append_cancel_left heq
      exact hs.no_dot (hname ▸ by decide)
    · rw [Skill.dirUri_eq hne]
      exact fileUri_ne_index skill ⟨dir, [], []⟩
  obtain ⟨skill', hskill', f, hf, huri, -, -⟩ := read_file hread hindex
  have hs' := h.sound skill' hskill'
  by_cases hne : dir = []
  · -- the root has no slash after the name
    rw [hne] at huri
    have hname : skill.name = skill'.name ++ '/' :: f.path := by
      rw [Skill.fileUri, List.append_assoc] at huri
      exact List.append_cancel_left huri
    exact hs.no_slash (by rw [hname]; simp)
  · rw [Skill.dirUri_eq hne] at huri
    obtain ⟨hname, hpath⟩ :=
      fileUri_inj (f := ⟨dir, [], []⟩) hs.no_slash hs'.no_slash huri
    obtain rfl : skill' = skill :=
      List.inj_on_of_nodup_map h.names hskill' hskill hname.symm
    obtain ⟨g, hg, below, hgpath⟩ := hdir.resolve_left hne
    exact hs.paths.no_path_below hf hg below (by rw [hgpath]; exact congrArg (· ++ _) hpath)

/-- A child that is no directory. -/
def isFile (r : Resource) : Bool := r.mimeType ≠ some DIRECTORY_MIME

theorem isFile_fileResource (h : skill.Sound) {f : SkillFile}
    (hf : f ∈ skill.allFiles) (below : Str) :
    isFile (fileResource skill.name f below) = true := by
  have hmime : some f.mimeType ≠ some DIRECTORY_MIME :=
    fun heq => h.mime f hf (Option.some.inj heq)
  simpa [isFile, fileResource] using hmime

/-- A file that is met is one of the skill's. -/
theorem file_of_below (h : Walkable table) (hskill : skill ∈ table) {r : Resource}
    (hr : Below (directory table) asDirectory skill.rootUri r)
    (hfile : isFile r = true) :
    ∃ f ∈ skill.allFiles, ∃ below, r = fileResource skill.name f below := by
  rcases below_cases h hskill hr with hr | hmime
  · exact hr
  · simp [isFile, hmime] at hfile

theorem fileUris_nodup (h : skill.Sound) :
    (skill.allFiles.map skill.fileUri).Nodup := by
  refine (List.nodup_map_iff_inj_on h.paths.nodup.of_map).2 fun f hf g hg heq => ?_
  exact List.inj_on_of_nodup_map h.paths.nodup hf hg
    (fileUri_inj h.no_slash h.no_slash heq).2

/-- The files that a walk meets are those of the manifest. -/
theorem files_perm (h : Walkable table) (hskill : skill ∈ table)
    {children : List Resource} (hnodup : (children.map Resource.uri).Nodup)
    (hmem : ∀ r, r ∈ children ↔
      Below (directory table) asDirectory skill.rootUri r) :
    ((children.filter isFile).map Resource.uri).Perm
      (skill.allFiles.map skill.fileUri) := by
  have hs := h.sound skill hskill
  have hfiles : ((children.filter isFile).map Resource.uri).Nodup :=
    hnodup.sublist (List.filter_sublist.map _)
  refine (List.perm_ext_iff_of_nodup hfiles (fileUris_nodup hs)).2 fun uri => ?_
  simp only [List.mem_map, List.mem_filter, hmem]
  constructor
  · rintro ⟨r, ⟨hr, hfile⟩, rfl⟩
    obtain ⟨f, hf, below, rfl⟩ := file_of_below h hskill hr hfile
    exact ⟨f, hf, rfl⟩
  · rintro ⟨f, hf, rfl⟩
    obtain ⟨below, hbelow⟩ := below_file h hskill hf
    exact ⟨_, ⟨hbelow, isFile_fileResource hs hf below⟩, rfl⟩

/-- Walking a skill's directories yields its manifest: with fuel enough the
walk succeeds, it lists no URI twice, and its files are the manifest's, with
the type and the size that `read` has for them. And `directory` answers at the
roots and at what such walks meet, where `read` does not. -/
theorem walk_yields_manifest (crates : Crates) (table : List Skill)
    (h : Walkable table) :
    (∀ skill ∈ table, ∃ bound children,
      (∀ fuel, bound ≤ fuel →
        walk (directory table) asDirectory fuel skill.rootUri = some children) ∧
      (children.map Resource.uri).Nodup ∧
      ((children.filter isFile).map fun r => some (Value.string r.uri)).Perm
        ((manifest (skill.buildEntry crates).2).map fun item =>
          item.get "uri".toList) ∧
      ∀ r ∈ children, isFile r = true → ∃ mime body,
        read crates table r.uri = some (mime, body) ∧
          r.mimeType = some mime ∧ r.size = some (asBytes body).length) ∧
      ∀ uri nodes, directory table uri = some nodes →
        (∃ skill ∈ table, uri = skill.rootUri ∨ ∃ fuel children,
          walk (directory table) asDirectory fuel skill.rootUri = some children ∧
            ∃ r ∈ children, asDirectory r = some uri) ∧
          read crates table uri = none := by
  constructor
  · intro skill hskill
    have hroot : skill.IsDirUri skill.rootUri := ⟨[], .inl rfl, rfl⟩
    have htree := tree h hskill
    obtain ⟨children, hwalk, hmem⟩ := htree.walk_spec hroot (Nat.lt_succ_self _)
    have hnodup := ((apart h hskill).walk_nodup htree hroot hwalk).1
    refine ⟨_, children, fun fuel hfuel => walk_mono hfuel hwalk, hnodup, ?_, ?_⟩
    · have hperm := (files_perm h hskill hnodup hmem).map fun uri =>
        some (Value.string uri)
      rw [manifest_buildEntry, List.map_map]
      rw [List.map_map, List.map_map] at hperm
      refine hperm.trans (.of_eq (List.map_congr_left fun f _ => ?_))
      exact (item_uri _ _).symm
    · intro r hr hfile
      obtain ⟨f, hf, below, rfl⟩ := file_of_below h hskill ((hmem r).1 hr) hfile
      refine ⟨_, _, read_fileUri h.named h.filed hskill hf, rfl, ?_⟩
      rw [length_asBytes]
      rfl
  · intro uri nodes hlist
    obtain ⟨skill, hskill, dir, hdir, rfl, -⟩ := directory_eq_some hlist
    refine ⟨⟨skill, hskill, ?_⟩, read_dirUri h hskill hdir⟩
    by_cases hne : dir = []
    · exact .inl (by rw [hne]; rfl)
    · obtain ⟨r, hr, huri⟩ := below_dir h hskill hdir hne
      obtain ⟨children, hwalk, hmem⟩ :=
        (tree h hskill).walk_spec ⟨[], .inl rfl, rfl⟩ (Nat.lt_succ_self _)
      exact .inr ⟨_, children, hwalk, r, (hmem r).2 hr, huri⟩

theorem walkable_manual : Walkable [manual] := by
  refine ⟨by decide, fun skill hskill => ?_⟩
  rw [List.mem_singleton.1 hskill]
  have hchars : manual.name.all (fun c => c.isAlphanum || c = '-' || c = '_') =
      true := by decide
  refine ⟨by decide, fun c hc => ?_, ⟨by decide, by decide⟩, ?_, by decide⟩
  · simpa [or_assoc] using List.all_eq_true.1 hchars c hc
  · unfold Segments
    decide

theorem walk_yields_manifest_manual :
    (∀ skill ∈ [manual], ∃ bound children,
      (∀ fuel, bound ≤ fuel →
        walk (directory [manual]) asDirectory fuel skill.rootUri =
          some children) ∧
      (children.map Resource.uri).Nodup ∧
      ((children.filter isFile).map fun r => some (Value.string r.uri)).Perm
        ((manifest (skill.buildEntry plainCrates).2).map fun item =>
          item.get "uri".toList) ∧
      ∀ r ∈ children, isFile r = true → ∃ mime body,
        read plainCrates [manual] r.uri = some (mime, body) ∧
          r.mimeType = some mime ∧ r.size = some (asBytes body).length) ∧
      read plainCrates [manual] "skill://server/references/deep".toList = none :=
  have hwalk := walk_yields_manifest plainCrates [manual] walkable_manual
  ⟨hwalk.1, (hwalk.2 _ [⟨"skill://server/references/deep/é.txt".toList,
    "é.txt".toList, some "text/plain".toList, some 2⟩] (by decide +kernel)).2⟩

end McpTemplate.Skills
