import Mathlib.Data.List.Nodup
import McpTemplate.Proofs.Resolve

/-!
# One directory

`directory` has no tree to look into: it goes over the flat paths of a skill
and strips the directory off each. What it answers is read back here. A URI
is answered where it spells a directory, and a directory is the root or what a
path continues after a slash; the answer shows each file that stands directly
below, and once each name that a longer path continues.

The loop is handled by one invariant on the files gone through so far, and
the names it has listed are distinct because no path continues another.
-/

namespace McpTemplate.Skills

open Lib Json

/-! ## Paths -/

/-- A path whose segments all name something. -/
def Segments (path : Str) : Prop :=
  ∀ seg ∈ path.splitOn '/', seg ≠ [] ∧ seg ≠ ['.'] ∧ seg ≠ ['.', '.']

theorem segments_append {dir path : Str} :
    Segments (dir ++ '/' :: path) ↔ Segments dir ∧ Segments path := by
  rw [Segments, List.splitOn_append_cons_self]
  exact List.forall_mem_append

theorem Segments.ne_nil {path : Str} (h : Segments path) : path ≠ [] := by
  rintro rfl
  exact (h [] (by simp)).1 rfl

theorem Segments.any_badSegment {path : Str} (h : Segments path) :
    (path.splitOn '/').any badSegment = false := by
  rw [List.any_eq_false]
  intro seg hseg
  obtain ⟨hne, hdot, hdots⟩ := h seg hseg
  simp [badSegment, hne, hdot, hdots]

/-- What stands in a directory; the root is the empty path. -/
def join (dir path : Str) : Str := if dir.isEmpty then path else dir ++ '/' :: path

@[simp] theorem join_nil (path : Str) : join [] path = path := rfl

theorem join_eq {dir : Str} (h : dir ≠ []) (path : Str) :
    join dir path = dir ++ '/' :: path := by
  rw [join, if_neg (by simpa using h)]

theorem join_inj {dir path path' : Str} (h : join dir path = join dir path') :
    path = path' := by
  unfold join at h
  split at h
  · exact h
  · exact (List.cons.inj (List.append_cancel_left h)).2

theorem join_append (dir path rest : Str) :
    join dir (path ++ rest) = join dir path ++ rest := by
  unfold join
  split
  · rfl
  · rw [List.append_assoc, List.cons_append]

theorem Segments.join_left {dir path : Str} (h : Segments (join dir path))
    (hdir : dir ≠ []) : Segments dir := by
  rw [join_eq hdir] at h
  exact (segments_append.1 h).1

theorem Segments.join_right {dir path : Str} (h : Segments (join dir path)) :
    Segments path := by
  unfold join at h
  split at h
  · exact h
  · exact (segments_append.1 h).2

/-- Every path stands in a directory. -/
theorem Segments.exists_join {path : Str} (h : Segments path) :
    ∃ dir child, path = join dir child ∧ '/' ∉ child ∧
      dir.length < path.length := by
  by_cases hslash : '/' ∈ path
  · obtain ⟨after, before, hrev, hafter⟩ :=
      List.eq_append_cons_of_mem (List.mem_reverse.2 hslash)
    have hpath : path = before.reverse ++ '/' :: after.reverse := by
      rw [← List.reverse_reverse path, hrev]
      simp
    have hdir : before.reverse ≠ [] := by
      rw [hpath] at h
      exact (segments_append.1 h).1.ne_nil
    refine ⟨before.reverse, after.reverse, ?_, by simpa using hafter, ?_⟩
    · rw [join_eq hdir, hpath]
    · rw [hpath, List.length_append, List.length_cons]
      omega
  · exact ⟨[], path, rfl, hslash, List.length_pos_iff.2 h.ne_nil⟩

theorem belowDir_eq_some {dir path below : Str} :
    belowDir dir path = some below ↔ path = join dir below := by
  unfold belowDir join
  split
  · exact Option.some_inj
  · simp only [Option.bind_eq_some_iff, stripPrefix_eq_some]
    constructor
    · rintro ⟨rest, rfl, rfl⟩; rfl
    · rintro rfl; exact ⟨_, rfl, rfl⟩

/-! ## The loop -/

/-- A file of a skill, as the loop is given it. -/
def SkillFile.triple (f : SkillFile) : Str × Str × Nat :=
  (f.path, f.mimeType, byteLen f.text)

theorem fileTriples_eq (skill : Skill) :
    skill.fileTriples = skill.allFiles.map SkillFile.triple := rfl

/-- The resource of a file that stands directly in the directory. -/
def fileResource (name : Str) (f : SkillFile) (below : Str) : Resource :=
  ⟨SCHEME ++ name ++ '/' :: f.path, below, some f.mimeType,
    some (byteLen f.text)⟩

/-- The resource of a directory in the directory. -/
def dirResource (name dir child : Str) : Resource :=
  ⟨SCHEME ++ name ++ '/' :: join dir child, child, some DIRECTORY_MIME, none⟩

/-- `r` is the resource of one of the files, which stands directly in `dir`. -/
def FileIn (name dir : Str) (files : List SkillFile) (r : Resource) : Prop :=
  ∃ f ∈ files, ∃ below, f.path = join dir below ∧ '/' ∉ below ∧
    r = fileResource name f below

/-- One of the paths goes on below `child` of `dir`. -/
def DirIn (dir : Str) (files : List SkillFile) (child : Str) : Prop :=
  ∃ f ∈ files, ∃ rest, f.path = join dir (child ++ '/' :: rest) ∧ '/' ∉ child

theorem fileIn_append {name dir : Str} {files files' : List SkillFile}
    {r : Resource} : FileIn name dir (files ++ files') r ↔
      FileIn name dir files r ∨ FileIn name dir files' r := by
  simp only [FileIn, List.mem_append, or_and_right, exists_or]

theorem dirIn_append {dir : Str} {files files' : List SkillFile} {child : Str} :
    DirIn dir (files ++ files') child ↔
      DirIn dir files child ∨ DirIn dir files' child := by
  simp only [DirIn, List.mem_append, or_and_right, exists_or]

/-- What the loop has found in the files so far. -/
structure Listed (name dir : Str) (start : Bool) (files : List SkillFile)
    (l : Listing) : Prop where
  isDir : l.isDir = true ↔ start = true ∨
    ∃ f ∈ files, ∃ below, f.path = join dir below
  subdirs : ∀ child, child ∈ l.subdirs ↔ DirIn dir files child
  out : ∀ r, r ∈ l.out ↔ FileIn name dir files r ∨
    ∃ child ∈ l.subdirs, r = dirResource name dir child

/-- What the loop does with one file: nothing where the file is elsewhere;
else it lists the file, or a directory it has not seen, or sees it again. -/
theorem listFile_cases (name dir : Str) (l : Listing) (f : SkillFile) :
    (listFile name dir l f.triple = l ∧ ∀ below, f.path ≠ join dir below) ∨
      (∃ below, f.path = join dir below ∧ '/' ∉ below ∧
        listFile name dir l f.triple = { l with
          isDir := true, out := l.out ++ [fileResource name f below] }) ∨
      ∃ child rest, f.path = join dir (child ++ '/' :: rest) ∧ '/' ∉ child ∧
        ((child ∈ l.subdirs ∧
            listFile name dir l f.triple = { l with isDir := true }) ∨
          (child ∉ l.subdirs ∧ listFile name dir l f.triple =
            { isDir := true, subdirs := l.subdirs ++ [child],
              out := l.out ++ [dirResource name dir child] })) := by
  cases hbelow : belowDir dir f.path with
  | none =>
      refine .inl ⟨by simp [listFile, SkillFile.triple, hbelow], fun below h => ?_⟩
      rw [belowDir_eq_some.2 h] at hbelow
      cases hbelow
  | some below =>
      have hpath := belowDir_eq_some.1 hbelow
      refine .inr ?_
      cases hsplit : splitOnce '/' below with
      | none =>
          refine .inl ⟨below, hpath, splitOnce_eq_none.1 hsplit, ?_⟩
          simp [listFile, SkillFile.triple, hbelow, hsplit, fileResource]
      | some parts =>
          obtain ⟨child, rest⟩ := parts
          obtain ⟨rfl, hchild⟩ := splitOnce_eq_some.1 hsplit
          refine .inr ⟨child, rest, hpath, hchild, ?_⟩
          by_cases hmem : child ∈ l.subdirs
          · refine .inl ⟨hmem, ?_⟩
            simp [listFile, SkillFile.triple, hbelow, hsplit, hmem]
          · refine .inr ⟨hmem, ?_⟩
            simp [listFile, SkillFile.triple, hbelow, hsplit, hmem, dirResource,
              join]

theorem dirIn_singleton {dir child : Str} {f : SkillFile} :
    DirIn dir [f] child ↔
      ∃ rest, f.path = join dir (child ++ '/' :: rest) ∧ '/' ∉ child := by
  simp [DirIn]

theorem fileIn_singleton {name dir : Str} {f : SkillFile} {r : Resource} :
    FileIn name dir [f] r ↔ ∃ below, f.path = join dir below ∧ '/' ∉ below ∧
      r = fileResource name f below := by
  simp [FileIn]

theorem split_unique {child rest child' rest' : Str} (h : '/' ∉ child)
    (h' : '/' ∉ child') (heq : child ++ '/' :: rest = child' ++ '/' :: rest') :
    child = child' ∧ rest = rest' := by
  have hsplit := splitOnce_append h rest
  rw [heq, splitOnce_append h' rest'] at hsplit
  have hpair := Prod.mk.inj (Option.some.inj hsplit)
  exact ⟨hpair.1.symm, hpair.2.symm⟩

/-- A file that stands directly in the directory is no path below a child. -/
theorem not_dirIn_of_direct {dir below : Str} {f : SkillFile}
    (h : f.path = join dir below) (hslash : '/' ∉ below) (child : Str) :
    ¬ DirIn dir [f] child := by
  rw [dirIn_singleton]
  rintro ⟨rest, hpath, -⟩
  have heq := join_inj (h.symm.trans hpath)
  exact hslash (by rw [heq]; simp)

theorem dirIn_below {dir child rest : Str} {f : SkillFile}
    (h : f.path = join dir (child ++ '/' :: rest)) (hslash : '/' ∉ child)
    (child' : Str) : DirIn dir [f] child' ↔ child' = child := by
  rw [dirIn_singleton]
  constructor
  · rintro ⟨rest', hpath, hslash'⟩
    exact (split_unique hslash' hslash (join_inj (hpath.symm.trans h))).1
  · rintro rfl
    exact ⟨rest, h, hslash⟩

theorem fileIn_direct {name dir below : Str} {f : SkillFile}
    (h : f.path = join dir below) (hslash : '/' ∉ below) (r : Resource) :
    FileIn name dir [f] r ↔ r = fileResource name f below := by
  rw [fileIn_singleton]
  constructor
  · rintro ⟨below', hpath, -, rfl⟩
    rw [join_inj (hpath.symm.trans h)]
  · rintro rfl
    exact ⟨below, h, hslash, rfl⟩

theorem not_fileIn_below {name dir child rest : Str} {f : SkillFile}
    (h : f.path = join dir (child ++ '/' :: rest)) (r : Resource) :
    ¬ FileIn name dir [f] r := by
  rw [fileIn_singleton]
  rintro ⟨below, hpath, hslash, -⟩
  have heq := join_inj (hpath.symm.trans h)
  exact hslash (by rw [heq]; simp)

theorem Listed.step {name dir : Str} {start : Bool} {files : List SkillFile}
    {l : Listing} (h : Listed name dir start files l) (f : SkillFile) :
    Listed name dir start (files ++ [f]) (listFile name dir l f.triple) := by
  have hdir (hf : ∃ below, f.path = join dir below) :
      ∃ f' ∈ files ++ [f], ∃ below, f'.path = join dir below :=
    ⟨f, List.mem_append_right _ List.mem_cons_self, hf⟩
  rcases listFile_cases name dir l f with ⟨hl, hne⟩ | ⟨below, hpath, hslash, hl⟩ |
    ⟨child, rest, hpath, hslash, ⟨hmem, hl⟩ | ⟨hmem, hl⟩⟩ <;> rw [hl]
  · refine ⟨?_, fun child => ?_, fun r => ?_⟩
    · rw [h.isDir]
      simp [hne]
    · rw [h.subdirs, dirIn_append, dirIn_singleton]
      simp [hne]
    · rw [h.out, fileIn_append, fileIn_singleton]
      simp [hne]
  · refine ⟨⟨fun _ => .inr (hdir ⟨_, hpath⟩), fun _ => rfl⟩, fun child => ?_,
      fun r => ?_⟩
    · rw [dirIn_append, or_iff_left (not_dirIn_of_direct hpath hslash child)]
      exact h.subdirs child
    · rw [List.mem_append, List.mem_singleton, h.out, fileIn_append,
        fileIn_direct hpath hslash, or_right_comm]
  · refine ⟨⟨fun _ => .inr (hdir ⟨_, hpath⟩), fun _ => rfl⟩, fun child' => ?_, fun r => ?_⟩
    · rw [dirIn_append, dirIn_below hpath hslash]
      show child' ∈ l.subdirs ↔ _
      rw [← h.subdirs]
      exact ⟨.inl, fun h' => h'.elim id fun h' => h' ▸ hmem⟩
    · rw [fileIn_append, or_iff_left (not_fileIn_below hpath r)]
      exact h.out r
  · refine ⟨⟨fun _ => .inr (hdir ⟨_, hpath⟩), fun _ => rfl⟩, fun child' => ?_, fun r => ?_⟩
    · rw [List.mem_append, List.mem_singleton, dirIn_append, h.subdirs,
        dirIn_below hpath hslash]
    · rw [List.mem_append, List.mem_singleton, h.out, fileIn_append,
        or_iff_left (not_fileIn_below hpath r), or_assoc]
      simp only [List.mem_append, List.mem_singleton, or_and_right, exists_or,
        exists_eq_left]

/-- The loop over all the files of a skill. -/
def listing (skill : Skill) (dir : Str) : Listing :=
  skill.fileTriples.foldl (listFile skill.name dir) ⟨[], [], dir.isEmpty⟩

theorem listed_foldl (name dir : Str) (start : Bool) (files : List SkillFile) :
    Listed name dir start files
      ((files.map SkillFile.triple).foldl (listFile name dir) ⟨[], [], start⟩) := by
  induction files using List.reverseRecOn with
  | nil => exact ⟨by simp, by simp [DirIn], by simp [FileIn]⟩
  | append_singleton files f ih =>
      rw [List.map_append, List.foldl_append]
      exact ih.step f

theorem listed_listing (skill : Skill) (dir : Str) :
    Listed skill.name dir dir.isEmpty skill.allFiles (listing skill dir) := by
  rw [listing, fileTriples_eq]
  exact listed_foldl skill.name dir _ _

/-! ## The names listed -/

/-- No path is repeated, and none continues another. -/
structure PathsApart (files : List SkillFile) : Prop where
  nodup : (files.map SkillFile.path).Nodup
  apart : ∀ f ∈ files, ∀ g ∈ files, ¬ f.path ++ ['/'] <+: g.path

theorem PathsApart.no_path_below {files : List SkillFile} (h : PathsApart files)
    {f g : SkillFile} (hf : f ∈ files) (hg : g ∈ files) (rest : Str) :
    g.path ≠ f.path ++ '/' :: rest := by
  intro heq
  exact h.apart f hf g hg ⟨rest, by rw [heq]; simp⟩

theorem PathsApart.init {files files' : List SkillFile}
    (h : PathsApart (files ++ files')) : PathsApart files := by
  refine ⟨?_, fun f hf g hg => h.apart f (List.mem_append_left _ hf) g
    (List.mem_append_left _ hg)⟩
  have hnodup := h.nodup
  rw [List.map_append] at hnodup
  exact (List.nodup_append.1 hnodup).1

theorem Listed.name_mem {name dir : Str} {start : Bool} {files : List SkillFile}
    {l : Listing} (h : Listed name dir start files l) {x : Str}
    (hx : x ∈ l.out.map Resource.name) :
    (∃ f ∈ files, f.path = join dir x ∧ '/' ∉ x) ∨ DirIn dir files x := by
  obtain ⟨r, hr, rfl⟩ := List.mem_map.1 hx
  rcases (h.out r).1 hr with ⟨f, hf, below, hpath, hslash, rfl⟩ |
    ⟨child, hchild, rfl⟩
  · exact .inl ⟨f, hf, hpath, hslash⟩
  · exact .inr ((h.subdirs child).1 hchild)

theorem names_nodup (name dir : Str) (start : Bool) (files : List SkillFile)
    (h : PathsApart files) :
    (((files.map SkillFile.triple).foldl (listFile name dir)
      ⟨[], [], start⟩).out.map Resource.name).Nodup := by
  induction files using List.reverseRecOn with
  | nil => exact List.nodup_nil
  | append_singleton files f ih =>
      have hlisted := listed_foldl name dir start files
      have hfirst := ih h.init
      have hlast : f ∈ files ++ [f] := List.mem_append_right _ List.mem_cons_self
      rw [List.map_append, List.foldl_append]
      generalize (files.map SkillFile.triple).foldl (listFile name dir)
        ⟨[], [], start⟩ = l at hlisted hfirst ⊢
      show ((listFile name dir l f.triple).out.map Resource.name).Nodup
      rcases listFile_cases name dir l f with ⟨hl, -⟩ |
        ⟨below, hpath, hslash, hl⟩ |
        ⟨child, rest, hpath, hslash, ⟨-, hl⟩ | ⟨hmem, hl⟩⟩ <;> rw [hl]
      · exact hfirst
      · rw [List.map_append, List.map_singleton, ← List.concat_eq_append]
        refine List.Nodup.concat (fun hx => ?_) hfirst
        rcases hlisted.name_mem hx with ⟨g, hg, hgpath, -⟩ | ⟨g, hg, rest, hgpath, -⟩
        · -- the same path twice
          have hnodup := h.nodup
          rw [List.map_append, List.nodup_append] at hnodup
          exact hnodup.2.2 g.path (List.mem_map_of_mem hg) f.path (by simp)
            (hgpath.trans hpath.symm)
        · -- a path that goes on below this one
          refine h.no_path_below hlast (List.mem_append_left _ hg) rest ?_
          rw [hgpath, join_append, hpath]
          rfl
      · exact hfirst
      · rw [List.map_append, List.map_singleton, ← List.concat_eq_append]
        refine List.Nodup.concat (fun hx => ?_) hfirst
        rcases hlisted.name_mem hx with ⟨g, hg, hgpath, -⟩ | hdir
        · refine h.no_path_below (List.mem_append_left _ hg) hlast rest ?_
          rw [hpath, join_append, hgpath]
          rfl
        · exact hmem ((hlisted.subdirs _).2 hdir)

/-! ## The answer -/

/-- What a table promises of each skill. -/
structure Skill.Sound (skill : Skill) : Prop where
  name_ne : skill.name ≠ []
  name_chars : ∀ c ∈ skill.name, c.isAlphanum ∨ c = '-' ∨ c = '_'
  paths : PathsApart skill.allFiles
  segments : ∀ f ∈ skill.allFiles, Segments f.path
  mime : ∀ f ∈ skill.allFiles, f.mimeType ≠ DIRECTORY_MIME

structure Walkable (table : List Skill) : Prop where
  names : (table.map Skill.name).Nodup
  sound : ∀ skill ∈ table, skill.Sound

theorem Skill.Sound.no_slash {skill : Skill} (h : skill.Sound) :
    '/' ∉ skill.name := by
  intro hslash
  exact absurd (h.name_chars '/' hslash) (by decide)

theorem Skill.Sound.no_dot {skill : Skill} (h : skill.Sound) :
    '.' ∉ skill.name := by
  intro hdot
  exact absurd (h.name_chars '.' hdot) (by decide)

variable {crates : Crates} {table : List Skill}

theorem Walkable.named (h : Walkable table) : Named table :=
  ⟨h.names, fun skill hskill => (h.sound skill hskill).no_slash⟩

theorem Walkable.filed (h : Walkable table) : Filed table :=
  fun skill hskill => (h.sound skill hskill).paths.nodup

namespace Skill

variable {skill : Skill} {dir : Str}

/-- The directories of a skill: its root, and what a path goes on below. -/
def HasDir (skill : Skill) (dir : Str) : Prop :=
  dir = [] ∨ ∃ f ∈ skill.allFiles, ∃ below, f.path = dir ++ '/' :: below

def dirUri (skill : Skill) (dir : Str) : Str :=
  if dir.isEmpty then skill.rootUri else SCHEME ++ skill.name ++ '/' :: dir

theorem dirUri_eq (h : dir ≠ []) :
    skill.dirUri dir = SCHEME ++ skill.name ++ '/' :: dir := by
  rw [dirUri, if_neg (by simpa using h)]

/-- What stands in a directory, by its URI. -/
theorem dirUri_join (skill : Skill) (dir path : Str) :
    SCHEME ++ skill.name ++ '/' :: join dir path =
      skill.dirUri dir ++ '/' :: path := by
  unfold dirUri join
  split
  · rfl
  · rw [List.append_assoc _ (_ :: _), List.cons_append]

theorem HasDir.file (h : skill.HasDir dir) :
    ∃ f ∈ skill.allFiles, ∃ below, f.path = join dir below := by
  rcases h with rfl | ⟨f, hf, below, hpath⟩
  · exact ⟨_, List.mem_cons_self, _, rfl⟩
  · by_cases hdir : dir = []
    · exact ⟨f, hf, f.path, by rw [hdir, join_nil]⟩
    · exact ⟨f, hf, below, by rw [join_eq hdir, hpath]⟩

theorem HasDir.of_join {below : Str} {f : SkillFile} (hf : f ∈ skill.allFiles)
    (hpath : f.path = join dir below) : skill.HasDir dir := by
  by_cases hdir : dir = []
  · exact .inl hdir
  · exact .inr ⟨f, hf, below, by rw [hpath, join_eq hdir]⟩

theorem HasDir.segments (h : skill.HasDir dir) (hs : skill.Sound)
    (hdir : dir ≠ []) : Segments dir := by
  obtain ⟨f, hf, below, hpath⟩ := h.file
  have hseg := hs.segments f hf
  rw [hpath] at hseg
  exact hseg.join_left hdir

end Skill

theorem isDir_listing {skill : Skill} {dir : Str} :
    (listing skill dir).isDir = true ↔ skill.HasDir dir := by
  rw [(listed_listing skill dir).isDir]
  constructor
  · rintro (hdir | ⟨f, hf, below, hpath⟩)
    · exact .inl (by simpa using hdir)
    · exact .of_join hf hpath
  · exact fun h => .inr h.file

/-- The directory that a URI asks for: the root where it stops at the name,
and none where it stops at the slash after it. -/
def askedDir : Option Str → Option Str
  | none => some []
  | some [] => none
  | some dir => some dir

theorem askedDir_eq_some {asked : Option Str} {dir : Str} :
    askedDir asked = some dir ↔
      asked = none ∧ dir = [] ∨ asked = some dir ∧ dir ≠ [] := by
  rcases asked with _ | _ | ⟨c, asked⟩ <;> simp [askedDir, eq_comm]
  rintro rfl
  exact List.cons_ne_nil _ _

/-- What `directory` does with the name and the directory it has cut out. -/
def directoryAt (table : List Skill) (name : Str) (asked : Option Str) :
    Option (List Resource) :=
  if name.isEmpty then none
  else
    (table.find? fun skill => skill.name = name).bind fun skill =>
      (askedDir asked).bind fun dir =>
        if !dir.isEmpty && (dir.splitOn '/').any badSegment then none
        else
          let listing := skill.fileTriples.foldl (listFile name dir)
            ⟨[], [], dir.isEmpty⟩
          if listing.isDir then some listing.out else none

theorem directory_eq (table : List Skill) (uri : Str) :
    directory table uri = (stripPrefix SCHEME uri).bind fun rest =>
      match splitOnce '/' rest with
      | some (name, dir) => directoryAt table name (some dir)
      | none => directoryAt table rest none := by
  rw [directory]
  refine Option.bind_congr fun rest _ => ?_
  rcases splitOnce '/' rest with _ | ⟨name, _ | ⟨c, dir⟩⟩ <;> rfl

theorem directoryAt_eq_some {name : Str} {asked : Option Str}
    {nodes : List Resource} :
    directoryAt table name asked = some nodes ↔
      name ≠ [] ∧ ∃ skill dir,
        (table.find? fun skill => skill.name = name) = some skill ∧
        askedDir asked = some dir ∧
        (dir = [] ∨ (dir.splitOn '/').any badSegment = false) ∧
        skill.HasDir dir ∧ nodes = (listing skill dir).out := by
  rw [directoryAt]
  split
  · next hname => simp [List.isEmpty_iff.1 hname]
  · next hname =>
      have hne : name ≠ [] := by simpa using hname
      simp only [Option.bind_eq_some_iff, hne, ne_eq, not_false_eq_true, true_and]
      refine exists_congr fun skill => ?_
      rw [← exists_and_left]
      refine exists_congr fun dir => and_congr_right fun hfind =>
        and_congr_right fun _ => ?_
      obtain ⟨-, rfl⟩ := find?_key_eq_some hfind
      rw [← isDir_listing, listing]
      split
      · next hbad =>
          rw [Bool.and_eq_true] at hbad
          simp [hbad.2, show dir ≠ [] by simpa using hbad.1]
      · next hbad =>
          have hgood : dir = [] ∨ (dir.splitOn '/').any badSegment = false := by
            simpa [or_iff_not_imp_left] using hbad
          simp only [hgood, true_and]
          split
          · next hisDir => simp [hisDir, eq_comm]
          · next hisDir => simp [hisDir]

/-- Every directory of a skill is answered. -/
theorem directory_dirUri (h : Walkable table) {skill : Skill}
    (hskill : skill ∈ table) {dir : Str} (hdir : skill.HasDir dir) :
    directory table (skill.dirUri dir) = some (listing skill dir).out := by
  have hs := h.sound skill hskill
  have hfind := find?_key h.names hskill
  rw [directory_eq]
  by_cases hne : dir = []
  · subst hne
    have huri : skill.dirUri [] = SCHEME ++ skill.name := rfl
    rw [huri, stripPrefix_append, Option.bind_some,
      splitOnce_eq_none.2 hs.no_slash]
    exact directoryAt_eq_some.2
      ⟨hs.name_ne, skill, [], hfind, rfl, .inl rfl, hdir, rfl⟩
  · have hseg := (hdir.segments hs hne).any_badSegment
    rw [Skill.dirUri_eq hne, stripPrefix_uri, Option.bind_some,
      splitOnce_uri hs.no_slash]
    exact directoryAt_eq_some.2 ⟨hs.name_ne, skill, dir, hfind,
      askedDir_eq_some.2 (.inr ⟨rfl, hne⟩), .inr hseg, hdir, rfl⟩

/-- And nothing else is. -/
theorem directory_eq_some {uri : Str} {nodes : List Resource}
    (h : directory table uri = some nodes) :
    ∃ skill ∈ table, ∃ dir, skill.HasDir dir ∧ uri = skill.dirUri dir ∧
      nodes = (listing skill dir).out := by
  rw [directory_eq] at h
  obtain ⟨rest, hrest, h⟩ := Option.bind_eq_some_iff.1 h
  split at h
  · next name path hsplit =>
      obtain ⟨-, skill, dir, hfind, hasked, -, hdir, hnodes⟩ :=
        directoryAt_eq_some.1 h
      obtain ⟨hmem, rfl⟩ := find?_key_eq_some hfind
      rcases askedDir_eq_some.1 hasked with ⟨hasked, -⟩ | ⟨hasked, hne⟩
      · cases hasked
      · cases hasked
        refine ⟨skill, hmem, path, hdir, ?_, hnodes⟩
        rw [Skill.dirUri_eq hne, split_eq_fileUri hrest hsplit]
  · next hsplit =>
      obtain ⟨-, skill, dir, hfind, hasked, -, hdir, hnodes⟩ :=
        directoryAt_eq_some.1 h
      obtain ⟨hmem, rfl⟩ := find?_key_eq_some hfind
      rcases askedDir_eq_some.1 hasked with ⟨-, rfl⟩ | ⟨hasked, -⟩
      · exact ⟨skill, hmem, [], hdir, stripPrefix_eq_some.1 hrest, hnodes⟩
      · cases hasked

end McpTemplate.Skills
