import McpTemplate.Proofs.Resolve

/-!
# What a manifest binds

A host reads `skills/list` once, binds an approval to the manifests in it, and
checks later what it reads against them. So it matters what two tables with
one listing can differ in: in the MIME types of their files, which no manifest
lists, and in nothing else, unless two of their texts collide under SHA-256.

The reduction has no assumption on the hash. A listing that does not tell two
tables apart exhibits the collision, two texts of one length with one digest.
-/

namespace McpTemplate.Skills

open Lib Json

variable {crates : Crates} {table table' : List Skill}

/-- A file without its MIME type. -/
def SkillFile.bare (file : SkillFile) : Str × Str := (file.path, file.text)

/-- A skill without the MIME types of its files. -/
def Skill.bare (skill : Skill) : Str × Str × List (Str × Str) :=
  (skill.name, skill.skillMd, skill.files.map SkillFile.bare)

/-- The texts that a table serves. -/
def texts (table : List Skill) : List Str :=
  table.flatMap fun skill => skill.allFiles.map SkillFile.text

/-- Two different texts of the tables that SHA-256 does not tell apart. -/
def Collides (crates : Crates) (table table' : List Skill) : Prop :=
  ∃ a ∈ texts table, ∃ b ∈ texts table', a ≠ b ∧ byteLen a = byteLen b ∧
    crates.sha256 (asBytes a) = crates.sha256 (asBytes b)

/-! ## From a listing to the table -/

/-- Where one image decides another, it does so for lists. -/
theorem map_eq_of_map_eq {α β γ : Type} {f : α → β} {g : α → γ} {l l' : List α}
    (hfg : ∀ a ∈ l, ∀ b ∈ l', f a = f b → g a = g b) (h : l.map f = l'.map f) :
    l.map g = l'.map g := by
  induction l generalizing l' with
  | nil =>
      rw [List.map_nil] at h
      rw [List.map_eq_nil_iff.1 h.symm]
  | cons a l ih =>
      cases l' with
      | nil => cases h
      | cons b l' =>
          rw [List.map_cons, List.map_cons, List.cons.injEq] at h
          rw [List.map_cons, List.map_cons,
            hfg a List.mem_cons_self b List.mem_cons_self h.1,
            ih (fun a ha b hb => hfg a (List.mem_cons_of_mem _ ha) b
              (List.mem_cons_of_mem _ hb)) h.2]

theorem digest_eq {a b : Str} (h : digest crates a = digest crates b) :
    crates.sha256 (asBytes a) = crates.sha256 (asBytes b) := by
  have hhex := congrArg unhex (List.append_cancel_left h)
  rw [unhex_hex, unhex_hex] at hhex
  exact Vector.toList_inj.1 (Option.some.inj hhex)

/-- An item tells its URI, and its text up to a collision. -/
theorem item_eq {uri uri' a b : Str}
    (h : Skill.item crates uri a = Skill.item crates uri' b) :
    uri = uri' ∧ byteLen a = byteLen b ∧
      crates.sha256 (asBytes a) = crates.sha256 (asBytes b) := by
  have huri := congrArg (Value.get · "uri".toList) h
  have hdigest := congrArg (Value.get · "digest".toList) h
  have hsize := congrArg (Value.get · "size".toList) h
  simp only [item_uri, item_digest, item_size, Value.ofNat, Option.some.injEq,
    Value.string.injEq, Value.number.injEq, Number.int.injEq, Int.natCast_inj]
    at huri hdigest hsize
  exact ⟨huri, hsize, digest_eq hdigest⟩

theorem entry_name {skill skill' : Skill}
    (h : (skill.buildEntry crates).2 = (skill'.buildEntry crates).2) :
    skill.name = skill'.name := by
  have huri := congrArg (Value.get · "uri".toList) h
  simp only [entry_uri, Option.some.injEq, Value.string.injEq, Skill.entryUri] at huri
  exact List.append_cancel_left (List.append_cancel_right huri)

theorem mem_texts {skill : Skill} (hskill : skill ∈ table) {file : SkillFile}
    (hfile : file ∈ skill.allFiles) : file.text ∈ texts table :=
  List.mem_flatMap.2 ⟨skill, hskill, List.mem_map_of_mem hfile⟩

theorem bare_of_entry (hno : ¬ Collides crates table table') {skill skill' : Skill}
    (hskill : skill ∈ table) (hskill' : skill' ∈ table')
    (h : (skill.buildEntry crates).2 = (skill'.buildEntry crates).2) :
    skill.bare = skill'.bare := by
  have hname := entry_name h
  have hmanifest := congrArg manifest h
  rw [manifest_buildEntry, manifest_buildEntry] at hmanifest
  have hfiles : skill.allFiles.map SkillFile.bare = skill'.allFiles.map SkillFile.bare := by
    simp only [Skill.fileUri, hname] at hmanifest
    refine map_eq_of_map_eq ?_ hmanifest
    intro file hfile file' hfile' hitem
    obtain ⟨huri, hsize, hhash⟩ := item_eq hitem
    have hpath : file.path = file'.path := by
      have hrest := List.append_cancel_left huri
      rw [List.cons.injEq] at hrest
      exact hrest.2
    have htext : file.text = file'.text := by
      by_contra hne
      exact hno ⟨file.text, mem_texts hskill hfile, file'.text, mem_texts hskill' hfile',
        hne, hsize, hhash⟩
    rw [SkillFile.bare, SkillFile.bare, hpath, htext]
  simp only [Skill.allFiles, List.map_cons, List.cons.injEq, SkillFile.bare,
    Prod.mk.injEq, true_and] at hfiles
  rw [Skill.bare, Skill.bare, hname, hfiles.1]
  exact congrArg (fun files => (skill'.name, skill'.skillMd, files)) hfiles.2

/-! ## From the table to a listing -/

theorem manifest_bare (skill : Skill) :
    (skill.files.map fun file => Skill.item crates (skill.fileUri file) file.text) =
      (skill.files.map SkillFile.bare).map fun file =>
        Skill.item crates (SCHEME ++ skill.name ++ '/' :: file.1) file.2 := by
  rw [List.map_map]
  rfl

theorem buildEntry_bare {skill skill' : Skill} (h : skill.bare = skill'.bare) :
    skill.buildEntry crates = skill'.buildEntry crates := by
  simp only [Skill.bare, Prod.mk.injEq] at h
  obtain ⟨hname, hmd, hfiles⟩ := h
  simp only [Skill.buildEntry, manifest_bare, Skill.entryUri, hname, hmd, hfiles]

theorem entries_bare (h : table.map Skill.bare = table'.map Skill.bare) :
    entries crates table = entries crates table' := by
  rw [entries_eq, entries_eq]
  exact map_eq_of_map_eq (fun _ _ _ _ heq => congrArg Prod.snd (buildEntry_bare heq)) h

/-- What `read` answers, without the MIME type. -/
def readText (crates : Crates) (table : List Skill) (uri : Str) : Option Str :=
  (read crates table uri).map Prod.snd

/-- The text at a path of a skill without MIME types. -/
def textAt (path : Str) (skill : Str × Str × List (Str × Str)) : Option Str :=
  if path = ENTRY then some skill.2.1
  else (skill.2.2.find? fun file => file.1 = path).map Prod.snd

/-- What a found skill answers at a path. -/
theorem textAt_bare (path : Str) (skill : Skill) :
    (if path = ENTRY then some ("text/markdown".toList, skill.skillMd)
      else (skill.files.find? fun file => file.path = path).bind fun file =>
        some (file.mimeType, file.text)).map Prod.snd = textAt path skill.bare := by
  have hfind : ((skill.files.map SkillFile.bare).find? fun file => file.1 = path) =
      (skill.files.find? fun file => file.path = path).map SkillFile.bare :=
    List.find?_map
  rw [textAt, Skill.bare, hfind]
  split
  · rfl
  · cases skill.files.find? fun file => file.path = path <;> rfl

/-- Beside the index, the names, the paths and the texts decide what is read. -/
theorem readText_eq (table : List Skill) (uri : Str) :
    readText crates table uri =
      if uri = INDEX_URI then some (indexJson crates table)
      else (stripPrefix SCHEME uri).bind fun rest => (splitOnce '/' rest).bind fun parts =>
        ((table.map Skill.bare).find? fun skill => skill.1 = parts.1).bind
          (textAt parts.2) := by
  have hfind : ∀ name, ((table.map Skill.bare).find? fun skill => skill.1 = name) =
      (table.find? fun skill => skill.name = name).map Skill.bare :=
    fun name => List.find?_map
  rw [readText, read]
  split
  · rfl
  · simp only [Option.bind_eq_bind, Option.map_bind, hfind]
    refine congrArg (Option.bind _) (funext fun rest => ?_)
    rw [Function.comp_apply, Option.map_bind]
    refine congrArg (Option.bind _) (funext fun parts => ?_)
    rw [Function.comp_apply]
    cases table.find? fun skill => skill.name = parts.1 with
    | none => rfl
    | some skill => exact textAt_bare parts.2 skill

theorem indexJson_bare (h : table.map Skill.bare = table'.map Skill.bare) :
    indexJson crates table = indexJson crates table' := by
  rw [indexJson, indexJson, entries_bare h]

theorem readText_bare (h : table.map Skill.bare = table'.map Skill.bare) (uri : Str) :
    readText crates table uri = readText crates table' uri := by
  rw [readText_eq, readText_eq, h, indexJson_bare h]

/-- What `skills/list` binds. Two tables with one listing are the same but for
the MIME types of their files, or there is a collision of SHA-256 between
them; and what differs in MIME types alone has one listing, and is read with
the same texts everywhere. -/
theorem manifest_binds_contents (crates : Crates) (table table' : List Skill) :
    (entries crates table = entries crates table' →
      table.map Skill.bare = table'.map Skill.bare ∨ Collides crates table table') ∧
    (table.map Skill.bare = table'.map Skill.bare →
      entries crates table = entries crates table' ∧
        ∀ uri, readText crates table uri = readText crates table' uri) := by
  refine ⟨?_, fun h => ⟨entries_bare h, readText_bare h⟩⟩
  intro h
  by_cases hcollides : Collides crates table table'
  · exact .inr hcollides
  · rw [entries_eq, entries_eq] at h
    exact .inl (map_eq_of_map_eq (fun skill hskill skill' hskill' =>
      bare_of_entry hcollides hskill hskill') h)

end McpTemplate.Skills
