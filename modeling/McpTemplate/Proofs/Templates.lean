import McpTemplate.Lib.UriTemplate
import McpTemplate.Proofs.Resolve

/-!
# The templates, expanded by a client

A client expands the advertised templates, and the server resolves what comes
of it by comparing paths as they are written. A name stands in an expansion as
it is, and so the first template always gives the `SKILL.md` of a skill. In a
path, a blank, a letter beyond ASCII or a stray percent sign is encoded, and
the server decodes nothing: the expansion is the URI of another path, and
reads a file only if there happens to be one of that name.
-/

namespace McpTemplate.Skills

open Lib Json

variable {crates : Crates} {table : List Skill}

/-- The values a client has for the variables of the templates. -/
def bindings (skill : Str) (path : Option Str) (name : Str) : Option Str :=
  if name = "skill".toList then some skill
  else if name = "path".toList then path
  else none

/-- The expansion of the advertised template of this name. -/
def expansion (template : Str) (vars : Str → Option Str) : Option Str :=
  (resourceTemplates.find? fun t => t.name = template).bind fun t =>
    expandTemplate t.uriTemplate vars

/-- The expansion for a file is a URI at which the file is read. -/
def Reaches (crates : Crates) (table : List Skill) (skill : Skill) (file : SkillFile) :
    Prop :=
  ∃ uri,
    expansion "skill-file".toList (bindings skill.name (some file.path)) = some uri ∧
    read crates table uri = some (file.mimeType, file.text)

/-- A file whose path stands in an expansion, or which has a copy at the path
that the expansion has. -/
def Expandable (skill : Skill) (file : SkillFile) : Prop :=
  standsReserved file.path = true ∨
    ∃ copy ∈ skill.files, copy.path = expandReserved file.path ∧
      copy.text = file.text ∧ copy.mimeType = file.mimeType

/-! ## The expansions -/

theorem isUnreserved_of_isNameChar {c : Char} (h : IsNameChar c) :
    isUnreserved c = true := by
  unfold isUnreserved
  rcases h with halnum | rfl | rfl
  · rw [halnum]
    rfl
  · decide
  · decide

theorem PlainName.expandSimple_eq {name : Str} (h : PlainName name) :
    expandSimple name = name :=
  expandSimple_eq_self fun c hc => isUnreserved_of_isNameChar (h.chars c hc)

theorem expansion_playbook (skill : Str) (path : Option Str) :
    expansion "skill-playbook".toList (bindings skill path) =
      some (SCHEME ++ (expandSimple skill ++ '/' :: ENTRY)) := by rfl

theorem expansion_file (skill path : Str) :
    expansion "skill-file".toList (bindings skill (some path)) =
      some (SCHEME ++
        (expandSimple skill ++ '/' :: (expandReserved path ++ []))) := by rfl

/-! ## Where they lead -/

theorem named_of_plain (hplain : ∀ skill ∈ table, PlainName skill.name)
    (hnodup : (table.map Skill.name).Nodup) : Named table :=
  ⟨hnodup, fun skill hskill => (hplain skill hskill).not_mem (by decide)⟩

/-- What is read is the file whose path is the expansion. -/
theorem reaches_iff_copy (hplain : ∀ skill ∈ table, PlainName skill.name)
    (hnodup : (table.map Skill.name).Nodup) (hf : Filed table) {skill : Skill}
    (hskill : skill ∈ table) {file : SkillFile} (hfile : file ∈ skill.files) :
    Reaches crates table skill file ↔
      ∃ copy ∈ skill.files, copy.path = expandReserved file.path ∧
        copy.text = file.text ∧ copy.mimeType = file.mimeType := by
  obtain ⟨hentry, hpaths⟩ := filed_iff.1 hf skill hskill
  have huri : expansion "skill-file".toList (bindings skill.name (some file.path)) =
      some (SCHEME ++ skill.name ++ '/' :: expandReserved file.path) := by
    rw [expansion_file, (hplain skill hskill).expandSimple_eq, List.append_nil,
      List.append_assoc]
  have hread : read crates table
      (SCHEME ++ skill.name ++ '/' :: expandReserved file.path) = _ :=
    read_path (named_of_plain hplain hnodup) hskill (expandReserved file.path)
  constructor
  · intro h
    obtain ⟨uri, hexpand, hfound⟩ := h
    rw [huri] at hexpand
    cases hexpand
    rw [hread] at hfound
    split at hfound
    · next heq =>
        -- only a path that is `SKILL.md` itself expands to that
        have hpct : '%' ∉ expandReserved file.path := by
          rw [heq]
          decide
        rw [expandReserved_eq_self_of_not_mem hpct] at heq
        exact absurd heq (hentry file hfile)
    · obtain ⟨copy, hcopy, hsame⟩ := Option.map_eq_some_iff.1 hfound
      obtain ⟨hmem, hpath⟩ := find?_key_eq_some hcopy
      obtain ⟨hmime, htext⟩ := Prod.mk.inj hsame
      exact ⟨copy, hmem, hpath, htext, hmime⟩
  · intro h
    obtain ⟨copy, hcopy, hpath, htext, hmime⟩ := h
    have hne : ¬ expandReserved file.path = ENTRY := by
      rw [← hpath]
      exact hentry copy hcopy
    refine ⟨_, huri, ?_⟩
    rw [hread, if_neg hne, ← hpath, find?_key hpaths hcopy, ← htext, ← hmime]
    rfl

/-- The first template always gives the `SKILL.md` of a skill. The second
reaches a file exactly where its path stands in an expansion, or where the
skill has a copy of the file at the path that the expansion has. -/
theorem templates_reach_iff (crates : Crates) (table : List Skill)
    (hplain : ∀ skill ∈ table, PlainName skill.name)
    (hnodup : (table.map Skill.name).Nodup) (hf : Filed table) :
    ∀ skill ∈ table,
      (∀ path, expansion "skill-playbook".toList (bindings skill.name path) =
        some skill.entryUri) ∧
      ∀ file ∈ skill.files,
        Reaches crates table skill file ↔ Expandable skill file := by
  intro skill hskill
  refine ⟨fun path => ?_, fun file hfile => ?_⟩
  · rw [expansion_playbook, (hplain skill hskill).expandSimple_eq, Skill.entryUri,
      List.append_assoc]
  · rw [reaches_iff_copy hplain hnodup hf hskill hfile]
    constructor
    · intro h
      exact .inr h
    · intro h
      rcases h with hstands | hcopy
      · exact ⟨file, hfile, (expandReserved_eq_self_iff.2 hstands).symm, rfl, rfl⟩
      · exact hcopy

/-! ## The files of the manual -/

theorem plain_manual : ∀ skill ∈ [manual], PlainName skill.name := by
  intro skill hskill
  rw [List.mem_singleton.1 hskill]
  exact plainName_of_all rfl (by decide)

def toolsFile : SkillFile :=
  ⟨"references/TOOLS.md".toList, "# Tools".toList, "text/markdown".toList⟩

theorem reaches_toolsFile : Reaches plainCrates [manual] manual toolsFile :=
  ((templates_reach_iff plainCrates [manual] plain_manual (by decide) filed_manual
    manual (by decide)).2 toolsFile (by decide)).2 (.inl (by decide))

def accentedFile : SkillFile :=
  ⟨"references/deep/é.txt".toList, "é".toList, "text/plain".toList⟩

/-- The `é` is sent as `%C3%A9`, and nothing is read. -/
theorem not_reaches_accentedFile :
    accentedFile ∈ manual.files ∧
      (expansion "skill-file".toList
        (bindings manual.name (some accentedFile.path))).bind
          (read plainCrates [manual]) = none ∧
      ¬ Reaches plainCrates [manual] manual accentedFile := by
  have hnone : (expansion "skill-file".toList
      (bindings manual.name (some accentedFile.path))).bind
        (read plainCrates [manual]) = none := by decide
  refine ⟨by decide, hnone, fun h => ?_⟩
  obtain ⟨uri, hexpand, hread⟩ := h
  rw [hexpand, Option.bind_some, hread] at hnone
  cases hnone

end McpTemplate.Skills
