import McpTemplate.Proofs.Catalog
import McpTemplate.Proofs.Maps

/-!
# What `resources/list` says

The listing has the index and one resource per skill. What it says of a
resource is what a read of it gives; and what it says of a skill, in its name,
its description and the fields of its `_meta`, is the whole frontmatter, which
`recover` puts together again.

What is relied on of the JSON library is that the fields of an object are in
the order of their keys.
-/

namespace McpTemplate.Skills

open Lib Json

/-- A conversion to JSON whose objects are maps. -/
structure OrderedMaps (crates : Crates) : Prop where
  toValue : ∀ yaml map, crates.toValue yaml = some (.object map) → Map.Ordered map

/-- The frontmatter of a skill, from the resource that is listed for it. -/
def recover (resource : ListedResource) : Map :=
  Map.insert "name".toList (.string resource.name)
    (Map.insert "description".toList (.string (resource.description.getD []))
      (Map.stripKeys META_PREFIX (resource.metaObject.getD [])))

/-- A field of the frontmatter beside the name and the description. -/
def Further (key : Str) : Prop := key ≠ "name".toList ∧ key ≠ "description".toList

instance : DecidablePred Further := fun _ => inferInstanceAs (Decidable (_ ∧ _))

/-- What a listed resource says of the frontmatter. -/
structure SaysAll (resource : ListedResource) (frontmatter : Map) : Prop where
  recovered : recover resource = frontmatter
  absent : resource.metaObject = none ↔ ∀ field ∈ frontmatter, ¬ Further field.1

/-- The listing is faithful to what is served. -/
structure ListsServed (crates : Crates) (table : List Skill) : Prop where
  order : (resources crates table).map (fun resource => resource.uri) =
    INDEX_URI :: table.map Skill.entryUri
  readable : ∀ resource ∈ resources crates table, ∃ mime body,
    read crates table resource.uri = some (mime, body) ∧
      resource.mimeType = some mime ∧
      ∀ size, resource.size = some size → (asBytes body).length = size
  files : ∀ skill ∈ table, ∀ file ∈ skill.files,
    skill.fileUri file ∉ (resources crates table).map fun resource => resource.uri

variable {crates : Crates} {table : List Skill}

/-! ## The fields of `_meta` -/

/-- The loop, as the insertion of what it keeps. -/
theorem metaOf_eq_foldl (fm : Map) : metaOf fm =
    (Map.prefixKeys META_PREFIX (fm.filter fun field => Further field.1)).foldl
      (fun m field => Map.insert field.1 field.2 m) [] := by
  rw [Map.prefixKeys, List.foldl_map, List.foldl_filter, metaOf]
  simp only [decide_eq_true_eq]
  rfl

/-- Under its prefixed key each further field, and nothing else. -/
theorem metaOf_eq {fm : Map} (h : Map.Ordered fm) :
    metaOf fm =
      Map.prefixKeys META_PREFIX (fm.filter fun field => Further field.1) := by
  rw [metaOf_eq_foldl]
  exact ((h.filter _).prefixKeys META_PREFIX).foldl_insert_eq

theorem metaOf_eq_nil {fm : Map} (h : Map.Ordered fm) :
    metaOf fm = [] ↔ ∀ field ∈ fm, ¬ Further field.1 := by
  rw [metaOf_eq h, Map.prefixKeys, List.map_eq_nil_iff, List.filter_eq_nil_iff]
  simp only [decide_eq_true_eq]

/-- The further fields, with the other two, are all of them. -/
theorem insert_further {map : Map} (h : Map.Ordered map) {name description : Value}
    (hname : Map.get "name".toList map = some name)
    (hdescription : Map.get "description".toList map = some description) :
    Map.insert "name".toList name (Map.insert "description".toList description
      (map.filter fun field => Further field.1)) = map := by
  have hkept : Map.Ordered (map.filter fun field => Further field.1) := h.filter _
  refine Map.Ordered.ext ((hkept.insert _ _).insert _ _) h fun key => ?_
  rw [Map.get_insert, Map.get_insert, Map.get_filter fun key => decide (Further key)]
  by_cases hkey : key = "name".toList
  · rw [if_pos hkey, hkey, hname]
  · rw [if_neg hkey]
    by_cases hkey' : key = "description".toList
    · rw [if_pos hkey', hkey', hdescription]
    · have hfurther : Further key := ⟨hkey, hkey'⟩
      rw [if_neg hkey', if_pos (decide_eq_true hfurther)]

/-! ## One resource -/

theorem parseFrontmatter_ordered (h : OrderedMaps crates) {markdown : Str} {map : Map}
    (hparse : parseFrontmatter crates markdown = some map) : Map.Ordered map := by
  simp only [parseFrontmatter, Option.bind_eq_bind, Option.bind_eq_some_iff,
    Prod.exists] at hparse
  obtain ⟨_, -, _, _, -, yaml, -, value, hvalue, hmap⟩ := hparse
  split at hmap
  · cases hmap
    exact h.toValue yaml _ hvalue
  · cases hmap

theorem skillResource_metaObject (crates : Crates) (self : Fin table.length) :
    (skillResource crates table self).metaObject.getD [] =
        metaOf (frontmatter crates table self) ∧
      ((skillResource crates table self).metaObject = none ↔
        metaOf (frontmatter crates table self) = []) := by
  unfold skillResource
  dsimp only
  cases metaOf (frontmatter crates table self) with
  | nil => exact ⟨rfl, iff_of_true rfl rfl⟩
  | cons field fields =>
      refine ⟨rfl, iff_of_false ?_ (List.cons_ne_nil _ _)⟩
      intro hnone
      cases hnone

/-- The frontmatter put together from a listed skill. -/
theorem skillResource_saysAll (h : OrderedMaps crates) (self : Fin table.length)
    {map : Map} {description : Str}
    (hparse : parseFrontmatter crates (table.get self).skillMd = some map)
    (hname : Map.get "name".toList map = some (.string (table.get self).name))
    (hdescription : Map.get "description".toList map = some (.string description)) :
    SaysAll (skillResource crates table self) map := by
  have hmap : frontmatter crates table self = map := by
    rw [frontmatter_eq, hparse]
    rfl
  have hordered := parseFrontmatter_ordered h hparse
  obtain ⟨hmeta, habsent⟩ := skillResource_metaObject crates self
  rw [hmap] at hmeta habsent
  refine ⟨?_, habsent.trans (metaOf_eq_nil hordered)⟩
  have hshown : (skillResource crates table self).description = some description := by
    show some (Skills.description crates table self) = _
    rw [description_eq, Skill.description_eq hparse hdescription]
  rw [recover, hmeta, hshown, metaOf_eq hordered, Map.stripKeys_prefixKeys]
  exact insert_further hordered hname hdescription

/-! ## The listing -/

theorem resources_uris (crates : Crates) (table : List Skill) :
    (resources crates table).map (fun resource => resource.uri) =
      INDEX_URI :: table.map Skill.entryUri := by
  rw [resources, List.map_cons, List.map_map, ← map_iter]
  rfl

theorem getElem?_resources (crates : Crates) (self : Fin table.length) :
    (resources crates table)[self.val + 1]? =
      some (skillResource crates table self) := by
  have hiter : (iter table)[self.val]? = some self := by
    rw [iter, List.getElem?_eq_getElem (by simp)]
    simp
  rw [resources, List.getElem?_cons_succ, List.getElem?_map, hiter]
  rfl

theorem listsServed (crates : Crates) (hn : Named table)
    (hpaths : ∀ skill ∈ table, ∀ file ∈ skill.files, file.path ≠ ENTRY) :
    ListsServed crates table where
  order := resources_uris crates table
  readable := by
    intro resource hresource
    rcases List.mem_cons.1 hresource with rfl | hresource
    · refine ⟨"application/json".toList, indexJson crates table, ?_, rfl, ?_⟩
      · exact if_pos rfl
      · intro size hsize
        cases hsize
    · obtain ⟨self, -, rfl⟩ := List.mem_map.1 hresource
      refine ⟨"text/markdown".toList, (table.get self).skillMd, ?_, rfl, ?_⟩
      · exact (read_path hn (List.get_mem table self) ENTRY).trans (if_pos rfl)
      · intro size hsize
        cases hsize
        exact length_asBytes _
  files := by
    intro skill hskill file hfile hlisted
    rw [resources_uris] at hlisted
    rcases List.mem_cons.1 hlisted with hindex | hlisted
    · exact fileUri_ne_index skill file hindex
    · obtain ⟨other, hother, heq⟩ := List.mem_map.1 hlisted
      have hentry : other.fileUri ⟨ENTRY, [], []⟩ = skill.fileUri file := heq
      obtain ⟨-, hpath⟩ := fileUri_inj (hn.no_slash other hother)
        (hn.no_slash skill hskill) hentry
      exact hpaths skill hskill file hfile hpath.symm

/-- The listing has the index and one resource for each skill, all of them
read as they are listed, and no supporting file; and the resource of a skill
that its frontmatter names and describes says all of that frontmatter. -/
theorem resources_faithful (crates : Crates) (table : List Skill)
    (hmaps : OrderedMaps crates) (hn : Named table)
    (hpaths : ∀ skill ∈ table, ∀ file ∈ skill.files, file.path ≠ ENTRY) :
    ListsServed crates table ∧
      ∀ (i : Nat) (skill : Skill) (map : Map) (description : Str),
        table[i]? = some skill →
        parseFrontmatter crates skill.skillMd = some map →
        Map.get "name".toList map = some (.string skill.name) →
        Map.get "description".toList map = some (.string description) →
          ∃ resource, (resources crates table)[i + 1]? = some resource ∧
            SaysAll resource map := by
  refine ⟨listsServed crates hn hpaths, ?_⟩
  intro i skill map description hi hparse hname hdescription
  obtain ⟨hlt, rfl⟩ := List.getElem?_eq_some_iff.1 hi
  exact ⟨_, getElem?_resources crates ⟨i, hlt⟩,
    skillResource_saysAll hmaps ⟨i, hlt⟩ hparse hname hdescription⟩

/-! ## A table of one skill -/

theorem orderedMaps_flatYaml : OrderedMaps flatYaml where
  toValue entries map hmap := by
    have hvalue : (if entries.isEmpty then Value.null else json entries) =
        .object map := Option.some.inj hmap
    split at hvalue
    · cases hvalue
    · exact ordered_json hvalue

/-- A skill with a third field, and a supporting file. -/
def licensedSkill : Skill :=
  { describedSkill "time".toList
      "name: time\ndescription: Tell it.\nlicense: MIT".toList with
    files := [⟨"ZONES.md".toList, "# Zones".toList, "text/markdown".toList⟩] }

def licensedMap : Map :=
  [("description".toList, .string "Tell it.".toList),
    ("license".toList, .string "MIT".toList), ("name".toList, .string "time".toList)]

theorem parseFrontmatter_licensedSkill :
    parseFrontmatter flatYaml licensedSkill.skillMd = some licensedMap := by rfl

theorem resources_faithful_licensedSkill :
    ListsServed flatYaml [licensedSkill] ∧
      ∃ resource, (resources flatYaml [licensedSkill])[1]? = some resource ∧
        SaysAll resource licensedMap := by
  have h := resources_faithful flatYaml [licensedSkill] orderedMaps_flatYaml
    ⟨by decide, by decide⟩ (by decide)
  exact ⟨h.1, h.2 0 licensedSkill licensedMap "Tell it.".toList rfl
    parseFrontmatter_licensedSkill rfl rfl⟩

end McpTemplate.Skills
