import McpTemplate.Proofs.FlatYaml

/-!
# The catalog as text

The catalog writes a skill as a line: its name, a colon, its description. The
name has no colon, so where each skill is one line the lines give back what
`skills/list` says of each. But a description is any string that YAML can
produce, and one with a line break in it makes lines of its own, which may
read as further skills. So the catalog has one line per skill, and can be read
back, exactly where no description has a line break.
-/

namespace McpTemplate.Skills

open Lib Json

/-- A skill that is named by its frontmatter, and described by it. -/
structure Published (crates : Crates) (skill : Skill) : Prop where
  plain : PlainName skill.name
  frontmatter : ∃ map description,
    parseFrontmatter crates skill.skillMd = some map ∧
      Map.get "name".toList map = some (.string skill.name) ∧
      Map.get "description".toList map = some (.string description)

/-- The skill is described in one line. -/
def OneLineDescription (crates : Crates) (skill : Skill) : Prop :=
  ∀ map description, parseFrontmatter crates skill.skillMd = some map →
    Map.get "description".toList map = some (.string description) →
      '\n' ∉ description

/-! ## What is listed, and the text read back -/

/-- The name and the description that an entry of `skills/list` carries. -/
def entryPair (entry : Value) : Option (Str × Str) := do
  let frontmatter ← entry.get "frontmatter".toList
  let name ← (← frontmatter.get "name".toList).asStr
  let description ← (← frontmatter.get "description".toList).asStr
  some (name, description)

def listedPairs (crates : Crates) (table : List Skill) : List (Str × Str) :=
  (entries crates table).filterMap entryPair

def catalogLine (pair : Str × Str) : Str :=
  "- ".toList ++ pair.1 ++ ": ".toList ++ pair.2

def readLine (line : Str) : Option (Str × Str) := do
  let rest ← stripPrefix "- ".toList line
  breakOn ": ".toList rest

def readCatalog (text : Str) : List (Str × Str) :=
  ((text.splitOn '\n').drop 1).filterMap readLine

/-- The catalog has one line for each skill, and says what `skills/list` does. -/
structure OneLineEach (crates : Crates) (table : List Skill) : Prop where
  names : (listedPairs crates table).map Prod.fst = table.map Skill.name
  lines : (catalog crates table).splitOn '\n' =
    catalogHeader :: (listedPairs crates table).map catalogLine ++ [[]]
  recovered : readCatalog (catalog crates table) = listedPairs crates table

/-! ## One skill -/

def Skill.description (crates : Crates) (skill : Skill) : Str :=
  ((Map.get "description".toList
    ((parseFrontmatter crates skill.skillMd).getD [])).bind Value.asStr).getD []

def Skill.pair (crates : Crates) (skill : Skill) : Str × Str :=
  (skill.name, skill.description crates)

variable {crates : Crates}

theorem Skill.description_eq {skill : Skill} {map : Map} {description : Str}
    (hmap : parseFrontmatter crates skill.skillMd = some map)
    (hget : Map.get "description".toList map = some (.string description)) :
    skill.description crates = description := by
  rw [Skill.description, hmap, Option.getD_some, hget]
  rfl

theorem oneLineDescription_iff {skill : Skill} (h : Published crates skill) :
    OneLineDescription crates skill ↔ '\n' ∉ skill.description crates := by
  obtain ⟨map, description, hmap, -, hget⟩ := h.frontmatter
  rw [Skill.description_eq hmap hget]
  constructor
  · intro hall
    exact hall map description hmap hget
  · intro hline map' description' hmap' hget'
    rw [hmap] at hmap'
    cases hmap'
    rw [hget] at hget'
    cases hget'
    exact hline

theorem buildEntry_frontmatter (skill : Skill) :
    (skill.buildEntry crates).2.get "frontmatter".toList =
      some (.object ((parseFrontmatter crates skill.skillMd).getD [])) := by
  rw [Skill.buildEntry, get_json]
  rfl

theorem entryPair_buildEntry {skill : Skill} (h : Published crates skill) :
    entryPair (skill.buildEntry crates).2 = some (skill.pair crates) := by
  obtain ⟨map, description, hmap, hname, hdescription⟩ := h.frontmatter
  have hname' : (Value.object map).get "name".toList = some (.string skill.name) :=
    hname
  have hdescription' : (Value.object map).get "description".toList =
      some (.string description) := hdescription
  rw [entryPair, buildEntry_frontmatter, hmap, Skill.pair,
    Skill.description_eq hmap hdescription]
  show (do
    let name ← (← (Value.object map).get "name".toList).asStr
    let description ← (← (Value.object map).get "description".toList).asStr
    some (name, description)) = some (skill.name, description)
  rw [hname', hdescription']
  rfl

theorem readLine_catalogLine {name : Str} (h : PlainName name) (description : Str) :
    readLine (catalogLine (name, description)) = some (name, description) := by
  have hline : catalogLine (name, description) =
      "- ".toList ++ (name ++ ": ".toList ++ description) := by
    simp only [catalogLine, List.append_assoc]
  have hcolon : ':' ∉ name := h.not_mem (by decide)
  rw [readLine, hline, stripPrefix_append]
  exact breakOn_append hcolon description

theorem lf_not_mem_catalogLine {pair : Str × Str} (h : PlainName pair.1) :
    '\n' ∉ catalogLine pair ↔ '\n' ∉ pair.2 := by
  have hname : '\n' ∉ pair.1 := h.not_mem (by decide)
  have hdash : '\n' ∉ "- ".toList := by decide
  have hcolon : '\n' ∉ ": ".toList := by decide
  rw [catalogLine, List.mem_append, List.mem_append, List.mem_append]
  tauto

/-! ## The table -/

variable {table : List Skill}

theorem description_eq (crates : Crates) (self : Fin table.length) :
    description crates table self = (table.get self).description crates := by
  rw [description, frontmatter_eq]
  rfl

theorem catalog_eq (crates : Crates) (table : List Skill) :
    catalog crates table = catalogHeader ++ '\n' ::
      (table.map fun skill => catalogLine (skill.pair crates)).flatMap
        fun line => line ++ ['\n'] := by
  have hbody : ∀ self : Fin table.length, ∀ out : Str,
      out ++ "- ".toList ++ (table.get self).name ++ ": ".toList ++
          description crates table self ++ ['\n'] =
        out ++ (catalogLine ((table.get self).pair crates) ++ ['\n']) := by
    intro self out
    rw [description_eq]
    simp only [catalogLine, Skill.pair, List.append_assoc]
  rw [catalog]
  simp only [hbody]
  rw [List.foldl_append_eq_append, map_iter table fun skill =>
    catalogLine (skill.pair crates) ++ ['\n'], List.flatMap_map,
    List.append_assoc, List.singleton_append, List.flatMap_def]

theorem listedPairs_eq (h : ∀ skill ∈ table, Published crates skill) :
    listedPairs crates table = table.map (Skill.pair crates) := by
  rw [listedPairs, entries_eq, List.filterMap_map]
  induction table with
  | nil => rfl
  | cons skill table ih =>
      have hskill := entryPair_buildEntry (h skill List.mem_cons_self)
      rw [List.filterMap_cons, Function.comp_apply, hskill,
        ih fun other hother => h other (List.mem_cons_of_mem _ hother)]
      rfl

/-- The lines of the catalog read back, the header and the end aside. -/
theorem filterMap_readLine (h : ∀ skill ∈ table, Published crates skill) :
    (table.map fun skill => catalogLine (skill.pair crates)).filterMap readLine =
      table.map (Skill.pair crates) := by
  induction table with
  | nil => rfl
  | cons skill table ih =>
      have hline := readLine_catalogLine (h skill List.mem_cons_self).plain
        (skill.description crates)
      rw [List.map_cons, List.filterMap_cons, Skill.pair, hline,
        ih fun other hother => h other (List.mem_cons_of_mem _ hother)]
      rfl

theorem lf_not_mem_catalogHeader : '\n' ∉ catalogHeader := by
  unfold catalogHeader
  refine List.not_mem_append (List.not_mem_append (List.not_mem_append
    (List.not_mem_append ?_ ?_) ?_) ?_) ?_
  all_goals decide +kernel

theorem splitOn_catalog
    (hlines : ∀ skill ∈ table, '\n' ∉ catalogLine (skill.pair crates)) :
    (catalog crates table).splitOn '\n' = catalogHeader ::
      (table.map fun skill => catalogLine (skill.pair crates)) ++ [[]] := by
  rw [catalog_eq, List.splitOn_append_cons_self_of_not_mem lf_not_mem_catalogHeader,
    splitOn_flatMap]
  · rfl
  · intro line hline
    obtain ⟨skill, hskill, rfl⟩ := List.mem_map.1 hline
    exact hlines skill hskill

theorem oneLineEach_iff (h : ∀ skill ∈ table, Published crates skill) :
    OneLineEach crates table ↔ ∀ skill ∈ table, OneLineDescription crates skill := by
  have hline : ∀ skill ∈ table, '\n' ∉ catalogLine (skill.pair crates) ↔
      OneLineDescription crates skill := fun skill hskill =>
    (lf_not_mem_catalogLine (h skill hskill).plain).trans
      (oneLineDescription_iff (h skill hskill)).symm
  have hpairs := listedPairs_eq h
  have hmap : (listedPairs crates table).map catalogLine =
      table.map fun skill => catalogLine (skill.pair crates) := by
    rw [hpairs, List.map_map]
    rfl
  constructor
  · intro hone skill hskill
    -- a line of the text has no line break in it
    refine (hline skill hskill).1 (sep_not_mem_splitOn (s := catalog crates table) ?_)
    rw [hone.lines, hmap]
    exact List.mem_append_left _ (List.mem_cons_of_mem _
      (List.mem_map_of_mem (f := fun skill => catalogLine (skill.pair crates)) hskill))
  · intro hdescriptions
    have hsplit := splitOn_catalog fun skill hskill =>
      (hline skill hskill).2 (hdescriptions skill hskill)
    refine ⟨?_, ?_, ?_⟩
    · rw [hpairs, List.map_map]
      rfl
    · rw [hsplit, hmap]
    · have hend : readLine [] = none := rfl
      rw [readCatalog, hsplit, List.cons_append, List.drop_one, List.tail_cons,
        List.filterMap_append, filterMap_readLine h, List.filterMap_cons, hend, hpairs]
      exact List.append_nil _

/-- The catalog has one line per skill, with the names and the descriptions of
`skills/list`, exactly where no description has a line break; and of two such
tables it tells which is which. -/
theorem catalog_faithful_iff (crates : Crates) (table : List Skill)
    (h : ∀ skill ∈ table, Published crates skill) :
    (OneLineEach crates table ↔ ∀ skill ∈ table, OneLineDescription crates skill) ∧
      ∀ other : List Skill, (∀ skill ∈ other, Published crates skill) →
        (∀ skill ∈ table, OneLineDescription crates skill) →
        (∀ skill ∈ other, OneLineDescription crates skill) →
        listedPairs crates table ≠ listedPairs crates other →
          catalog crates table ≠ catalog crates other := by
  refine ⟨oneLineEach_iff h, ?_⟩
  intro other hother hlines hlines' hne heq
  have hread := ((oneLineEach_iff h).2 hlines).recovered
  have hread' := ((oneLineEach_iff hother).2 hlines').recovered
  rw [heq, hread'] at hread
  exact hne hread.symm

/-! ## Tables of two skills -/

def describedSkill (name frontmatter : Str) : Skill where
  name := name
  skillMd := "---\n".toList ++ frontmatter ++ "\n---\n".toList
  files := []

/-- A colon in a plain scalar would end it, so this one is literal. -/
def fetchSkill : Skill :=
  describedSkill "fetch".toList "name: fetch\ndescription: |\n  Get: a URL.".toList

def timeSkill : Skill :=
  describedSkill "time".toList "name: time\ndescription: Tell it.".toList

/-- A description of two lines, the second of which reads as the other skill. -/
def foldedSkill : Skill :=
  describedSkill "fetch".toList
    "name: fetch\ndescription: |\n  Get: a URL.\n  - time: Tell it.".toList

/-- The frontmatter of a skill with these two fields. -/
def describedMap (name description : Str) : Map :=
  [("description".toList, .string description), ("name".toList, .string name)]

theorem parseFrontmatter_fetchSkill : parseFrontmatter flatYaml fetchSkill.skillMd =
    some (describedMap "fetch".toList "Get: a URL.".toList) := by rfl

theorem parseFrontmatter_timeSkill : parseFrontmatter flatYaml timeSkill.skillMd =
    some (describedMap "time".toList "Tell it.".toList) := by rfl

theorem parseFrontmatter_foldedSkill : parseFrontmatter flatYaml foldedSkill.skillMd =
    some (describedMap "fetch".toList "Get: a URL.\n- time: Tell it.".toList) := by rfl

theorem published_fetchSkill : Published flatYaml fetchSkill where
  plain := plainName_of_all rfl (by decide)
  frontmatter := ⟨_, _, parseFrontmatter_fetchSkill, rfl, rfl⟩

theorem published_timeSkill : Published flatYaml timeSkill where
  plain := plainName_of_all rfl (by decide)
  frontmatter := ⟨_, _, parseFrontmatter_timeSkill, rfl, rfl⟩

theorem published_foldedSkill : Published flatYaml foldedSkill where
  plain := plainName_of_all rfl (by decide)
  frontmatter := ⟨_, _, parseFrontmatter_foldedSkill, rfl, rfl⟩

theorem fetchSkill_description :
    fetchSkill.description flatYaml = "Get: a URL.".toList :=
  Skill.description_eq parseFrontmatter_fetchSkill rfl

theorem timeSkill_description : timeSkill.description flatYaml = "Tell it.".toList :=
  Skill.description_eq parseFrontmatter_timeSkill rfl

theorem foldedSkill_description : foldedSkill.description flatYaml =
    "Get: a URL.\n- time: Tell it.".toList :=
  Skill.description_eq parseFrontmatter_foldedSkill rfl

theorem published_fetch_time :
    ∀ skill ∈ [fetchSkill, timeSkill], Published flatYaml skill := by
  intro skill hskill
  rcases List.mem_pair.1 hskill with rfl | rfl
  · exact published_fetchSkill
  · exact published_timeSkill

theorem oneLineEach_fetch_time : OneLineEach flatYaml [fetchSkill, timeSkill] := by
  refine (catalog_faithful_iff flatYaml _ published_fetch_time).1.2 ?_
  intro skill hskill
  rcases List.mem_pair.1 hskill with rfl | rfl
  · refine (oneLineDescription_iff published_fetchSkill).2 ?_
    rw [fetchSkill_description]
    decide
  · refine (oneLineDescription_iff published_timeSkill).2 ?_
    rw [timeSkill_description]
    decide

/-- One skill, whose catalog is that of two. -/
theorem catalog_foldedSkill :
    (∀ skill ∈ [foldedSkill], Published flatYaml skill) ∧
      ¬ OneLineEach flatYaml [foldedSkill] ∧
      listedPairs flatYaml [foldedSkill] ≠
        listedPairs flatYaml [fetchSkill, timeSkill] ∧
      catalog flatYaml [foldedSkill] = catalog flatYaml [fetchSkill, timeSkill] := by
  have hpublished : ∀ skill ∈ [foldedSkill], Published flatYaml skill := by
    intro skill hskill
    rw [List.mem_singleton.1 hskill]
    exact published_foldedSkill
  refine ⟨hpublished, ?_, ?_, ?_⟩
  · intro hone
    have hline := (oneLineEach_iff hpublished).1 hone foldedSkill List.mem_cons_self
    have hmem : '\n' ∈ foldedSkill.description flatYaml := by
      rw [foldedSkill_description]
      decide
    exact (oneLineDescription_iff published_foldedSkill).1 hline hmem
  · intro heq
    rw [listedPairs_eq hpublished, listedPairs_eq published_fetch_time] at heq
    have hlen := congrArg List.length heq
    simp at hlen
  · rw [catalog_eq, catalog_eq]
    simp only [List.map_cons, List.map_nil, Skill.pair, fetchSkill_description,
      timeSkill_description, foldedSkill_description]
    have hlines : [catalogLine (foldedSkill.name,
        "Get: a URL.\n- time: Tell it.".toList)].flatMap (fun line => line ++ ['\n']) =
          [catalogLine (fetchSkill.name, "Get: a URL.".toList),
            catalogLine (timeSkill.name, "Tell it.".toList)].flatMap
              fun line => line ++ ['\n'] := by decide
    rw [hlines]

end McpTemplate.Skills
