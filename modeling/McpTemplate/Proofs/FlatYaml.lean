import McpTemplate.Lib.Yaml
import McpTemplate.Proofs.Frontmatter

/-!
# Line breaks to a YAML parser

Of the parser, which is a parameter, two things matter where one file is
checked out with other line endings: that it takes the three line breaks for
one, and what it makes of a line break at the end of a text, which is content
where the text ends in a block scalar that keeps it, and nothing elsewhere.

`flatYaml` is a small parser of which both hold. It takes a mapping whose
values are plain scalars on the line of their key, or literal scalars. That a
line break at its end is content just where the scanner says so is a simulation
of the scanner: `Reading.Seen` is where it is after the lines that `flatYaml`
has taken.
-/

namespace McpTemplate.Skills

open Lib Json

/-- A YAML parser to which LF, CRLF and a lone CR are one line break. -/
structure UnifiesBreaks (crates : Crates) : Prop where
  fromStr : ∀ text, crates.fromStr (unifyBreaks text) = crates.fromStr text

/-- A YAML parser to which a line break at the end of a text is content where
the text ends in a block scalar that keeps it, and only there. -/
structure FinalBreak (crates : Crates) : Prop where
  aside : ∀ text, '\r' ∉ text → ¬ Yaml.KeepsFinalBreak text →
    convert crates (text ++ ['\n']) = convert crates text
  kept : ∀ text, '\r' ∉ text → Yaml.KeepsFinalBreak text →
    ∀ map, convert crates (text ++ ['\n']) = some map → convert crates text ≠ some map

/-! ## The small parser -/

/-- Words with blanks between them. -/
def isPhrase (text : Str) : Bool :=
  text.head?.any Yaml.isWord && text.getLast?.any Yaml.isWord &&
    text.all fun c => Yaml.isWord c || c = ' '

/-- The key and the plain value of a line, or the key alone where a literal
scalar follows. -/
def flatEntry (line : Str) : Option (Str × Option Str) := do
  let (key, value) ← breakOn ": ".toList line
  if key ≠ [] ∧ key.all Char.isAlphanum then
    if value = ['|'] then some (key, none)
    else if isPhrase value then some (key, some value)
    else none
  else none

/-- The content of a line of a literal scalar. -/
def flatContent (line : Str) : Option Str := do
  let text ← stripPrefix "  ".toList line
  if text.head?.all (· = ' ') then none else some text

/-- What has been read: whole entries, and maybe some lines of a literal scalar
after them, with empty lines behind these or not. -/
inductive Reading where
  | entries (done : List (Str × Value))
  | literal (done : List (Str × Value)) (key : Str) (content : List Str) (blank : Bool)

def Reading.entry (done : List (Str × Value)) (line : Str) : Option Reading :=
  (flatEntry line).map fun
    | (key, some value) => .entries (done ++ [(key, .string value)])
    | (key, none) => .literal done key [] false

/-- The content of a scalar below which there is a further line. -/
def broken (content : List Str) : Str := content.flatMap fun text => text ++ ['\n']

def Reading.line : Reading → Str → Option Reading
  | .entries done, line => if line = [] then some (.entries done) else entry done line
  | .literal done key content blank, line =>
      if line = [] then some (.literal done key content true)
      else
        match flatContent line with
        | some text =>
            if blank then none else some (.literal done key (content ++ [text]) false)
        | none => entry (done ++ [(key, .string (broken content))]) line

def Reading.finish : Reading → List (Str × Value)
  | .entries done => done
  | .literal done key content blank =>
      done ++ [(key, .string (if blank then broken content else ['\n'].intercalate content))]

def readLines (lines : List Str) : Option Reading := lines.foldlM Reading.line (.entries [])

/-- A parser that takes such mappings only. -/
def flatYaml : Crates where
  Yaml := List (Str × Value)
  fromStr text :=
    (readLines ((unifyBreaks text).splitOnP Yaml.isBreak)).map Reading.finish
  toValue entries := some (if entries.isEmpty then .null else json entries)
  toStringPretty _ := none
  sha256 _ := Vector.replicate 32 0
  CARGO_PKG_NAME := []
  CARGO_PKG_VERSION := []

theorem unifiesBreaks_flatYaml : UnifiesBreaks flatYaml where
  fromStr text := by
    show (readLines ((unifyBreaks (unifyBreaks text)).splitOnP Yaml.isBreak)).map _ = _
    rw [unifyBreaks_eq_self (cr_not_mem_unifyBreaks text)]
    rfl

/-! ## The scanner on its lines -/

section seen

open Lib.Yaml

/-- Where the scanner is between two entries of a mapping that starts at the
first column. -/
structure Between (s : State) : Prop where
  depth : s.depth = 0
  columns : s.columns = [] ∨ s.columns = [0]
  mode : s.mode = .node ∨ s.mode = .plain true ∧ s.columns = [0]

/-- The literal scalar after these lines. -/
def literalBlock (content : List Str) (blank : Bool) : Block where
  chomping := .clip
  column := if content = [] then none else some 2
  least := 1
  last := if blank then .blank else if content = [] then .header else .content

/-- Where the scanner is after the lines that have been read. -/
def Reading.Seen : Reading → State → Prop
  | .entries _, s => Between s
  | .literal _ _ content blank, s =>
      s.columns = [0] ∧ s.depth = 0 ∧ s.mode = .block (literalBlock content blank)

theorem flatEntry_eq_some {line key : Str} {value : Option Str}
    (h : flatEntry line = some (key, value)) :
    key ≠ [] ∧ (∀ c ∈ key, c.isAlphanum = true) ∧
      ((line = key ++ ": |".toList ∧ value = none) ∨
        ∃ text, line = key ++ ": ".toList ++ text ∧ value = some text ∧
          isPhrase text = true) := by
  obtain ⟨⟨key', text⟩, hcut, hrest⟩ := Option.bind_eq_some_iff.1 h
  have hline := breakOn_eq_some hcut
  dsimp only at hrest
  split at hrest
  · next hkey =>
      obtain ⟨hne, hall⟩ := hkey
      split at hrest
      · next hbar =>
          cases hrest
          refine ⟨hne, List.all_eq_true.1 hall, .inl ⟨?_, rfl⟩⟩
          rw [hline, hbar, List.append_assoc]
          rfl
      · split at hrest
        · next hphrase =>
            cases hrest
            exact ⟨hne, List.all_eq_true.1 hall, .inr ⟨text, hline, rfl, hphrase⟩⟩
        · cases hrest
  · cases hrest

theorem isWord_of_isAlphanum {c : Char} (hc : c.isAlphanum = true) : isWord c = true := by
  simp [isWord, hc]

/-- A line that starts with a letter or a digit is neither blank nor a comment,
it starts no document, and it goes on with nothing. -/
theorem Between.fresh_eq {s : State} (hs : Between s) {c : Char}
    (hc : c.isAlphanum = true) (rest : Str) :
    s.fresh (c :: rest) = { s with mode := .node }.chars 0 (c :: rest) := by
  have hne := isWord_ne (isWord_of_isAlphanum hc)
  have hdot : c ≠ '.' := by
    rintro rfl
    exact absurd hc (by decide)
  have hlead : lead (c :: rest) = 0 := by simp [lead, hne]
  have hmarker : isMarker (c :: rest) = false := by
    simp [isMarker, hne, hdot]
  have hcontinues : s.continues (c :: rest) = false := by
    rcases hs.mode with hmode | ⟨hmode, hcolumns⟩
    · simp [State.continues, hmode]
    · simp [State.continues, hmode, hcolumns, hs.depth, hlead]
  have hunroll : (⟨s.columns, 0, s.key, .node⟩ : State).unroll 0 =
      ⟨s.columns, 0, s.key, .node⟩ := by
    rcases hs.columns with hcolumns | hcolumns <;> simp [State.unroll, hcolumns]
  have hblank : (c :: rest).all isBlank = false := by simp [isBlank, hne]
  have hcomment : (c :: rest).head? ≠ some '#' := by simp [hne]
  simp only [State.fresh, hlead, List.drop_zero, hblank, hcomment, hmarker, hcontinues,
    hs.depth, Bool.false_eq_true, if_false, if_true]
  rw [hunroll]

/-- The key of an entry, up to its value. -/
theorem Between.fresh_key {s : State} (hs : Between s) (hkey : s.key = none) {key : Str}
    (hne : key ≠ []) (hall : ∀ c ∈ key, c.isAlphanum = true) (value : Str) :
    ∃ column, s.fresh (key ++ ": ".toList ++ value) =
      (⟨[0], 0, none, .node⟩ : State).chars column value := by
  cases key with
  | nil => exact absurd rfl hne
  | cons c key =>
      have hc := hall c List.mem_cons_self
      have hplain : ∀ d ∈ key, d ≠ ':' ∧ d ≠ '#' := by
        intro d hd
        have hword := isWord_of_isAlphanum (hall d (List.mem_cons_of_mem c hd))
        exact ⟨ne_of_isWord hword rfl, ne_of_isWord hword rfl⟩
      have hstart : ∀ next, ({ s with mode := .node } : State).char 0 c next =
          { s with key := some 0, mode := .plain false } := by
        intro next
        have hnode := node_isWord (isWord_of_isAlphanum hc) (s := { s with mode := .node })
          hs.depth 0 next
        rw [State.char, hnode]
        simp [hkey]
      obtain ⟨blank, hchars⟩ := chars_plain hplain (": ".toList ++ value)
        (s := { s with key := some 0, mode := .plain false }) 1 hs.depth rfl
      have hcolon : ({ s with key := some 0, mode := .plain blank } : State).char
          (1 + key.length) ':' (some ' ') = ⟨[0], 0, none, .node⟩ := by
        rcases hs.columns with hcolumns | hcolumns <;>
          simp [State.char, State.node, State.roll, spaced, isBlank, hs.depth, hcolumns]
      refine ⟨1 + key.length + 1 + 1, ?_⟩
      rw [List.append_assoc, List.cons_append, hs.fresh_eq hc, State.chars, hstart, hchars]
      show (State.char _ _ ':' (some ' ')).chars _ (' ' :: value) = _
      rw [hcolon]
      rfl

theorem chars_phrase {text : Str} (h : isPhrase text = true) (column : Nat) :
    ∃ key, (⟨[0], 0, none, .node⟩ : State).chars column text = ⟨[0], 0, key, .plain true⟩ := by
  simp only [isPhrase, Bool.and_eq_true] at h
  obtain ⟨⟨hhead, -⟩, hall⟩ := h
  cases text with
  | nil => cases hhead
  | cons c text =>
      have hc : isWord c = true := hhead
      have hplain : ∀ d ∈ text, d ≠ ':' ∧ d ≠ '#' := by
        intro d hd
        have hd' := List.all_eq_true.1 hall d (List.mem_cons_of_mem c hd)
        rw [Bool.or_eq_true] at hd'
        rcases hd' with hword | hspace
        · exact ⟨ne_of_isWord hword rfl, ne_of_isWord hword rfl⟩
        · rw [of_decide_eq_true hspace]
          decide
      have hstart : (⟨[0], 0, none, .node⟩ : State).char column c text.head? =
          ⟨[0], 0, some column, .plain false⟩ := node_isWord hc rfl column text.head?
      obtain ⟨blank, hchars⟩ := chars_plain hplain [] (s := ⟨[0], 0, some column, .plain false⟩)
        (column + 1) rfl rfl
      refine ⟨some column, ?_⟩
      rw [State.chars, hstart, ← List.append_nil text, hchars]
      rfl

theorem entry_seen {s : State} (hs : Between s) (hkey : s.key = none)
    {done : List (Str × Value)} {line : Str} {r : Reading}
    (h : Reading.entry done line = some r) : r.Seen (s.fresh line) := by
  obtain ⟨⟨key, value⟩, hentry, rfl⟩ := Option.map_eq_some_iff.1 h
  obtain ⟨hne, hall, ⟨rfl, rfl⟩ | ⟨text, rfl, rfl, hphrase⟩⟩ := flatEntry_eq_some hentry
  · obtain ⟨column, hfresh⟩ := hs.fresh_key hkey hne hall ['|']
    have hline : key ++ ": |".toList = key ++ ": ".toList ++ ['|'] := by
      rw [List.append_assoc]
      rfl
    rw [hline, hfresh]
    exact ⟨rfl, rfl, rfl⟩
  · obtain ⟨column, hfresh⟩ := hs.fresh_key hkey hne hall text
    obtain ⟨key', hchars⟩ := chars_phrase hphrase column
    rw [hfresh, hchars]
    exact ⟨rfl, .inr rfl, .inr ⟨rfl, rfl⟩⟩

theorem entry_starts {done : List (Str × Value)} {line : Str} {r : Reading}
    (h : Reading.entry done line = some r) :
    ∃ c rest, line = c :: rest ∧ c.isAlphanum = true := by
  obtain ⟨⟨key, value⟩, hentry, -⟩ := Option.map_eq_some_iff.1 h
  obtain ⟨hne, hall, hline⟩ := flatEntry_eq_some hentry
  cases key with
  | nil => exact absurd rfl hne
  | cons c key =>
      have hc := hall c List.mem_cons_self
      rcases hline with ⟨rfl, -⟩ | ⟨text, rfl, -, -⟩ <;> exact ⟨c, _, rfl, hc⟩

/-! ### Below the header of a literal scalar -/

theorem literalBlock_blank (content : List Str) (blank : Bool) :
    (literalBlock content blank).line [] = some (literalBlock content true) := by
  by_cases hcontent : content = [] <;> simp [Block.line, literalBlock, lead, hcontent]

theorem literalBlock_content {line text : Str} (h : flatContent line = some text)
    (content : List Str) :
    (literalBlock content false).line line =
      some (literalBlock (content ++ [text]) false) := by
  obtain ⟨text', hstrip, hrest⟩ := Option.bind_eq_some_iff.1 h
  obtain rfl := stripPrefix_eq_some.1 hstrip
  cases text' with
  | nil => cases hrest
  | cons c rest =>
      by_cases hc : c = ' '
      · rw [hc] at hrest
        cases hrest
      · have hhead : ((c :: rest).head?.all fun c => c = ' ') = false := by simp [hc]
        rw [hhead] at hrest
        cases hrest
        have hlead : lead (' ' :: ' ' :: c :: rest) = 2 := by simp [lead, hc]
        show (literalBlock content false).line (' ' :: ' ' :: c :: rest) = _
        by_cases hcontent : content = [] <;> simp [Block.line, literalBlock, hlead, hcontent]

theorem literalBlock_outside {c : Char} (hc : c.isAlphanum = true) (rest : Str)
    (content : List Str) (blank : Bool) :
    (literalBlock content blank).line (c :: rest) = none := by
  have hne := isWord_ne (isWord_of_isAlphanum hc)
  have hlead : lead (c :: rest) = 0 := by simp [lead, hne]
  by_cases hcontent : content = [] <;> simp [Block.line, literalBlock, hlead, hcontent]

/-! ### Every line -/

theorem Between.line_eq {s : State} (hs : Between s) (line : Str) :
    s.line line = { s with key := none }.fresh line := by
  rcases hs.mode with hmode | ⟨hmode, -⟩ <;> simp [State.line, hmode]

theorem Reading.seen_line {r r' : Reading} {s : State} (hs : r.Seen s) {line : Str}
    (h : r.line line = some r') : r'.Seen (s.line line) := by
  cases r with
  | entries done =>
      have hbetween : Between s := hs
      have hbetween' : Between { s with key := none } :=
        ⟨hbetween.depth, hbetween.columns, hbetween.mode⟩
      rw [hbetween.line_eq]
      by_cases hline : line = []
      · subst hline
        cases h
        exact hbetween'
      · rw [Reading.line, if_neg hline] at h
        exact entry_seen hbetween' rfl h
  | literal done key content blank =>
      obtain ⟨hcolumns, hdepth, hmode⟩ := hs
      by_cases hline : line = []
      · subst hline
        cases h
        rw [State.line, hmode]
        simp only [literalBlock_blank]
        exact ⟨hcolumns, hdepth, rfl⟩
      · rw [Reading.line, if_neg hline] at h
        cases hcontent : flatContent line with
        | some text =>
            simp only [hcontent] at h
            cases blank with
            | true => cases h
            | false =>
                cases h
                rw [State.line, hmode]
                simp only [literalBlock_content hcontent]
                exact ⟨hcolumns, hdepth, rfl⟩
        | none =>
            simp only [hcontent] at h
            obtain ⟨c, rest, rfl, hc⟩ := entry_starts h
            rw [State.line, hmode]
            simp only [literalBlock_outside hc]
            have hout : Between { s with key := none, mode := .node } :=
              ⟨hdepth, .inr hcolumns, .inl rfl⟩
            exact entry_seen hout rfl h

theorem Reading.seen_lines {lines : List Str} : ∀ {r r' : Reading} {s : State},
    r.Seen s → lines.foldlM Reading.line r = some r' →
      r'.Seen (lines.foldl State.line s) := by
  induction lines with
  | nil =>
      intro r r' s hs h
      cases h
      exact hs
  | cons line lines ih =>
      intro r r' s hs h
      obtain ⟨next, hnext, hrest⟩ := Option.bind_eq_some_iff.1 h
      exact ih (Reading.seen_line hs hnext) hrest

theorem Reading.seen_readLines {lines : List Str} {r : Reading}
    (h : readLines lines = some r) : r.Seen (scan lines) :=
  Reading.seen_lines (r := .entries []) ⟨rfl, .inl rfl, .inl rfl⟩ h

/-- What has been read says whether a further line break is content. -/
theorem Reading.Seen.keepsBreak {r : Reading} {s : State} (h : r.Seen s) :
    s.keepsBreak = true ↔
      ∃ done key content, content ≠ [] ∧ r = .literal done key content false := by
  cases r with
  | entries done =>
      have hbetween : Between s := h
      rcases hbetween.mode with hmode | ⟨hmode, -⟩ <;> simp [State.keepsBreak, hmode]
  | literal done key content blank =>
      obtain ⟨-, -, hmode⟩ := h
      by_cases hcontent : content = [] <;> cases blank <;>
        simp [State.keepsBreak, hmode, Block.keepsBreak, literalBlock, hcontent]

end seen

/-! ## A line break at the end -/

section final

variable {text : Str}

/-- The mapping of these entries, where there are any. -/
def mapOf (entries : List (Str × Value)) : Option Map :=
  match if entries.isEmpty then Value.null else json entries with
  | .object map => some map
  | _ => none

theorem get_mapOf {done : List (Str × Value)} {key : Str} {value : Value} {map : Map}
    (h : mapOf (done ++ [(key, value)]) = some map) : Map.get key map = some value := by
  have hget := get_json (done ++ [(key, value)]) key
  rw [List.reverse_concat, List.find?_cons_of_pos (by simp)] at hget
  have hmap : json (done ++ [(key, value)]) = .object map := by
    have hne : (done ++ [(key, value)]).isEmpty = false := by simp
    rw [mapOf, hne] at h
    split at h
    · next map' hobject =>
        cases h
        exact hobject
    · cases h
  rw [hmap] at hget
  exact hget

theorem convert_flatYaml (hcr : '\r' ∉ text) : convert flatYaml text =
    (readLines (text.splitOnP Yaml.isBreak)).bind fun r => mapOf r.finish := by
  have hread : flatYaml.fromStr text =
      (readLines (text.splitOnP Yaml.isBreak)).map Reading.finish := by
    show (readLines ((unifyBreaks text).splitOnP Yaml.isBreak)).map _ = _
    rw [unifyBreaks_eq_self hcr]
  rw [convert, hread]
  cases readLines (text.splitOnP Yaml.isBreak) <;> rfl

theorem readLines_concat (lines : List Str) (line : Str) :
    readLines (lines ++ [line]) = (readLines lines).bind fun r => r.line line := by
  rw [readLines, List.foldlM_append]
  simp [readLines]

theorem convert_concat_break (hcr : '\r' ∉ text) : convert flatYaml (text ++ ['\n']) =
    (readLines (text.splitOnP Yaml.isBreak)).bind fun r =>
      (r.line []).bind fun r => mapOf r.finish := by
  have hcr' : '\r' ∉ text ++ ['\n'] := by simpa using hcr
  rw [convert_flatYaml hcr', Yaml.splitOnP_concat_break, readLines_concat,
    Option.bind_assoc]

/-- An empty line at the end changes nothing of what has been read, where it is
no content. -/
theorem Reading.finish_blank {r r' : Reading} (h : r.line [] = some r')
    (hno : ∀ done key content, content ≠ [] → r ≠ .literal done key content false) :
    r'.finish = r.finish := by
  cases r with
  | entries done =>
      cases h
      rfl
  | literal done key content blank =>
      cases h
      cases blank with
      | true => rfl
      | false =>
          have hcontent : content = [] := by
            by_contra hne
            exact hno done key content hne rfl
          rw [hcontent]
          rfl

theorem finalBreak_flatYaml : FinalBreak flatYaml where
  aside text hcr hkeeps := by
    rw [convert_flatYaml hcr, convert_concat_break hcr]
    cases hread : readLines (text.splitOnP Yaml.isBreak) with
    | none => rfl
    | some r =>
        have hseen := Reading.seen_readLines hread
        have hno : ∀ done key content, content ≠ [] → r ≠ .literal done key content false :=
          fun done key content hne heq =>
            hkeeps (hseen.keepsBreak.2 ⟨done, key, content, hne, heq⟩)
        obtain ⟨r', hr'⟩ : ∃ r', r.line [] = some r' := by
          cases r <;> exact ⟨_, rfl⟩
        rw [Option.bind_some, Option.bind_some, hr', Option.bind_some,
          Reading.finish_blank hr' hno]
  kept text hcr hkeeps map hmap := by
    intro hmap'
    rw [convert_concat_break hcr] at hmap
    rw [convert_flatYaml hcr] at hmap'
    cases hread : readLines (text.splitOnP Yaml.isBreak) with
    | none =>
        rw [hread] at hmap
        cases hmap
    | some r =>
        have hseen := Reading.seen_readLines hread
        obtain ⟨done, key, content, hne, rfl⟩ := hseen.keepsBreak.1 hkeeps
        rw [hread] at hmap hmap'
        have hget : Map.get key map = some (.string (broken content)) := get_mapOf hmap
        have hget' : Map.get key map = some (.string (['\n'].intercalate content)) :=
          get_mapOf hmap'
        rw [hget, broken, ← intercalate_concat hne] at hget'
        injection hget' with hvalue
        injection hvalue with htext
        have hlength := congrArg List.length htext
        simp at hlength

end final

end McpTemplate.Skills
