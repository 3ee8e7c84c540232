import McpTemplate.Lib.Lines
import McpTemplate.Proofs.Resolve

/-!
# Where the frontmatter block ends

The block is defined by lines: it opens with a first line `---` and closes
with the next line that is exactly `---`. The code looks for a substring, a
line feed and three dashes, which is a later line that merely starts with
`---`, and it starts looking after the line that follows the opening one.

`cutAt` is the code's answer in terms of lines, so both sides speak of the
lines after the opening one. They agree exactly where the first line from the
third on that starts with `---` is a closing line and the second is none, or
where there is no such line; and in one more case, where the substring search
cuts an empty text out of a file that has no block at all.
-/

namespace McpTemplate.Skills

open Lib Json

def dashes : Str := "---".toList

/-- The YAML parser and the conversion, where they give a mapping. -/
def convert (crates : Crates) (text : Str) : Option Map := do
  let yaml ← crates.fromStr text
  match ← crates.toValue yaml with
  | .object map => some map
  | _ => none

/-! ## The definition by lines -/

/-- The text of these lines, the line break that ends the last of them
aside. -/
def Aside (block : List Line) (text : Str) : Prop :=
  (block = [] ∧ text = []) ∨
    ∃ ending : Ending, ending ≠ .eos ∧ text ++ ending.text = unlines block

/-- What the frontmatter of these lines is. -/
def Frontmatter (crates : Crates) (ls : List Line) (result : Option Map) :
    Prop :=
  match ls with
  | [] => result = none
  | first :: later =>
      if first.text = dashes ∧ ∃ line ∈ later, line.text = dashes then
        ∃ text, Aside (later.takeWhile fun line => line.text ≠ dashes) text ∧
          result = convert crates text
      else result = none

/-- The code finds the block of this file, whatever the YAML parser does,
which finds no mapping in an empty text. -/
def Delimited (markdown : Str) : Prop :=
  ∀ crates : Crates, convert crates [] = none →
    Frontmatter crates (lines markdown) (parseFrontmatter crates markdown)

/-! ## The code by lines -/

/-- A line that starts with three dashes. -/
def Dashed (line : Line) : Prop := dashes <+: line.text

instance (line : Line) : Decidable (Dashed line) :=
  inferInstanceAs (Decidable (dashes <+: line.text))

/-- What a line leaves of its break when the line feed is cut off. -/
def Ending.beforeLf : Ending → Str
  | .crlf => ['\r']
  | _ => []

/-- The text before the first line, from the second on, that starts with
dashes, less a line feed. -/
def cutAt : List Line → Option Str
  | [] => none
  | [_] => none
  | line :: next :: rest =>
      if Dashed next then some (line.text ++ Ending.beforeLf line.ending)
      else (cutAt (next :: rest)).map fun text =>
        line.text ++ line.ending.text ++ text

def lfDashes : Str := "\n---".toList

theorem dashed_first {s : Str} {line : Line} {rest : List Line}
    (h : lines s = line :: rest) : Dashed line ↔ dashes <+: s :=
  prefix_first_line (by decide) (by decide) h

/-- At a line feed, the search asks whether the next line starts with
dashes. -/
theorem breakOn_lf (s : Str) : (breakOn lfDashes ('\n' :: s)).map Prod.fst =
    if dashes <+: s then some []
    else ((breakOn lfDashes s).map Prod.fst).map ('\n' :: ·) := by
  have hstrip : stripPrefix lfDashes ('\n' :: s) = stripPrefix dashes s := rfl
  rw [breakOn, hstrip]
  split
  · next rest hrest =>
      rw [if_pos ⟨rest, (stripPrefix_eq_some.1 hrest).symm⟩]
      rfl
  · next hnone =>
      rw [if_neg (stripPrefix_eq_none.1 hnone), Option.map_map, Option.map_map]
      rfl

/-- At any other character the search goes on. -/
theorem breakOn_other {c : Char} (hc : c ≠ '\n') (s : Str) :
    (breakOn lfDashes (c :: s)).map Prod.fst =
      ((breakOn lfDashes s).map Prod.fst).map (c :: ·) := by
  have hstrip : stripPrefix lfDashes (c :: s) = none := by
    refine stripPrefix_eq_none.2 fun hpre => hc ?_
    exact (List.cons_prefix_cons.1 hpre).1.symm
  rw [breakOn, hstrip, Option.map_map, Option.map_map]
  rfl

theorem cutAt_consLine (c : Char) (ls : List Line) :
    cutAt (consLine c ls) = (cutAt ls).map (c :: ·) := by
  match ls with
  | [] => rfl
  | [_] => rfl
  | line :: next :: rest =>
      rw [consLine, cutAt, cutAt]
      split
      · rfl
      · rw [Option.map_map]
        rfl

/-- The search on a text is `cutAt` on its lines. -/
theorem breakOn_eq_cutAt (s : Str) :
    (breakOn lfDashes s).map Prod.fst = cutAt (lines s) := by
  fun_induction lines s with
  | case1 => rfl
  | case2 s ih =>
      obtain ⟨line, rest, h⟩ := lines_eq_cons s
      rw [breakOn_lf, ih, h, cutAt]
      by_cases hd : Dashed line
      · rw [if_pos hd, if_pos ((dashed_first h).1 hd)]; rfl
      · rw [if_neg hd, if_neg (fun hp => hd ((dashed_first h).2 hp))]; rfl
  | case3 s ih =>
      obtain ⟨line, rest, h⟩ := lines_eq_cons s
      rw [breakOn_other (by decide), breakOn_lf, ih, h, cutAt]
      by_cases hd : Dashed line
      · rw [if_pos hd, if_pos ((dashed_first h).1 hd)]; rfl
      · rw [if_neg hd, if_neg (fun hp => hd ((dashed_first h).2 hp)),
          Option.map_map]
        rfl
  | case4 c s hlf hcrlf ih =>
      rw [breakOn_other hlf, ih, cutAt_consLine]

/-! ## The opening line -/

theorem lines_open_lf (s : Str) :
    lines ("---\n".toList ++ s) = ⟨dashes, .lf⟩ :: lines s := rfl

theorem lines_open_crlf (s : Str) :
    lines ("---\r\n".toList ++ s) = ⟨dashes, .crlf⟩ :: lines s := rfl

/-- The code on a file with this body after the opening line. -/
theorem parseFrontmatter_of_body (crates : Crates) {markdown : Str} {body : Option Str}
    (h : (stripPrefix "---\n".toList markdown).or
      (stripPrefix "---\r\n".toList markdown) = body) :
    parseFrontmatter crates markdown =
      body.bind fun body =>
        ((breakOn lfDashes body).map Prod.fst).bind (convert crates) := by
  rw [← h]
  have hbody : (fun body => ((breakOn lfDashes body).map Prod.fst).bind
      (convert crates)) = fun body => (breakOn lfDashes body).bind fun parts =>
        convert crates parts.1 := by
    funext body
    cases breakOn lfDashes body <;> rfl
  rw [hbody]
  rfl

/-- The code on a file whose lines are these. -/
theorem parseFrontmatter_eq (crates : Crates) {markdown : Str} {first : Line}
    {later : List Line} (h : lines markdown = first :: later) :
    parseFrontmatter crates markdown =
      if first.text = dashes ∧ later ≠ [] then
        (cutAt later).bind (convert crates)
      else none := by
  rw [parseFrontmatter_of_body crates rfl]
  simp only [breakOn_eq_cutAt]
  split
  · next hopen =>
      obtain ⟨hdash, hne⟩ := hopen
      obtain ⟨s, rfl, hs, hend⟩ := lines_tail h hne
      rw [hs, hdash]
      cases hending : first.ending with
      | eos => exact absurd hending hend
      | lf =>
          have happ : dashes ++ Ending.lf.text ++ s = "---\n".toList ++ s := rfl
          rw [happ, stripPrefix_append]
          rfl
      | crlf =>
          have happ : dashes ++ Ending.crlf.text ++ s = "---\r\n".toList ++ s :=
            rfl
          have hlf : stripPrefix "---\n".toList ("---\r\n".toList ++ s) = none :=
            rfl
          rw [happ, hlf, stripPrefix_append]
          rfl
  · next hopen =>
      have hnone : ∀ pre ending s, stripPrefix pre markdown = some s →
          lines (pre ++ s) = ⟨dashes, ending⟩ :: lines s → False := by
        intro pre ending s hstrip hlines
        rw [← stripPrefix_eq_some.1 hstrip, h] at hlines
        cases hlines
        exact hopen ⟨rfl, lines_ne_nil s⟩
      cases hlf : stripPrefix "---\n".toList markdown with
      | some s => exact (hnone _ .lf s hlf (lines_open_lf s)).elim
      | none =>
          cases hcrlf : stripPrefix "---\r\n".toList markdown with
          | some s => exact (hnone _ .crlf s hcrlf (lines_open_crlf s)).elim
          | none => rfl

/-! ## The cut -/

theorem cutAt_eq_none {line : Line} {rest : List Line}
    (h : rest.find? (fun l => Dashed l) = none) : cutAt (line :: rest) = none := by
  induction rest generalizing line with
  | nil => rfl
  | cons next rest ih =>
      rw [List.find?_eq_none] at h
      have hnext : ¬ Dashed next := by simpa using h next List.mem_cons_self
      have hrest : rest.find? (fun l => Dashed l) = none :=
        List.find?_eq_none.2 fun l hl => h l (List.mem_cons_of_mem _ hl)
      rw [cutAt, if_neg hnext, ih hrest]
      rfl

/-- The cut is the lines up to the dashed one, less a line feed. -/
theorem cutAt_eq_some {line next : Line} {rest : List Line}
    (hb : Broken (line :: rest)) (h : rest.find? (fun l => Dashed l) = some next) :
    ∃ text, cutAt (line :: rest) = some text ∧
      text ++ ['\n'] = unlines (line :: rest.takeWhile fun l => ¬ Dashed l) := by
  induction rest generalizing line with
  | nil => cases h
  | cons l rest ih =>
      have hend : Ending.beforeLf line.ending ++ ['\n'] = line.ending.text := by
        cases hending : line.ending with
        | lf | crlf => rfl
        | eos => exact absurd hending hb.1
      by_cases hd : Dashed l
      · refine ⟨line.text ++ Ending.beforeLf line.ending, ?_, ?_⟩
        · rw [cutAt, if_pos hd]
        · rw [List.takeWhile_cons_of_neg (by simpa using hd), List.append_assoc,
            hend]
          simp [unlines]
      · rw [List.find?_cons_of_neg (by simpa using hd)] at h
        obtain ⟨text, htext, heq⟩ := ih hb.2 h
        refine ⟨line.text ++ line.ending.text ++ text, ?_, ?_⟩
        · rw [cutAt, if_neg hd, htext]
          rfl
        · rw [List.takeWhile_cons_of_pos (by simpa using hd), List.append_assoc,
            heq]
          simp [unlines]

/-- An empty cut: the second line is empty, and the third is dashed. -/
theorem cutAt_eq_nil {line : Line} {rest : List Line}
    (hb : Broken (line :: rest)) (h : cutAt (line :: rest) = some []) :
    line = ⟨[], .lf⟩ ∧ ∃ next, rest.head? = some next ∧ Dashed next := by
  cases rest with
  | nil => cases h
  | cons next rest =>
      obtain ⟨text, ending⟩ := line
      rw [cutAt] at h
      split at h
      · next hd =>
          obtain ⟨rfl, hlf⟩ := List.append_eq_nil_iff.1 (Option.some.inj h)
          refine ⟨?_, next, rfl, hd⟩
          cases ending with
          | lf => rfl
          | crlf => cases hlf
          | eos => exact absurd rfl hb.1
      · obtain ⟨cut, -, heq⟩ := Option.map_eq_some_iff.1 h
        obtain ⟨hline, -⟩ := List.append_eq_nil_iff.1 heq
        obtain ⟨-, hend⟩ := List.append_eq_nil_iff.1 hline
        cases ending with
        | lf | crlf => cases hend
        | eos => exact absurd rfl hb.1

/-! ## The two compared -/

/-- Three dashes are dashed. -/
theorem dashed_of_text {line : Line} (h : line.text = dashes) : Dashed line :=
  ⟨[], by rw [h, List.append_nil]⟩

/-- Up to the first dashed line no line is a closing one, and if that line is
one the two cuts agree. -/
theorem takeWhile_closing {rest : List Line} {next : Line}
    (h : rest.find? (fun l => Dashed l) = some next) (hnext : next.text = dashes) :
    (rest.takeWhile fun l => l.text ≠ dashes) =
      rest.takeWhile fun l => ¬ Dashed l := by
  induction rest with
  | nil => rfl
  | cons l rest ih =>
      by_cases hd : Dashed l
      · rw [List.find?_cons_of_pos (by simpa using hd)] at h
        cases h
        rw [List.takeWhile_cons_of_neg (by simpa using hnext),
          List.takeWhile_cons_of_neg (by simpa using hd)]
      · rw [List.find?_cons_of_neg (by simpa using hd)] at h
        have hl : l.text ≠ dashes := fun heq => hd (dashed_of_text heq)
        rw [List.takeWhile_cons_of_pos (by simpa using hl),
          List.takeWhile_cons_of_pos (by simpa using hd), ih h]

/-- A dashed line that does not close is part of the block. -/
theorem takeWhile_not_closing {rest : List Line} {next : Line}
    (h : rest.find? (fun l => Dashed l) = some next) (hnext : next.text ≠ dashes) :
    (rest.takeWhile fun l => ¬ Dashed l) ++ [next] <+:
      rest.takeWhile fun l => l.text ≠ dashes := by
  induction rest with
  | nil => cases h
  | cons l rest ih =>
      by_cases hd : Dashed l
      · rw [List.find?_cons_of_pos (by simpa using hd)] at h
        cases h
        rw [List.takeWhile_cons_of_neg (by simpa using hd),
          List.takeWhile_cons_of_pos (by simpa using hnext)]
        exact ⟨_, rfl⟩
      · rw [List.find?_cons_of_neg (by simpa using hd)] at h
        have hl : l.text ≠ dashes := fun heq => hd (dashed_of_text heq)
        rw [List.takeWhile_cons_of_pos (by simpa using hd),
          List.takeWhile_cons_of_pos (by simpa using hl), List.cons_append,
          List.cons_prefix_cons]
        exact ⟨rfl, ih h⟩

/-- A parser that finds an empty mapping in every text of more than `n`
characters. -/
def longerThan (n : Nat) : Crates where
  Yaml := Unit
  fromStr text := if text.length ≤ n then none else some ()
  toValue _ := some (.object [])
  toStringPretty _ := none
  sha256 _ := Vector.replicate 32 0
  CARGO_PKG_NAME := []
  CARGO_PKG_VERSION := []

theorem convert_longerThan (n : Nat) (text : Str) :
    convert (longerThan n) text =
      if text.length ≤ n then none else some [] := by
  unfold convert longerThan
  by_cases h : text.length ≤ n <;> simp [h]

theorem length_aside {block : List Line} {text : Str} (h : Aside block text) :
    (unlines block).length ≤ text.length + 2 := by
  rcases h with ⟨rfl, rfl⟩ | ⟨ending, -, heq⟩
  · exact Nat.zero_le _
  · rw [← heq, List.length_append]
    cases ending <;> simp [Ending.text]

/-- What has to hold of the lines after the opening one: the first line from
the second of them on that starts with dashes, if there is one, closes the
block and is the first to do so; or the text before it is empty and nothing
closes the block. -/
def ClosesRight (line : Line) (rest : List Line) : Prop :=
  ∀ next, rest.find? (fun l => Dashed l) = some next →
    (line.text ≠ dashes ∧ next.text = dashes) ∨
      (line = ⟨[], .lf⟩ ∧ rest.head? = some next ∧
        ∀ l ∈ rest, l.text ≠ dashes)

theorem frontmatter_block {crates : Crates} {first : Line} {later : List Line}
    {result : Option Map} (hfirst : first.text = dashes)
    (hclose : ∃ line ∈ later, line.text = dashes) :
    Frontmatter crates (first :: later) result ↔ ∃ text,
      Aside (later.takeWhile fun line => line.text ≠ dashes) text ∧
        result = convert crates text :=
  iff_of_eq (if_pos ⟨hfirst, hclose⟩)

theorem frontmatter_none {crates : Crates} {first : Line} {later : List Line}
    {result : Option Map}
    (h : first.text = dashes → ∀ line ∈ later, line.text ≠ dashes) :
    Frontmatter crates (first :: later) result ↔ result = none := by
  refine iff_of_eq (if_neg ?_)
  rintro ⟨hfirst, line, hline, hdash⟩
  exact h hfirst line hline hdash

/-- Where no later line is dashed there is no cut, and no block but an empty
one. -/
theorem frontmatter_undashed {crates : Crates} (hempty : convert crates [] = none)
    {first line : Line} {rest : List Line} (hfirst : first.text = dashes)
    (hfind : rest.find? (fun l => Dashed l) = none) :
    Frontmatter crates (first :: line :: rest) none := by
  have hrest : ∀ l ∈ rest, l.text ≠ dashes := fun l hl hdash => by
    have := List.find?_eq_none.1 hfind l hl
    exact this (by simpa using dashed_of_text hdash)
  by_cases hline : line.text = dashes
  · refine (frontmatter_block hfirst ⟨line, List.mem_cons_self, hline⟩).2
      ⟨[], .inl ⟨?_, rfl⟩, hempty.symm⟩
    exact List.takeWhile_cons_of_neg (by simpa using hline)
  · refine (frontmatter_none fun _ l hl => ?_).2 rfl
    rcases List.mem_cons.1 hl with rfl | hl
    · exact hline
    · exact hrest l hl

/-- Where the lines close right, the code is right. -/
theorem frontmatter_of_closes {crates : Crates} (hempty : convert crates [] = none)
    {first line : Line} {rest : List Line} (hfirst : first.text = dashes)
    (hb : Broken (line :: rest)) (h : ClosesRight line rest) :
    Frontmatter crates (first :: line :: rest)
      ((cutAt (line :: rest)).bind (convert crates)) := by
  cases hfind : rest.find? fun l => Dashed l with
  | none =>
      rw [cutAt_eq_none hfind]
      exact frontmatter_undashed hempty hfirst hfind
  | some next =>
      obtain ⟨text, hcut, htext⟩ := cutAt_eq_some hb hfind
      rcases h next hfind with ⟨hline, hnext⟩ | ⟨rfl, hhead, hnone⟩
      · have hmem : next ∈ line :: rest :=
          List.mem_cons_of_mem _ (List.mem_of_find?_eq_some hfind)
        rw [hcut]
        refine (frontmatter_block hfirst ⟨next, hmem, hnext⟩).2
          ⟨text, .inr ⟨.lf, by decide, ?_⟩, rfl⟩
        rw [List.takeWhile_cons_of_pos (by simpa using hline),
          takeWhile_closing hfind hnext]
        exact htext
      · -- the cut is empty and there is no block
        obtain ⟨rest', rfl⟩ : ∃ rest', rest = next :: rest' :=
          List.head?_eq_some_iff.1 hhead
        have hd : Dashed next := by simpa using List.find?_some hfind
        have hnil : cutAt (⟨[], .lf⟩ :: next :: rest') = some [] := by
          rw [cutAt, if_pos hd]
          rfl
        rw [hnil]
        refine (frontmatter_none fun _ l hl => ?_).2 hempty
        rcases List.mem_cons.1 hl with rfl | hl
        · decide
        · exact hnone l hl

/-- A second line that closes the block leaves nothing to cut. -/
theorem not_closed_second {first line next : Line} {rest : List Line}
    (hfirst : first.text = dashes) (hb : Broken (line :: rest))
    (hfind : rest.find? (fun l => Dashed l) = some next)
    (h : ∀ crates : Crates, convert crates [] = none →
      Frontmatter crates (first :: line :: rest)
        ((cutAt (line :: rest)).bind (convert crates))) :
    line.text ≠ dashes := by
  intro hline
  obtain ⟨text, hcut, htext⟩ := cutAt_eq_some hb hfind
  have hlong : ¬ text.length ≤ 0 := by
    intro hle
    have hlen := congrArg List.length htext
    simp [unlines, hline, dashes] at hlen
    omega
  obtain ⟨text', haside, heq⟩ :=
    (frontmatter_block hfirst ⟨line, List.mem_cons_self, hline⟩).1
      (h (longerThan 0) (by rw [convert_longerThan]; rfl))
  rw [List.takeWhile_cons_of_neg (by simpa using hline)] at haside
  have hnil : text' = [] := by
    rcases haside with ⟨-, rfl⟩ | ⟨ending, hend, htext'⟩
    · rfl
    · exact (List.append_eq_nil_iff.1 htext').1
  rw [hcut, Option.bind_some, hnil, convert_longerThan, convert_longerThan,
    if_neg hlong] at heq
  cases heq

/-- A dashed line that does not close, where another does, cuts the block
short. -/
theorem not_cut_short {first line next : Line} {rest : List Line}
    (hfirst : first.text = dashes) (hb : Broken (line :: rest))
    (hfind : rest.find? (fun l => Dashed l) = some next)
    (hline : line.text ≠ dashes) (hnext : next.text ≠ dashes)
    (hclose : ∃ l ∈ rest, l.text = dashes) :
    ∃ crates : Crates, convert crates [] = none ∧
      ¬ Frontmatter crates (first :: line :: rest)
        ((cutAt (line :: rest)).bind (convert crates)) := by
  obtain ⟨text, hcut, htext⟩ := cutAt_eq_some hb hfind
  refine ⟨longerThan text.length, by rw [convert_longerThan]; exact if_pos (Nat.zero_le _),
    fun h => ?_⟩
  obtain ⟨l, hl, hdash⟩ := hclose
  obtain ⟨text', haside, heq⟩ := (frontmatter_block hfirst
    ⟨l, List.mem_cons_of_mem _ hl, hdash⟩).1 h
  -- the block goes on for a dashed line at least
  have hlong : text.length + 4 ≤ text'.length + 2 := by
    refine Nat.le_trans ?_ (length_aside haside)
    obtain ⟨more, hmore⟩ := takeWhile_not_closing hfind hnext
    have hblock : unlines ((line :: rest).takeWhile fun l => l.text ≠ dashes) =
        text ++ ['\n'] ++ unlines (next :: more) := by
      rw [List.takeWhile_cons_of_pos (by simpa using hline), ← hmore, htext]
      simp [unlines]
    have hd : Dashed next := by simpa using List.find?_some hfind
    have hlen : 3 ≤ next.text.length := hd.length_le
    have hnextlen : next.text.length ≤ (unlines (next :: more)).length := by
      simp only [unlines, List.flatMap_cons, List.length_append]
      omega
    rw [hblock, List.length_append, List.length_append, List.length_singleton]
    omega
  rw [hcut, Option.bind_some, convert_longerThan, if_pos (Nat.le_refl _),
    convert_longerThan, if_neg (by omega)] at heq
  cases heq

/-- A dashed line where nothing closes cuts a block that is not there, unless
the cut is empty. -/
theorem cut_of_unclosed {first line next : Line} {rest : List Line}
    (hb : Broken (line :: rest))
    (hfind : rest.find? (fun l => Dashed l) = some next)
    (hnone : ∀ l ∈ line :: rest, l.text ≠ dashes)
    (h : ∀ crates : Crates, convert crates [] = none →
      Frontmatter crates (first :: line :: rest)
        ((cutAt (line :: rest)).bind (convert crates))) :
    line = ⟨[], .lf⟩ ∧ rest.head? = some next := by
  obtain ⟨text, hcut, -⟩ := cutAt_eq_some hb hfind
  have heq := (frontmatter_none fun _ => hnone).1
    (h (longerThan 0) (by rw [convert_longerThan]; rfl))
  have hnil : text = [] := by
    rw [hcut, Option.bind_some, convert_longerThan] at heq
    by_contra hne
    have hlong : ¬ text.length ≤ 0 := by simpa using hne
    rw [if_neg hlong] at heq
    cases heq
  rw [hnil] at hcut
  obtain ⟨hline, next', hhead, hd⟩ := cutAt_eq_nil hb hcut
  obtain ⟨rest', rfl⟩ := List.head?_eq_some_iff.1 hhead
  rw [List.find?_cons_of_pos (by simpa using hd)] at hfind
  exact ⟨hline, hhead.trans hfind⟩

/-- The code finds the block of a file exactly where it has no second line
after an opening one, or its lines close right. -/
theorem delimited_iff (markdown : Str) :
    Delimited markdown ↔ ∀ first line rest,
      lines markdown = first :: line :: rest → first.text = dashes →
        ClosesRight line rest := by
  obtain ⟨first, later, hlines⟩ := lines_eq_cons markdown
  have hcode : ∀ crates, parseFrontmatter crates markdown =
      if first.text = dashes ∧ later ≠ [] then
        (cutAt later).bind (convert crates)
      else none := fun crates => parseFrontmatter_eq crates hlines
  unfold Delimited
  by_cases hopen : first.text = dashes ∧ later ≠ []
  · obtain ⟨hfirst, hne⟩ := hopen
    obtain ⟨line, rest, rfl⟩ := List.exists_cons_of_ne_nil hne
    have hb : Broken (line :: rest) := by
      have hall := broken_lines markdown
      rw [hlines] at hall
      exact hall.2
    simp only [hcode, if_pos (And.intro hfirst hne), hlines]
    constructor
    · rintro h first' line' rest' heq - next hfind
      cases heq
      have hline := not_closed_second hfirst hb hfind h
      by_cases hnext : next.text = dashes
      · exact .inl ⟨hline, hnext⟩
      · right
        have hrest : ∀ l ∈ rest, l.text ≠ dashes := by
          intro l hl hdash
          obtain ⟨crates, hempty, hnot⟩ := not_cut_short hfirst hb hfind hline
            hnext ⟨l, hl, hdash⟩
          exact hnot (h crates hempty)
        have hnone : ∀ l ∈ line :: rest, l.text ≠ dashes := by
          intro l hl
          rcases List.mem_cons.1 hl with rfl | hl
          · exact hline
          · exact hrest l hl
        obtain ⟨hempty, hhead⟩ := cut_of_unclosed hb hfind hnone h
        exact ⟨hempty, hhead, hrest⟩
    · intro h crates hempty
      exact frontmatter_of_closes hempty hfirst hb (h first line rest rfl hfirst)
  · simp only [hcode, if_neg hopen, hlines]
    constructor
    · rintro - first' line rest heq hfirst
      cases heq
      exact absurd ⟨hfirst, List.cons_ne_nil _ _⟩ hopen
    · intro _ crates _
      refine (frontmatter_none fun hfirst l hl => ?_).2 rfl
      exact absurd ⟨hfirst, List.ne_nil_of_mem hl⟩ hopen

/-- A line of dashes inside the block ends it for the code. -/
theorem not_delimited_long_dashes :
    ¬ Delimited "---\nname: a\n----\nname: b\n---\n".toList := by
  intro h
  have hlines : lines "---\nname: a\n----\nname: b\n---\n".toList =
      [⟨dashes, .lf⟩, ⟨"name: a".toList, .lf⟩, ⟨"----".toList, .lf⟩,
        ⟨"name: b".toList, .lf⟩, ⟨dashes, .lf⟩, ⟨[], .eos⟩] := by decide
  have hb := broken_lines "---\nname: a\n----\nname: b\n---\n".toList
  rw [hlines] at hb
  have hfind : List.find? (fun l => Dashed l) [⟨"----".toList, .lf⟩,
      ⟨"name: b".toList, .lf⟩, ⟨dashes, .lf⟩, ⟨[], .eos⟩] =
        some ⟨"----".toList, .lf⟩ := by decide
  have hfirst : Line.text ⟨dashes, .lf⟩ = dashes := rfl
  obtain ⟨crates, hempty, hnot⟩ := not_cut_short hfirst hb.2 hfind (by decide)
    (by decide) ⟨⟨dashes, .lf⟩, by decide, rfl⟩
  have hdel := h crates hempty
  rw [parseFrontmatter_eq crates hlines, hlines, if_pos ⟨rfl, by decide⟩] at hdel
  exact hnot hdel

end McpTemplate.Skills
