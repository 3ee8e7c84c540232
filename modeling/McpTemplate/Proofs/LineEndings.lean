import McpTemplate.Proofs.FlatYaml

/-!
# Two checkouts of one file

A checkout may turn every LF into CRLF. To a YAML parser the two are the same
line break, so the frontmatter should not tell the checkouts apart.

The code cuts the block at a line feed. Of an LF file that takes the last line
break of the block away; of a CRLF file it takes half of it, and what stays is
a CR, which is a line break too. So the parser is given the same text, but
with a final line break in one of the cases, and the checkouts are told apart
exactly where that is content: where the lines of the block end in a block
scalar that is not stripped.
-/

namespace McpTemplate.Skills

open Lib Json

/-- The lines of the block: from the second line of a file that opens with a
line `---`, up to the first, from the third on, that starts with three
dashes. -/
def blockLines (markdown : Str) : Option (List Str) :=
  match lines markdown with
  | first :: second :: later =>
      if first.text = dashes ∧ ∃ line ∈ later, Dashed line then
        some ((second :: later.takeWhile fun line => ¬ Dashed line).map Line.text)
      else none
  | _ => none

/-- To the YAML parser the text is a mapping. -/
def IsMapping (crates : Crates) (text : Str) : Prop :=
  ∃ yaml map, crates.fromStr text = some yaml ∧ crates.toValue yaml = some (.object map)

/-- What the code cuts out of a file without carriage returns. -/
def blockText (markdown : Str) : Option Str := do
  let body ← stripPrefix "---\n".toList markdown
  let (text, _) ← breakOn lfDashes body
  some text

/-! ## The cut of a CRLF file -/

/-- The same line closes the block, and a CR is left of the last break. -/
theorem breakOn_crlf (s : Str) :
    (breakOn lfDashes (crlf s)).map Prod.fst =
      ((breakOn lfDashes s).map Prod.fst).map fun text => crlf text ++ ['\r'] := by
  induction s with
  | nil => rfl
  | cons c s ih =>
      by_cases hc : c = '\n'
      · subst hc
        rw [crlf_lf, breakOn_other (by decide), breakOn_lf, breakOn_lf, ih]
        by_cases hd : dashes <+: s
        · rw [if_pos hd, if_pos ((prefix_crlf (by decide) (by decide)).2 hd)]
          rfl
        · have hd' : ¬ dashes <+: crlf s := fun h =>
            hd ((prefix_crlf (by decide) (by decide)).1 h)
          rw [if_neg hd, if_neg hd']
          cases (breakOn lfDashes s).map Prod.fst <;> rfl
      · rw [crlf_cons hc, breakOn_other hc, breakOn_other hc, ih]
        cases (breakOn lfDashes s).map Prod.fst with
        | none => rfl
        | some text =>
            show some (c :: (crlf text ++ ['\r'])) = some (crlf (c :: text) ++ ['\r'])
            rw [crlf_cons hc]
            rfl

/-- The opening of a CRLF file. -/
theorem stripPrefix_open_crlf {markdown : Str} (hcr : '\r' ∉ markdown) :
    (stripPrefix "---\n".toList (crlf markdown)).or
        (stripPrefix "---\r\n".toList (crlf markdown)) =
      (stripPrefix "---\n".toList markdown).map crlf := by
  by_cases hd : dashes <+: markdown
  · obtain ⟨s, rfl⟩ := hd
    rw [crlf_append (by decide)]
    cases s with
    | nil => rfl
    | cons c s =>
        by_cases hc : c = '\n'
        · subst hc
          rw [crlf_lf]
          have hopen : dashes ++ '\n' :: s = "---\n".toList ++ s := rfl
          have hcrlf : dashes ++ '\r' :: '\n' :: crlf s =
              "---\r\n".toList ++ crlf s := rfl
          have hlf : stripPrefix "---\n".toList ("---\r\n".toList ++ crlf s) = none :=
            rfl
          rw [hopen, hcrlf, hlf, stripPrefix_append, stripPrefix_append]
          rfl
        · have hne : c ≠ '\r' := fun h =>
            hcr (h ▸ List.mem_append_right _ List.mem_cons_self)
          have hnone : ∀ (b : Char) (pre s : Str), c ≠ b →
              stripPrefix (dashes ++ b :: pre) (dashes ++ c :: s) = none := by
            intro b pre s hb
            refine stripPrefix_eq_none.2 fun hpre => hb ?_
            have htail := (List.prefix_append_right_inj dashes).1 hpre
            exact (List.cons_prefix_cons.1 htail).1.symm
          rw [crlf_cons hc]
          show (stripPrefix (dashes ++ '\n' :: []) (dashes ++ c :: crlf s)).or
              (stripPrefix (dashes ++ '\r' :: ['\n']) (dashes ++ c :: crlf s)) =
            (stripPrefix (dashes ++ '\n' :: []) (dashes ++ c :: s)).map crlf
          rw [hnone _ _ _ hc, hnone _ _ _ hne, hnone _ _ _ hc]
          rfl
  · have hnone : ∀ (pre s : Str), ¬ dashes <+: s →
        stripPrefix (dashes ++ pre) s = none := fun pre s h =>
      stripPrefix_eq_none.2 fun hpre => h ((List.prefix_append _ _).trans hpre)
    have hcrlf : ¬ dashes <+: crlf markdown := fun h =>
      hd ((prefix_crlf (by decide) (by decide)).1 h)
    show (stripPrefix (dashes ++ ['\n']) (crlf markdown)).or
        (stripPrefix (dashes ++ ['\r', '\n']) (crlf markdown)) =
      (stripPrefix (dashes ++ ['\n']) markdown).map crlf
    rw [hnone _ _ hcrlf, hnone _ _ hcrlf, hnone _ _ hd]
    rfl

/-! ## The two files -/

theorem blockText_eq (markdown : Str) :
    blockText markdown = (stripPrefix "---\n".toList markdown).bind fun body =>
      (breakOn lfDashes body).map Prod.fst := by
  unfold blockText
  cases stripPrefix "---\n".toList markdown with
  | none => rfl
  | some body =>
      show (breakOn lfDashes body).bind _ = (breakOn lfDashes body).map Prod.fst
      cases breakOn lfDashes body <;> rfl

theorem parseFrontmatter_lf (crates : Crates) {markdown : Str} (hcr : '\r' ∉ markdown) :
    parseFrontmatter crates markdown = (blockText markdown).bind (convert crates) := by
  have hnone : stripPrefix "---\r\n".toList markdown = none := by
    refine stripPrefix_eq_none.2 fun hpre => hcr ?_
    exact hpre.subset (by decide)
  rw [parseFrontmatter_of_body crates rfl, hnone, Option.or_none, blockText_eq,
    Option.bind_assoc]

theorem parseFrontmatter_crlf (crates : Crates) {markdown : Str}
    (hcr : '\r' ∉ markdown) :
    parseFrontmatter crates (crlf markdown) =
      (blockText markdown).bind fun text => convert crates (crlf text ++ ['\r']) := by
  rw [parseFrontmatter_of_body crates (stripPrefix_open_crlf hcr), blockText_eq]
  cases stripPrefix "---\n".toList markdown with
  | none => rfl
  | some body =>
      show ((breakOn lfDashes (crlf body)).map Prod.fst).bind (convert crates) =
        ((breakOn lfDashes body).map Prod.fst).bind _
      rw [breakOn_crlf]
      cases breakOn lfDashes body <;> rfl

theorem cr_not_mem_blockText {markdown text : Str} (hcr : '\r' ∉ markdown)
    (h : blockText markdown = some text) : '\r' ∉ text := by
  rw [blockText_eq] at h
  obtain ⟨body, hbody, htext⟩ := Option.bind_eq_some_iff.1 h
  obtain ⟨⟨before, after⟩, hcut, rfl⟩ := Option.map_eq_some_iff.1 htext
  rw [stripPrefix_eq_some.1 hbody] at hcr
  intro hmem
  rw [breakOn_eq_some hcut, List.append_assoc] at hcr
  exact hcr (List.mem_append_right _ (List.mem_append_left _ hmem))

/-- To the parser the text of a CRLF file has a line break more. -/
theorem UnifiesBreaks.convert_crlf {crates : Crates} (h : UnifiesBreaks crates)
    {text : Str} (hcr : '\r' ∉ text) :
    convert crates (crlf text ++ ['\r']) = convert crates (text ++ ['\n']) := by
  have hread : crates.fromStr (text ++ ['\n']) =
      crates.fromStr (crlf text ++ ['\r']) := by
    rw [← unifyBreaks_crlf hcr]
    exact h.fromStr _
  rw [convert, convert, hread]

theorem isMapping_iff {crates : Crates} {text : Str} :
    IsMapping crates text ↔ ∃ map, convert crates text = some map := by
  constructor
  · intro h
    obtain ⟨yaml, map, hread, hvalue⟩ := h
    refine ⟨map, ?_⟩
    rw [convert, hread]
    show (crates.toValue yaml).bind _ = _
    rw [hvalue]
    rfl
  · intro h
    obtain ⟨map, hmap⟩ := h
    obtain ⟨yaml, hread, hrest⟩ := Option.bind_eq_some_iff.1 hmap
    obtain ⟨value, hvalue, hobject⟩ := Option.bind_eq_some_iff.1 hrest
    cases value with
    | object map' => exact ⟨yaml, map', hread, hvalue⟩
    | _ => cases hobject

/-! ## The block by its lines -/

/-- The cut of a body without carriage returns: its lines before the first
dashed one, joined. -/
theorem cutAt_eq_join {body : Str} (hcr : '\r' ∉ body) {second : Line}
    {later : List Line} (hlines : lines body = second :: later) {next : Line}
    (hnext : later.find? (fun line => Dashed line) = some next) :
    cutAt (second :: later) = some (['\n'].intercalate
      ((second :: later.takeWhile fun line => ¬ Dashed line).map Line.text)) := by
  have hbroken : Broken (second :: later) := hlines ▸ broken_lines body
  obtain ⟨text, htext, heq⟩ := cutAt_eq_some hbroken hnext
  obtain ⟨hdash, pre, post, hlater, hpre⟩ := List.find?_eq_some_iff_append.1 hnext
  have htake : (later.takeWhile fun line => ¬ Dashed line) = pre := by
    rw [hlater, List.takeWhile_append_of_pos fun line hline => by simpa using hpre line hline,
      List.takeWhile_cons_of_neg (by simpa using hdash), List.append_nil]
  rw [htake] at heq ⊢
  have hlf : ∀ line ∈ second :: pre, line.ending = .lf := by
    intro line hline
    have hsplit : Broken ((second :: pre) ++ next :: post) := by
      rw [List.cons_append, ← hlater]
      exact hbroken
    have hne : line.ending ≠ .eos := ending_ne_eos_of_broken hsplit line hline
    have hmem : line ∈ lines body := by
      rw [hlines, hlater, ← List.cons_append]
      exact List.mem_append_left _ hline
    cases hending : line.ending with
    | lf => rfl
    | crlf => exact absurd hending (ending_ne_crlf hcr line hmem)
    | eos => exact absurd hending hne
  rw [htext, unlines_of_lf hlf, ← intercalate_concat (by simp)] at *
  exact congrArg some (List.append_cancel_right heq)

/-- What the code cuts out is the lines of the block, without the line break at
their end. -/
theorem blockText_eq_lines {markdown : Str} (hcr : '\r' ∉ markdown) :
    blockText markdown = (blockLines markdown).map ['\n'].intercalate := by
  rw [blockText_eq]
  cases hopen : stripPrefix "---\n".toList markdown with
  | some body =>
      obtain rfl := stripPrefix_eq_some.1 hopen
      have hbody : '\r' ∉ body := fun hmem => hcr (List.mem_append_right _ hmem)
      obtain ⟨second, later, hlines⟩ := lines_eq_cons body
      rw [Option.bind_some, breakOn_eq_cutAt, blockLines, lines_open_lf, hlines]
      cases hnext : later.find? fun line => Dashed line with
      | none =>
          have hno : ¬ ∃ line ∈ later, Dashed line := by simpa using hnext
          rw [cutAt_eq_none hnext]
          simp [hno]
      | some next =>
          have hdash : ∃ line ∈ later, Dashed line :=
            ⟨next, List.mem_of_find?_eq_some hnext, by simpa using List.find?_some hnext⟩
          rw [cutAt_eq_join hbody hlines hnext]
          simp [hdash]
  | none =>
      have hnone : blockLines markdown = none := by
        rw [blockLines]
        split
        · next first second later hlines =>
            rw [if_neg]
            intro hopens
            obtain ⟨hdashes, -⟩ := hopens
            obtain ⟨s, -, hs, hend⟩ := lines_tail hlines (by simp)
            rw [hdashes] at hs
            cases hending : first.ending with
            | eos => exact hend hending
            | lf =>
                have happ : dashes ++ Ending.lf.text ++ s = "---\n".toList ++ s := rfl
                rw [hs, hending, happ, stripPrefix_append] at hopen
                cases hopen
            | crlf =>
                rw [hs, hending] at hcr
                exact hcr (by simp [Ending.text])
        · rfl
      rw [hnone]
      rfl

def plainValue : Str := "---\nname: demo\n---\nbody\n".toList

def literalValue : Str := "---\nkey: |\n  text\n---\n".toList

end McpTemplate.Skills
