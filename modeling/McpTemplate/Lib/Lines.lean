import McpTemplate.Lib.Text

/-!
# The lines of a text

A line is ended by LF, by CRLF, or by the end of the text, and keeps which of
the three it was, so the lines of a text give it back. A lone CR is a
character like any other. Every line but the last is ended by a line break.
-/

namespace Lib

inductive Ending where
  | lf
  | crlf
  | eos
  deriving DecidableEq, Repr

def Ending.text : Ending → Str
  | .lf => ['\n']
  | .crlf => ['\r', '\n']
  | .eos => []

structure Line where
  text : Str
  ending : Ending
  deriving DecidableEq, Repr

/-- A character put in front of the first line. -/
def consLine (c : Char) : List Line → List Line
  | [] => [⟨[c], .eos⟩]
  | line :: rest => ⟨c :: line.text, line.ending⟩ :: rest

def lines : Str → List Line
  | [] => [⟨[], .eos⟩]
  | '\n' :: s => ⟨[], .lf⟩ :: lines s
  | '\r' :: '\n' :: s => ⟨[], .crlf⟩ :: lines s
  | c :: s => consLine c (lines s)

/-- The text that lines were cut from. -/
def unlines (ls : List Line) : Str :=
  ls.flatMap fun line => line.text ++ line.ending.text

theorem consLine_eq_cons (c : Char) (ls : List Line) :
    ∃ line rest, consLine c ls = line :: rest := by
  cases ls <;> exact ⟨_, _, rfl⟩

theorem lines_eq_cons (s : Str) : ∃ line rest, lines s = line :: rest := by
  unfold lines
  split
  · exact ⟨_, _, rfl⟩
  · exact ⟨_, _, rfl⟩
  · exact ⟨_, _, rfl⟩
  · exact consLine_eq_cons _ _

theorem lines_ne_nil (s : Str) : lines s ≠ [] := by
  obtain ⟨line, rest, h⟩ := lines_eq_cons s
  rw [h]
  exact List.cons_ne_nil _ _

/-- The first line starts as the text does, where that has no line break. -/
theorem prefix_first_line {pre s : Str} (hlf : '\n' ∉ pre) (hcr : '\r' ∉ pre)
    {line : Line} {rest : List Line} (h : lines s = line :: rest) :
    pre <+: line.text ↔ pre <+: s := by
  induction pre generalizing s line with
  | nil => exact iff_of_true List.nil_prefix List.nil_prefix
  | cons a pre ih =>
      have half : a ≠ '\n' := fun ha => hlf (ha ▸ List.mem_cons_self)
      have hacr : a ≠ '\r' := fun ha => hcr (ha ▸ List.mem_cons_self)
      unfold lines at h
      split at h
      · cases h; simp
      · cases h; simp [half]
      · cases h; simp [hacr]
      · next c s _ _ =>
          obtain ⟨line', rest', h'⟩ := lines_eq_cons s
          rw [h', consLine] at h
          cases h
          rw [List.cons_prefix_cons, List.cons_prefix_cons,
            ih (List.not_mem_of_not_mem_cons hlf)
              (List.not_mem_of_not_mem_cons hcr) h']

/-- What comes after the first line is the lines of the rest of the text. -/
theorem lines_tail {s : Str} {line : Line} {rest : List Line}
    (h : lines s = line :: rest) (hne : rest ≠ []) :
    ∃ s', rest = lines s' ∧ s = line.text ++ line.ending.text ++ s' ∧
      line.ending ≠ .eos := by
  fun_induction lines s generalizing line with
  | case1 => cases h; exact absurd rfl hne
  | case2 s => cases h; exact ⟨s, rfl, rfl, by decide⟩
  | case3 s => cases h; exact ⟨s, rfl, rfl, by decide⟩
  | case4 c s _ _ ih =>
      obtain ⟨line', rest', h'⟩ := lines_eq_cons s
      rw [h', consLine] at h
      cases h
      obtain ⟨s', hrest, hs, hend⟩ := ih h'
      exact ⟨s', hrest, congrArg (c :: ·) hs, hend⟩

/-- Every line but the last is ended by a line break. -/
def Broken : List Line → Prop
  | [] => True
  | [_] => True
  | line :: next :: rest => line.ending ≠ .eos ∧ Broken (next :: rest)

theorem broken_consLine (c : Char) {ls : List Line} (h : Broken ls) :
    Broken (consLine c ls) := by
  match ls, h with
  | [], _ => trivial
  | [_], _ => trivial
  | _ :: _ :: _, h => exact h

theorem broken_cons {line : Line} (hend : line.ending ≠ .eos) {ls : List Line}
    (h : Broken ls) : Broken (line :: ls) := by
  cases ls with
  | nil => trivial
  | cons next rest => exact ⟨hend, h⟩

theorem broken_lines (s : Str) : Broken (lines s) := by
  fun_induction lines s with
  | case1 => trivial
  | case2 s ih => exact broken_cons (by decide) ih
  | case3 s ih => exact broken_cons (by decide) ih
  | case4 c s _ _ ih => exact broken_consLine c ih

/-- A line that others come after is ended by a line break. -/
theorem ending_ne_eos_of_broken {pre : List Line} {next : Line} {post : List Line}
    (h : Broken (pre ++ next :: post)) : ∀ line ∈ pre, line.ending ≠ .eos := by
  induction pre with
  | nil => exact fun line hline => absurd hline List.not_mem_nil
  | cons first pre ih =>
      have hfirst : first.ending ≠ .eos ∧ Broken (pre ++ next :: post) := by
        cases pre with
        | nil => exact h
        | cons second pre => exact h
      intro line hline
      rcases List.mem_cons.1 hline with rfl | hline
      · exact hfirst.1
      · exact ih hfirst.2 line hline

theorem ending_ne_crlf {s : Str} (h : '\r' ∉ s) :
    ∀ line ∈ lines s, line.ending ≠ .crlf := by
  fun_induction lines s with
  | case1 => simp
  | case2 s ih => simpa using ih (List.not_mem_of_not_mem_cons h)
  | case3 s ih => exact absurd List.mem_cons_self h
  | case4 c s _ _ ih =>
      obtain ⟨first, rest, hlines⟩ := lines_eq_cons s
      have hall := ih (List.not_mem_of_not_mem_cons h)
      rw [hlines] at hall ⊢
      intro line hline
      rcases List.mem_cons.1 hline with rfl | hline
      · exact hall first List.mem_cons_self
      · exact hall line (List.mem_cons_of_mem _ hline)

/-- The text of lines that each end in a line feed. -/
theorem unlines_of_lf {ls : List Line} (h : ∀ line ∈ ls, line.ending = .lf) :
    unlines ls = (ls.map Line.text).flatMap fun text => text ++ ['\n'] := by
  rw [unlines, List.flatMap_map]
  refine List.flatMap_congr fun line hline => ?_
  rw [h line hline]
  rfl

/-- Lines joined, with a line feed more, are lines that each have one. -/
theorem intercalate_concat {parts : List Str} (h : parts ≠ []) :
    ['\n'].intercalate parts ++ ['\n'] = parts.flatMap fun part => part ++ ['\n'] := by
  induction parts with
  | nil => exact absurd rfl h
  | cons part parts ih =>
      cases parts with
      | nil => simp
      | cons next parts =>
          rw [List.intercalate_cons_cons, List.append_assoc, ih (by simp)]
          rfl

/-! ## One line break for another -/

/-- Every LF replaced by CRLF. -/
def crlf : Str → Str
  | [] => []
  | c :: s => if c = '\n' then '\r' :: '\n' :: crlf s else c :: crlf s

/-- Every line break, LF, CRLF or a lone CR, as an LF. -/
def unifyBreaks : Str → Str
  | [] => []
  | '\r' :: '\n' :: s => '\n' :: unifyBreaks s
  | '\r' :: s => '\n' :: unifyBreaks s
  | c :: s => c :: unifyBreaks s

theorem crlf_lf (s : Str) : crlf ('\n' :: s) = '\r' :: '\n' :: crlf s := rfl

theorem crlf_cons {c : Char} (h : c ≠ '\n') (s : Str) : crlf (c :: s) = c :: crlf s :=
  if_neg h

/-- What is on one line stays as it is. -/
theorem crlf_append {pre : Str} (h : '\n' ∉ pre) (s : Str) :
    crlf (pre ++ s) = pre ++ crlf s := by
  induction pre with
  | nil => rfl
  | cons c pre ih =>
      have hc : c ≠ '\n' := fun hc => h (hc ▸ List.mem_cons_self)
      rw [List.cons_append, crlf_cons hc, ih (List.not_mem_of_not_mem_cons h)]
      rfl

theorem prefix_crlf {pre s : Str} (hlf : '\n' ∉ pre) (hcr : '\r' ∉ pre) :
    pre <+: crlf s ↔ pre <+: s := by
  induction pre generalizing s with
  | nil => exact iff_of_true List.nil_prefix List.nil_prefix
  | cons a pre ih =>
      have half : a ≠ '\n' := fun ha => hlf (ha ▸ List.mem_cons_self)
      have hacr : a ≠ '\r' := fun ha => hcr (ha ▸ List.mem_cons_self)
      cases s with
      | nil => exact Iff.rfl
      | cons c s =>
          by_cases hc : c = '\n'
          · rw [hc, crlf_lf, List.cons_prefix_cons, List.cons_prefix_cons]
            exact iff_of_false (fun h => hacr h.1) (fun h => half h.1)
          · rw [crlf_cons hc, List.cons_prefix_cons, List.cons_prefix_cons,
              ih (List.not_mem_of_not_mem_cons hlf) (List.not_mem_of_not_mem_cons hcr)]

theorem unifyBreaks_eq_self {s : Str} (h : '\r' ∉ s) : unifyBreaks s = s := by
  fun_induction unifyBreaks s with
  | case1 => rfl
  | case2 s ih => exact absurd List.mem_cons_self h
  | case3 s _ ih => exact absurd List.mem_cons_self h
  | case4 c s _ _ ih => rw [ih (List.not_mem_of_not_mem_cons h)]

theorem cr_not_mem_unifyBreaks (s : Str) : '\r' ∉ unifyBreaks s := by
  fun_induction unifyBreaks s with
  | case1 => exact List.not_mem_nil
  | case2 s ih => simpa using ih
  | case3 s _ ih => simpa using ih
  | case4 c s _ hc ih =>
      intro hmem
      rcases List.mem_cons.1 hmem with rfl | hmem
      · exact hc rfl
      · exact ih hmem

/-- A text with CRLFs, and a lone CR at its end. -/
theorem unifyBreaks_crlf {s : Str} (h : '\r' ∉ s) :
    unifyBreaks (crlf s ++ ['\r']) = s ++ ['\n'] := by
  induction s with
  | nil => rfl
  | cons c s ih =>
      have hs := ih (List.not_mem_of_not_mem_cons h)
      have hcr : c ≠ '\r' := fun hc => h (hc ▸ List.mem_cons_self)
      by_cases hc : c = '\n'
      · subst hc
        rw [crlf_lf]
        show '\n' :: unifyBreaks (crlf s ++ ['\r']) = _
        rw [hs]
        rfl
      · rw [crlf_cons hc, List.cons_append, unifyBreaks, hs]
        · rfl
        · intro s' heq
          exact absurd heq hcr
        · exact hcr

end Lib
