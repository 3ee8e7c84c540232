import McpTemplate.Lib.Text

/-!
# Where a YAML text ends

A line break at the end of a YAML text is content in one place only, in a
block scalar that the text ends in. Whether it does is a matter of its lines,
but a quotation mark or a bracket further up decides what a `|` is, and how far
the lines above are indented decides what belongs to a scalar. So the lines are
scanned from the first one on: `State` is where a scanner is between two
characters, `State.line` takes one line, and `keepsFinalBreak` asks where it is
at the end.

The scanner does not check what it reads. Of a text that is no YAML it says
nothing.
-/

namespace Lib.Yaml

/-- LF, next line, line separator, paragraph separator. -/
def isBreak (c : Char) : Bool :=
  c = '\n' || c = Char.ofNat 0x85 || c = Char.ofNat 0x2028 || c = Char.ofNat 0x2029

def isBlank (c : Char) : Bool := c = ' ' || c = '\t'

/-- A byte order mark, which may stand at the start of a line. -/
def MARK : Char := Char.ofNat 0xFEFF

def DOUBLE_QUOTE : Char := Char.ofNat 0x22

def SINGLE_QUOTE : Char := Char.ofNat 0x27

def BACKSLASH : Char := Char.ofNat 0x5C

def flowStarts : Str := "[\x7b".toList

def flowEnds : Str := "]\x7d".toList

/-- The characters that end a plain scalar inside brackets. -/
def isFlowIndicator (c : Char) : Bool := c = ',' || c ∈ flowStarts || c ∈ flowEnds

/-- The blanks that a line is indented by. -/
def lead (line : Str) : Nat := (line.takeWhile fun c => c = ' ').length

/-! ## Block scalars -/

/-- What becomes of the line breaks at the end of a block scalar. -/
inductive Chomping where
  | strip
  | clip
  | keep
  deriving DecidableEq, Repr

inductive LastLine where
  | header
  | blank
  | content
  deriving DecidableEq, Repr

/-- A block scalar, as far as it has been read. -/
structure Block where
  chomping : Chomping
  /-- Where its lines start, once that is known. -/
  column : Option Nat
  /-- Where they start at least. -/
  least : Nat
  last : LastLine
  deriving DecidableEq, Repr

/-- The scalar below a header, inside a collection that starts at `top`. -/
def Block.start (chomping : Chomping) (increment top : Option Nat) : Block where
  chomping := chomping
  column := increment.map fun increment => top.getD 0 + increment
  least := top.getD 0 + 1
  last := .header

/-- A further line of the scalar; nothing where the line is outside of it. -/
def Block.line (b : Block) (line : Str) : Option Block :=
  let column := b.column.getD (max b.least (lead line))
  if lead line = line.length ∧ (b.column = none ∨ lead line ≤ column) then
    some { b with least := max b.least (lead line), last := .blank }
  else if column ≤ lead line then some { b with column := some column, last := .content }
  else none

/-- A further line break would be content. -/
def Block.keepsBreak (b : Block) : Bool :=
  match b.chomping with
  | .strip => false
  | .clip => b.last = .content
  | .keep => b.last ≠ .header

/-! ## The scanner -/

inductive Mode where
  /-- Between two scalars. -/
  | node
  /-- In a plain scalar, behind a blank or not. -/
  | plain (blank : Bool)
  | double (escaped : Bool)
  | single
  | anchor
  | tag
  | comment
  /-- In the header of a block scalar, behind its indicators or not. -/
  | header (chomping : Chomping) (increment : Option Nat) (past : Bool)
  | block (b : Block)
  deriving DecidableEq, Repr

structure State where
  /-- Where the open collections start, the innermost first. -/
  columns : List Nat
  /-- The number of open brackets. -/
  depth : Nat
  /-- Where a key that is still to come to its colon has started. -/
  key : Option Nat
  mode : Mode
  deriving DecidableEq, Repr

def State.init : State := ⟨[], 0, none, .node⟩

/-- A collection starts at a column, if it is further in than the others. -/
def State.roll (s : State) (column : Nat) : State :=
  match s.columns with
  | [] => { s with columns := [column] }
  | top :: below => if top < column then { s with columns := column :: top :: below } else s

/-- The collections that start further in are over. -/
def State.unroll (s : State) (column : Nat) : State :=
  { s with columns := s.columns.dropWhile fun top => column < top }

/-- A character that starts a node, or a bracket. -/
def State.opens (s : State) (c : Char) : State :=
  if c = DOUBLE_QUOTE then { s with mode := .double false }
  else if c = SINGLE_QUOTE then { s with mode := .single }
  else if c ∈ flowStarts then { s with depth := s.depth + 1 }
  else if c ∈ flowEnds then { s with depth := s.depth - 1 }
  else if c = ',' ∧ 0 < s.depth then s
  else if (c = '|' ∨ c = '>') ∧ s.depth = 0 then { s with mode := .header .clip none false }
  else if c = '&' ∨ c = '*' then { s with mode := .anchor }
  else if c = '!' then { s with mode := .tag }
  else { s with mode := .plain false }

/-- Nothing, or a blank, follows. -/
def spaced (next : Option Char) : Bool := next.all isBlank

/-- A character between two scalars. -/
def State.node (s : State) (column : Nat) (c : Char) (next : Option Char) : State :=
  let s := { s with mode := .node }
  if isBlank c ∨ c = MARK ∧ column = 0 then s
  else if c = '#' then { s with mode := .comment }
  else if c = '-' ∧ spaced next ∧ s.depth = 0 then { s.roll column with key := none }
  else if c = '?' ∧ spaced next then
    if s.depth = 0 then { s.roll column with key := none } else { s with key := none }
  else if c = ':' ∧ (spaced next ∨ 0 < s.depth) then
    if s.depth = 0 then { s.roll (s.key.getD column) with key := none } else s
  else if s.depth = 0 ∧ s.key = none then { s with key := some column }.opens c
  else s.opens c

/-- A character of the header of a block scalar. -/
def headerChar (chomping : Chomping) (increment : Option Nat) (c : Char) : Mode :=
  if c = '+' then .header .keep increment false
  else if c = '-' then .header .strip increment false
  else if c.isDigit then .header chomping (some (c.toNat - '0'.toNat)) false
  else .header chomping increment true

def State.char (s : State) (column : Nat) (c : Char) (next : Option Char) : State :=
  match s.mode with
  | .node => s.node column c next
  | .plain blank =>
      if c = ':' ∧ spaced next ∨ 0 < s.depth ∧ isFlowIndicator c then s.node column c next
      else if c = '#' ∧ blank then { s with mode := .comment }
      else { s with mode := .plain (isBlank c) }
  | .double escaped =>
      if escaped then { s with mode := .double false }
      else if c = BACKSLASH then { s with mode := .double true }
      else if c = DOUBLE_QUOTE then { s with mode := .node }
      else s
  | .single => if c = SINGLE_QUOTE then { s with mode := .node } else s
  | .anchor => if c.isAlphanum ∨ c = '-' ∨ c = '_' then s else s.node column c next
  | .tag =>
      if isBlank c ∨ 0 < s.depth ∧ isFlowIndicator c then s.node column c next else s
  | .header chomping increment false => { s with mode := headerChar chomping increment c }
  | .header _ _ true | .comment | .block _ => s

/-- The end of a line, outside block scalars. -/
def State.endLine (s : State) : State :=
  match s.mode with
  | .plain _ => { s with mode := .plain true }
  | .double _ => { s with mode := .double false }
  | .single => s
  | .header chomping increment _ =>
      { s with mode := .block (.start chomping increment s.columns.head?) }
  | _ => { s with mode := .node }

def State.chars (s : State) (column : Nat) : Str → State
  | [] => s.endLine
  | c :: rest => (s.char column c rest.head?).chars (column + 1) rest

/-- The line starts or ends a document. -/
def isMarker (line : Str) : Bool :=
  (line.take 3 = "---".toList || line.take 3 = "...".toList) && spaced (line.drop 3).head?

/-- The next line goes on with a plain scalar. -/
def State.continues (s : State) (line : Str) : Bool :=
  match s.mode with
  | .plain _ => 0 < s.depth || s.columns.head?.all fun top => top < lead line
  | _ => false

/-- A line that neither a block scalar nor quotes go on with. -/
def State.fresh (s : State) (line : Str) : State :=
  let rest := line.drop (lead line)
  if rest.all isBlank then s
  else if rest.head? = some '#' then { s with mode := .node }
  else if isMarker line then State.init.chars 3 (line.drop 3)
  else if s.continues line then s.chars (lead line) rest
  else
    let s := { s with mode := .node }
    (if s.depth = 0 then s.unroll (lead line) else s).chars (lead line) rest

def State.line (s : State) (line : Str) : State :=
  match s.mode with
  | .block b =>
      match b.line line with
      | some b => { s with mode := .block b }
      | none => { s with key := none, mode := .node }.fresh line
  | .double _ | .single => { s with key := none }.chars 0 line
  | _ => { s with key := none }.fresh line

/-! ## A text -/

/-- Where the scanner is after these lines. -/
def scan (lines : List Str) : State := lines.foldl State.line .init

def State.keepsBreak (s : State) : Bool :=
  match s.mode with
  | .block b => b.keepsBreak
  | _ => false

/-- The text ends in a block scalar that would keep a further line break. -/
def KeepsFinalBreak (text : Str) : Prop := (scan (text.splitOnP isBreak)).keepsBreak = true

instance : DecidablePred KeepsFinalBreak := fun _ => inferInstanceAs (Decidable (_ = true))

/-- A line break at the end of a text is one more line, an empty one. -/
theorem splitOnP_concat_break (text : Str) :
    (text ++ ['\n']).splitOnP isBreak = text.splitOnP isBreak ++ [[]] :=
  List.splitOnP_append_cons text [] (by decide)

example : KeepsFinalBreak "key: |\n  text".toList ∧
    ¬ KeepsFinalBreak "key: |-\n  text".toList ∧
    ¬ KeepsFinalBreak "key: \"|\n  text\"".toList ∧
    ¬ KeepsFinalBreak "key: |\n  text\n".toList ∧
    KeepsFinalBreak "key: |+\n  text\n".toList := by decide

/-! ## Plain scalars -/

/-- A character that starts a plain scalar and does not end one. -/
def isWord (c : Char) : Bool := c.isAlphanum || c = '.'

theorem ne_of_isWord {c d : Char} (hc : isWord c = true) (hd : isWord d = false) :
    c ≠ d := by
  rintro rfl
  rw [hc] at hd
  cases hd

theorem isWord_ne {c : Char} (hc : isWord c = true) :
    c ≠ ' ' ∧ c ≠ '\t' ∧ c ≠ MARK ∧ c ≠ '#' ∧ c ≠ '-' ∧ c ≠ '?' ∧ c ≠ ':' :=
  ⟨ne_of_isWord hc rfl, ne_of_isWord hc rfl, ne_of_isWord hc rfl, ne_of_isWord hc rfl,
    ne_of_isWord hc rfl, ne_of_isWord hc rfl, ne_of_isWord hc rfl⟩

theorem opens_isWord {c : Char} (hc : isWord c = true) (s : State) :
    s.opens c = { s with mode := .plain false } := by
  have hnone : ∀ {flow : Str}, flow.all (fun d => isWord d = false) = true → c ∉ flow :=
    fun hflow hmem =>
      ne_of_isWord hc (of_decide_eq_true (List.all_eq_true.1 hflow c hmem)) rfl
  have hstart : c ∉ flowStarts := hnone rfl
  have hend : c ∉ flowEnds := hnone rfl
  have hne : c ≠ DOUBLE_QUOTE ∧ c ≠ SINGLE_QUOTE ∧ c ≠ ',' ∧ c ≠ '|' ∧ c ≠ '>' ∧
      c ≠ '&' ∧ c ≠ '*' ∧ c ≠ '!' :=
    ⟨ne_of_isWord hc rfl, ne_of_isWord hc rfl, ne_of_isWord hc rfl, ne_of_isWord hc rfl,
      ne_of_isWord hc rfl, ne_of_isWord hc rfl, ne_of_isWord hc rfl, ne_of_isWord hc rfl⟩
  simp [State.opens, hstart, hend, hne]

/-- Outside brackets, such a character starts a plain scalar, and maybe a key. -/
theorem node_isWord {c : Char} (hc : isWord c = true) {s : State} (hdepth : s.depth = 0)
    (column : Nat) (next : Option Char) :
    s.node column c next =
      { s with key := s.key.or (some column), mode := .plain false } := by
  have hne := isWord_ne hc
  cases hkey : s.key with
  | none => simp [State.node, isBlank, hne, hdepth, hkey, opens_isWord hc]
  | some key => simp [State.node, isBlank, hne, hdepth, hkey, opens_isWord hc]

/-- Outside brackets, only a colon or a comment ends a plain scalar on its line. -/
theorem chars_plain {text : Str} (htext : ∀ c ∈ text, c ≠ ':' ∧ c ≠ '#') (rest : Str) :
    ∀ {s : State} {blank : Bool} (column : Nat), s.depth = 0 → s.mode = .plain blank →
      ∃ blank', s.chars column (text ++ rest) =
        { s with mode := .plain blank' }.chars (column + text.length) rest := by
  induction text with
  | nil =>
      intro s blank column _ hmode
      refine ⟨blank, ?_⟩
      rw [← hmode]
      rfl
  | cons c text ih =>
      intro s blank column hdepth hmode
      have hc := htext c List.mem_cons_self
      have hchar : s.char column c (text ++ rest).head? =
          { s with mode := .plain (isBlank c) } := by
        simp [State.char, hmode, hc, hdepth]
      obtain ⟨blank', hrest⟩ := ih (fun d hd => htext d (List.mem_cons_of_mem c hd))
        (s := { s with mode := .plain (isBlank c) }) (column + 1) hdepth rfl
      refine ⟨blank', ?_⟩
      rw [List.cons_append, State.chars, hchar, hrest, List.length_cons,
        Nat.add_right_comm, Nat.add_assoc]

end Lib.Yaml
