import McpTemplate.Lib.Hex

/-!
# URI templates

RFC 6570 as far as its first two levels: literal text, `{name}` and `{+name}`.
The value of a variable is written in UTF-8, with every byte of a character
that may not stand percent-encoded. In `{name}` only unreserved characters
stand; in `{+name}` the reserved ones do too, and so does what is
percent-encoded already. A variable without a value expands to nothing.

What is asked of an expansion is when it is the value itself: exactly where
every character of the value may stand.
-/

namespace Lib

def isUnreserved (c : Char) : Bool :=
  c.isAlphanum || c = '-' || c = '.' || c = '_' || c = '~'

def isReserved (c : Char) : Bool := ":/?#[]@!$&'()*+,;=".toList.contains c

def isHexDigit (c : Char) : Bool := (toDigit 16 c).isSome

def pctByte (b : UInt8) : Str :=
  ['%', (Nat.digitChar (b.toNat / 16)).toUpper, (Nat.digitChar (b.toNat % 16)).toUpper]

def pctEncode (c : Char) : Str := (String.utf8EncodeChar c).flatMap pctByte

/-- The expansion of `{name}` to this value. -/
def expandSimple (value : Str) : Str :=
  value.flatMap fun c => if isUnreserved c then [c] else pctEncode c

/-- The expansion of `{+name}` to this value. -/
def expandReserved : (value : Str) → Str
  | [] => []
  | '%' :: a :: b :: s =>
      if isHexDigit a && isHexDigit b then '%' :: a :: b :: expandReserved s
      else pctEncode '%' ++ expandReserved (a :: b :: s)
  | c :: s =>
      (if isUnreserved c || isReserved c then [c] else pctEncode c) ++ expandReserved s

/-- A value all of which may stand in `{+name}`. -/
def standsReserved : (value : Str) → Bool
  | [] => true
  | '%' :: a :: b :: s => isHexDigit a && isHexDigit b && standsReserved s
  | c :: s => (isUnreserved c || isReserved c) && standsReserved s

/-! ## Templates -/

inductive Part where
  | literal (c : Char)
  | simple (name : Str)
  | reserved (name : Str)
  deriving DecidableEq

/-- An expression, without its braces. -/
def Part.expression : Str → Part
  | '+' :: name => .reserved name
  | name => .simple name

/-- The parts of a template, from inside an expression or outside of one. -/
def templateParts : (inside : Option Str) → Str → Option (List Part)
  | none, [] => some []
  | none, c :: s =>
      if c = '\x7b' then templateParts (some []) s
      else (templateParts none s).map (Part.literal c :: ·)
  | some _, [] => none
  | some name, c :: s =>
      if c = '\x7d' then (templateParts none s).map (Part.expression name :: ·)
      else templateParts (some (name ++ [c])) s

/-- A literal is copied, if a URI may have it; its `%` starts a triplet. -/
def Part.expand (vars : Str → Option Str) : Part → Str
  | .literal c =>
      if isUnreserved c || isReserved c || c = '%' then [c] else pctEncode c
  | .simple name => expandSimple ((vars name).getD [])
  | .reserved name => expandReserved ((vars name).getD [])

/-- The expansion of a template; nothing for a template with an open brace. -/
def expandTemplate (template : Str) (vars : Str → Option Str) : Option Str :=
  (templateParts none template).map fun parts => parts.flatMap (Part.expand vars)

/-! ## What stands -/

theorem expandSimple_eq_self {value : Str} (h : ∀ c ∈ value, isUnreserved c = true) :
    expandSimple value = value := by
  induction value with
  | nil => rfl
  | cons c value ih =>
      have htail := ih fun other hother => h other (List.mem_cons_of_mem _ hother)
      rw [expandSimple, List.flatMap_cons, if_pos (h c List.mem_cons_self)]
      exact congrArg (c :: ·) htail

theorem one_lt_length_pctEncode (c : Char) : 1 < (pctEncode c).length := by
  have hpos : 0 < (String.utf8EncodeChar c).length := by
    rw [String.length_utf8EncodeChar]
    exact c.utf8Size_pos
  rw [pctEncode]
  cases hbytes : String.utf8EncodeChar c with
  | nil =>
      rw [hbytes] at hpos
      exact absurd hpos (Nat.lt_irrefl 0)
  | cons b bytes =>
      rw [List.flatMap_cons, List.length_append]
      show 1 < 3 + _
      omega

/-- An expansion is never shorter than the value. -/
theorem length_le_expandReserved (value : Str) :
    value.length ≤ (expandReserved value).length := by
  fun_induction expandReserved value with
  | case1 => exact Nat.le_refl _
  | case2 a b s _ ih =>
      simp only [List.length_cons]
      omega
  | case3 a b s _ ih =>
      have hlong := one_lt_length_pctEncode '%'
      simp only [List.length_cons, List.length_append] at ih ⊢
      omega
  | case4 c s _ ih =>
      have hlong := one_lt_length_pctEncode c
      rw [List.length_append, List.length_cons]
      split
      · rw [List.length_singleton]
        omega
      · omega

/-- What may not stand is made longer, and so is not itself. -/
theorem pctEncode_append_ne {c : Char} {value rest : Str}
    (h : value.length ≤ rest.length) : pctEncode c ++ rest ≠ c :: value := by
  intro heq
  have hlong := one_lt_length_pctEncode c
  have hlen := congrArg List.length heq
  rw [List.length_append, List.length_cons] at hlen
  omega

theorem expandReserved_eq_self_iff {value : Str} :
    expandReserved value = value ↔ standsReserved value = true := by
  fun_induction expandReserved value with
  | case1 => exact iff_of_true rfl rfl
  | case2 a b s hhex ih =>
      rw [standsReserved, hhex, Bool.true_and, ← ih]
      simp
  | case3 a b s hhex ih =>
      have hne := pctEncode_append_ne (c := '%')
        (length_le_expandReserved (a :: b :: s))
      rw [standsReserved, eq_false_of_ne_true hhex]
      exact iff_of_false hne Bool.false_ne_true
  | case4 c s hpct ih =>
      have hstands : standsReserved (c :: s) =
          ((isUnreserved c || isReserved c) && standsReserved s) := by
        rw [standsReserved]
        exact hpct
      rw [hstands, Bool.and_eq_true, ← ih]
      by_cases hc : (isUnreserved c || isReserved c) = true
      · rw [if_pos hc]
        simp [hc]
      · rw [if_neg hc]
        exact iff_of_false (pctEncode_append_ne (length_le_expandReserved s))
          fun h => hc h.1

theorem pct_mem_pctEncode (c : Char) : '%' ∈ pctEncode c := by
  have hlong := one_lt_length_pctEncode c
  rw [pctEncode] at hlong ⊢
  cases hbytes : String.utf8EncodeChar c with
  | nil =>
      rw [hbytes] at hlong
      exact absurd hlong (by decide)
  | cons b bytes => exact List.mem_append_left _ List.mem_cons_self

/-- An expansion that encodes nothing and has nothing encoded is the value. -/
theorem expandReserved_eq_self_of_not_mem {value : Str}
    (h : '%' ∉ expandReserved value) : expandReserved value = value := by
  fun_induction expandReserved value with
  | case1 => rfl
  | case2 a b s _ ih => exact absurd List.mem_cons_self h
  | case3 a b s _ ih => exact absurd (List.mem_append_left _ (pct_mem_pctEncode '%')) h
  | case4 c s _ ih =>
      split at h
      · next hc =>
          rw [if_pos hc, ih fun hmem => h (List.mem_append_right _ hmem)]
          rfl
      · exact absurd (List.mem_append_left _ (pct_mem_pctEncode c)) h

example : expandReserved "50% off/%C3%A9/é?".toList =
    "50%25%20off/%C3%A9/%C3%A9?".toList := by decide

end Lib
