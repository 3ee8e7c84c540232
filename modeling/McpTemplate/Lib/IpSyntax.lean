import McpTemplate.Lib.IpParse

/-!
# The syntax of an address

`IPv4address` and `IPv6address` as RFC 3986 gives them and RFC 6874 takes them
over. A numeral is a run of digits with its value; groups of hexadecimal
numerals are separated by colons, an address of the shorter form may stand for
the last two, and `::` stands for the groups that are missing. The parser reads
every such text as the address it spells.
-/

namespace Lib.Net

/-- `1*max` digits. -/
structure Numeral (radix max : Nat) where
  text : Str
  ne_nil : text ≠ []
  length_le : text.length ≤ max
  digits : ∀ c ∈ text, (toDigit radix c).isSome

variable {radix max : Nat}

/-- The value of a run of digits, after one that is worth `result`. -/
def digitsValue (radix result : Nat) (text : Str) : Nat :=
  text.foldl (fun n c => n * radix + (toDigit radix c).getD 0) result

def Numeral.value (n : Numeral radix max) : Nat := digitsValue radix 0 n.text

/-- The input does not go on with a digit. -/
def Stops (radix : Nat) (rest : Str) : Prop :=
  ∀ c ∈ rest.head?, toDigit radix c = none

theorem readDigits_append {text rest : Str} (hdigits : ∀ c ∈ text, (toDigit radix c).isSome)
    (hrest : Stops radix rest) {count : Nat} (hcount : count + text.length ≤ max)
    (result : Nat) :
    readDigits radix max result count (text ++ rest) =
      some (digitsValue radix result text, count + text.length, rest) := by
  induction text generalizing result count with
  | nil =>
      cases rest with
      | nil => rfl
      | cons c rest => rw [List.nil_append, readDigits, hrest c rfl]; rfl
  | cons c text ih =>
      obtain ⟨d, hd⟩ := Option.isSome_iff_exists.1 (hdigits c List.mem_cons_self)
      rw [List.length_cons] at hcount
      rw [List.cons_append, readDigits, hd]
      dsimp only
      rw [if_neg (by omega), ih (fun c hc => hdigits c (List.mem_cons_of_mem _ hc))
        (by omega), List.length_cons, digitsValue, digitsValue, List.foldl_cons, hd,
        Nat.add_right_comm, Nat.add_assoc]
      rfl

theorem digitsValue_lt (hradix : 0 < radix) (text : Str) (result : Nat) :
    digitsValue radix result text < (result + 1) * radix ^ text.length := by
  induction text generalizing result with
  | nil => simp [digitsValue]
  | cons c text ih =>
      have hdigit : (toDigit radix c).getD 0 < radix := by
        cases hc : toDigit radix c with
        | none => exact hradix
        | some d => exact toDigit_lt hc
      refine Nat.lt_of_lt_of_le (ih _) ?_
      rw [List.length_cons, Nat.pow_succ', ← Nat.mul_assoc]
      refine Nat.mul_le_mul_right _ ?_
      show result * radix + (toDigit radix c).getD 0 + 1 ≤ (result + 1) * radix
      rw [Nat.add_mul]
      omega

theorem readNumber_append {n : Numeral radix max} {rest : Str}
    (hrest : Stops radix rest) {bits : Nat} (hbits : n.value < 2 ^ bits)
    {allowZeroPrefix : Bool}
    (hzero : allowZeroPrefix = true ∨ n.text.head? ≠ some '0' ∨ n.text.length = 1) :
    readNumber radix max bits allowZeroPrefix (n.text ++ rest) =
      some (n.value, rest) := by
  have hpos : 0 < n.text.length := List.length_pos_iff.2 n.ne_nil
  have hhead : (n.text ++ rest).head? = n.text.head? := by
    obtain ⟨c, text, htext⟩ := List.exists_cons_of_ne_nil n.ne_nil
    rw [htext]
    rfl
  have hprefix : (!allowZeroPrefix && decide (n.text.head? = some '0') &&
      decide (0 + n.text.length > 1)) = false := by
    rcases hzero with h | h | h
    · simp [h]
    · simp [h]
    · simp [h]
  have hlength : 0 + n.text.length ≤ max := by
    have := n.length_le
    omega
  have hread := readDigits_append n.digits hrest hlength 0
  rw [readNumber, hhead, hread]
  simp only [Option.bind_eq_bind, Option.bind_some]
  rw [if_neg (by omega), hprefix, if_neg (by decide)]
  exact if_pos hbits

/-! ## The shorter form -/

/-- `dec-octet`: no leading zero, and a byte. -/
structure DecOctet extends Numeral 10 3 where
  no_zero : text.head? ≠ some '0' ∨ text.length = 1
  value_lt : digitsValue 10 0 text < 256

/-- `IPv4address`. -/
structure Ipv4Text where
  a : DecOctet
  b : DecOctet
  c : DecOctet
  d : DecOctet

def Ipv4Text.text (t : Ipv4Text) : Str :=
  t.a.text ++ '.' :: (t.b.text ++ '.' :: (t.c.text ++ '.' :: t.d.text))

def Ipv4Text.value (t : Ipv4Text) : Ipv4Addr :=
  ⟨.ofNat t.a.value, .ofNat t.b.value, .ofNat t.c.value, .ofNat t.d.value⟩

theorem stops_dot (rest : Str) : Stops 10 ('.' :: rest) := by
  intro c hc
  cases hc
  decide

theorem readOctet_append (o : DecOctet) {rest : Str} (hrest : Stops 10 rest) :
    readOctet (o.text ++ rest) = some (o.value, rest) :=
  readNumber_append hrest o.value_lt (.inr o.no_zero)

theorem readIpv4Addr_append (t : Ipv4Text) {rest : Str} (hrest : Stops 10 rest) :
    readIpv4Addr (t.text ++ rest) = some (t.value, rest) := by
  have hdot (i : Nat) (hi : i > 0) (o : DecOctet) {s : Str} (hs : Stops 10 s) :
      readSeparator '.' i readOctet ('.' :: (o.text ++ s)) = some (o.value, s) := by
    rw [readSeparator, if_pos hi, readGivenChar, if_pos rfl, Option.bind_some,
      readOctet_append o hs]
  have htext : t.text ++ rest = t.a.text ++ '.' :: (t.b.text ++
      '.' :: (t.c.text ++ '.' :: (t.d.text ++ rest))) := by
    simp [Ipv4Text.text]
  have hfirst (s : Str) : readSeparator '.' 0 readOctet s = readOctet s := rfl
  rw [readIpv4Addr, htext, hfirst, readOctet_append t.a (stops_dot _)]
  simp only [Option.bind_eq_bind, Option.bind_some]
  rw [hdot 1 (by decide) t.b (stops_dot _)]
  simp only [Option.bind_some]
  rw [hdot 2 (by decide) t.c (stops_dot _)]
  simp only [Option.bind_some]
  rw [hdot 3 (by decide) t.d hrest]
  rfl

/-! ## The longer form -/

/-- `h16`. -/
abbrev H16 := Numeral 16 4

/-- Groups, with an address of the shorter form for the last two or not. -/
structure Groups where
  front : List H16
  last : Option Ipv4Text

namespace Groups

/-- How many groups of 16 bits these are. -/
def count (g : Groups) : Nat := g.front.length + (g.last.elim 0 fun _ => 2)

/-- The groups, each after a colon. -/
def separated : List H16 → Option Ipv4Text → Str
  | [], none => []
  | [], some v4 => ':' :: v4.text
  | h :: front, last => ':' :: (h.text ++ separated front last)

/-- The groups as they stand at the `i`th place: the first has no colon. -/
def textAt (i : Nat) (g : Groups) : Str :=
  if i > 0 then separated g.front g.last else (separated g.front g.last).tail

def text (g : Groups) : Str := g.textAt 0

def values (g : Groups) : List UInt16 :=
  g.front.map (fun h => .ofNat h.value) ++ (g.last.elim [] fun v4 => v4.value.groups)

theorem length_values (g : Groups) : g.values.length = g.count := by
  rw [values, count, List.length_append, List.length_map]
  cases g.last <;> rfl

/-- What may follow the groups: nothing, or the `::`. -/
def Ends (rest : Str) : Prop := rest = [] ∨ ∃ rest', rest = ':' :: ':' :: rest'

/-- What may follow a group: nothing, or a colon. -/
def Breaks (rest : Str) : Prop := rest = [] ∨ ∃ rest', rest = ':' :: rest'

theorem Ends.breaks {rest : Str} (h : Ends rest) : Breaks rest := by
  rcases h with rfl | ⟨rest', rfl⟩
  · exact .inl rfl
  · exact .inr ⟨_, rfl⟩

theorem Breaks.stops {rest : Str} (h : Breaks rest) {radix : Nat}
    (hcolon : toDigit radix ':' = none) : Stops radix rest := by
  rcases h with rfl | ⟨rest', rfl⟩
  · intro c hc; cases hc
  · intro c hc; cases hc; exact hcolon

theorem breaks_separated (front : List H16) (last : Option Ipv4Text) {rest : Str}
    (h : Breaks rest) : Breaks (separated front last ++ rest) := by
  cases front with
  | nil =>
      cases last with
      | none => exact h
      | some v4 => exact .inr ⟨_, rfl⟩
  | cons g front => exact .inr ⟨_, rfl⟩

/-- A group that a colon or nothing follows is no shorter address: a dot would
have to stand in it. -/
theorem readIpv4Addr_group {text rest : Str}
    (htext : ∀ c ∈ text, (toDigit 16 c).isSome) (hrest : Breaks rest) :
    readIpv4Addr (text ++ rest) = none := by
  have hoctet (value : Nat) (s : Str) (h : readOctet (text ++ rest) = some (value, s)) :
      readGivenChar '.' s = none := by
    obtain ⟨front, hfront, hdigits⟩ :=
      consumes_readNumber (P := fun c => (toDigit 10 c).isSome) (fun _ hc => hc) _ _ _ h
    cases hs : readGivenChar '.' s with
    | none => rfl
    | some s' =>
        rw [readGivenChar_eq_some] at hs
        subst hs
        rcases List.append_eq_append_iff.1 hfront with ⟨mid, rfl, hrest'⟩ | ⟨mid, rfl, hmid⟩
        · -- the octet would go on into what follows the group
          cases mid with
          | nil =>
              rcases hrest with h | ⟨rest', h⟩ <;> rw [h] at hrest' <;> cases hrest'
          | cons c mid =>
              have hc : (toDigit 10 c).isSome := hdigits c (by simp)
              rcases hrest with h | ⟨rest', h⟩ <;> rw [h] at hrest' <;> cases hrest'
              exact absurd hc (by decide)
        · cases mid with
          | nil =>
              rw [List.nil_append] at hmid
              rcases hrest with h | ⟨rest', h⟩ <;> rw [h] at hmid <;> cases hmid
          | cons c mid =>
              cases hmid
              exact absurd (htext '.' (by simp)) (by decide)
  cases h : readOctet (text ++ rest) with
  | none =>
      have hfirst : readSeparator '.' 0 readOctet (text ++ rest) = none := h
      rw [readIpv4Addr, hfirst]
      rfl
  | some p =>
      have hfirst : readSeparator '.' 0 readOctet (text ++ rest) = some p := h
      have hsecond : readSeparator '.' 1 readOctet p.2 = none := by
        rw [readSeparator, if_pos (by decide), hoctet p.1 p.2 h]
        rfl
      rw [readIpv4Addr, hfirst]
      simp only [Option.bind_eq_bind, Option.bind_some]
      rw [hsecond]
      rfl

/-- A reader fails where the groups end, at any place. -/
theorem readSeparator_ends {α : Type} {inner : Reader α} (hnil : inner [] = none)
    (hcolon : ∀ s, inner (':' :: s) = none) (i : Nat) {rest : Str} (h : Ends rest) :
    readSeparator ':' i inner rest = none := by
  unfold readSeparator
  split
  · rcases h with rfl | ⟨rest', rfl⟩
    · rfl
    · rw [readGivenChar, if_pos rfl, Option.bind_some, hcolon]
  · rcases h with rfl | ⟨rest', rfl⟩
    · exact hnil
    · exact hcolon _

theorem readGroups_ends (i left : Nat) {rest : Str} (h : Ends rest) :
    readGroups i left rest = (([], false), rest) := by
  cases left with
  | zero => rfl
  | succ left =>
      have hv4 : readSeparator ':' i readIpv4Addr rest = none :=
        readSeparator_ends rfl (fun _ => rfl) i h
      have hgroup : readSeparator ':' i (readNumber 16 4 16 true) rest = none :=
        readSeparator_ends rfl (fun _ => rfl) i h
      rw [readGroups, hv4, ite_self, hgroup]

/-- The separator stands before a group exactly where the reader wants it. -/
theorem readSeparator_colon {α : Type} (inner : Reader α) (i : Nat) (s : Str) :
    readSeparator ':' i inner (if i > 0 then ':' :: s else s) = inner s := by
  unfold readSeparator
  split
  · rw [readGivenChar, if_pos rfl, Option.bind_some]
  · rfl

theorem textAt_last (i : Nat) (v4 : Ipv4Text) (rest : Str) :
    textAt i ⟨[], some v4⟩ ++ rest =
      if i > 0 then ':' :: (v4.text ++ rest) else v4.text ++ rest := by
  unfold textAt
  split <;> rfl

theorem textAt_cons (i : Nat) (h : H16) (front : List H16) (last : Option Ipv4Text)
    (rest : Str) :
    textAt i ⟨h :: front, last⟩ ++ rest =
      if i > 0 then ':' :: (h.text ++ (textAt (i + 1) ⟨front, last⟩ ++ rest))
      else h.text ++ (textAt (i + 1) ⟨front, last⟩ ++ rest) := by
  have hnext : textAt (i + 1) ⟨front, last⟩ = separated front last :=
    if_pos (Nat.succ_pos i)
  rw [hnext, ← List.append_assoc]
  unfold textAt
  split <;> rfl

theorem H16.value_lt (h : H16) : h.value < 2 ^ 16 := by
  refine Nat.lt_of_lt_of_le (digitsValue_lt (by decide) h.text 0) ?_
  rw [Nat.zero_add, Nat.one_mul]
  exact Nat.pow_le_pow_right (by decide) h.length_le

/-- The reader of groups gets through the groups of a text, whatever place
they begin at, and stops where they end. -/
theorem readGroups_textAt (g : Groups) (i left : Nat) (hcount : g.count ≤ left)
    {rest : Str} (hrest : Ends rest) :
    readGroups i left (g.textAt i ++ rest) = ((g.values, g.last.isSome), rest) := by
  obtain ⟨front, last⟩ := g
  induction front generalizing i left with
  | nil =>
      cases last with
      | none =>
          have htext : textAt i ⟨[], none⟩ = [] := by
            unfold textAt
            split <;> rfl
          rw [htext]
          exact readGroups_ends i left hrest
      | some v4 =>
          obtain ⟨left, rfl⟩ : ∃ n, left = n + 2 := Nat.exists_eq_add_of_le' hcount
          have hread := readIpv4Addr_append v4 (hrest.breaks.stops (by decide))
          rw [readGroups, if_pos (Nat.succ_pos left), textAt_last, readSeparator_colon,
            hread]
          rfl
  | cons h front ih =>
      have hcount' : (⟨front, last⟩ : Groups).count + 1 ≤ left := by
        simp only [count, List.length_cons] at hcount ⊢
        omega
      obtain ⟨left, rfl⟩ : ∃ n, left = n + 1 :=
        Nat.exists_eq_add_of_le' (Nat.le_of_add_left_le hcount')
      have hbreaks : Breaks (textAt (i + 1) ⟨front, last⟩ ++ rest) :=
        breaks_separated front last hrest.breaks
      have hv4 : readIpv4Addr (h.text ++ (textAt (i + 1) ⟨front, last⟩ ++ rest)) =
          none := readIpv4Addr_group h.digits hbreaks
      have hgroup : readNumber 16 4 16 true
          (h.text ++ (textAt (i + 1) ⟨front, last⟩ ++ rest)) = some (h.value, _) :=
        readNumber_append (hbreaks.stops (by decide)) (H16.value_lt h) (.inl rfl)
      rw [readGroups, textAt_cons, readSeparator_colon, readSeparator_colon, hv4,
        ite_self, hgroup]
      dsimp only
      rw [ih (i + 1) left (by omega)]
      rfl

end Groups

/-- `IPv6address`: eight groups, or at most seven with a `::`. -/
inductive Ipv6Text where
  | full (groups : Groups) (h : groups.count = 8)
  | compressed (front : List H16) (back : Groups)
      (h : front.length + back.count ≤ 7)

namespace Ipv6Text

def text : Ipv6Text → Str
  | full groups _ => groups.text
  | compressed front back _ =>
      (⟨front, none⟩ : Groups).text ++ ':' :: ':' :: back.text

def value : Ipv6Text → Ipv6Addr
  | full groups _ => .ofGroups groups.values []
  | compressed front back _ => .ofGroups (⟨front, none⟩ : Groups).values back.values

theorem parse_text (t : Ipv6Text) : Ipv6Addr.parse t.text = some t.value := by
  rw [Ipv6Addr.parse, parseWith_eq_some]
  cases t with
  | full groups h =>
      have hread := groups.readGroups_textAt 0 8 (Nat.le_of_eq h) (.inl rfl)
      rw [List.append_nil] at hread
      have hlength : groups.values.length = 8 := by rw [groups.length_values, h]
      rw [text, Groups.text, readIpv6Addr, hread]
      exact if_pos hlength
  | compressed front back h =>
      let head : Groups := ⟨front, none⟩
      have hcount : head.count = front.length := Nat.add_zero _
      have hlength : head.values.length = front.length := by
        rw [head.length_values, hcount]
      have hends : Groups.Ends (':' :: ':' :: back.text) := .inr ⟨_, rfl⟩
      have hhead := head.readGroups_textAt 0 8 (by omega) hends
      have hback := back.readGroups_textAt 0 (8 - (head.values.length + 1)) (by omega)
        (.inl rfl)
      rw [List.append_nil] at hback
      rw [text, Groups.text, readIpv6Addr, hhead]
      dsimp only
      have hlast : ¬ head.last.isSome = true := Bool.false_ne_true
      rw [if_neg (by omega), if_neg hlast]
      simp only [readGivenChar, if_true, Option.bind_eq_bind, Option.bind_some]
      rw [Groups.text, hback]
      rfl

end Ipv6Text

/-- And the parser reads the shorter form. -/
theorem Ipv4Text.parse_text (t : Ipv4Text) : Ipv4Addr.parse t.text = some t.value := by
  have hstops : Stops 10 [] := fun c hc => by cases hc
  have hread := readIpv4Addr_append t hstops
  rw [List.append_nil] at hread
  rw [Ipv4Addr.parse, parseWith_eq_some, hread]

end Lib.Net
