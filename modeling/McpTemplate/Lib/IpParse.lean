import McpTemplate.Lib.Hex
import McpTemplate.Lib.IpAddr

/-!
# Addresses as text

The parser of the standard library, reader by reader. A reader returns its
value with the input that is left. One that fails returns nothing, and its
caller goes on from where it stood, which is what the source restores.

A reader `Consumes` only some characters. An address is read through digits,
colons and dots, so no other character is anywhere in the text of one; and the
text of the longer form does not begin with an address of the shorter one.
-/

namespace Lib.Net

variable {α β : Type}

/-- What reads a value off the front of the input. -/
abbrev Reader (α : Type) := Str → Option (α × Str)

/-! ## The readers -/

def readGivenChar (target : Char) : Str → Option Str
  | [] => none
  | c :: s => if c = target then some s else none

/-- The separator stands before every element of a loop but the first. -/
def readSeparator (sep : Char) (index : Nat) (inner : Reader α) : Reader α :=
  fun s => if index > 0 then (readGivenChar sep s).bind inner else inner s

/-- The loop of `read_number`: the number so far, and its count of digits. -/
def readDigits (radix maxDigits : Nat) : Nat → Nat → Str → Option (Nat × Nat × Str)
  | result, count, [] => some (result, count, [])
  | result, count, c :: s =>
      match toDigit radix c with
      | none => some (result, count, c :: s)
      | some digit =>
          if count + 1 > maxDigits then none
          else readDigits radix maxDigits (result * radix + digit) (count + 1) s

/-- `read_number`, into a type of `2 ^ bits` values. -/
def readNumber (radix maxDigits bits : Nat) (allowZeroPrefix : Bool) : Reader Nat :=
  fun s => do
    let hasLeadingZero := s.head? = some '0'
    let (result, count, rest) ← readDigits radix maxDigits 0 0 s
    if count = 0 then none
    else if !allowZeroPrefix && hasLeadingZero && count > 1 then none
    else if result < 2 ^ bits then some (result, rest)
    else none

/-- One group of the shorter form; leading zeros are refused, since they
would read as octal elsewhere. -/
def readOctet : Reader Nat := readNumber 10 3 8 false

def readIpv4Addr : Reader Ipv4Addr := fun s => do
  let (a, s) ← readSeparator '.' 0 readOctet s
  let (b, s) ← readSeparator '.' 1 readOctet s
  let (c, s) ← readSeparator '.' 2 readOctet s
  let (d, s) ← readSeparator '.' 3 readOctet s
  some (⟨.ofNat a, .ofNat b, .ofNat c, .ofNat d⟩, s)

/-- The two groups an embedded address of the shorter form stands for. -/
def Ipv4Addr.groups (x : Ipv4Addr) : List UInt16 :=
  [.ofNat (x.a.toNat * 2 ^ 8 + x.b.toNat), .ofNat (x.c.toNat * 2 ^ 8 + x.d.toNat)]

/-- `read_groups` from the `i`th group on, with `left` groups to go: the groups
read, and whether the last two are an embedded address. -/
def readGroups : (i left : Nat) → Str → (List UInt16 × Bool) × Str
  | _, 0, s => (([], false), s)
  | i, left + 1, s =>
      -- an embedded address takes two groups
      match (if left > 0 then readSeparator ':' i readIpv4Addr s else none) with
      | some (addr, s) => ((addr.groups, true), s)
      | none =>
          match readSeparator ':' i (readNumber 16 4 16 true) s with
          | none => (([], false), s)
          | some (group, s) =>
              let ((groups, ipv4), s) := readGroups (i + 1) left s
              ((.ofNat group :: groups, ipv4), s)

/-- The groups of the head in front, those of the tail at the back. -/
def Ipv6Addr.ofGroups (head tail : List UInt16) : Ipv6Addr :=
  ⟨Vector.ofFn fun i : Fin 8 =>
    (head ++ List.replicate (8 - head.length - tail.length) 0 ++ tail).getD i 0⟩

def readIpv6Addr : Reader Ipv6Addr := fun s => do
  let ((head, headIpv4), s) := readGroups 0 8 s
  if head.length = 8 then some (.ofGroups head [], s)
  else if headIpv4 then none
  else
    let s ← readGivenChar ':' s
    let s ← readGivenChar ':' s
    let ((tail, _), s) := readGroups 0 (8 - (head.length + 1)) s
    some (.ofGroups head tail, s)

def readIpAddr : Reader IpAddr := fun s =>
  ((readIpv4Addr s).map fun p => (.v4 p.1, p.2)).or
    ((readIpv6Addr s).map fun p => (.v6 p.1, p.2))

/-- `parse_with`: the whole input has to be read. -/
def parseWith (inner : Reader α) (s : Str) : Option α :=
  match inner s with
  | some (value, []) => some value
  | _ => none

/-- `str::parse::<Ipv4Addr>`. -/
def Ipv4Addr.parse (s : Str) : Option Ipv4Addr := parseWith readIpv4Addr s

/-- `str::parse::<Ipv6Addr>`. -/
def Ipv6Addr.parse (s : Str) : Option Ipv6Addr := parseWith readIpv6Addr s

/-- `str::parse::<IpAddr>`. -/
def IpAddr.parse (s : Str) : Option IpAddr := parseWith readIpAddr s

theorem parseWith_eq_some {inner : Reader α} {s : Str} {value : α} :
    parseWith inner s = some value ↔ inner s = some (value, []) := by
  unfold parseWith
  split
  · next h => simp [h]
  · next h =>
      simp only [reduceCtorEq, false_iff]
      exact fun heq => h value heq

/-! ## What a reader gets through -/

/-- The reader goes over characters of `P` only. -/
def Consumes (P : Char → Prop) (inner : Reader α) : Prop :=
  ∀ s value rest, inner s = some (value, rest) →
    ∃ front, s = front ++ rest ∧ ∀ c ∈ front, P c

variable {P : Char → Prop}

theorem Consumes.parse {inner : Reader α} (h : Consumes P inner) {s : Str}
    {value : α} (hs : parseWith inner s = some value) : ∀ c ∈ s, P c := by
  obtain ⟨front, hfront, hP⟩ := h s value [] (parseWith_eq_some.1 hs)
  rw [hfront, List.append_nil]
  exact hP

theorem Consumes.bind {inner : Reader α} {next : α → Reader β}
    (h : Consumes P inner) (hnext : ∀ value, Consumes P (next value)) :
    Consumes P fun s => (inner s).bind fun p => next p.1 p.2 := by
  intro s value rest hs
  obtain ⟨⟨v, s'⟩, hinner, hs'⟩ := Option.bind_eq_some_iff.1 hs
  obtain ⟨front, rfl, hfront⟩ := h s v s' hinner
  obtain ⟨front', rfl, hfront'⟩ := hnext v s' value rest hs'
  refine ⟨front ++ front', (List.append_assoc _ _ _).symm, fun c hc => ?_⟩
  exact (List.mem_append.1 hc).elim (hfront c) (hfront' c)

theorem consumes_pure (value : α) : Consumes P fun s => some (value, s) := by
  intro s value' rest h
  cases h
  exact ⟨[], rfl, by simp⟩

theorem readGivenChar_eq_some {target : Char} {s rest : Str} :
    readGivenChar target s = some rest ↔ s = target :: rest := by
  cases s with
  | nil => simp [readGivenChar]
  | cons c s =>
      rw [readGivenChar]
      split
      · next h => simp [h]
      · next h => simp [h]

theorem consumes_readSeparator {sep : Char} {index : Nat} {inner : Reader α}
    (hsep : P sep) (h : Consumes P inner) :
    Consumes P (readSeparator sep index inner) := by
  intro s value rest hs
  unfold readSeparator at hs
  split at hs
  · obtain ⟨s', hsep', hs'⟩ := Option.bind_eq_some_iff.1 hs
    obtain ⟨front, rfl, hfront⟩ := h s' value rest hs'
    refine ⟨sep :: front, readGivenChar_eq_some.1 hsep', fun c hc => ?_⟩
    rcases List.mem_cons.1 hc with rfl | hc
    · exact hsep
    · exact hfront c hc
  · exact h s value rest hs

theorem readDigits_consumes {radix maxDigits : Nat}
    (hdigit : ∀ c, (toDigit radix c).isSome → P c) {s : Str}
    {result count value count' : Nat} {rest : Str}
    (h : readDigits radix maxDigits result count s = some (value, count', rest)) :
    ∃ front, s = front ++ rest ∧ ∀ c ∈ front, P c := by
  induction s generalizing result count with
  | nil => cases h; exact ⟨[], rfl, by simp⟩
  | cons c s ih =>
      rw [readDigits] at h
      split at h
      · cases h; exact ⟨[], rfl, by simp⟩
      · next digit hc =>
          split at h
          · cases h
          · obtain ⟨front, rfl, hfront⟩ := ih h
            refine ⟨c :: front, rfl, fun c' hc' => ?_⟩
            rcases List.mem_cons.1 hc' with rfl | hc'
            · exact hdigit c' (by rw [hc]; rfl)
            · exact hfront c' hc'

theorem consumes_readNumber {radix maxDigits bits : Nat} {allowZeroPrefix : Bool}
    (hdigit : ∀ c, (toDigit radix c).isSome → P c) :
    Consumes P (readNumber radix maxDigits bits allowZeroPrefix) := by
  intro s value rest h
  obtain ⟨⟨result, count, rest'⟩, hdigits, h⟩ := Option.bind_eq_some_iff.1 h
  have hrest : rest' = rest := by
    dsimp only at h
    split at h
    · cases h
    · split at h
      · cases h
      · split at h
        · cases h; rfl
        · cases h
  exact hrest ▸ readDigits_consumes hdigit hdigits

/-- What an address is written with. -/
def IsAddrChar (c : Char) : Prop := (toDigit 16 c).isSome ∨ c = ':' ∨ c = '.'

instance (c : Char) : Decidable (IsAddrChar c) := inferInstanceAs (Decidable (_ ∨ _))

theorem toDigit_mono {radix radix' : Nat} (h : radix ≤ radix') {c : Char}
    (hc : (toDigit radix c).isSome) : (toDigit radix' c).isSome := by
  obtain ⟨d, hd⟩ := Option.isSome_iff_exists.1 hc
  obtain ⟨hdigit, hlt⟩ := Option.filter_eq_some_iff.1 hd
  refine Option.isSome_iff_exists.2 ⟨d, Option.filter_eq_some_iff.2 ⟨hdigit, ?_⟩⟩
  simp only [decide_eq_true_eq] at hlt ⊢
  omega

theorem consumes_readOctet : Consumes IsAddrChar readOctet :=
  consumes_readNumber fun _ hc => .inl (toDigit_mono (by decide) hc)

theorem consumes_readIpv4Addr : Consumes IsAddrChar readIpv4Addr := by
  have hdot : IsAddrChar '.' := .inr (.inr rfl)
  have hoctet (i : Nat) : Consumes IsAddrChar (readSeparator '.' i readOctet) :=
    consumes_readSeparator hdot consumes_readOctet
  exact (hoctet 0).bind fun a => (hoctet 1).bind fun b => (hoctet 2).bind fun c =>
    (hoctet 3).bind fun d =>
      consumes_pure (Ipv4Addr.mk (.ofNat a) (.ofNat b) (.ofNat c) (.ofNat d))

theorem readGroups_consumes (i left : Nat) (s : Str) :
    ∃ front, s = front ++ (readGroups i left s).2 ∧ ∀ c ∈ front, IsAddrChar c := by
  have hcolon : IsAddrChar ':' := .inr (.inl rfl)
  induction left generalizing i s with
  | zero => exact ⟨[], rfl, by simp⟩
  | succ left ih =>
      rw [readGroups]
      split
      · next addr s' haddr =>
          split at haddr
          · exact consumes_readSeparator hcolon consumes_readIpv4Addr _ _ _ haddr
          · cases haddr
      · split
        · exact ⟨[], rfl, by simp⟩
        · next group s' hgroup =>
            obtain ⟨front, rfl, hfront⟩ := consumes_readSeparator hcolon
              (consumes_readNumber fun _ hc => .inl hc) _ _ _ hgroup
            obtain ⟨front', hs', hfront'⟩ := ih (i + 1) s'
            refine ⟨front ++ front', ?_, fun c hc => ?_⟩
            · rw [List.append_assoc, ← hs']
            · exact (List.mem_append.1 hc).elim (hfront c) (hfront' c)

theorem consumes_readIpv6Addr : Consumes IsAddrChar readIpv6Addr := by
  intro s value rest h
  have hcolon : IsAddrChar ':' := .inr (.inl rfl)
  obtain ⟨front, hs, hfront⟩ := readGroups_consumes 0 8 s
  unfold readIpv6Addr at h
  generalize readGroups 0 8 s = head at h hs
  obtain ⟨⟨groups, ipv4⟩, s'⟩ := head
  dsimp only at h hs
  split at h
  · cases h; exact ⟨front, hs, hfront⟩
  · split at h
    · cases h
    · obtain ⟨s₁, h₁, h⟩ := Option.bind_eq_some_iff.1 h
      obtain ⟨s₂, h₂, h⟩ := Option.bind_eq_some_iff.1 h
      obtain ⟨tail, htail, hmem⟩ := readGroups_consumes 0 (8 - (groups.length + 1)) s₂
      cases h
      rw [readGivenChar_eq_some] at h₁ h₂
      refine ⟨front ++ ':' :: ':' :: tail, ?_, fun c hc => ?_⟩
      · rw [hs, h₁, h₂, List.append_assoc]
        exact congrArg (fun t => front ++ ':' :: ':' :: t) htail
      · rcases List.mem_append.1 hc with hc | hc
        · exact hfront c hc
        · rcases List.mem_cons.1 hc with rfl | hc
          · exact hcolon
          · rcases List.mem_cons.1 hc with rfl | hc
            · exact hcolon
            · exact hmem c hc

theorem consumes_readIpAddr : Consumes IsAddrChar readIpAddr := by
  intro s value rest h
  rcases Option.or_eq_some_iff.1 h with h | ⟨-, h⟩
  · obtain ⟨⟨addr, rest'⟩, haddr, heq⟩ := Option.map_eq_some_iff.1 h
    cases heq
    exact consumes_readIpv4Addr _ _ _ haddr
  · obtain ⟨⟨addr, rest'⟩, haddr, heq⟩ := Option.map_eq_some_iff.1 h
    cases heq
    exact consumes_readIpv6Addr _ _ _ haddr

/-- A text with any other character is no address. -/
theorem IpAddr.parse_eq_none {s : Str} {c : Char} (hc : c ∈ s)
    (h : ¬ IsAddrChar c) : IpAddr.parse s = none := by
  cases hs : IpAddr.parse s with
  | none => rfl
  | some addr => exact absurd (consumes_readIpAddr.parse hs c hc) h

/-! ## The two forms -/

theorem IpAddr.parse_v4 {s : Str} {addr : Ipv4Addr}
    (h : Ipv4Addr.parse s = some addr) : IpAddr.parse s = some (.v4 addr) := by
  rw [Ipv4Addr.parse, parseWith_eq_some] at h
  rw [IpAddr.parse, parseWith_eq_some, readIpAddr, h]
  rfl

/-- The longer form does not begin with an address of the shorter one: that
would be taken for an embedded address, which nothing may follow. -/
theorem readIpv4Addr_of_readIpv6Addr {s : Str} {p : Ipv6Addr × Str}
    (h : readIpv6Addr s = some p) : readIpv4Addr s = none := by
  cases hv4 : readIpv4Addr s with
  | none => rfl
  | some q =>
      have hgroups : readGroups 0 8 s = ((q.1.groups, true), q.2) := by
        rw [readGroups, if_pos (by decide), readSeparator, if_neg (by decide), hv4]
      rw [readIpv6Addr, hgroups] at h
      cases h

theorem IpAddr.parse_v6 {s : Str} {addr : Ipv6Addr}
    (h : Ipv6Addr.parse s = some addr) : IpAddr.parse s = some (.v6 addr) := by
  rw [Ipv6Addr.parse, parseWith_eq_some] at h
  rw [IpAddr.parse, parseWith_eq_some, readIpAddr, readIpv4Addr_of_readIpv6Addr h, h]
  rfl

theorem Ipv4Addr.chars_of_parse {s : Str} {addr : Ipv4Addr}
    (h : Ipv4Addr.parse s = some addr) : ∀ c ∈ s, IsAddrChar c :=
  consumes_readIpv4Addr.parse h

theorem Ipv6Addr.chars_of_parse {s : Str} {addr : Ipv6Addr}
    (h : Ipv6Addr.parse s = some addr) : ∀ c ∈ s, IsAddrChar c :=
  consumes_readIpv6Addr.parse h

end Lib.Net
