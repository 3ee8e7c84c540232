import McpTemplate.Lib.Text

/-!
# Lossy decoding, and cutting at a character

`String::from_utf8_lossy` byte by byte: a sequence that is not UTF-8 becomes
one replacement character for the longest start of a sequence in it. And what
a cut of a text at a byte position needs: where the positions between
characters are. A text that was encoded is decoded as it was, whatever the
decoder does elsewhere.
-/

namespace Lib

def REPLACEMENT_CHARACTER : Char := Char.ofNat 0xfffd

/-- A byte that continues a character. -/
def isContinuation (b : UInt8) : Bool := b &&& 0xc0 == 0x80

/-- The second bytes that a first byte of three or four admits: no overlong
form, no surrogate, nothing beyond the last character. -/
def secondByteOk (first second : UInt8) : Bool :=
  if first == 0xe0 then 0xa0 ≤ second && second ≤ 0xbf
  else if first == 0xed then 0x80 ≤ second && second ≤ 0x9f
  else if first == 0xf0 then 0x90 ≤ second && second ≤ 0xbf
  else if first == 0xf4 then 0x80 ≤ second && second ≤ 0x8f
  else isContinuation second

/-- One character from its first byte and what follows, with the number of
bytes it takes from there. Past the end the bytes read as zero. -/
def lossyChar (first : UInt8) (rest : List UInt8) : Char × Nat :=
  let second := rest.getD 0 0
  let third := rest.getD 1 0
  let fourth := rest.getD 2 0
  let low (b : UInt8) : Nat := b.toNat % 64
  if first < 0x80 then (Char.ofNat first.toNat, 0)
  else if 0xc2 ≤ first && first ≤ 0xdf then
    if !isContinuation second then (REPLACEMENT_CHARACTER, 0)
    else (Char.ofNat (first.toNat % 32 * 64 + low second), 1)
  else if 0xe0 ≤ first && first ≤ 0xef then
    if !secondByteOk first second then (REPLACEMENT_CHARACTER, 0)
    else if !isContinuation third then (REPLACEMENT_CHARACTER, 1)
    else
      (Char.ofNat ((first.toNat % 16 * 64 + low second) * 64 + low third), 2)
  else if 0xf0 ≤ first && first ≤ 0xf4 then
    if !secondByteOk first second then (REPLACEMENT_CHARACTER, 0)
    else if !isContinuation third then (REPLACEMENT_CHARACTER, 1)
    else if !isContinuation fourth then (REPLACEMENT_CHARACTER, 2)
    else
      (Char.ofNat (((first.toNat % 8 * 64 + low second) * 64 + low third) * 64 +
        low fourth), 3)
  else (REPLACEMENT_CHARACTER, 0)

/-- Decoding, where the next `skip` bytes are already decoded. -/
def lossyFrom : (skip : Nat) → List UInt8 → Str
  | _, [] => []
  | skip + 1, _ :: rest => lossyFrom skip rest
  | 0, first :: rest =>
      (lossyChar first rest).1 :: lossyFrom (lossyChar first rest).2 rest

/-- `String::from_utf8_lossy`. -/
def fromUtf8Lossy (bytes : List UInt8) : Str := lossyFrom 0 bytes

/-- `str::is_char_boundary`. -/
def isCharBoundary (s : Str) (index : Nat) : Bool :=
  if index = 0 then true
  else
    match (asBytes s)[index]? with
    | none => index = byteLen s
    | some b => !isContinuation b

/-- The characters of `s` that end within the first `n` bytes. -/
def takeBytes : (n : Nat) → Str → Str
  | _, [] => []
  | n, c :: s => if c.utf8Size ≤ n then c :: takeBytes (n - c.utf8Size) s else []

/-- `String::truncate`, which panics where it would cut a character. -/
def truncate (s : Str) (n : Nat) : Option Str :=
  if n > byteLen s then some s
  else if isCharBoundary s n then some (takeBytes n s)
  else none

/-! ## Where a text can be cut -/

theorem isContinuation_iff {b : UInt8} :
    isContinuation b = true ↔ 0x80 ≤ b.toNat ∧ b.toNat < 0xc0 := by
  have hall : ∀ n : Fin 256, isContinuation (UInt8.ofNat n.val) =
      decide (0x80 ≤ n.val ∧ n.val < 0xc0) := by decide +kernel
  have hb := hall ⟨b.toNat, b.toNat_lt⟩
  rw [UInt8.ofNat_toNat] at hb
  rw [hb, decide_eq_true_eq]

theorem isContinuation_ofNat (n : Nat) :
    isContinuation (UInt8.ofNat n) = true ↔
      0x80 ≤ n % 256 ∧ n % 256 < 0xc0 := by
  rw [isContinuation_iff, UInt8.toNat_ofNat']

/-- A character is a byte that continues none, and bytes that do. -/
theorem utf8EncodeChar_eq_cons (c : Char) :
    ∃ first rest, String.utf8EncodeChar c = first :: rest ∧
      isContinuation first = false ∧ ∀ b ∈ rest, isContinuation b = true := by
  unfold String.utf8EncodeChar
  dsimp only
  split
  · refine ⟨_, _, rfl, ?_, by simp⟩
    rw [← Bool.not_eq_true, isContinuation_ofNat]
    omega
  · split
    · refine ⟨_, _, rfl, ?_, ?_⟩
      · rw [← Bool.not_eq_true, isContinuation_ofNat]
        omega
      · simp only [List.mem_singleton, forall_eq, isContinuation_ofNat]
        omega
    · split
      · refine ⟨_, _, rfl, ?_, ?_⟩
        · rw [← Bool.not_eq_true, isContinuation_ofNat]
          omega
        · simp only [List.mem_cons, List.not_mem_nil, or_false,
            forall_eq_or_imp, forall_eq, isContinuation_ofNat]
          omega
      · refine ⟨_, _, rfl, ?_, ?_⟩
        · rw [← Bool.not_eq_true, isContinuation_ofNat]
          omega
        · simp only [List.mem_cons, List.not_mem_nil, or_false,
            forall_eq_or_imp, forall_eq, isContinuation_ofNat]
          omega

theorem asBytes_cons (c : Char) (s : Str) :
    asBytes (c :: s) = String.utf8EncodeChar c ++ asBytes s := List.flatMap_cons

/-- No text starts inside a character. -/
theorem not_continuation_head {s : Str} {b : UInt8} (h : (asBytes s)[0]? = some b) :
    isContinuation b = false := by
  cases s with
  | nil => cases h
  | cons c s =>
      obtain ⟨first, rest, hc, hfirst, -⟩ := utf8EncodeChar_eq_cons c
      rw [asBytes_cons, hc] at h
      cases h
      exact hfirst

theorem isCharBoundary_cons (c : Char) (s : Str) (n : Nat) :
    isCharBoundary (c :: s) n = true ↔
      n = 0 ∨ c.utf8Size ≤ n ∧ isCharBoundary s (n - c.utf8Size) = true := by
  obtain ⟨first, rest, hc, -, hrest⟩ := utf8EncodeChar_eq_cons c
  have hlen : (String.utf8EncodeChar c).length = c.utf8Size :=
    String.length_utf8EncodeChar c
  have hpos := c.utf8Size_pos
  by_cases hn : n = 0
  · simp [hn, isCharBoundary]
  · rw [isCharBoundary, if_neg hn, asBytes_cons]
    by_cases hlt : n < c.utf8Size
    · -- inside the first character
      obtain ⟨k, rfl⟩ := Nat.exists_eq_succ_of_ne_zero hn
      have hk : k < rest.length := by
        rw [hc, List.length_cons] at hlen
        omega
      rw [List.getElem?_append_left (by omega), hc, List.getElem?_cons_succ,
        List.getElem?_eq_getElem hk]
      simp only [hrest _ (List.getElem_mem hk), Bool.not_true]
      simp [Nat.not_le.2 hlt]
    · rw [List.getElem?_append_right (by omega), hlen]
      have hle : c.utf8Size ≤ n := Nat.le_of_not_lt hlt
      obtain ⟨k, rfl⟩ := Nat.exists_eq_add_of_le hle
      rw [Nat.add_sub_cancel_left, isCharBoundary, byteLen]
      cases hk : (asBytes s)[k]? with
      | none =>
          have hend : byteLen s ≤ k := by
            rw [← length_asBytes]
            exact List.getElem?_eq_none_iff.1 hk
          by_cases hk0 : k = 0
          · simp [hk0]
            omega
          · simp [hk0]
      | some b =>
          cases k with
          | zero => simp [not_continuation_head hk]
          | succ k => simp

/-- The places where a text can be cut are the ends of its prefixes. -/
theorem isCharBoundary_iff {s : Str} {n : Nat} :
    isCharBoundary s n = true ↔ ∃ p, p <+: s ∧ byteLen p = n := by
  induction s generalizing n with
  | nil =>
      simp only [List.prefix_nil, exists_eq_left, byteLen]
      by_cases hn : n = 0
      · simp [hn, isCharBoundary]
      · simp [isCharBoundary, hn, asBytes, byteLen, eq_comm]
  | cons c s ih =>
      rw [isCharBoundary_cons, ih]
      constructor
      · intro h
        rcases h with rfl | ⟨hle, p, hp, hlen⟩
        · exact ⟨[], List.nil_prefix, rfl⟩
        · refine ⟨c :: p, List.cons_prefix_cons.2 ⟨rfl, hp⟩, ?_⟩
          rw [byteLen, hlen]
          omega
      · intro h
        obtain ⟨p, hp, rfl⟩ := h
        cases p with
        | nil => exact .inl rfl
        | cons a p =>
            obtain ⟨rfl, htail⟩ := List.cons_prefix_cons.1 hp
            exact .inr ⟨by rw [byteLen]; omega, p, htail, by rw [byteLen]; omega⟩

theorem byteLen_append (s t : Str) : byteLen (s ++ t) = byteLen s + byteLen t := by
  induction s with
  | nil => simp [byteLen]
  | cons c s ih => rw [List.cons_append, byteLen, byteLen, ih, Nat.add_assoc]

theorem byteLen_prefix_le {p s : Str} (h : p <+: s) : byteLen p ≤ byteLen s := by
  obtain ⟨rest, rfl⟩ := h
  rw [byteLen_append]
  exact Nat.le_add_right _ _

/-- A prefix that is no shorter is the whole. -/
theorem eq_of_prefix_of_byteLen_le {p s : Str} (h : p <+: s)
    (hle : byteLen s ≤ byteLen p) : p = s := by
  obtain ⟨rest, rfl⟩ := h
  rw [byteLen_append] at hle
  cases rest with
  | nil => rw [List.append_nil]
  | cons c rest =>
      have hpos := c.utf8Size_pos
      rw [byteLen] at hle
      omega

theorem isPrefix_takeBytes (n : Nat) (s : Str) : takeBytes n s <+: s := by
  induction s generalizing n with
  | nil => exact List.prefix_rfl
  | cons c s ih =>
      rw [takeBytes]
      split
      · exact List.cons_prefix_cons.2 ⟨rfl, ih _⟩
      · exact List.nil_prefix

theorem byteLen_takeBytes_le (n : Nat) (s : Str) : byteLen (takeBytes n s) ≤ n := by
  induction s generalizing n with
  | nil => exact Nat.zero_le _
  | cons c s ih =>
      rw [takeBytes]
      split
      · next hfits =>
          have htail := ih (n - c.utf8Size)
          rw [byteLen]
          omega
      · exact Nat.zero_le _

/-- Every prefix that fits is within the one taken. -/
theorem prefix_takeBytes {p s : Str} {n : Nat} (h : p <+: s) (hle : byteLen p ≤ n) :
    p <+: takeBytes n s := by
  induction s generalizing p n with
  | nil => exact h
  | cons c s ih =>
      cases p with
      | nil => exact List.nil_prefix
      | cons a p =>
          obtain ⟨rfl, hp⟩ := List.cons_prefix_cons.1 h
          rw [byteLen] at hle
          rw [takeBytes, if_pos (by omega)]
          exact List.cons_prefix_cons.2 ⟨rfl, ih hp (by omega)⟩

/-- What is taken falls short by less than a character. -/
theorem lt_byteLen_takeBytes {n : Nat} {s : Str} (h : n ≤ byteLen s) :
    n < byteLen (takeBytes n s) + 4 := by
  induction s generalizing n with
  | nil =>
      rw [byteLen] at h
      omega
  | cons c s ih =>
      rw [byteLen] at h
      rw [takeBytes]
      split
      · next hfits =>
          have htail := ih (n := n - c.utf8Size) (by omega)
          rw [byteLen]
          omega
      · next hfits =>
          have hsize := c.utf8Size_le_four
          omega

/-- A cut at the end of a prefix gives that prefix. -/
theorem truncate_byteLen {p s : Str} (h : p <+: s) :
    truncate s (byteLen p) = some p := by
  have htake : takeBytes (byteLen p) s = p :=
    (eq_of_prefix_of_byteLen_le (prefix_takeBytes h (Nat.le_refl _))
      (byteLen_takeBytes_le _ s)).symm
  rw [truncate, if_neg (Nat.not_lt.2 (byteLen_prefix_le h)),
    if_pos (isCharBoundary_iff.2 ⟨p, h, rfl⟩), htake]

/-! ## Decoding what was encoded -/

theorem byte_eq_iff {a b : UInt8} : (a == b) = true ↔ a.toNat = b.toNat := by
  rw [beq_iff_eq, UInt8.toNat_inj]

/-- The second bytes that may follow, by number. -/
theorem secondByteOk_iff {first second : UInt8} :
    secondByteOk first second = true ↔ isContinuation second = true ∧
      (first.toNat = 0xe0 → 0xa0 ≤ second.toNat) ∧
      (first.toNat = 0xed → second.toNat ≤ 0x9f) ∧
      (first.toNat = 0xf0 → 0x90 ≤ second.toNat) ∧
      (first.toNat = 0xf4 → second.toNat ≤ 0x8f) := by
  unfold secondByteOk
  simp only [byte_eq_iff, isContinuation_iff, UInt8.reduceToNat]
  split_ifs <;>
    simp only [Bool.and_eq_true, decide_eq_true_eq, UInt8.le_iff_toNat_le,
      UInt8.reduceToNat, isContinuation_iff] <;> omega

theorem not_ascii {first : UInt8} (h : 0xc2 ≤ first.toNat) : ¬ first < 0x80 := by
  show ¬ first.toNat < 0x80
  omega

theorem byte_within {lo hi b : UInt8} :
    (lo ≤ b && b ≤ hi) = true ↔ lo.toNat ≤ b.toNat ∧ b.toNat ≤ hi.toNat := by
  rw [Bool.and_eq_true, decide_eq_true_eq, decide_eq_true_eq]
  exact Iff.rfl

theorem lossyChar_one {first : UInt8} (h : first.toNat < 0x80) (rest : List UInt8) :
    lossyChar first rest = (Char.ofNat first.toNat, 0) := by
  have hlt : first < 0x80 := h
  rw [lossyChar, if_pos hlt]

theorem lossyChar_two {first second : UInt8} (h : 0xc2 ≤ first.toNat)
    (h' : first.toNat ≤ 0xdf) (hsecond : isContinuation second = true)
    (rest : List UInt8) :
    lossyChar first (second :: rest) =
      (Char.ofNat (first.toNat % 32 * 64 + second.toNat % 64), 1) := by
  have hin : (0xc2 ≤ first && first ≤ 0xdf) = true := byte_within.2 ⟨h, h'⟩
  simp only [lossyChar, if_neg (not_ascii h), hin, List.getD_cons_zero, hsecond,
    Bool.not_true, Bool.false_eq_true, if_false, if_true]

theorem lossyChar_three {first second third : UInt8} (h : 0xe0 ≤ first.toNat)
    (h' : first.toNat ≤ 0xef) (hsecond : secondByteOk first second = true)
    (hthird : isContinuation third = true) (rest : List UInt8) :
    lossyChar first (second :: third :: rest) =
      (Char.ofNat ((first.toNat % 16 * 64 + second.toNat % 64) * 64 + third.toNat % 64),
        2) := by
  have hout : ¬ (0xc2 ≤ first && first ≤ 0xdf) = true := by
    rw [byte_within]
    simp only [UInt8.reduceToNat]
    omega
  have hin : (0xe0 ≤ first && first ≤ 0xef) = true := byte_within.2 ⟨h, h'⟩
  have hascii : ¬ first < 0x80 := not_ascii (by omega)
  simp only [lossyChar, if_neg hascii, if_neg hout, hin, List.getD_cons_zero,
    List.getD_cons_succ, hsecond, hthird, Bool.not_true, Bool.false_eq_true, if_false,
    if_true]

theorem lossyChar_four {first second third fourth : UInt8} (h : 0xf0 ≤ first.toNat)
    (h' : first.toNat ≤ 0xf4) (hsecond : secondByteOk first second = true)
    (hthird : isContinuation third = true) (hfourth : isContinuation fourth = true)
    (rest : List UInt8) :
    lossyChar first (second :: third :: fourth :: rest) =
      (Char.ofNat (((first.toNat % 8 * 64 + second.toNat % 64) * 64 + third.toNat % 64) *
        64 + fourth.toNat % 64), 3) := by
  have hout : ¬ (0xc2 ≤ first && first ≤ 0xdf) = true := by
    rw [byte_within]
    simp only [UInt8.reduceToNat]
    omega
  have hout' : ¬ (0xe0 ≤ first && first ≤ 0xef) = true := by
    rw [byte_within]
    simp only [UInt8.reduceToNat]
    omega
  have hin : (0xf0 ≤ first && first ≤ 0xf4) = true := byte_within.2 ⟨h, h'⟩
  have hascii : ¬ first < 0x80 := not_ascii (by omega)
  simp only [lossyChar, if_neg hascii, if_neg hout, if_neg hout', hin,
    List.getD_cons_zero, List.getD_cons_succ, hsecond, hthird, hfourth, Bool.not_true,
    Bool.false_eq_true, if_false, if_true]

/-- A character is decoded from its own bytes, whatever follows them. -/
theorem lossyChar_utf8EncodeChar (c : Char) :
    ∃ first tail, String.utf8EncodeChar c = first :: tail ∧
      ∀ rest, lossyChar first (tail ++ rest) = (c, tail.length) := by
  have hvalid : c.val.toNat < 0xd800 ∨ (0xdfff < c.val.toNat ∧ c.val.toNat < 0x110000) :=
    c.valid
  have hself : ∀ n, n = c.val.toNat → Char.ofNat n = c := by
    intro n hn
    rw [hn]
    exact Char.ofNat_toNat c
  have hcont : ∀ n, isContinuation (UInt8.ofNat (n % 0x40 + 0x80)) = true := by
    intro n
    rw [isContinuation_ofNat]
    omega
  unfold String.utf8EncodeChar
  dsimp only
  -- one case for each number of bytes
  split
  · refine ⟨_, [], rfl, fun rest => ?_⟩
    rw [List.nil_append, lossyChar_one (by rw [UInt8.toNat_ofNat']; omega), hself]
    · rfl
    · rw [UInt8.toNat_ofNat']
      omega
  split
  · refine ⟨_, _, rfl, fun rest => ?_⟩
    rw [List.cons_append, lossyChar_two ?_ ?_ (hcont _), hself]
    · rfl
    all_goals
      simp only [UInt8.toNat_ofNat']
      omega
  split
  · refine ⟨_, _, rfl, fun rest => ?_⟩
    rw [List.cons_append, List.cons_append, lossyChar_three ?_ ?_ ?_ (hcont _), hself]
    · rfl
    all_goals
      simp only [UInt8.toNat_ofNat', secondByteOk_iff, hcont, true_and]
      omega
  · refine ⟨_, _, rfl, fun rest => ?_⟩
    rw [List.cons_append, List.cons_append, List.cons_append,
      lossyChar_four ?_ ?_ ?_ (hcont _) (hcont _), hself]
    · rfl
    all_goals
      simp only [UInt8.toNat_ofNat', secondByteOk_iff, hcont, true_and]
      omega

theorem lossyFrom_skip (tail rest : List UInt8) :
    lossyFrom tail.length (tail ++ rest) = lossyFrom 0 rest := by
  induction tail with
  | nil => rfl
  | cons b tail ih => exact ih

/-- A text is decoded from its bytes as it was. -/
theorem fromUtf8Lossy_asBytes (s : Str) : fromUtf8Lossy (asBytes s) = s := by
  induction s with
  | nil => rfl
  | cons c s ih =>
      obtain ⟨first, tail, hbytes, hchar⟩ := lossyChar_utf8EncodeChar c
      rw [asBytes_cons, hbytes, fromUtf8Lossy, List.cons_append, lossyFrom, hchar,
        lossyFrom_skip]
      exact congrArg (c :: ·) ih

/-! ## ASCII letters -/

/-- `str::to_ascii_lowercase`. -/
def toAsciiLowercase (s : Str) : Str := s.map Char.toLower

/-- `str::eq_ignore_ascii_case`. -/
def eqIgnoreAsciiCase (s t : Str) : Bool := toAsciiLowercase s = toAsciiLowercase t

end Lib
