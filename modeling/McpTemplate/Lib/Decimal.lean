import McpTemplate.Lib.Hex

/-!
# Unsigned integers read from text

What `str::parse` makes of a text for an unsigned integer type: an optional
plus sign, then decimal digits, refused where the value does not fit the type.
`parseUnsigned_eq_some` says which texts are taken and as what.
-/

namespace Lib

/-- The loop over the digits, for a type whose values are below `bound`. -/
def parseDigits (bound : Nat) : (result : Nat) → Str → Option Nat
  | result, [] => some result
  | result, c :: digits =>
      match toDigit 10 c with
      | none => none
      | some digit =>
          if result * 10 + digit < bound then
            parseDigits bound (result * 10 + digit) digits
          else none

/-- `str::parse`. A sign alone is refused. -/
def parseUnsigned (bound : Nat) : Str → Option Nat
  | [] | ['+'] | ['-'] => none
  | '+' :: digits => parseDigits bound 0 digits
  | digits => parseDigits bound 0 digits

/-- `saturating_mul` of a type whose values are below `bound`. -/
def saturatingMul (bound a b : Nat) : Nat := min (a * b) (bound - 1)

theorem toDigit_ten {c : Char} {d : Nat} :
    toDigit 10 c = some d ↔ c.isDigit = true ∧ d = c.toNat - '0'.toNat := by
  have hzero : '0'.toNat = 48 := rfl
  have hdigit : c.isDigit = true ↔ 48 ≤ c.toNat ∧ c.toNat ≤ 57 := by
    simp only [Char.isDigit, Bool.and_eq_true, decide_eq_true_eq, UInt32.le_iff_toNat_le]
    exact Iff.rfl
  rw [hdigit, hzero, toDigit, Option.filter_eq_some_iff]
  constructor
  · intro ⟨hvalue, hlt⟩
    have hlt' : d < 10 := by simpa using hlt
    split at hvalue
    · next h =>
        have heq := Option.some.inj hvalue
        exact ⟨h, heq.symm⟩
    · split at hvalue
      · have heq := Option.some.inj hvalue
        omega
      · split at hvalue
        · have heq := Option.some.inj hvalue
          omega
        · cases hvalue
  · intro ⟨h, hd⟩
    rw [if_pos h]
    refine ⟨by rw [hd], ?_⟩
    simp only [decide_eq_true_eq]
    omega

theorem le_ofDigitChars (digits : Str) (n : Nat) : n ≤ Nat.ofDigitChars 10 digits n := by
  rw [Nat.ofDigitChars_eq_ofDigitChars_zero]
  have hpow : 1 ≤ 10 ^ digits.length := Nat.one_le_pow _ _ (by omega)
  calc n = 1 * n := (Nat.one_mul n).symm
    _ ≤ 10 ^ digits.length * n := Nat.mul_le_mul_right n hpow
    _ ≤ _ := Nat.le_add_right _ _

/-- The digits of a number that fits. -/
theorem parseDigits_eq_some {bound : Nat} {digits : Str} {result n : Nat}
    (hresult : result < bound) :
    parseDigits bound result digits = some n ↔
      (∀ c ∈ digits, c.isDigit = true) ∧ Nat.ofDigitChars 10 digits result = n ∧
        n < bound := by
  induction digits generalizing result with
  | nil =>
      simp only [parseDigits, Option.some.injEq, Nat.ofDigitChars_nil]
      constructor
      · intro h
        exact ⟨List.forall_mem_nil _, h, h ▸ hresult⟩
      · intro h
        exact h.2.1
  | cons c digits ih =>
      rw [parseDigits, Nat.ofDigitChars_cons, List.forall_mem_cons]
      cases hc : toDigit 10 c with
      | none =>
          have hno : ¬ c.isDigit = true := by
            intro hd
            rw [toDigit_ten.2 ⟨hd, rfl⟩] at hc
            cases hc
          simp [hno]
      | some d =>
          obtain ⟨hd, hval⟩ := toDigit_ten.1 hc
          have hnext : 10 * result + (c.toNat - '0'.toNat) = result * 10 + d := by
            rw [hval, Nat.mul_comm]
          rw [hnext]
          by_cases hfit : result * 10 + d < bound
          · simp only [if_pos hfit, ih hfit, hd, true_and]
          · -- a value that has grown out of the type stays out of it
            have hge := le_ofDigitChars digits (result * 10 + d)
            simp only [if_neg hfit, reduceCtorEq, false_iff]
            omega

theorem parseUnsigned_plus (bound : Nat) {digits : Str} (h : digits ≠ []) :
    parseUnsigned bound ('+' :: digits) = parseDigits bound 0 digits := by
  cases digits with
  | nil => exact absurd rfl h
  | cons c digits => rfl

theorem parseUnsigned_digit (bound : Nat) {c : Char} (h : c.isDigit = true)
    (digits : Str) :
    parseUnsigned bound (c :: digits) = parseDigits bound 0 (c :: digits) := by
  have hplus : c ≠ '+' := by
    intro hc
    rw [hc] at h
    exact absurd h (by decide)
  have hminus : c ≠ '-' := by
    intro hc
    rw [hc] at h
    exact absurd h (by decide)
  unfold parseUnsigned
  split <;> simp_all

/-- The texts that are taken: digits, or a plus sign and digits, of a value
that fits. -/
theorem parseUnsigned_eq_some {bound : Nat} (hbound : 0 < bound) {s : Str} {n : Nat} :
    parseUnsigned bound s = some n ↔
      ∃ digits, digits ≠ [] ∧ (∀ c ∈ digits, c.isDigit = true) ∧
        (s = digits ∨ s = '+' :: digits) ∧ Nat.ofDigitChars 10 digits 0 = n ∧
        n < bound := by
  constructor
  · intro h
    unfold parseUnsigned at h
    split at h
    · cases h
    · cases h
    · cases h
    · next s' digits hne =>
        obtain ⟨hall, hval, hlt⟩ := (parseDigits_eq_some hbound).1 h
        exact ⟨digits, fun hnil => hne hnil, hall, .inr rfl, hval, hlt⟩
    · next hne _ _ _ =>
        obtain ⟨hall, hval, hlt⟩ := (parseDigits_eq_some hbound).1 h
        exact ⟨s, fun hnil => hne hnil, hall, .inl rfl, hval, hlt⟩
  · intro ⟨digits, hne, hall, hs, hval, hlt⟩
    have hparse := (parseDigits_eq_some hbound).2 ⟨hall, hval, hlt⟩
    rcases hs with rfl | rfl
    · cases s with
      | nil => exact absurd rfl hne
      | cons c cs =>
          rw [parseUnsigned_digit bound (hall c List.mem_cons_self)]
          exact hparse
    · rw [parseUnsigned_plus bound hne]
      exact hparse

/-- A number written out is read back, if it fits. -/
theorem parseUnsigned_toDigits {bound n : Nat} (h : n < bound) :
    parseUnsigned bound (Nat.toDigits 10 n) = some n := by
  refine (parseUnsigned_eq_some (by omega)).2 ⟨Nat.toDigits 10 n, Nat.toDigits_ne_nil,
    fun c hc => Nat.isDigit_of_mem_toDigits (by omega) (by omega) hc, .inl rfl,
    Nat.ofDigitChars_ten_toDigits, h⟩

end Lib
