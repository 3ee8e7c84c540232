import McpTemplate.Lib.Text

/-!
# Digits and hexadecimal text

`char::to_digit` in any radix, the two-digit form of a byte, and reading a
text of such pairs back.
-/

namespace Lib

/-- `char::to_digit`. -/
def toDigit (radix : Nat) (c : Char) : Option Nat :=
  let n := c.toNat
  let digit :=
    if 48 ≤ n ∧ n ≤ 57 then some (n - 48)
    else if 97 ≤ n ∧ n ≤ 122 then some (n - 87)
    else if 65 ≤ n ∧ n ≤ 90 then some (n - 55)
    else none
  digit.filter fun d => d < radix

theorem toDigit_lt {radix d : Nat} {c : Char} (h : toDigit radix c = some d) :
    d < radix := by
  obtain ⟨-, hd⟩ := Option.filter_eq_some_iff.1 h
  simpa using hd

/-- `{byte:02x}`. -/
def hexByte (b : UInt8) : Str :=
  [Nat.digitChar (b.toNat / 16), Nat.digitChar (b.toNat % 16)]

def hex (bytes : List UInt8) : Str := bytes.flatMap hexByte

def unhex : Str → Option (List UInt8)
  | [] => some []
  | [_] => none
  | a :: b :: s =>
      match toDigit 16 a, toDigit 16 b with
      | some hi, some lo => (unhex s).map (UInt8.ofNat (16 * hi + lo) :: ·)
      | _, _ => none

def IsLowerHex (c : Char) : Prop :=
  (toDigit 16 c).isSome ∧ c.isUpper = false

theorem toDigit_digitChar : ∀ d : Fin 16, toDigit 16 (Nat.digitChar d) = some d.val := by
  decide

theorem isLowerHex_digitChar : ∀ d : Fin 16,
    (toDigit 16 (Nat.digitChar d)).isSome ∧ (Nat.digitChar d).isUpper = false := by
  decide

theorem length_hex (bytes : List UInt8) : (hex bytes).length = 2 * bytes.length := by
  induction bytes with
  | nil => rfl
  | cons b bytes ih =>
      rw [hex, List.flatMap_cons, List.length_append, ← hex, ih]
      simp only [hexByte, List.length_cons, List.length_nil]
      omega

theorem isLowerHex_of_mem_hex {bytes : List UInt8} {c : Char}
    (h : c ∈ hex bytes) : IsLowerHex c := by
  obtain ⟨b, -, hc⟩ := List.mem_flatMap.1 h
  have hb := b.toNat_lt
  rcases List.mem_cons.1 hc with rfl | hc
  · exact isLowerHex_digitChar ⟨b.toNat / 16, by omega⟩
  · rw [List.mem_singleton.1 hc]
    exact isLowerHex_digitChar ⟨b.toNat % 16, by omega⟩

theorem unhex_hex (bytes : List UInt8) : unhex (hex bytes) = some bytes := by
  induction bytes with
  | nil => rfl
  | cons b bytes ih =>
      have hb := b.toNat_lt
      have hhi := toDigit_digitChar ⟨b.toNat / 16, by omega⟩
      have hlo := toDigit_digitChar ⟨b.toNat % 16, by omega⟩
      rw [hex, List.flatMap_cons, ← hex, hexByte, List.cons_append,
        List.cons_append, List.nil_append, unhex, hhi, hlo]
      have hsum : 16 * (b.toNat / 16) + b.toNat % 16 = b.toNat := by omega
      simp only [ih, Option.map_some, hsum, UInt8.ofNat_toNat]

end Lib
