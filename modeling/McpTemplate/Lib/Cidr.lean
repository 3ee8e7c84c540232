import Mathlib.Data.Nat.Bitwise

/-!
# Blocks of addresses

An address of width `w` is a `BitVec w`, and a block is a network with the
number of leading bits that count. An address is in the block when those bits
are the network's; a mask that keeps the leading bits is how code asks that.
-/

namespace Lib

variable {w : Nat}

/-- `net/len`. -/
structure Block (w : Nat) where
  net : BitVec w
  len : Nat

namespace Block

/-- The size of a block. -/
def size (b : Block w) : Nat := 2 ^ (w - b.len)

instance : Membership (BitVec w) (Block w) where
  mem b a := a.toNat / b.size = b.net.toNat / b.size

instance (b : Block w) (a : BitVec w) : Decidable (a ∈ b) :=
  inferInstanceAs (Decidable (_ = _))

theorem mem_def {b : Block w} {a : BitVec w} :
    a ∈ b ↔ a.toNat / b.size = b.net.toNat / b.size := Iff.rfl

/-- A block of full length is one address. -/
theorem mem_single {net a : BitVec w} : a ∈ (⟨net, w⟩ : Block w) ↔ a = net := by
  rw [mem_def, size, Nat.sub_self, Nat.pow_zero, Nat.div_one, Nat.div_one,
    BitVec.toNat_inj]

end Block

/-- A mask of the bits from `k` on clears the bits below. -/
theorem and_high {n k : Nat} (hn : n < 2 ^ w) (hk : k ≤ w) :
    n &&& (2 ^ w - 2 ^ k) = n / 2 ^ k * 2 ^ k := by
  have hmask : 2 ^ w - 2 ^ k = (2 ^ (w - k) - 1) * 2 ^ k := by
    rw [Nat.sub_mul, ← Nat.pow_add, Nat.sub_add_cancel hk, Nat.one_mul]
  refine Nat.eq_of_testBit_eq fun i => ?_
  rw [Nat.testBit_and, hmask, ← Nat.shiftLeft_eq, ← Nat.shiftLeft_eq,
    Nat.testBit_shiftLeft, Nat.testBit_shiftLeft, Nat.testBit_two_pow_sub_one,
    Nat.testBit_div_two_pow]
  by_cases hki : k ≤ i
  · have hsub : i - k + k = i := Nat.sub_add_cancel hki
    by_cases hiw : i < w
    · have : i - k < w - k := by omega
      simp [hki, this, hsub]
    · have hbig : n.testBit i = false :=
        Nat.testBit_lt_two_pow (Nat.lt_of_lt_of_le hn
          (Nat.pow_le_pow_right (by omega) (by omega)))
      simp [hbig, hsub]
  · simp [hki]

end Lib
