import McpTemplate.Lib.Cidr

/-!
# Internet addresses, as the standard library of the source has them

The two address types with their classification predicates, each of which is
membership in a block or in one of several.
-/

namespace Lib.Net

/-! ## The address types -/

structure Ipv4Addr where
  a : UInt8
  b : UInt8
  c : UInt8
  d : UInt8
  deriving DecidableEq

structure Ipv6Addr where
  segments : Vector UInt16 8
  deriving DecidableEq

inductive IpAddr where
  | v4 (addr : Ipv4Addr)
  | v6 (addr : Ipv6Addr)
  deriving DecidableEq

/-- `u32::from_be_bytes`. -/
def Ipv4Addr.toBits (x : Ipv4Addr) : BitVec 32 :=
  BitVec.ofNat 32 (x.a.toNat * 2 ^ 24 + x.b.toNat * 2 ^ 16 + x.c.toNat * 2 ^ 8 +
    x.d.toNat)

/-- `u128::from_be_bytes`. -/
def Ipv6Addr.toBits (x : Ipv6Addr) : BitVec 128 :=
  BitVec.ofNat 128 (x.segments[0].toNat * 2 ^ 112 + x.segments[1].toNat * 2 ^ 96 +
    x.segments[2].toNat * 2 ^ 80 + x.segments[3].toNat * 2 ^ 64 +
    x.segments[4].toNat * 2 ^ 48 + x.segments[5].toNat * 2 ^ 32 +
    x.segments[6].toNat * 2 ^ 16 + x.segments[7].toNat)

theorem Ipv4Addr.octets_lt (x : Ipv4Addr) :
    x.a.toNat < 2 ^ 8 ∧ x.b.toNat < 2 ^ 8 ∧ x.c.toNat < 2 ^ 8 ∧
      x.d.toNat < 2 ^ 8 :=
  ⟨x.a.toNat_lt, x.b.toNat_lt, x.c.toNat_lt, x.d.toNat_lt⟩

theorem Ipv4Addr.toNat_toBits (x : Ipv4Addr) :
    x.toBits.toNat =
      x.a.toNat * 2 ^ 24 + x.b.toNat * 2 ^ 16 + x.c.toNat * 2 ^ 8 + x.d.toNat := by
  obtain ⟨ha, hb, hc, hd⟩ := x.octets_lt
  rw [toBits, BitVec.toNat_ofNat]
  omega

/-- The first segment is the leading 16 bits. -/
theorem Ipv6Addr.toBits_div (x : Ipv6Addr) :
    x.toBits.toNat / 2 ^ 112 = x.segments[0].toNat := by
  have h0 := x.segments[0].toNat_lt
  have h1 := x.segments[1].toNat_lt
  have h2 := x.segments[2].toNat_lt
  have h3 := x.segments[3].toNat_lt
  have h4 := x.segments[4].toNat_lt
  have h5 := x.segments[5].toNat_lt
  have h6 := x.segments[6].toNat_lt
  have h7 := x.segments[7].toNat_lt
  rw [toBits, BitVec.toNat_ofNat]
  omega

/-! ## The predicates -/

namespace Ipv4Addr

def isLoopback (x : Ipv4Addr) : Bool := x.a == 127

def isPrivate (x : Ipv4Addr) : Bool :=
  x.a == 10 || (x.a == 172 && 16 ≤ x.b && x.b ≤ 31) || (x.a == 192 && x.b == 168)

def isLinkLocal (x : Ipv4Addr) : Bool := x.a == 169 && x.b == 254

def isUnspecified (x : Ipv4Addr) : Bool := x.toBits == 0

def isBroadcast (x : Ipv4Addr) : Bool := x.toBits == 0xffffffff

end Ipv4Addr

namespace Ipv6Addr

def isLoopback (x : Ipv6Addr) : Bool := x.toBits == 1

def isUnspecified (x : Ipv6Addr) : Bool := x.toBits == 0

def isUniqueLocal (x : Ipv6Addr) : Bool := x.segments[0] &&& 0xfe00 == 0xfc00

def isUnicastLinkLocal (x : Ipv6Addr) : Bool :=
  x.segments[0] &&& 0xffc0 == 0xfe80

end Ipv6Addr

theorem Ipv4Addr.isLoopback_iff {x : Ipv4Addr} :
    x.isLoopback = true ↔ x.toBits ∈ (⟨0x7f000000, 8⟩ : Block 32) := by
  obtain ⟨ha, hb, hc, hd⟩ := x.octets_lt
  rw [Block.mem_def, x.toNat_toBits, isLoopback, beq_iff_eq, ← UInt8.toNat_inj]
  simp only [Block.size, UInt8.reduceToNat, BitVec.reduceToNat]
  omega

theorem Ipv4Addr.isPrivate_iff {x : Ipv4Addr} :
    x.isPrivate = true ↔ x.toBits ∈ (⟨0x0a000000, 8⟩ : Block 32) ∨
      x.toBits ∈ (⟨0xac100000, 12⟩ : Block 32) ∨
      x.toBits ∈ (⟨0xc0a80000, 16⟩ : Block 32) := by
  obtain ⟨ha, hb, hc, hd⟩ := x.octets_lt
  simp only [Block.mem_def, x.toNat_toBits, isPrivate, Bool.or_eq_true,
    Bool.and_eq_true, beq_iff_eq, decide_eq_true_eq, ← UInt8.toNat_inj,
    UInt8.le_iff_toNat_le, Block.size, UInt8.reduceToNat, BitVec.reduceToNat]
  omega

theorem Ipv4Addr.isLinkLocal_iff {x : Ipv4Addr} :
    x.isLinkLocal = true ↔ x.toBits ∈ (⟨0xa9fe0000, 16⟩ : Block 32) := by
  obtain ⟨ha, hb, hc, hd⟩ := x.octets_lt
  simp only [Block.mem_def, x.toNat_toBits, isLinkLocal, Bool.and_eq_true,
    beq_iff_eq, ← UInt8.toNat_inj, Block.size, UInt8.reduceToNat,
    BitVec.reduceToNat]
  omega

/-- A mask of the leading bits of the first segment is a block. -/
theorem Ipv6Addr.mem_first (x : Ipv6Addr) (len net : Nat) (hlen : len ≤ 16)
    (hnet : net < 2 ^ 16) (haligned : 2 ^ (16 - len) ∣ net) :
    x.toBits ∈ (⟨BitVec.ofNat 128 (net * 2 ^ 112), len⟩ : Block 128) ↔
      x.segments[0].toNat &&& (2 ^ 16 - 2 ^ (16 - len)) = net := by
  obtain ⟨k, rfl⟩ := haligned
  have hseg := x.segments[0].toNat_lt
  have hsplit : 2 ^ (128 - len) = 2 ^ 112 * 2 ^ (16 - len) := by
    rw [← Nat.pow_add]
    congr 1
    omega
  have hbig : 2 ^ (16 - len) * k * 2 ^ 112 < 2 ^ 128 := by omega
  have hpos := Nat.two_pow_pos (16 - len)
  rw [Block.mem_def, Block.size, BitVec.toNat_ofNat, Nat.mod_eq_of_lt hbig,
    and_high hseg (Nat.sub_le _ _), hsplit, ← Nat.div_div_eq_div_mul,
    ← Nat.div_div_eq_div_mul, x.toBits_div,
    Nat.mul_div_cancel _ (Nat.two_pow_pos 112), Nat.mul_div_cancel_left _ hpos,
    Nat.mul_comm (2 ^ (16 - len)) k]
  exact (Nat.mul_left_inj hpos.ne').symm

theorem Ipv6Addr.isUniqueLocal_iff {x : Ipv6Addr} :
    x.isUniqueLocal = true ↔
      x.toBits ∈ (⟨0xfc000000000000000000000000000000, 7⟩ : Block 128) := by
  have hfirst := x.mem_first 7 0xfc00 (by decide) (by decide) (by decide)
  rw [isUniqueLocal, beq_iff_eq, ← UInt16.toNat_inj, UInt16.toNat_and]
  exact hfirst.symm

theorem Ipv6Addr.isUnicastLinkLocal_iff {x : Ipv6Addr} :
    x.isUnicastLinkLocal = true ↔
      x.toBits ∈ (⟨0xfe800000000000000000000000000000, 10⟩ : Block 128) := by
  have hfirst := x.mem_first 10 0xfe80 (by decide) (by decide) (by decide)
  rw [isUnicastLinkLocal, beq_iff_eq, ← UInt16.toNat_inj, UInt16.toNat_and]
  exact hfirst.symm

end Lib.Net
