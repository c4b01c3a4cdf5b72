/-!
# Double-precision numbers

A number literal denotes the double nearest to the decimal that is written, and
of two equally near doubles the one whose last bit is zero. A double is held by
its bits, so that every value, each NaN included, is told apart from all others.

Doubles without their sign are ordered as their bits are. Writing the bits as
`u * 2^52 + m`, where `m < 2^53` and `2^52 ≤ m` unless `u = 0`, the value is
`m * 2^u / 2^1074`. One formula therefore serves normal and subnormal numbers,
and a carry out of `m` while rounding moves to the next `u` by itself.
-/

namespace Scriptwright

/-- A double, held by the bits of its interchange format. -/
structure Binary64 where
  bits : UInt64
  deriving DecidableEq, Repr, Inhabited

/-- The integer nearest to `n / d`; a half goes to the even neighbour. -/
def roundHalfEven (n d : Nat) : Nat :=
  let q := n / d
  let r := n % d
  if 2 * r < d then q
  else if d < 2 * r then q + 1
  else q + q % 2

namespace Binary64

/-- The bits of positive infinity. -/
def infinityBits : Nat := 2047 * Nat.pow 2 52

/-- The bits of the double nearest to the quotient `n / d`. From the midpoint
after the largest finite double on, that is infinity. -/
def nearestBits (n d : Nat) : Nat :=
  let scaled := n * Nat.pow 2 1074
  let u := Nat.log2 (scaled / d) - 52
  min infinityBits (u * Nat.pow 2 52 + roundHalfEven scaled (d * Nat.pow 2 u))

theorem nearestBits_le (n d : Nat) : nearestBits n d ≤ infinityBits := Nat.min_le_left _ _

/-- The double nearest to `n / 10 ^ places`. -/
def ofDecimal (n places : Nat) : Binary64 := ⟨(nearestBits n (Nat.pow 10 places)).toUInt64⟩

theorem bits_ofDecimal (n places : Nat) :
    (ofDecimal n places).bits.toNat = nearestBits n (Nat.pow 10 places) := by
  have hle := nearestBits_le n (Nat.pow 10 places)
  have hbound : infinityBits < 2 ^ 64 := by decide
  exact UInt64.toNat_ofNat_of_lt' (Nat.lt_of_le_of_lt hle hbound)

/-- The bits without the sign. -/
def magnitude (x : Binary64) : Nat := x.bits.toNat % Nat.pow 2 63

def isNegative (x : Binary64) : Bool := decide (Nat.pow 2 63 ≤ x.bits.toNat)

def isInfinite (x : Binary64) : Bool := x.magnitude == infinityBits

def isNaN (x : Binary64) : Bool := decide (infinityBits < x.magnitude)

end Binary64

end Scriptwright
