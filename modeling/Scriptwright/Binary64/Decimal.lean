import Scriptwright.Binary64

/-!
# The shortest decimal of a double

A finite double is written with the fewest digits that read back as the same
double. The multiples of a power of ten form a grid. The search starts with a
grid coarser than the number and refines it by a factor of ten, until one of the
number's two neighbours on the grid reads back. Of two such neighbours the
nearer is taken, and of two equally near ones the larger.

On the grid of step `10 ^ t / 10 ^ 1074` every finite double is the quotient of
two natural numbers, and for `t = 0` it is a grid point itself. So the search
ends, and no rounding is involved in it.
-/

namespace Scriptwright.Binary64

/-- The value whose unsigned bits are `b`, counted in units of `10 ^ -1074`. -/
def units (b : Nat) : Nat :=
  let u := b / Nat.pow 2 52 - 1
  (b - u * Nat.pow 2 52) * Nat.pow 2 u * Nat.pow 5 1074

/-- Whether `c` steps of the grid `t` read back as the double with bits `b`. -/
def readsBack (b t c : Nat) : Bool := nearestBits (c * Nat.pow 10 t) (Nat.pow 10 1074) == b

/-- An accepted one of `below` and the number after it. Where both are accepted the
flag decides. -/
def nearer? (accepts : Nat → Bool) (below : Nat) (preferBelow : Bool) : Option Nat :=
  match accepts below, accepts (below + 1) with
  | true, true => some (if preferBelow then below else below + 1)
  | true, false => some below
  | false, true => some (below + 1)
  | false, false => none

/-- The neighbour of the double on the grid `t` that reads back, if there is one. -/
def neighbour? (b t : Nat) : Option Nat :=
  let step := Nat.pow 10 t
  nearer? (readsBack b t) (units b / step) (decide (2 * (units b % step) < step))

/-- What is found on the first grid, from `t` down, on which anything is found. -/
def firstFrom (find? : Nat → Option Nat) (finest : Nat) : Nat → Nat × Nat
  | 0 => (0, finest)
  | t + 1 =>
    match find? (t + 1) with
    | some c => (t + 1, c)
    | none => firstFrom find? finest t

/-- The first grid, from `t` down, with a neighbour that reads back. -/
def coarsest (b : Nat) : Nat → Nat × Nat := firstFrom (neighbour? b) (units b)

/-- A grid whose step exceeds the number: `2 ^ 1000 < 10 ^ 302`. -/
def outerGrid (b : Nat) : Nat := (Nat.log2 (units b) + 1) * 302 / 1000 + 1

/-- The decimal digits of `c * 10 ^ t / 10 ^ 1074`, without an exponent. -/
def positional (t c : Nat) : List Char :=
  if 1074 ≤ t then Nat.toDigits 10 (c * Nat.pow 10 (t - 1074))
  else
    let places := 1074 - t
    Nat.toDigits 10 (c / Nat.pow 10 places) ++
      '.' :: (Nat.toDigits 10 (c % Nat.pow 10 places)).leftpad places '0'

/-- The shortest decimal of the finite double with unsigned bits `b`. -/
def shortest (b : Nat) : List Char :=
  if b = 0 then ['0']
  else
    let (t, c) := coarsest b (outerGrid b)
    positional t c

end Scriptwright.Binary64
