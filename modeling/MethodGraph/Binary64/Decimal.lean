import MethodGraph.Binary64.Basic
/-!
  The shortest decimal that reads back as a given double.

  A positive double `m · 2 ^ q` is what every real number between the midpoints to its neighbours
  rounds to, the midpoints included exactly when `m` is even.  A decimal `c · 10 ^ k` with as few
  digits as possible is taken from that interval: for one digit, two digits and so on, the two
  points of the grid of that many digits next to the double are tried.  Of two points that both lie
  in the interval the nearer is taken, and of two equally near ones the larger.

  Everything is compared exactly: `c · 10 ^ k` against `x · 2 ^ (q - 2)` by clearing denominators,
  where the double itself is `x = 4 * m` and the midpoints are integers too.
-/

namespace MethodGraph.Binary64

/-- A positive decimal `digits · 10 ^ exponent`. -/
structure Decimal where
  digits : Nat
  exponent : Int
  deriving DecidableEq, Repr, Inhabited

/-- The two factors that clear denominators: `c · 10 ^ k ≤ x · 2 ^ p` exactly when `c` times the
    first is at most `x` times the second. -/
def clearing (k p : Int) : Nat × Nat :=
  (Nat.pow 10 k.toNat * Nat.pow 2 (-p).toNat, Nat.pow 2 p.toNat * Nat.pow 10 (-k).toNat)

/-- Four times the lower midpoint of `m · 2 ^ q`, in units of `2 ^ q`: the neighbour below a power
    of two is half as far away. -/
def lowerMidpoint (m : Nat) (q : Int) : Nat :=
  if m = leadingBit ∧ -1074 < q then 4 * m - 1 else 4 * m - 2

/-- Four times the upper midpoint of `m · 2 ^ q`, in units of `2 ^ q`. -/
def upperMidpoint (m : Nat) : Nat := 4 * m + 2

/-- Whether `c · 10 ^ k` rounds to `m · 2 ^ q`. -/
def roundsTo (m : Nat) (q : Int) (c : Nat) (k : Int) : Bool :=
  let (f, g) := clearing k (q - 2)
  if m % 2 = 0 then lowerMidpoint m q * g ≤ c * f && c * f ≤ upperMidpoint m * g
  else lowerMidpoint m q * g < c * f && c * f < upperMidpoint m * g

/-- The number of decimal digits. -/
def digitCount (n : Nat) : Nat := (Nat.toDigits 10 n).length

/-- The exponent of the leading digit of `m · 2 ^ q`: every double has a digit among the four
    hundred places after the point. -/
def leadingExponent (m : Nat) (q : Int) : Int :=
  digitCount (m * Nat.pow 2 q.toNat * Nat.pow 10 400 / Nat.pow 2 (-q).toNat) - 401

/-- The decimal of `n` digits that rounds to `m · 2 ^ q`, if there is one. -/
def decimalOfLength? (m : Nat) (q : Int) (n : Nat) : Option Decimal :=
  let k := leadingExponent m q - n + 1
  let (f, g) := clearing k (q - 2)
  let below := 4 * m * g / f
  match roundsTo m q below k, roundsTo m q (below + 1) k with
  | false, false => none
  | true, false => some ⟨below, k⟩
  | false, true => some ⟨below + 1, k⟩
  | true, true =>
    if 2 * (4 * m * g) < (2 * below + 1) * f then some ⟨below, k⟩ else some ⟨below + 1, k⟩

/-- Drop zeros at the end of the digits, at most `n` of them. -/
def dropZeros : Nat → Decimal → Decimal
  | 0, d => d
  | n + 1, d =>
    if d.digits % 10 = 0 ∧ d.digits ≠ 0 then dropZeros n ⟨d.digits / 10, d.exponent + 1⟩ else d

/-- The shortest decimal that rounds to `m · 2 ^ q`; seventeen digits always do. -/
def shortest (m : Nat) (q : Int) : Decimal :=
  dropZeros 20 (((List.range 17).findSome? fun n => decimalOfLength? m q (n + 1)).getD ⟨0, 0⟩)

end MethodGraph.Binary64
