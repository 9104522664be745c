import Mathlib.Algebra.Order.Ring.Int
import Mathlib.Tactic.Common

/-!
# `Python.Double` — the floats of `timestamp() * 1000`

Python computes event times in milliseconds through binary64: an exact quotient is rounded, the product
with 1000 is rounded again, and `int()` truncates. The values met here are far from overflow and from the
subnormal range, so a double is a 53-bit integer times a power of two.
-/

namespace Py

/-- `mant * 2 ^ exp`. -/
structure Double where
  mant : Int
  exp : Int
  deriving DecidableEq

/-- `n / d` rounded to an integer, ties to even. -/
def roundEven (n d : Nat) : Nat :=
  let q := n / d
  let r := n % d
  if 2 * r < d ∨ (2 * r = d ∧ q % 2 = 0) then q else q + 1

/-- `n / d / 2 ^ e` as a numerator and a denominator. -/
def scaled (n d : Nat) (e : Int) : Nat × Nat := (n * 2 ^ (-e).toNat, d * 2 ^ e.toNat)

/-- The exponent of the last of the 53 bits of `n / d`. -/
def ulp (n d : Nat) : Int :=
  let e : Int := (n.log2 : Int) - d.log2 - 52
  let (a, b) := scaled n d e
  if a < b * 2 ^ 52 then e - 1 else e

namespace Double

/-- The double nearest to `n / d`. -/
def ofRatio (n : Int) (d : Nat) : Double :=
  if n = 0 then ⟨0, 0⟩
  else
    let e := ulp n.natAbs d
    let (a, b) := scaled n.natAbs d e
    ⟨if n < 0 then -(roundEven a b : Int) else roundEven a b, e⟩

/-- `x * k` for an `int` `k` that a double holds exactly. -/
def mulInt (x : Double) (k : Int) : Double :=
  ofRatio (x.mant * k * 2 ^ x.exp.toNat) (2 ^ (-x.exp).toNat)

/-- `k + x` for an `int` `k` that a double holds exactly. -/
def addInt (k : Int) (x : Double) : Double :=
  ofRatio (k * 2 ^ (-x.exp).toNat + x.mant * 2 ^ x.exp.toNat) (2 ^ (-x.exp).toNat)

/-- `int(x)`. -/
def trunc (x : Double) : Int := (x.mant * 2 ^ x.exp.toNat).tdiv (2 ^ (-x.exp).toNat)

end Double
end Py
