/-!
# Doubles as scaled naturals

A finite double is a natural number times a power of two, with a sign. The
decomposition is read off the bit pattern, and everything exact that the
library says about doubles (their shortest decimal, the remainder of a
division) is computed on it with naturals.
-/

namespace Dataflow.Decimal

/-- The magnitude `mantissa * 2 ^ exponent` of a finite double. -/
structure Binary where
  mantissa : Nat
  exponent : Int
  /-- The double below is only half as far away as the double above: the
  mantissa is the least one of its binade. -/
  narrowBelow : Bool
deriving Repr, DecidableEq

/-- Whether the sign bit is set; true of `-0.0`. -/
def isNegative (x : Float) : Bool := x.toBits >>> 63 = 1

/-- The leading bit of a mantissa, which the bit pattern does not store:
`2 ^ 52`. -/
def Binary.hidden : Nat := 0x10000000000000

def Binary.ofFloat (x : Float) : Binary :=
  let bits := x.toBits.toNat
  let fraction := bits % hidden
  let biased := bits / hidden % 2048
  if biased = 0 then ⟨fraction, -1074, false⟩
  else ⟨fraction + hidden, Int.ofNat biased - 1075, fraction = 0 && biased ≠ 1⟩

/-- The double `± m * 2 ^ e`, for a magnitude that a double can hold. Trailing
zero bits of `m` move to the exponent first, so that `m` fits a word. -/
def compose (negative : Bool) (m : Nat) (e : Int) : Float :=
  let shift := m.log2 - 52
  let magnitude := ((m >>> shift).toUInt64.toFloat).scaleB (e + shift)
  if negative then -magnitude else magnitude

/-- The remainder of the division of `x` by `y` truncated toward zero, which
is exact and has the sign of `x`. It is not a number when `x` is infinite or
`y` is zero. -/
def remainder (x y : Float) : Float :=
  if x.isNaN || y.isNaN || x.isInf || y == 0 then 0.0 / 0.0
  else if y.isInf then x
  else
    let a := Binary.ofFloat x
    let b := Binary.ofFloat y
    let e := min a.exponent b.exponent
    let m := a.mantissa * Nat.pow 2 (a.exponent - e).toNat
    let n := b.mantissa * Nat.pow 2 (b.exponent - e).toNat
    compose (isNegative x) (m % n) e

end Dataflow.Decimal
