import Dataflow.Decimal.Binary

/-!
# Shortest decimals

The decimal with the fewest digits that identifies a double. The reals that
round to a double form an interval around it, from halfway to the double
below to halfway to the double above, ends included exactly when the mantissa
is even. For one digit, two digits, and so on, the two neighbours of the value
on the decimal grid of that many digits are tested against the interval in
exact arithmetic; the first grid with a hit wins, and of two hits the nearer.
-/

namespace Dataflow.Decimal

/-- The decimal `digits * 10 ^ exponent`. -/
structure Digits where
  digits : Nat
  exponent : Int
deriving Repr, DecidableEq

/-- Where a value exactly between two equally short decimals goes. -/
inductive Tie
  | up
  | even
deriving Repr, DecidableEq

namespace Binary

/-- Numerators of the lower end, the value and the upper end of the interval
of reals that round to `b`, over `scaleDen b`. -/
def ends (b : Binary) : Nat × Nat × Nat :=
  let unit := Nat.pow 2 (b.exponent - 2).toNat
  let m := 4 * b.mantissa
  ((if b.narrowBelow then m - 1 else m - 2) * unit, m * unit, (m + 2) * unit)

/-- The common denominator of `ends`. -/
def scaleDen (b : Binary) : Nat := Nat.pow 2 (2 - b.exponent).toNat

/-- Whether `num / den` rounds to `b`, the ends counting when the mantissa is
even. -/
def readsBack (b : Binary) (num den : Nat) : Bool :=
  let (lo, _, hi) := b.ends
  let point := num * b.scaleDen
  if b.mantissa % 2 = 0 then lo * den ≤ point && point ≤ hi * den
  else lo * den < point && point < hi * den

/-- The number `k` with `10 ^ k ≤ b < 10 ^ (k + 1)`, for a value that is not
zero. No double is below `10 ^ -330`, so the scaled value has a digit. -/
def decade (b : Binary) : Int :=
  let (_, v, _) := b.ends
  Int.ofNat (Nat.toDigits 10 (v * Nat.pow 10 330 / b.scaleDen)).length - 331

/-- The nearer of the two neighbours of the value on the grid `10 ^ e` that
round to it, if any does. -/
def onGrid (b : Binary) (tie : Tie) (e : Int) : Option Nat :=
  let up := Nat.pow 10 e.toNat
  let down := Nat.pow 10 (-e).toNat
  let (_, v, _) := b.ends
  let den := up * b.scaleDen
  let c := v * down / den
  let fits := fun n => b.readsBack (n * up) down
  if fits c && fits (c + 1) then
    let twice := 2 * (v * down)
    let middle := (2 * c + 1) * den
    if twice < middle then some c
    else if middle < twice then some (c + 1)
    else match tie with
      | .up => some (c + 1)
      | .even => some (if c % 2 = 0 then c else c + 1)
  else if fits c then some c
  else if fits (c + 1) then some (c + 1)
  else none

/-- The shortest decimal of a value that is not zero. Seventeen digits always
identify a double, so the last grid is never searched in vain. -/
def shortest (b : Binary) (tie : Tie) : Digits :=
  let k := b.decade
  ((List.range 17).findSome? fun (n : Nat) =>
    (b.onGrid tie (k - n)).map fun c => ⟨c, k - n⟩).getD ⟨b.mantissa, b.exponent⟩

end Binary

end Dataflow.Decimal
