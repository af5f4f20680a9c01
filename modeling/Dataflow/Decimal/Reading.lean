import Dataflow.Decimal.Notation

/-!
# Reading decimals

From decimal digits to a double, as interchange text is read: `scaled` keeps the
leading digits that fit a 64-bit word and scales them by a power of ten, with one
rounding for the word and one for the scaling, so a long decimal may land on a
neighbour of the nearest double.
-/

namespace Dataflow.Decimal

def digitsValue (ds : List Char) : Nat :=
  ds.foldl (fun n c => 10 * n + (c.toNat - '0'.toNat)) 0

/-- The least number that does not fit a 64-bit word. -/
def wordLimit : Nat := UInt64.size

/-- Takes digits into a word while they fit: the word, and how many digits
were taken. -/
def takeWord : (word : Nat) → List Char → Nat × Nat
  | word, [] => (word, 0)
  | word, c :: cs =>
    let next := 10 * word + (c.toNat - '0'.toNat)
    if wordLimit ≤ next then (word, 0)
    else
      let (w, n) := takeWord next cs
      (w, n + 1)

/-- Scales `x` by `10 ^ e`, dividing in steps of `10 ^ 308` where one division
cannot reach; `none` when the result is beyond every double. The steps stop at
zero, which `fuel` steps reach for every double. -/
def scaleByTen (x : Float) (e : Int) : (fuel : Nat) → Option Float
  | 0 => some 0.0
  | fuel + 1 =>
    if e.natAbs ≤ 308 then
      let power := Float.ofScientific 1 false e.natAbs
      if 0 ≤ e then
        let y := x * power
        if y.isInf then none else some y
      else some (x / power)
    else if x == 0.0 then some x
    else if 0 ≤ e then none
    else scaleByTen (x / Float.ofScientific 1 false 308) (e + 308) fuel

/-- The double that interchange text gives to a number with these digits
before and after the point and this power of ten; `none` when it is beyond
every double. -/
def scaled (whole fraction : List Char) (e : Int) : Option Float :=
  let (word, taken) := takeWord 0 whole
  let (word', taken') := takeWord word fraction
  let dropped := whole.length - taken
  if e.natAbs ≤ Int32.maxValue.toInt.natAbs then
    scaleByTen word'.toUInt64.toFloat (e + dropped - taken') 8
  else if word' = 0 || e < 0 then some 0.0
  else none

end Dataflow.Decimal
