import Dataflow.Decimal.Shortest

/-!
# The text of a double

A double is written with the digits that identify it, positionally while its
leading digit stands in a given range of powers of ten and with an exponent
outside that range. A `Style` holds the decisions of one output format; the
library has two, one for values shown in messages and one for interchange
text.
-/

namespace Dataflow.Decimal

/-- The decisions of one format of doubles. -/
structure Style where
  /-- The least power of ten that is written positionally. -/
  lowest : Int
  /-- The power of ten from which on an exponent is written. -/
  limit : Int
  tie : Tie
deriving Repr

def digitChars (n : Nat) : List Char := Nat.toDigits 10 n

/-- The digits of `n` without the zeros at their end. -/
def significant (n : Nat) : List Char :=
  ((digitChars n).reverse.dropWhile (· = '0')).reverse

/-- The text of `ds` with its leading digit at `10 ^ k`, as a positional
decimal with at least one digit on either side of the point. -/
def positional (ds : List Char) (k : Int) : List Char :=
  if k < 0 then
    ['0', '.'] ++ List.replicate (-k - 1).toNat '0' ++ ds
  else
    let whole := k.toNat + 1
    let fraction := ds.drop whole
    ds.take whole ++ List.replicate (whole - ds.length) '0' ++ ['.'] ++
      (if fraction.isEmpty then ['0'] else fraction)

/-- The text of `ds` with its leading digit at `10 ^ k`, as a number with one
digit before the point, if there is a point, and an exponent. -/
def scientific (ds : List Char) (k : Int) : List Char :=
  let point := match ds with
    | d :: e :: rest => d :: '.' :: e :: rest
    | short => short
  point ++ ['e'] ++ (if k < 0 then ['-'] else []) ++ digitChars k.natAbs

def Style.finite (style : Style) (x : Float) : List Char :=
  let sign := if isNegative x then ['-'] else []
  let b := Binary.ofFloat x
  if b.mantissa = 0 then sign ++ ['0', '.', '0']
  else
    let d := b.shortest style.tie
    let ds := significant d.digits
    let k := Int.ofNat (digitChars d.digits).length - 1 + d.exponent
    sign ++ (if style.lowest ≤ k && k < style.limit then positional ds k else scientific ds k)

def Style.text (style : Style) (x : Float) : String :=
  if x.isNaN then "NaN"
  else if x.isInf then (if isNegative x then "-inf" else "inf")
  else String.ofList (style.finite x)

/-- Doubles in messages: positional from `0.0001` up to below `10 ^ 16`, a tie
goes up. -/
def shown : Style := ⟨-4, 16, .up⟩

/-- Doubles in interchange text: positional from `0.00001` up to below
`10 ^ 16`, a tie goes to the even digit. -/
def interchange : Style := ⟨-5, 16, .even⟩

end Dataflow.Decimal
