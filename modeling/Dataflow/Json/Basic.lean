import Dataflow.Decimal.Reading

/-!
# JSON values

JSON text as a tree, close enough to the text that every question about it can
still be asked: a number keeps its digits, an object keeps its members in order
with repetitions, and a string whose escapes name half of a surrogate pair is
kept as a string without text. The questions a decoder asks are answered here:
the text, the truth value, the number in a range, the members of a record.

A record is read by a fixed list of field names, from an object (in any order,
other members ignored, none of the listed twice) or from an array (in the
listed order).
-/

namespace Dataflow

/-- A number as it is spelled. -/
structure Numeral where
  negative : Bool
  whole : List Char
  fraction : Option (List Char)
  /-- Whether the exponent is negative, and its digits. -/
  exponent : Option (Bool × List Char)
deriving Repr, DecidableEq

/-- The tree of a JSON text. A string or a member name is `none` when its
escapes name half of a surrogate pair, so that no text corresponds to it. -/
inductive Json
  | null
  | bool (b : Bool)
  | number (n : Numeral)
  | string (s : Option String)
  | array (items : List Json)
  | object (members : List (Option String × Json))
deriving Repr

namespace Numeral

def ofNat (n : Nat) : Numeral := ⟨false, Decimal.digitChars n, none, none⟩

def ofInt (i : Int) : Numeral := ⟨i < 0, Decimal.digitChars i.natAbs, none, none⟩

/-- The integer a numeral spells, when it has neither fraction nor exponent.
`-0` is no integer. -/
def int? (n : Numeral) : Option Int :=
  if n.fraction.isSome || n.exponent.isSome then none
  else
    let v := Decimal.digitsValue n.whole
    if n.negative then (if v = 0 then none else some (-Int.ofNat v)) else some v

/-- The double a numeral gives in interchange text. -/
def float? (n : Numeral) : Option Float :=
  let e : Int := match n.exponent with
    | none => 0
    | some (down, ds) =>
      if down then -Int.ofNat (Decimal.digitsValue ds) else Decimal.digitsValue ds
  (Decimal.scaled n.whole (n.fraction.getD []) e).map fun x => if n.negative then -x else x

end Numeral

namespace Json

def ofString (s : String) : Json := .string (some s)

def ofNat (n : Nat) : Json := .number (.ofNat n)

def ofInt (i : Int) : Json := .number (.ofInt i)

/-- An object with the given member names and values. -/
def record (members : List (String × Json)) : Json :=
  .object (members.map fun m => (some m.1, m.2))

/-- A choice with contents: an object with the choice as its only member. -/
def choice (tag : String) (body : Json) : Json := .object [(some tag, body)]

def text? : Json → Option String
  | .string s => s
  | _ => none

def bool? : Json → Option Bool
  | .bool b => some b
  | _ => none

/-- An integer from `lo` to `hi`. -/
def intIn? (lo hi : Int) : Json → Option Int
  | .number n => n.int?.filter fun i => lo ≤ i && i ≤ hi
  | _ => none

/-- A natural number below `2 ^ 64`. -/
def word? (j : Json) : Option Nat :=
  (j.intIn? 0 (UInt64.size - 1)).map Int.toNat

def float? : Json → Option Float
  | .number n => n.float?
  | _ => none

def items? : Json → Option (List Json)
  | .array items => some items
  | _ => none

/-- The values of the members called `name`. -/
def valuesOf (name : String) (members : List (Option String × Json)) : List Json :=
  (members.filter fun m => m.1 = some name).map Prod.snd

/-- The value of each listed field of a record, `none` for a field that an
object does not have. -/
def fields? (names : List String) : Json → Option (List (Option Json))
  | .array items => if items.length = names.length then some (items.map some) else none
  | .object members =>
    if members.any fun m => m.1.isNone then none
    else names.mapM fun name =>
      match valuesOf name members with
      | [] => some none
      | [v] => some (some v)
      | _ => none
  | _ => none

/-- The choice without contents that `j` spells: its name alone, or the name
with `null` as contents. The latter opens an object, so it needs room. -/
def bareTag? (room : Nat) : Json → Option String
  | .string s => s
  | .object [(tag, .null)] => if room = 0 then none else tag
  | _ => none

/-- How deeply nested the objects and arrays of a decoded value may be. Members
that are ignored do not count. -/
def depthLimit : Nat := 127

end Json

end Dataflow
