/-!
# Field types and schemas

A schema is the ordered list of fields that an operator's rows have. Fields are
addressed by position; names may repeat, for instance after a relation is
joined with itself. What a field *is* rather than what it is called is its
identity (`Uid`): it stays the same while a column is forwarded unchanged from
one operator to the next, under whatever name.

Types nest: a tuple or a bag has a schema of its own, and a map has one type
for all its values and an open set of keys.

Equality of types is decidable (`DataType.same_iff`), which is what makes the
consistency of a plan checkable.
-/

namespace Dataflow

/-- Identity of a logical column. -/
structure Uid where
  number : Nat
deriving Repr, DecidableEq, Hashable, Inhabited

/-- Types without inner structure. -/
inductive Scalar
  | null
  | boolean
  | int
  | long
  | float
  | double
  | chararray
  | bytearray
deriving Repr, DecidableEq, Inhabited

mutual

inductive DataType
  | scalar (s : Scalar)
  /-- A map from texts to values of one type. -/
  | map (value : DataType)
  | tuple (inner : List Field)
  /-- A collection of tuples with one inner schema. -/
  | bag (inner : List Field)

/-- A named and typed column with its identity. -/
structure Field where
  name : String
  type : DataType
  uid : Uid

end

/-- The fields of a row, in order. -/
abbrev Schema := List Field

instance : Inhabited DataType := ⟨.scalar .null⟩
instance : Inhabited Field := ⟨"", default, default⟩

/-! ## Equality -/

mutual

def DataType.same : DataType → DataType → Bool
  | .scalar a, .scalar b => a == b
  | .map a, .map b => a.same b
  | .tuple a, .tuple b => Schema.same a b
  | .bag a, .bag b => Schema.same a b
  | _, _ => false

def Field.same : Field → Field → Bool
  | ⟨n, t, u⟩, ⟨n', t', u'⟩ => n == n' && t.same t' && u == u'

def Schema.same : List Field → List Field → Bool
  | [], [] => true
  | f :: fs, g :: gs => f.same g && Schema.same fs gs
  | _, _ => false

end

mutual

theorem DataType.same_iff : ∀ a b : DataType, a.same b = true ↔ a = b
  | .scalar a, .scalar b => by simp [DataType.same]
  | .map a, .map b => by simp [DataType.same, DataType.same_iff a b]
  | .tuple a, .tuple b => by simp [DataType.same, Schema.same_iff a b]
  | .bag a, .bag b => by simp [DataType.same, Schema.same_iff a b]
  | .scalar _, .map _ | .scalar _, .tuple _ | .scalar _, .bag _
  | .map _, .scalar _ | .map _, .tuple _ | .map _, .bag _
  | .tuple _, .scalar _ | .tuple _, .map _ | .tuple _, .bag _
  | .bag _, .scalar _ | .bag _, .map _ | .bag _, .tuple _ => by simp [DataType.same]

theorem Field.same_iff : ∀ a b : Field, a.same b = true ↔ a = b
  | ⟨n, t, u⟩, ⟨n', t', u'⟩ => by
    simp [Field.same, DataType.same_iff t t', and_assoc]

theorem Schema.same_iff : ∀ a b : List Field, Schema.same a b = true ↔ a = b
  | [], [] => by simp [Schema.same]
  | f :: fs, g :: gs => by simp [Schema.same, Field.same_iff f g, Schema.same_iff fs gs]
  | [], _ :: _ | _ :: _, [] => by simp [Schema.same]

end

instance : DecidableEq DataType := fun a b =>
  decidable_of_iff (a.same b = true) (DataType.same_iff a b)

instance : DecidableEq Field := fun a b =>
  decidable_of_iff (a.same b = true) (Field.same_iff a b)

/-! ## Kinds of types -/

namespace DataType

def isMap : DataType → Bool
  | .map _ => true
  | _ => false

def isBag : DataType → Bool
  | .bag _ => true
  | _ => false

/-- The place of a numeric type in the order of widening. -/
def rank : DataType → Option Nat
  | .scalar .int => some 0
  | .scalar .long => some 1
  | .scalar .float => some 2
  | .scalar .double => some 3
  | _ => none

def isNumeric (t : DataType) : Bool := t.rank.isSome

/-- Types whose parts can be read one by one: keys of a map, columns of a
bag. -/
def isNested (t : DataType) : Bool := t.isMap || t.isBag

def mapValue? : DataType → Option DataType
  | .map value => some value
  | _ => none

def inner? : DataType → Option Schema
  | .bag inner => some inner
  | .tuple inner => some inner
  | _ => none

/-- The type of an arithmetic result: the wider of two numeric types, where an
untyped null takes the type of the other side. -/
def wider? (left right : DataType) : Option DataType :=
  if left = .scalar .null && right.isNumeric then some right
  else if right = .scalar .null && left.isNumeric then some left
  else do
    let l ← left.rank
    let r ← right.rank
    return if r ≤ l then left else right

end DataType

/-! ## Text -/

def Uid.text (u : Uid) : String := "#" ++ toString u.number

def positionText (p : Nat) : String := "$" ++ toString p

def positionsText (ps : List Nat) : String := ", ".intercalate (ps.map positionText)

def Scalar.text : Scalar → String
  | .null => "null"
  | .boolean => "boolean"
  | .int => "int"
  | .long => "long"
  | .float => "float"
  | .double => "double"
  | .chararray => "chararray"
  | .bytearray => "bytearray"

mutual

def DataType.text : DataType → String
  | .scalar s => s.text
  | .map value => "map[" ++ value.text ++ "]"
  | .tuple inner => "(" ++ ", ".intercalate (Schema.texts inner) ++ ")"
  | .bag inner => "\x7b(" ++ ", ".intercalate (Schema.texts inner) ++ ")\x7d"

/-- The text of a field: its name and type. -/
def Field.text : Field → String
  | ⟨name, type, _⟩ => name ++ ": " ++ type.text

def Schema.texts : List Field → List String
  | [] => []
  | f :: fs => f.text :: Schema.texts fs

end

/-- The text of a schema: its fields, separated by commas. -/
def Schema.text (s : Schema) : String := ", ".intercalate (Schema.texts s)

/-! ## Fields and schemas -/

/-- The same column under another name. -/
def Field.rename (f : Field) (name : String) : Field := { f with name := name }

def Field.withType (f : Field) (type : DataType) : Field := { f with type := type }

namespace Schema

/-- The first position at which the column `u` stands. -/
def positionOf? (s : Schema) (u : Uid) : Option Nat := s.findIdx? fun f => f.uid == u

def names (s : Schema) : List String := s.map Field.name

def uids (s : Schema) : List Uid := s.map Field.uid

end Schema

mutual

/-- The identities of a field and of every field nested in it. The type of a
map's values has no identities of its own. -/
def Field.deepUids : Field → List Uid
  | ⟨_, .scalar _, u⟩ => [u]
  | ⟨_, .map _, u⟩ => [u]
  | ⟨_, .bag inner, u⟩ => u :: Schema.deepUids inner
  | ⟨_, .tuple inner, u⟩ => u :: Schema.deepUids inner

/-- The identities in a schema, at every depth. -/
def Schema.deepUids : List Field → List Uid
  | [] => []
  | f :: fs => f.deepUids ++ Schema.deepUids fs

end

/-! ## Identities -/

/-- Hands out identities, each of them once. -/
structure UidSource where
  next : Nat
deriving Repr, DecidableEq, Inhabited

def UidSource.draw (s : UidSource) : Uid × UidSource := (⟨s.next⟩, ⟨s.next + 1⟩)

end Dataflow
