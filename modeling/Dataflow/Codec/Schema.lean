import Dataflow.Codec.Basic
import Dataflow.Schema.Basic

/-!
# Interchange form of schemas

An identity is a bare number, a schema a bare array of fields.
-/

namespace Dataflow

instance : Coded Uid := ⟨fun u => .ofNat u.number, fun _ j => j.word?.map Uid.mk⟩

/-- The source of identities is a record of the next one. -/
instance : Coded UidSource where
  toJson s := .record [("next", .ofNat s.next)]
  ofJson? room j := do
    if room = 0 then none
    match ← j.fields? ["next"] with
    | [some next] => next.word?.map UidSource.mk
    | _ => none

def Scalar.tag : Scalar → String
  | .null => "Null"
  | .boolean => "Boolean"
  | .int => "Int32"
  | .long => "Int64"
  | .float => "Float32"
  | .double => "Float64"
  | .chararray => "Chararray"
  | .bytearray => "Bytearray"

def Scalar.all : List Scalar :=
  [.null, .boolean, .int, .long, .float, .double, .chararray, .bytearray]

mutual

def DataType.toJson : DataType → Json
  | .scalar s => .ofString s.tag
  | .map value => .choice "Map" value.toJson
  | .tuple inner => .choice "Tuple" (.array (Schema.toJsons inner))
  | .bag inner => .choice "Bag" (.array (Schema.toJsons inner))

def Field.toJson : Field → Json
  | ⟨name, type, uid⟩ =>
    .record [("name", .ofString name), ("dtype", type.toJson), ("uid", Coded.toJson uid)]

def Schema.toJsons : List Field → List Json
  | [] => []
  | f :: fs => f.toJson :: Schema.toJsons fs

end

/-- Reads a field, given how to read its type. -/
def Field.decode? (type? : Json → Option DataType) (j : Json) : Option Field := do
  match ← j.fields? ["name", "dtype", "uid"] with
  | [some name, some type, some uid] =>
    return ⟨← name.text?, ← type? type, ⟨← uid.word?⟩⟩
  | _ => none

def DataType.ofJson? (room : Nat) (j : Json) : Option DataType :=
  match (Json.bareTag? room j).bind (Coded.ofTag? Scalar.all Scalar.tag) with
  | some s => some (.scalar s)
  | none =>
    match room, j with
    | room + 1, .object [(some "Map", value)] => (DataType.ofJson? room value).map .map
    | 2, .object [(some "Tuple", .array [])] => some (.tuple [])
    | 2, .object [(some "Bag", .array [])] => some (.bag [])
    | room + 3, .object [(some "Tuple", .array fs)] =>
      (fs.mapM (Field.decode? (DataType.ofJson? room))).map .tuple
    | room + 3, .object [(some "Bag", .array fs)] =>
      (fs.mapM (Field.decode? (DataType.ofJson? room))).map .bag
    | _, _ => none

instance : Coded DataType := ⟨DataType.toJson, DataType.ofJson?⟩

instance : Coded Field where
  toJson := Field.toJson
  ofJson?
    | 0, _ => none
    | room + 1, j => Field.decode? (DataType.ofJson? room) j

end Dataflow
