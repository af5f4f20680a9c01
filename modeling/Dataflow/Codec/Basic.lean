import Dataflow.Json.Parser
import Dataflow.Json.Printer

/-!
# Interchange forms

Values that have a JSON form. A record is an object with its fields in order of
declaration; a choice is its name, or an object with the name as its only
member and the contents as the value. Reading accepts more than writing
produces: records as arrays, a choice without contents as a member `null`.

Reading takes the number of objects and arrays that may still be opened on the
way down, so that deeply nested text is refused.
-/

namespace Dataflow

/-- A type with a JSON form. -/
class Coded (α : Type) where
  toJson : α → Json
  /-- Reads a value, with room for that many nested objects and arrays. -/
  ofJson? : (room : Nat) → Json → Option α

namespace Coded

variable {α : Type} [Coded α]

def write (a : α) : String := (toJson a).text

/-- The value that a JSON text spells. -/
def read? (s : String) : Option α := do ofJson? Json.depthLimit (← Json.parse? s)

def items? (room : Nat) (j : Json) : Option (List α) :=
  match room, j with
  | room + 1, .array js => js.mapM (ofJson? room)
  | _, _ => none

/-- The form of a choice without contents, among `all`, by its name. -/
def ofTag? {β : Type} (all : List β) (tag : β → String) (s : String) : Option β :=
  all.find? fun b => tag b = s

end Coded

instance : Coded String := ⟨.ofString, fun _ => Json.text?⟩

instance {α : Type} [Coded α] : Coded (List α) :=
  ⟨fun as => .array (as.map Coded.toJson), Coded.items?⟩

/-- The form of an optional value: `null` when there is none. -/
instance {α : Type} [Coded α] : Coded (Option α) :=
  ⟨fun
    | none => .null
    | some a => Coded.toJson a,
   fun room j =>
    match j with
    | .null => some none
    | j => (Coded.ofJson? room j).map some⟩

end Dataflow
