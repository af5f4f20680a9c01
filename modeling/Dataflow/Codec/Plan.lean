import Dataflow.Codec.Basic
import Dataflow.Plan.Operator
import Dataflow.Prune.Config
import Dataflow.Prune.Diagnostic

/-!
# Interchange form of plans and pruning

Settings, the requests and answers between a plan and its sources, and the
records of a pruning run. Settings that a text leaves out are on; a diagnostic
is only written, with its kind as the first field.
-/

namespace Dataflow

/-! ## Choices without contents -/

def JoinType.tag : JoinType → String
  | .inner => "Inner"
  | .leftOuter => "LeftOuter"
  | .rightOuter => "RightOuter"
  | .fullOuter => "FullOuter"

def JoinType.all : List JoinType := [.inner, .leftOuter, .rightOuter, .fullOuter]

instance : Coded JoinType where
  toJson t := .ofString t.tag
  ofJson? room j := (Json.bareTag? room j).bind (Coded.ofTag? JoinType.all JoinType.tag)

def JoinStrategy.tag : JoinStrategy → String
  | .hash => "Hash"
  | .replicated => "Replicated"
  | .skewed => "Skewed"
  | .merge => "Merge"

def JoinStrategy.all : List JoinStrategy := [.hash, .replicated, .skewed, .merge]

instance : Coded JoinStrategy where
  toJson s := .ofString s.tag
  ofJson? room j := (Json.bareTag? room j).bind (Coded.ofTag? JoinStrategy.all JoinStrategy.tag)

def Answer.tag : Answer → String
  | .accepted => "Accepted"
  | .declined => "Declined"

instance : Coded Answer where
  toJson a := .ofString a.tag
  ofJson? room j := (Json.bareTag? room j).bind (Coded.ofTag? [.accepted, .declined] Answer.tag)

/-! ## Sources -/

instance : Coded PushdownStatus where
  toJson
    | .accepted => .ofString "Accepted"
    | .declined => .ofString "Declined"
    | .failed message => .choice "Failed" (.ofString message)
    | .unsupported => .ofString "Unsupported"
  ofJson? room j :=
    match Json.bareTag? room j, room, j with
    | some "Accepted", _, _ => some .accepted
    | some "Declined", _, _ => some .declined
    | some "Unsupported", _, _ => some .unsupported
    | _, _ + 1, .object [(some "Failed", message)] => message.text?.map .failed
    | _, _, _ => none

instance : Coded RequiredField where
  toJson f := .record [("index", .ofNat f.index), ("alias", .ofString f.label),
    ("map_keys", Coded.toJson f.mapKeys)]
  ofJson?
    | 0, _ => none
    | room + 1, j => do
      match ← j.fields? ["index", "alias", "map_keys"] with
      | [some index, some label, keys] =>
        return ⟨← index.word?, ← label.text?, ← Coded.ofJson? room (keys.getD .null)⟩
      | _ => none

instance : Coded Projection where
  toJson p := .record [("fields", Coded.toJson p.fields)]
  ofJson?
    | 0, _ => none
    | room + 1, j => do
      match ← j.fields? ["fields"] with
      | [some fields] => return ⟨← Coded.ofJson? room fields⟩
      | _ => none

/-! ## Settings -/

namespace Config

def fieldNames : List String :=
  ["enable_map_key_pruning", "enable_projection_pushdown", "retain_one_column",
   "emit_diagnostics"]

/-- A setting, which is on if it is left out. -/
def setting? : Option Json → Option Bool
  | none => some true
  | some j => j.bool?

/-- The settings of a record. An array may be shorter than the record. -/
def settings? : Json → Option (List (Option Json))
  | .array items =>
    if items.length ≤ fieldNames.length then
      some (items.map some ++ List.replicate (fieldNames.length - items.length) none)
    else none
  | j => j.fields? fieldNames

end Config

instance : Coded Config where
  toJson c := .record (Config.fieldNames.zip
    [.bool c.mapKeys, .bool c.pushdown, .bool c.retainOne, .bool c.diagnostics])
  ofJson? room j := do
    if room = 0 then none
    match ← (← Config.settings? j).mapM Config.setting? with
    | [mapKeys, pushdown, retainOne, diagnostics] =>
      return ⟨mapKeys, pushdown, retainOne, diagnostics⟩
    | _ => none

/-! ## Diagnostics -/

def Diagnostic.toJson : Diagnostic → Json
  | .columnsPruned label ps =>
    .record [("kind", .ofString "columns_pruned"), ("alias", .ofString label),
      ("positions", .array (ps.map .ofNat))]
  | .mapKeysRequired label fields =>
    .record [("kind", .ofString "map_keys_required"), ("alias", .ofString label),
      ("fields", .array (fields.map fun (p, ks) =>
        .array [.ofNat p, .array (ks.map .ofString)]))]

end Dataflow
