import Dataflow.Text.Blank

/-!
# Settings of the pruning pass

Everything is on unless it is turned off. A setting that turns something off is
a text which counts as set when it is `1` or `true`, in any case and with any
blanks around it.
-/

namespace Dataflow

structure Config where
  /-- Track which keys of maps are read. -/
  mapKeys : Bool := true
  /-- Offer the fields that remain to sources that can skip fields. -/
  pushdown : Bool := true
  /-- Keep the first field of a node of which nothing is required. -/
  retainOne : Bool := true
  /-- Report what was removed. -/
  diagnostics : Bool := true
deriving Repr, DecidableEq, Inhabited

namespace Config

/-- The settings that can turn something off from outside. -/
inductive Switch
  | mapKeys
  | pushdown
  | diagnostics
deriving Repr, DecidableEq

/-- Whether a text counts as set. Only ASCII letters have a case here: no other
character has one of the letters of `true` as its lower case. -/
def isSet (value : String) : Bool :=
  let word := String.ofList ((Text.trimBlanks value.toList).map Char.toLower)
  word = "1" || word = "true"

/-- The settings with everything turned off whose switch is set. -/
def ofSwitches (value? : Switch → Option String) : Config :=
  let off := fun s => (value? s).any isSet
  { mapKeys := !off .mapKeys
    pushdown := !off .pushdown
    diagnostics := !off .diagnostics }

end Config

end Dataflow
