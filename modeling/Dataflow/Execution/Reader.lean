import Dataflow.Plan.Operator

/-!
# Readers with a fixed answer

Readers for plans that run over tables in memory. Such a reader has its answer
to every projection fixed in advance; whatever it answers, the table it stands
for is read in full.
-/

namespace Dataflow

/-- How a reader answers projections. -/
inductive Stance
  /-- It cannot skip fields and is never asked. -/
  | unable
  | accepting
  | declining
  | failing (report : Report)
deriving Repr, DecidableEq

namespace Reader

def answerOf : Stance → Option (Projection → Except Report Answer)
  | .unable => none
  | .accepting => some fun _ => .ok .accepted
  | .declining => some fun _ => .ok .declined
  | .failing report => some fun _ => .error report

/-- A reader that answers every projection alike. -/
def fixed (id : Nat) (name : String) (stance : Stance) : Reader := ⟨id, name, answerOf stance⟩

/-- The report of a reader in memory that fails. -/
def refusal : Report := ⟨.valueError, "dummy source cannot project"⟩

/-- The reader of a table in memory. -/
def inMemory (id : Nat) (stance : Stance) : Reader := fixed id "DummySource" stance

end Reader

end Dataflow
