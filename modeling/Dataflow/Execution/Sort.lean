/-!
# Stable sorting

Sorting by insertion: each element in turn moves back over the elements that it
comes before, and stays behind those that it does not. Elements that are
neither before nor after each other keep their order.
-/

namespace Dataflow

variable {α : Type}

/-- Puts an element into a list that is sorted back to front. -/
def insertBack (before : α → α → Bool) (x : α) : List α → List α
  | [] => [x]
  | y :: ys => if before x y then y :: insertBack before x ys else x :: y :: ys

def stableSort (before : α → α → Bool) (xs : List α) : List α :=
  (xs.foldl (fun acc x => insertBack before x acc) []).reverse

end Dataflow
