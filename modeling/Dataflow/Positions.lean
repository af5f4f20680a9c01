/-!
# Sets of positions

A finite set of positions as a strictly ascending list, so that equal sets are
equal lists and their order is the order in which answers show them.
-/

namespace Dataflow.Positions

def insert (p : Nat) : List Nat → List Nat
  | [] => [p]
  | q :: qs =>
    if p < q then p :: q :: qs
    else if p = q then q :: qs
    else q :: insert p qs

@[simp] theorem mem_insert {p q : Nat} {ps : List Nat} : q ∈ insert p ps ↔ q = p ∨ q ∈ ps := by
  induction ps with
  | nil => simp [insert]
  | cons r rs ih =>
    unfold insert
    split
    · simp
    · split
      · rename_i h; subst h; simp
      · simp [ih, or_left_comm]

/-- The set of the listed positions. -/
def ofList (ps : List Nat) : List Nat := ps.foldl (fun acc p => insert p acc) []

end Dataflow.Positions
