import Dataflow.Execution.Eval
import Dataflow.Proofs.Expr.Renumbered
import Dataflow.Proofs.Traversal

/-!
# What evaluation can see of a row

The recorded reads of an expression are all that its outcome depends on. An
access stands for the part of a field that it takes (`Access.taken`), and two
rows are alike to reads when every such part comes out the same, failures
included. On rows that are alike to what it reads an expression has one
outcome, value or failure (`Expr.eval_eq_of_alike`).

The parts are compared and not the fields: rows may differ in the other keys of
a map and in the other columns of a bag, and both may lack a field.
-/

namespace Dataflow

/-- The part of the field at a position that an access reads. -/
def Access.taken (p : Nat) : Access → Expr
  | .whole => .column p
  | .key k => .lookup (.column p) k
  | .columns cs => .select (.column p) cs

namespace Reads

variable {r r' : Reads} {row row' : Row}

/-- Rows that reads cannot tell apart. Only equal rows are alike to reads of the
whole row. -/
def Alike (r : Reads) (row row' : Row) : Prop :=
  (r.star = true ∧ row = row') ∨
    (r.star = false ∧
      ∀ x ∈ r.accesses, (x.2.taken x.1).eval row = (x.2.taken x.1).eval row')

theorem alike_refl (r : Reads) (row : Row) : r.Alike row row := by
  cases h : r.star with
  | true => exact Or.inl ⟨h, rfl⟩
  | false => exact Or.inr ⟨h, fun _ _ => rfl⟩

/-- Fewer reads tell fewer rows apart. -/
theorem Alike.mono (h : r.Alike row row') (hstar : r'.star = true → r.star = true)
    (hsub : ∀ x ∈ r'.accesses, x ∈ r.accesses) : r'.Alike row row' := by
  rcases h with ⟨-, rfl⟩ | ⟨hs, hall⟩
  · exact alike_refl r' row
  · refine Or.inr ⟨?_, fun x hx => hall x (hsub x hx)⟩
    rw [Bool.eq_false_iff]
    intro hs'
    rw [hstar hs'] at hs
    cases hs

theorem Alike.left (h : (r ++ r').Alike row row') : r.Alike row row' :=
  h.mono (fun hs => star_append.mpr (Or.inl hs)) fun _ hx => mem_append.mpr (Or.inl hx)

theorem Alike.right (h : (r ++ r').Alike row row') : r'.Alike row row' :=
  h.mono (fun hs => star_append.mpr (Or.inr hs)) fun _ hx => mem_append.mpr (Or.inr hx)

theorem Alike.argument {args : List Expr} (h : (Expr.readsAll args).Alike row row') {a : Expr}
    (ha : a ∈ args) : a.reads.Alike row row' :=
  h.mono (fun hs => Expr.star_readsAll.mpr ⟨a, ha, hs⟩)
    fun _ hx => Expr.mem_readsAll.mpr ⟨a, ha, hx⟩

/-- The one access of reads that are nothing else. -/
theorem Alike.single {x : Nat × Access} (h : Alike ⟨[x], false⟩ row row') :
    (x.2.taken x.1).eval row = (x.2.taken x.1).eval row' := by
  rcases h with ⟨-, rfl⟩ | ⟨-, hall⟩
  · rfl
  · exact hall x (List.mem_singleton.mpr rfl)

end Reads

namespace Expr

theorem evalAll_eq_mapM (row : Row) (args : List Expr) :
    evalAll row args = args.mapM fun e => e.eval row := by
  induction args with
  | nil => rfl
  | cons e es ih => rw [evalAll, List.mapM_cons, ih]

/-- The outcome of an expression is decided by what it reads. -/
theorem eval_eq_of_alike {e : Expr} {row row' : Row} (h : e.reads.Alike row row') :
    e.eval row = e.eval row' := by
  induction e using readingInduction with
  | column p => exact h.single
  | literal v => rfl
  | star =>
    rcases h with ⟨-, rfl⟩ | ⟨hs, -⟩
    · rfl
    · cases hs
  | lookup p k => exact h.single
  | select p cs => exact h.single
  | unary op e hop ih =>
    rw [reads_unary hop] at h
    rw [eval, eval, ih h]
  | binary op l r ihl ihr =>
    rw [reads_binary] at h
    rw [eval, eval, ihl h.left, ihr h.right]
  | ifElse t e p iht ihe ihp =>
    rw [reads_ifElse] at h
    rw [eval, eval, iht h.left.left, ihe h.left.right, ihp h.right]
  | call f args ih =>
    rw [reads_call] at h
    rw [eval, eval, evalAll_eq_mapM, evalAll_eq_mapM,
      mapM_congr fun a ha => ih a ha (h.argument ha)]

/-- The total of an inner column of a bag, unless a map lacks a key. -/
def keyedTotal : Expr :=
  .ifElse (.named (.call ⟨"SUM", .scalar .long⟩ [.select (.column 1) [1]]) "total")
    (.lookup (.column 0) "k") (.not (.isNull (.lookup (.column 0) "k")))

/-- A row, and one that differs from it in another key of the map, in another
column of the bag and in its width. -/
def keyedRow : Row := [.map [("k", .str "a"), ("l", .int 1)], .bag [[.int 1, .int 2]], .bool true]

@[inherit_doc keyedRow]
def keyedRow' : Row := [.map [("k", .str "a")], .bag [[.int 7, .int 2]]]

theorem eval_keyedTotal_eq : keyedTotal.reads.Alike keyedRow keyedRow' ∧ keyedRow ≠ keyedRow' ∧
    keyedTotal.eval keyedRow = keyedTotal.eval keyedRow' := by
  have halike : keyedTotal.reads.Alike keyedRow keyedRow' := by
    refine Or.inr ⟨rfl, fun x hx => ?_⟩
    change x ∈ [(1, Access.columns [1]), (0, .key "k"), (0, .key "k")] at hx
    simp only [List.mem_cons, List.not_mem_nil, or_false] at hx
    rcases hx with rfl | rfl | rfl
    · rfl
    · rfl
    · rfl
  refine ⟨halike, fun h => ?_, eval_eq_of_alike halike⟩
  cases congrArg List.length h

end Expr

end Dataflow
