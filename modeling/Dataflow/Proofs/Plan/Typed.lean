import Dataflow.Proofs.Narrowing.InRange
import Dataflow.Proofs.Narrowing.Types
import Dataflow.Proofs.Prune.Total

/-!
# What a check sees of expressions

A consistent plan has expressions that are well typed, and typing looks up
columns as it goes. It does not go everywhere: the operand of a cast or a null
test, the arguments of a call, and the second branch and the predicate of a
conditional do not matter for a type (`Expr.passedOver`). Where it does go
(`Expr.typedParts`), positions are in range, those of columns and those that are
selected directly from a column; and so an expression is in range altogether
exactly when the parts that were passed over are (`Plan.check_positions`).

Nothing else holds of those parts. `Plan.check_overlooks` shows a plan that can
be built, with a reference to a column that does not exist in each of the places
above.
-/

namespace Dataflow

namespace Expr

/-! ## Parts of expressions -/

/-- The parts whose types are found on the way to the type of an expression,
itself included. -/
def typedParts : Expr → List Expr
  | .column p => [.column p]
  | .literal v => [.literal v]
  | .star => [.star]
  | .cast e type => [.cast e type]
  | .isNull e => [.isNull e]
  | .unary op e => .unary op e :: e.typedParts
  | .binary op l r => .binary op l r :: (l.typedParts ++ r.typedParts)
  | .ifElse t e p => .ifElse t e p :: t.typedParts
  | .call f args => [.call f args]

/-- The parts that typing passes over, as large as they are. -/
def passedOver : Expr → List Expr
  | .column _ | .literal _ | .star => []
  | .cast e _ | .isNull e => [e]
  | .unary _ e => e.passedOver
  | .binary _ l r => l.passedOver ++ r.passedOver
  | .ifElse t e p => t.passedOver ++ [e, p]
  | .call _ args => args

variable {s : Schema}

theorem type_binary {op : BinaryOp} {l r : Expr} {τ : DataType}
    (h : (Expr.binary op l r).type s = .ok τ) :
    (∃ σ, l.type s = .ok σ) ∧ ∃ σ, r.type s = .ok σ := by
  obtain ⟨σ, hσ, h⟩ := bind_ok h
  obtain ⟨ρ, hρ, -⟩ := bind_ok h
  exact ⟨⟨σ, hσ⟩, ρ, hρ⟩

/-- Operations other than casts and null tests have a type only if their operand
has. -/
theorem type_operand {op : Unary} {e : Expr} {τ : DataType} (hcast : ∀ type, op ≠ .cast type)
    (hnull : op ≠ .isNull) (h : (Expr.unary op e).type s = .ok τ) : ∃ σ, e.type s = .ok σ := by
  cases op with
  | named name => exact ⟨τ, h⟩
  | cast type => exact absurd rfl (hcast type)
  | isNull => exact absurd rfl hnull
  | lookup key | not | select columns =>
    obtain ⟨σ, hσ, -⟩ := bind_ok h
    exact ⟨σ, hσ⟩

theorem type_typedParts {e : Expr} {τ : DataType} (h : e.type s = .ok τ) :
    ∀ x ∈ e.typedParts, ∃ σ, x.type s = .ok σ := by
  fun_induction typedParts e generalizing τ with
  | case1 | case2 | case3 | case4 | case5 | case9 =>
    intro x hx
    rw [List.mem_singleton.mp hx]
    exact ⟨τ, h⟩
  | case6 op e hcast hnull ih =>
    intro x hx
    rcases List.mem_cons.mp hx with rfl | hx
    · exact ⟨τ, h⟩
    · obtain ⟨σ, hσ⟩ := type_operand hcast hnull h
      exact ih hσ x hx
  | case7 op l r ihl ihr =>
    intro x hx
    obtain ⟨⟨σ, hσ⟩, ρ, hρ⟩ := type_binary h
    rcases List.mem_cons.mp hx with rfl | hx
    · exact ⟨τ, h⟩
    · exact (List.mem_append.mp hx).elim (ihl hσ x) (ihr hρ x)
  | case8 t e p ih =>
    intro x hx
    rcases List.mem_cons.mp hx with rfl | hx
    · exact ⟨τ, h⟩
    · exact ih h x hx

/-! ## Positions in range -/

theorem column_lt_of_type {q : Nat} {τ : DataType} (h : (Expr.column q).type s = .ok τ) :
    q < s.length := by
  obtain ⟨f, hf, -⟩ := type_column h
  exact (List.getElem?_eq_some_iff.mp hf).1

/-- What a selection from a column needs for a type. -/
theorem select_lt_of_type {q : Nat} {cs : List Nat} {τ : DataType}
    (h : (Expr.select (.column q) cs).type s = .ok τ) :
    ∃ f inner, s[q]? = some f ∧ f.type.inner? = some inner ∧ ∀ c ∈ cs, c < inner.length := by
  obtain ⟨σ, inner, out, hσ, hinner, hout, -, -⟩ := type_select h
  obtain ⟨f, hf, rfl⟩ := type_column hσ
  refine ⟨f, inner, hf, hinner, fun c hc => ?_⟩
  obtain ⟨x, -, hx⟩ := mem_of_left (Schema.project_ok.mp hout) hc
  exact (List.getElem?_eq_some_iff.mp hx).1

theorem passedOver_unary {op : Unary} {e : Expr} (hcast : ∀ type, op ≠ .cast type)
    (hnull : op ≠ .isNull) : (Expr.unary op e).passedOver = e.passedOver := by
  cases op with
  | cast type => exact absurd rfl (hcast type)
  | isNull => exact absurd rfl hnull
  | _ => rfl

/-- A well-typed expression is in range as soon as the parts that typing passed
over are. -/
theorem inRange_iff_of_type {e : Expr} {τ : DataType} (h : e.type s = .ok τ) :
    e.inRange s = true ↔ ∀ x ∈ e.passedOver, x.inRange s = true := by
  induction e using readingInduction generalizing τ with
  | column p => simpa [inRange, passedOver] using column_lt_of_type h
  | literal v => simp [inRange, passedOver]
  | star => simp [inRange, passedOver]
  | lookup p k =>
    obtain ⟨σ, hσ, -⟩ := bind_ok h
    simpa [inRange, passedOver] using column_lt_of_type hσ
  | select p cs =>
    obtain ⟨f, inner, hf, hinner, hcs⟩ := select_lt_of_type h
    simpa [inRange, passedOver, hf, hinner] using hcs
  | unary op e hop ih =>
    rw [inRange_unary hop]
    by_cases hskip : (∃ type, op = .cast type) ∨ op = .isNull
    · rcases hskip with ⟨type, rfl⟩ | rfl
      · simp [passedOver]
      · simp [passedOver]
    · have hcast : ∀ type, op ≠ .cast type := fun type ht => hskip (Or.inl ⟨type, ht⟩)
      have hnull : op ≠ .isNull := fun hn => hskip (Or.inr hn)
      obtain ⟨σ, hσ⟩ := type_operand hcast hnull h
      rw [passedOver_unary hcast hnull]
      exact ih hσ
  | binary op l r ihl ihr =>
    obtain ⟨⟨σ, hσ⟩, ρ, hρ⟩ := type_binary h
    simp only [inRange, passedOver, Bool.and_eq_true, List.forall_mem_append, ihl hσ, ihr hρ]
  | ifElse t e p iht _ _ =>
    simp [inRange, passedOver, iht h, and_assoc, or_imp, forall_and]
  | call f args _ => exact inRangeAll_iff

end Expr

/-! ## Consistent plans -/

namespace Plan

/-- In a consistent plan every expression has an input. The positions that typing
meets exist there, and the expression is in range if the parts are that typing
passes over. -/
theorem check_positions {p : Plan} (h : p.check = .ok ()) {n : Node} (hn : n ∈ p.nodes)
    {i : Nat} {e : Expr} (he : (i, e) ∈ n.op.expressions) :
    ∃ edge m, n.inputs[i]? = some edge ∧ p.nodes[edge.node]? = some m ∧
      (∀ q, .column q ∈ e.typedParts → q < m.schema.length) ∧
      (∀ q cs, .select (.column q) cs ∈ e.typedParts →
        ∃ f inner, m.schema[q]? = some f ∧ f.type.inner? = some inner ∧
          ∀ c ∈ cs, c < inner.length) ∧
      (e.inRange m.schema = true ↔ ∀ x ∈ e.passedOver, x.inRange m.schema = true) := by
  obtain ⟨id, hid⟩ := List.mem_iff_getElem?.mp hn
  obtain ⟨inputs, natural, hc⟩ := check_ok.mp h id n hid
  obtain ⟨s, τ, hs, hτ⟩ := hc.typed _ he
  obtain ⟨edge, hedge, m, hm, rfl⟩ := getElem?_of_right (edgeSchemas_ok.mp hc.schemas) hs
  refine ⟨edge, m, hedge, hm, fun q hq => ?_, fun q cs hq => ?_, Expr.inRange_iff_of_type hτ⟩
  · obtain ⟨σ, hσ⟩ := Expr.type_typedParts hτ _ hq
    exact Expr.column_lt_of_type hσ
  · obtain ⟨σ, hσ⟩ := Expr.type_typedParts hτ _ hq
    exact Expr.select_lt_of_type hσ

theorem check_positions_visits : Builder.visits.plan.check = .ok () ∧
    ∃ n ∈ Builder.visits.plan.nodes, (0, .select (.column 1) [1]) ∈ n.op.expressions ∧
      ∃ edge m, n.inputs[0]? = some edge ∧ Builder.visits.plan.nodes[edge.node]? = some m ∧
        ∃ f inner, m.schema[1]? = some f ∧ f.type.inner? = some inner ∧
          ∀ c ∈ [1], c < inner.length := by
  have hn := List.mem_of_getElem? (l := Builder.visits.plan.nodes) (i := 3) rfl
  have he := List.mem_cons_of_mem (0, Expr.column 0)
    (List.mem_singleton_self (0, Expr.select (.column 1) [1]))
  refine ⟨rfl, _, hn, he, ?_⟩
  obtain ⟨edge, m, hedge, hm, -, hselect, -⟩ := check_positions rfl hn he
  exact ⟨edge, m, hedge, hm, hselect 1 [1] (List.mem_cons_self ..)⟩

end Plan

/-! ## A plan with missing columns -/

namespace Builder

/-- A split whose predicates refer to a column that is not there, each in a place
that typing passes over. -/
def overlooked : Builder := empty
  |>.after (schema [("user", .scalar .chararray), ("page", .scalar .chararray)])
  |>.after (load "A" "visits" [⟨"user", .scalar .chararray, ⟨0⟩⟩,
      ⟨"page", .scalar .chararray, ⟨1⟩⟩] none)
  |>.after (split "S" ⟨0, none⟩ [.call ⟨"seen", .scalar .boolean⟩ [.column 7],
      .cast (.column 7) (.scalar .boolean), .isNull (.column 7),
      .ifElse (.literal (.boolean true)) (.column 7) (.column 7)])

theorem overlooked_made : overlooked.plan.Made :=
  .built (b := overlooked) (.step (.step (.step .empty (.schema _)) (.load ..)) (.split ..)) rfl

end Builder

namespace Plan

/-- A consistent plan may refer to a column that does not exist, in any of the
places that typing passes over. -/
theorem check_overlooks : Builder.overlooked.plan.Made ∧ Builder.overlooked.plan.check = .ok () ∧
    ∃ m n, Builder.overlooked.plan.nodes = [m, n] ∧ n.inputs = [⟨0, none⟩] ∧
      m.schema.length = 2 ∧ n.op.expressions =
        [(0, .call ⟨"seen", .scalar .boolean⟩ [.column 7]),
          (0, .cast (.column 7) (.scalar .boolean)), (0, .isNull (.column 7)),
          (0, .ifElse (.literal (.boolean true)) (.column 7) (.column 7))] ∧
      ∀ x ∈ n.op.expressions, x.2.inRange m.schema = false :=
  ⟨Builder.overlooked_made, rfl, _, _, rfl, rfl, rfl, rfl, by decide⟩

end Plan

end Dataflow
