import Dataflow.Proofs.Prune.Total

/-!
# The change that narrowing reports

Narrowing a plan reports whether it changed the plan, and the report is put
together from many parts: what renumbering says of each expression, whether an
item was dropped, whether a union is another one, and the projection and the
schema of each node. This module shows that the parts miss nothing and invent
nothing.

The step that could go wrong is the operator. A node is given a new one when one
of its expressions is reported as changed or an item is gone, and the new one
must then be another one: expressions that are put back where they were taken
from can be taken out again (`Operator.withExpressions_eq_iff`), and the items
that stay are all of them only if none was dropped (`Items.withExprs_eq_iff`). So
a new operator differs (`Projected.op_ne`), a node is reported exactly when it
differs (`Projected.differs_iff`), and a plan exactly when one of its nodes does
(`Plan.project_reports`), whether or not it would pass the check.
-/

namespace Dataflow

open List (Forall₂)

/-- Two states of a node in which it does or exposes something else. -/
def Node.Differs (n n' : Node) : Prop :=
  n'.op ≠ n.op ∨ n'.projection ≠ n.projection ∨ n'.schema ≠ n.schema

variable {n : Node} {keep : List Nat} {ins : List Dataflow.Narrowed} {proj : Projected}

/-! ## New operators -/

namespace Projected

/-- A node that is given a new operator is given another one. -/
theorem op_ne (h : ofAny n keep ins = .ok proj) {op : Operator} (hop : proj.op = some op) :
    op ≠ n.op := by
  unfold ofAny at h
  split at h
  · rename_i items hn
    obtain ⟨input, rest, fss, revised, fss', -, -, hrev, -, -, hnew, -⟩ := ofItems_parts h
    rw [hop] at hnew
    split at hnew
    · rename_i hc
      cases hnew
      rw [Bool.or_eq_true, decide_eq_true_iff] at hc
      rw [hn]
      intro hsame
      obtain ⟨hall, hquiet⟩ := (Items.withExprs_eq_iff hrev).mp (Operator.forEach.inj hsame)
      rcases hc with hgone | hc
      · exact hgone hall
      · rw [hquiet] at hc
        cases hc
    · cases hnew
  · rename_i u hn
    rw [ofUnion_eq] at h
    obtain ⟨fields, -, h⟩ := bind_ok h
    obtain ⟨mappings, -, h⟩ := bind_ok h
    cases h
    dsimp only at hop
    split at hop
    · cases hop
    · rename_i hne
      cases hop
      rw [hn]
      exact fun hsame => hne (Operator.union.inj hsame)
  · obtain ⟨rs, hrs, -, hnew, -⟩ := ofNode_ok h
    rw [hop] at hnew
    split at hnew
    · rename_i hc
      cases hnew
      intro hsame
      have hquiet := (Operator.withExpressions_eq_iff (hrs.imp fun x r hr =>
        hr.elim fun N hN => ⟨N.renumbering, hN.2⟩)).mp hsame
      rw [hquiet] at hc
      cases hc
    · cases hnew

/-! ## Nodes and plans -/

/-- A node is reported as changed exactly when it differs. -/
theorem differs_iff (h : ofAny n keep ins = .ok proj) :
    proj.differs n = true ↔ n.Differs (proj.apply n) := by
  have hop : proj.op.isSome = true ↔ (proj.apply n).op ≠ n.op := by
    cases hproj : proj.op with
    | none => simp [apply, hproj]
    | some op => simpa [apply, hproj] using op_ne h hproj
  unfold differs Node.Differs
  rw [Bool.or_eq_true, Bool.or_eq_true, hop, decide_eq_true_iff, decide_eq_true_iff, or_assoc]
  rfl

/-- A node that does not differ is as it was. -/
theorem apply_eq_iff : proj.apply n = n ↔ ¬ n.Differs (proj.apply n) := by
  constructor
  · intro hsame
    rw [hsame]
    rintro (h | h | h) <;> exact h rfl
  · intro h
    unfold Node.Differs at h
    rw [not_or, not_or, not_not, not_not, not_not] at h
    obtain ⟨hop, hprojection, hschema⟩ := h
    unfold apply at hop hprojection hschema ⊢
    dsimp only at hop hprojection hschema
    rw [hop, hprojection, hschema]

end Projected

namespace Plan

variable {p p' : Plan} {required : List Required} {changed : Bool}

/-- Nodes are reported as unchanged exactly when they are as they were. -/
theorem projectNodes_unchanged {done : List Narrowed} {nodes nodes' : List Node}
    (h : projectNodes required done nodes = (nodes', .ok changed)) :
    changed = false ↔ nodes' = nodes := by
  induction nodes generalizing done nodes' changed with
  | nil => cases h; exact ⟨fun _ => rfl, fun _ => rfl⟩
  | cons n rest ih =>
    obtain ⟨proj, nodes₁, c, hproj, hrest, rfl, rfl⟩ := projectNodes_cons h
    obtain ⟨keep, ins, hstep⟩ := projectNode_ok hproj
    rw [Bool.or_eq_false_iff, ih hrest, List.cons.injEq, Projected.apply_eq_iff,
      ← Projected.differs_iff hstep.ok, Bool.not_eq_true]

/-- Narrowing reports a change exactly when a node does or exposes something else
than before, and otherwise leaves the plan as it was. -/
theorem project_reports (h : p.project required = (p', .ok changed)) :
    (changed = true ↔
      ∃ (i : Nat) (n n' : Node), p.nodes[i]? = some n ∧ p'.nodes[i]? = some n' ∧ n.Differs n') ∧
    (changed = false ↔ p' = p) := by
  have hsame : changed = false ↔ p' = p := by
    unfold project at h
    cases hnodes : projectNodes required [] p.nodes with
    | mk nodes result =>
      rw [hnodes] at h
      cases h
      rw [projectNodes_unchanged hnodes]
      exact ⟨fun hsame => congrArg Plan.mk hsame, fun hsame => congrArg Plan.nodes hsame⟩
  refine ⟨?_, hsame⟩
  rw [← Bool.not_eq_false, hsame]
  constructor
  · intro hne
    by_contra hnone
    have hall := project_nodes h
    have heq : Forall₂ Eq p'.nodes p.nodes :=
      forall₂_of_getElem? hall.length_eq.symm fun i n' n hn' hn => by
        obtain ⟨_, hn'', keep, ins, proj, hproj, rfl⟩ := getElem?_of_left hall hn
        rw [hn'] at hn''
        cases hn''
        exact Projected.apply_eq_iff.mpr fun hd => hnone ⟨i, n, _, hn, hn', hd⟩
    rw [List.forall₂_eq_eq_eq] at heq
    exact hne (congrArg Plan.mk heq)
  · rintro ⟨i, n, n', hn, hn', hd⟩ rfl
    rw [hn] at hn'
    cases hn'
    rcases hd with hd | hd | hd <;> exact hd rfl

/-- One run that changes a node and one that changes none. -/
theorem project_reports_visits :
    (∃ p', Builder.visits.plan.project
        [.all, .positions [0, 1], .all, .positions [1], .positions [0, 2, 4], .all] =
      (p', .ok true) ∧ ∃ (i : Nat) (n n' : Node),
        Builder.visits.plan.nodes[i]? = some n ∧ p'.nodes[i]? = some n' ∧ n.Differs n') ∧
    Builder.visits.plan.project (List.replicate 6 .all) = (Builder.visits.plan, .ok false) := by
  have hsome : Builder.visits.plan.project
      [.all, .positions [0, 1], .all, .positions [1], .positions [0, 2, 4], .all] = (_, .ok true) :=
    Prod.ext rfl (toOption_some (by decide +kernel))
  have hall : Builder.visits.plan.project (List.replicate 6 .all) = (_, .ok false) :=
    Prod.ext rfl (toOption_some (by decide +kernel))
  refine ⟨⟨_, hsome, (project_reports hsome).1.mp rfl⟩, ?_⟩
  rw [hall, (project_reports hall).2.mp rfl]

end Plan

end Dataflow
