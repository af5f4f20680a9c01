import Dataflow.Plan.Check
import Dataflow.Proofs.Traversal

/-!
# What a check establishes

`Plan.Checked` says of a node what `Plan.checkNode` tests, one field for each
test, and `Plan.check_ok` that a plan passes its check exactly when this holds
of every node. Proofs use the fields from one side to take a plan apart and from
the other to show that a revised plan is consistent.
-/

namespace Dataflow

open List (Forall₂)

theorem forM_ok {ε α : Type} {f : α → Except ε Unit} {xs : List α} :
    xs.forM f = .ok () ↔ ∀ x ∈ xs, f x = .ok () := by
  induction xs with
  | nil => exact ⟨fun _ => nofun, fun _ => rfl⟩
  | cons x xs ih =>
    show (f x >>= fun _ => xs.forM f) = _ ↔ _
    constructor
    · intro h
      obtain ⟨u, hu, h⟩ := bind_ok h
      intro y hy
      rcases List.mem_cons.mp hy with rfl | hy
      · exact hu
      · exact ih.mp h y hy
    · intro h
      rw [h x (List.mem_cons_self ..)]
      exact ih.mpr fun y hy => h y (List.mem_cons_of_mem _ hy)

/-- The number of inputs is one the operator takes. -/
structure Operator.Takes (op : Operator) (count : Nat) : Prop where
  least : op.arity.1 ≤ count
  greatest : ∀ n, op.arity.2 = some n → count ≤ n

namespace Plan

theorem edgeSchemas_ok {p : Plan} {edges : List Edge} {inputs : List Schema} :
    p.edgeSchemas edges = .ok inputs ↔
      Forall₂ (fun e s => ∃ m, p.nodes[e.node]? = some m ∧ m.schema = s) edges inputs := by
  rw [edgeSchemas, mapM_ok]
  exact ⟨fun h => h.imp fun _ _ => schemaOf_ok.mp, fun h => h.imp fun _ _ => schemaOf_ok.mpr⟩

theorem edgeSchemas_length {p : Plan} {edges : List Edge} {inputs : List Schema}
    (h : p.edgeSchemas edges = .ok inputs) : inputs.length = edges.length :=
  (edgeSchemas_ok.mp h).length_eq.symm

/-- A node that is consistent with the plan it is stored in. -/
structure Checked (p : Plan) (id : Nat) (n : Node) (inputs : List Schema) (natural : Schema) :
    Prop where
  id_eq : n.id = id
  takes : n.op.Takes n.inputs.length
  earlier : ∀ e ∈ n.inputs, e.node < id ∧ ∃ m, p.nodes[e.node]? = some m ∧
    checkBranch id e m = .ok ()
  schemas : p.edgeSchemas n.inputs = .ok inputs
  typed : ∀ x ∈ n.op.expressions, ∃ s τ, inputs[x.1]? = some s ∧ x.2.type s = .ok τ
  mapped : ∀ u, n.op = .union u → ∀ x ∈ u.mappings.zip inputs,
    checkMapping id u.fields.length x.1 x.2 = .ok ()
  natural_eq : n.op.natural inputs = .ok natural
  exposed : exposedPart id n natural = .ok n.schema

theorem checkArity_ok {id : Nat} {n : Node} :
    checkArity id n = .ok () ↔ n.op.Takes n.inputs.length := by
  unfold checkArity
  simp only
  constructor
  · intro h
    split at h
    · cases h
    · rename_i hno
      simp only [Bool.or_eq_true, decide_eq_true_eq, not_or, Nat.not_lt] at hno
      refine ⟨hno.1, fun m hm => ?_⟩
      have := hno.2
      rw [hm] at this
      simpa using this
  · intro h
    rw [if_neg]
    simp only [Bool.or_eq_true, decide_eq_true_eq, not_or, Nat.not_lt]
    refine ⟨h.least, ?_⟩
    cases hg : n.op.arity.2 with
    | none => simp
    | some m => simpa using h.greatest m hg

theorem checkInput_ok {p : Plan} {id : Nat} {e : Edge} :
    p.checkInput id e = .ok () ↔ e.node < id ∧ ∃ m, p.nodes[e.node]? = some m ∧
      checkBranch id e m = .ok () := by
  unfold checkInput
  split
  · rename_i h
    exact ⟨nofun, fun ⟨h', _⟩ => absurd h' (Nat.not_lt.mpr h)⟩
  · rename_i h
    constructor
    · intro h'
      obtain ⟨m, hm, hb⟩ := bind_ok h'
      exact ⟨Nat.lt_of_not_le h, m, node_ok.mp hm, hb⟩
    · rintro ⟨-, m, hm, hb⟩
      rw [node_ok.mpr hm]
      exact hb

theorem checkExpr_ok {id : Nat} {inputs : List Schema} {i : Nat} {e : Expr} :
    checkExpr id inputs i e = .ok () ↔ ∃ s τ, inputs[i]? = some s ∧ e.type s = .ok τ := by
  unfold checkExpr
  cases inputs[i]? with
  | none => simp
  | some s =>
    cases hτ : e.type s with
    | error c => simp [hτ]
    | ok τ => simp [hτ]

theorem checkMapping_ok {id width : Nat} {mapping : List (Option Nat)} {input : Schema} :
    checkMapping id width mapping input = .ok () ↔
      mapping.length = width ∧ ∀ q, some q ∈ mapping → q < input.length := by
  unfold checkMapping
  split
  · rename_i hlen
    exact ⟨nofun, fun h => absurd h.1 hlen⟩
  · rename_i hlen
    have hfind : (mapping.filterMap fun q => q).find? (fun q => input.length ≤ q) = none ↔
        ∀ q, some q ∈ mapping → q < input.length := by
      rw [List.find?_eq_none]
      simp
    split
    · rename_i q hq
      refine ⟨nofun, fun h => ?_⟩
      rw [hfind.mpr h.2] at hq
      cases hq
    · rename_i hnone
      exact ⟨fun _ => ⟨Classical.not_not.mp hlen, hfind.mp hnone⟩, fun _ => rfl⟩

/-- Where a mapping leads, by the place in it. -/
theorem mapped_lt {id width : Nat} {mapping : List (Option Nat)} {input : Schema}
    (h : checkMapping id width mapping input = .ok ()) {p q : Nat}
    (hq : mapping[p]?.join = some q) : q < input.length :=
  (checkMapping_ok.mp h).2 q (List.mem_of_getElem? (Option.join_eq_some_iff.mp hq))

/-- The mappings of a union are checked, and no other operator has any. -/
def checkMappings (id : Nat) (op : Operator) (inputs : List Schema) : Except Error Unit :=
  match op with
  | .union u => (u.mappings.zip inputs).forM fun x => checkMapping id u.fields.length x.1 x.2
  | _ => .ok ()

theorem checkMappings_ok {id : Nat} {op : Operator} {inputs : List Schema} :
    checkMappings id op inputs = .ok () ↔ ∀ u, op = .union u → ∀ x ∈ u.mappings.zip inputs,
      checkMapping id u.fields.length x.1 x.2 = .ok () := by
  cases op with
  | union u =>
    refine forM_ok.trans ⟨fun h u' hu => ?_, fun h => h u rfl⟩
    cases hu
    exact h
  | _ => exact ⟨fun _ => nofun, fun _ => rfl⟩

/-- The tests of a node that is stored under its own number. -/
theorem checkNode_eq {p : Plan} {id : Nat} {n : Node} (hid : n.id = id) :
    p.checkNode id n = (do
      checkArity id n
      n.inputs.forM fun e => p.checkInput id e
      let inputs ← p.edgeSchemas n.inputs
      n.op.expressions.forM fun x => checkExpr id inputs x.1 x.2
      checkMappings id n.op inputs
      let natural ← n.op.natural inputs
      let exposed ← exposedPart id n natural
      if exposed ≠ n.schema then
        throw (.invalid id (.schemaMismatch n.schema exposed))
      else pure ()) := by
  unfold checkNode checkMappings
  simp only [hid, ne_eq, not_true, if_false]
  cases n.op <;> rfl

theorem checkNode_ok {p : Plan} {id : Nat} {n : Node} :
    p.checkNode id n = .ok () ↔ ∃ inputs natural, p.Checked id n inputs natural := by
  constructor
  · intro h
    by_cases hid : n.id = id
    · rw [checkNode_eq hid] at h
      obtain ⟨_, harity, h⟩ := bind_ok h
      obtain ⟨_, hedges, h⟩ := bind_ok h
      obtain ⟨inputs, hinputs, h⟩ := bind_ok h
      obtain ⟨_, htyped, h⟩ := bind_ok h
      obtain ⟨_, hmapped, h⟩ := bind_ok h
      obtain ⟨natural, hnatural, h⟩ := bind_ok h
      obtain ⟨exposed, hexposed, h⟩ := bind_ok h
      refine ⟨inputs, natural, hid, checkArity_ok.mp harity,
        fun e he => checkInput_ok.mp (forM_ok.mp hedges e he), hinputs,
        fun x hx => checkExpr_ok.mp (forM_ok.mp htyped x hx), checkMappings_ok.mp hmapped, hnatural,
        ?_⟩
      split at h
      · cases h
      · rename_i heq
        rw [hexposed, Classical.not_not.mp heq]
    · unfold checkNode at h
      simp only [ne_eq, hid, not_false_eq_true, if_true] at h
      cases h
  · rintro ⟨inputs, natural, h⟩
    rw [checkNode_eq h.id_eq]
    simp only [checkArity_ok.mpr h.takes, bind, Except.bind,
      forM_ok.mpr fun e he => checkInput_ok.mpr (h.earlier e he), h.schemas,
      forM_ok.mpr fun x hx => checkExpr_ok.mpr (h.typed x hx), checkMappings_ok.mpr h.mapped,
      h.natural_eq, h.exposed, ne_eq, not_true, if_false]
    rfl

/-- A plan passes its check exactly when each of its nodes is consistent. -/
theorem check_ok {p : Plan} :
    p.check = .ok () ↔ ∀ id n, p.nodes[id]? = some n →
      ∃ inputs natural, p.Checked id n inputs natural := by
  unfold check
  rw [forM_ok]
  have hmap : ∀ (id : Nat) (r : Except Error Unit),
      r.mapError (atNode id) = .ok () ↔ r = .ok () := by
    intro id r
    cases r <;> simp [Except.mapError]
  constructor
  · intro h id n hn
    exact checkNode_ok.mp ((hmap id _).mp (h (n, id) (List.mem_zipIdx_iff_getElem?.mpr hn)))
  · rintro h ⟨n, id⟩ hx
    exact (hmap id _).mpr (checkNode_ok.mpr (h id n (List.mem_zipIdx_iff_getElem?.mp hx)))

end Plan

end Dataflow
