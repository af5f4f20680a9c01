import Dataflow.Requirement.Scope

/-!
# Solving requirements

The requirement rules, run backwards from the sinks of a plan until nothing
changes. Every sink is required in full. Nodes wait on a worklist and are taken
highest number first, so that a node normally comes after all its consumers; a
node is put back when more is required of it, or when more becomes known about
the parts of a field that it originates.

What is required only ever grows, and within bounds: a node has finitely many
positions, and only the identities and keys that occur in the plan can be
demanded. `State.room` counts what could still be added, and every visit either
uses up some of it or leaves the worklist shorter (`closer_of_visit`). That
holds of every plan, whatever its edges are and however identities are shared,
and it is why the analysis ends.
-/

namespace Dataflow

namespace Worklist

/-- Adds a node to a worklist, which is descending. -/
def insert (id : Nat) : List Nat → List Nat
  | [] => [id]
  | n :: ns =>
    if n < id then id :: n :: ns
    else if n = id then n :: ns
    else n :: insert id ns

def insertAll (pending : List Nat) (ids : List Nat) : List Nat :=
  ids.foldl (fun acc id => insert id acc) pending

end Worklist

structure Requirements where
  /-- What is required of each node. -/
  required : List Required
  trackers : Trackers
  /-- How many nodes were visited until nothing changed. -/
  visits : Nat
deriving Repr

namespace Solver

structure State where
  required : List Required
  trackers : Trackers
  /-- The nodes to visit, descending. -/
  pending : List Nat
  visits : Nat
deriving Repr

/-! ## Steps -/

/-- The identities whose parts an operator looks up. -/
def originated : Operator → List Uid
  | .cogroup g => g.bags.map Prod.snd
  | .union u => u.fields.map Field.uid
  | _ => []

/-- The nodes that look up the parts of a field. -/
def originators (p : Plan) (u : Uid) : List Nat :=
  p.nodes.filterMap fun n => if (originated n.op).contains u then some n.id else none

def State.requiredOf (s : State) (id : Nat) : Required := s.required.getD id .none

/-- Keeps the first field of a node of which nothing is required, so that its
rows still have a field. -/
def retainOne (n : Node) (id : Nat) (s : State) : State :=
  if (s.requiredOf id).isEmpty && !n.schema.isEmpty then
    { s with required := s.required.set id (.positions [0]) }
  else s

/-- Records findings about parts, puts back the nodes that look them up, and
says whether anything changed. -/
def absorbParts (p : Plan) : State → List PartDemand → State × Bool
  | s, [] => (s, false)
  | s, d :: ds =>
    let (trackers, changed) := s.trackers.apply d
    let s' := if changed then
      { s with
        trackers := trackers
        pending := Worklist.insertAll s.pending (originators p d.uid) }
      else s
    let (s'', changed') := absorbParts p s' ds
    (s'', changed || changed')

/-- Merges a demand into what is required of an input and into what is known
about parts, and says whether the latter changed. -/
def mergeDemand (p : Plan) (s : State) (input : Nat) (d : Demand) : State × Bool :=
  absorbParts p
    { s with required := s.required.set input ((s.requiredOf input).merge d.fields).1 } d.parts

/-- Adds a demand to what is required of an input, and puts the input back if
anything changed. -/
def absorb (p : Plan) (s : State) (input : Nat) (d : Demand) : State :=
  let merged := mergeDemand p s input d
  if ((s.requiredOf input).merge d.fields).2 || merged.2 then
    { merged.1 with pending := Worklist.insert input merged.1.pending }
  else merged.1

/-- Visits a node: adds what it needs of its inputs. -/
def visit (p : Plan) (retain : Bool) (s : State) (id : Nat) : Except Error State := do
  let n ← p.node id
  let s := { s with visits := s.visits + 1 }
  let s := if retain then retainOne n id s else s
  let demands ← p.inputDemands id (s.requiredOf id) s.trackers
  return (n.inputs.zip demands).foldl (fun s (e, d) => absorb p s e.node d) s

/-- The state before the first visit: every sink is required in full, every
node is to be visited. -/
def start (p : Plan) (trackers : Trackers) : State :=
  let sinks := p.sinks
  { required := (List.range p.nodes.length).map fun id =>
      if sinks.contains id then .all else .none
    trackers := sinks.foldl (fun t id =>
      t.applyAll (((p.nodes[id]?).map fun n => Schema.wholeDemands n.schema).getD [])) trackers
    pending := (List.range p.nodes.length).reverse
    visits := 0 }

/-! ## Bounds -/

def requiredRoom : List Node → List Required → Nat
  | n :: ns, r :: rs => r.room n.schema.length + requiredRoom ns rs
  | _, _ => 0

/-- What can still be added to the state of an analysis. -/
def State.room (p : Plan) (c : Scope) (s : State) : Nat :=
  requiredRoom p.nodes s.required + s.trackers.room c

/-- A state fits a plan and a scope: there is a requirement for every node, and
the keys that are known are in scope. -/
structure State.Fits (p : Plan) (c : Scope) (s : State) : Prop where
  length : s.required.length = p.nodes.length
  keys : s.trackers.mapKeys.Among c.keys

/-- A state is closer to the end than another: it has less room, or no more
room and a shorter worklist. -/
def Closer (p : Plan) (c : Scope) (s' s : State) : Prop :=
  s'.room p c < s.room p c ∨
    (s'.room p c ≤ s.room p c ∧ s'.pending.length < s.pending.length)

/-- The order in which a run descends. -/
theorem Closer.lex {p : Plan} {c : Scope} {s' s : State} (h : Closer p c s' s) :
    Prod.Lex (· < ·) (· < ·) (s'.room p c, s'.pending.length) (s.room p c, s.pending.length) := by
  rcases h with hlt | ⟨hle, hlt⟩
  · exact Prod.Lex.left _ _ hlt
  · rcases Nat.lt_or_eq_of_le hle with hroom | hroom
    · exact Prod.Lex.left _ _ hroom
    · rw [hroom]
      exact Prod.Lex.right _ hlt

/-- A state after a part of a visit: it has less room than the state before, or
no more room and the same worklist. -/
def After (p : Plan) (c : Scope) (s' s : State) : Prop :=
  s'.room p c < s.room p c ∨ (s'.room p c ≤ s.room p c ∧ s'.pending = s.pending)

theorem after_refl (p : Plan) (c : Scope) (s : State) : After p c s s :=
  Or.inr ⟨Nat.le_refl _, rfl⟩

theorem After.trans {p : Plan} {c : Scope} {s₁ s₂ s₃ : State} (h : After p c s₃ s₂)
    (h' : After p c s₂ s₁) : After p c s₃ s₁ := by
  rcases h with h | ⟨h, hp⟩ <;> rcases h' with h' | ⟨h', hp'⟩
  · exact Or.inl (by omega)
  · exact Or.inl (by omega)
  · exact Or.inl (by omega)
  · exact Or.inr ⟨by omega, hp.trans hp'⟩

/-- Putting a requirement with `k` less room in place of another. -/
theorem requiredRoom_set {nodes : List Node} {rs : List Required} {i k : Nat} {n : Node}
    {r : Required} (hlen : rs.length = nodes.length) (hn : nodes[i]? = some n)
    (hr : r.room n.schema.length + k ≤ (rs.getD i .none).room n.schema.length) :
    requiredRoom nodes (rs.set i r) + k ≤ requiredRoom nodes rs := by
  induction nodes generalizing rs i with
  | nil => cases hn
  | cons m ms ih =>
    cases rs with
    | nil => cases hlen
    | cons q qs =>
      cases i with
      | zero =>
        cases hn
        simp only [List.set_cons_zero, requiredRoom]
        simp only [List.getD_cons_zero] at hr
        omega
      | succ i =>
        have := ih (Nat.succ.inj hlen) hn (by simpa using hr)
        simp only [List.set_cons_succ, requiredRoom]
        omega

theorem retainOne_fits {p : Plan} {c : Scope} {s : State} (hs : s.Fits p c) (n : Node)
    (id : Nat) : (retainOne n id s).Fits p c := by
  unfold retainOne
  split
  · exact ⟨by simpa using hs.length, hs.keys⟩
  · exact hs

theorem after_retainOne {p : Plan} {c : Scope} {n : Node} {id : Nat} {s : State}
    (hs : s.Fits p c) (hn : p.nodes[id]? = some n) : After p c (retainOne n id s) s := by
  unfold retainOne
  split
  · rename_i h
    simp only [Bool.and_eq_true, Bool.not_eq_true', List.isEmpty_eq_false_iff] at h
    have hpos : 0 < n.schema.length := List.length_pos_iff.mpr h.2
    have hnone : s.required.getD id .none = .none := by
      have := h.1
      unfold State.requiredOf at this
      cases hr : s.required.getD id .none <;> rw [hr] at this <;> first | rfl | cases this
    have hroom := Required.insert_room (r := .none) hpos
    have := requiredRoom_set (k := 0) hs.length hn (r := .positions [0]) (by
      rw [hnone]
      simp only [Required.insert] at hroom
      omega)
    exact Or.inr ⟨by simp only [State.room]; omega, rfl⟩
  · exact after_refl p c s

/-- Findings in scope leave less room if they change anything, and change
nothing else otherwise. -/
theorem absorbParts_room {p : Plan} {c : Scope} {ds : List PartDemand} (hds : ∀ d ∈ ds, d.InScope c)
    (s : State) :
    (absorbParts p s ds).1.room p c + (absorbParts p s ds).2.toNat ≤ s.room p c ∧
      ((absorbParts p s ds).2 = false → (absorbParts p s ds).1.pending = s.pending) ∧
      (absorbParts p s ds).1.required = s.required := by
  induction ds generalizing s with
  | nil => simp [absorbParts]
  | cons d ds ih =>
    have hd := Trackers.apply_room (t := s.trackers) (hds d (List.mem_cons_self ..))
    have hrest := ih fun x hx => hds x (List.mem_cons_of_mem _ hx)
    simp only [absorbParts]
    cases hc : (s.trackers.apply d).2 with
    | false => simpa [hc] using hrest s
    | true =>
      rw [hc] at hd
      obtain ⟨h₁, _, h₃⟩ := hrest { s with
        trackers := (s.trackers.apply d).1
        pending := Worklist.insertAll s.pending (originators p d.uid) }
      simp only [State.room, if_true, Bool.true_or, Bool.toNat_true] at h₁ hd ⊢
      exact ⟨by omega, fun h => absurd h (by decide), h₃⟩

theorem absorbParts_among {p : Plan} {c : Scope} {ds : List PartDemand}
    (hds : ∀ d ∈ ds, d.InScope c) {s : State} (hs : s.trackers.mapKeys.Among c.keys) :
    (absorbParts p s ds).1.trackers.mapKeys.Among c.keys := by
  induction ds generalizing s with
  | nil => exact hs
  | cons d ds ih =>
    have hd := Trackers.apply_among (hds d (List.mem_cons_self ..)) hs
    simp only [absorbParts]
    refine ih (fun x hx => hds x (List.mem_cons_of_mem _ hx)) ?_
    split
    · exact hd
    · exact hs

theorem mergeDemand_fits {p : Plan} {c : Scope} {s : State} {d : Demand} {m : Node}
    (hs : s.Fits p c) (hd : d.Within c m.schema) (input : Nat) :
    (mergeDemand p s input d).1.Fits p c where
  length := by
    rw [mergeDemand, (absorbParts_room hd.parts _).2.2, List.length_set]
    exact hs.length
  keys := absorbParts_among hd.parts hs.keys

/-- Merging a demand leaves less room if it changes anything. -/
theorem mergeDemand_room {p : Plan} {c : Scope} {s : State} {input : Nat} {d : Demand} {m : Node}
    (hs : s.Fits p c) (hm : p.nodes[input]? = some m) (hd : d.Within c m.schema) :
    (mergeDemand p s input d).1.room p c + ((s.requiredOf input).merge d.fields).2.toNat +
      (mergeDemand p s input d).2.toNat ≤ s.room p c := by
  have hfields := requiredRoom_set hs.length hm
    (Required.merge_room (r := s.requiredOf input) hd.fields)
  have hparts := (absorbParts_room (p := p) hd.parts
    { s with required := s.required.set input ((s.requiredOf input).merge d.fields).1 }).1
  simp only [mergeDemand, State.room] at hparts ⊢
  omega

theorem absorb_fits {p : Plan} {c : Scope} {s : State} {d : Demand} {m : Node}
    (hs : s.Fits p c) (hd : d.Within c m.schema) (input : Nat) :
    (absorb p s input d).Fits p c := by
  have h := mergeDemand_fits hs hd input
  unfold absorb
  simp only
  split
  · exact ⟨h.length, h.keys⟩
  · exact h

theorem after_absorb {p : Plan} {c : Scope} {s : State} {input : Nat} {d : Demand} {m : Node}
    (hs : s.Fits p c) (hm : p.nodes[input]? = some m) (hd : d.Within c m.schema) :
    After p c (absorb p s input d) s := by
  have hroom := mergeDemand_room hs hm hd
  unfold absorb
  simp only
  split
  · rename_i h
    refine Or.inl ?_
    have hlt : (mergeDemand p s input d).1.room p c < s.room p c := by
      rcases Bool.or_eq_true_iff.mp h with h | h <;> rw [h, Bool.toNat_true] at hroom <;> omega
    exact hlt
  · rename_i h
    rw [Bool.not_eq_true, Bool.or_eq_false_iff] at h
    exact Or.inr ⟨by omega, (absorbParts_room hd.parts _).2.1 h.2⟩

/-- Absorbing all demands of a node. -/
theorem after_absorbAll {p : Plan} {c : Scope} {pairs : List (Edge × Demand)}
    (h : ∀ e d, (e, d) ∈ pairs → ∃ m, p.nodes[e.node]? = some m ∧ d.Within c m.schema)
    {s : State} (hs : s.Fits p c) :
    After p c (pairs.foldl (fun s (e, d) => absorb p s e.node d) s) s ∧
      (pairs.foldl (fun s (e, d) => absorb p s e.node d) s).Fits p c := by
  induction pairs generalizing s with
  | nil => exact ⟨after_refl p c s, hs⟩
  | cons x xs ih =>
    obtain ⟨e, d⟩ := x
    obtain ⟨m, hm, hd⟩ := h e d (List.mem_cons_self ..)
    have hrest := ih (fun e d hx => h e d (List.mem_cons_of_mem _ hx)) (absorb_fits hs hd e.node)
    exact ⟨hrest.1.trans (after_absorb hs hm hd), hrest.2⟩

/-- A visit leaves less room, or no more room and the worklist as it was; and
the state fits as before. -/
theorem after_visit {p : Plan} {c : Scope} (hc : c.Covers p) {retain : Bool} {id : Nat}
    {s s' : State} (hs : s.Fits p c) (h : visit p retain s id = .ok s') :
    After p c s' s ∧ s'.Fits p c := by
  obtain ⟨n, hn, h⟩ := bind_ok h
  obtain ⟨ds, hds, h⟩ := bind_ok h
  cases h
  have hn' := Plan.node_ok.mp hn
  have hcount : State.Fits p c { s with visits := s.visits + 1 } := ⟨hs.length, hs.keys⟩
  have hafter : After p c { s with visits := s.visits + 1 } s := after_refl p c s
  cases retain with
  | false =>
    obtain ⟨h₁, h₂⟩ := after_absorbAll
      (fun e d hx => Plan.inputDemands_within hc hcount.keys hn hds hx) hcount
    exact ⟨h₁.trans hafter, h₂⟩
  | true =>
    have hkept := retainOne_fits hcount n id
    obtain ⟨h₁, h₂⟩ := after_absorbAll
      (fun e d hx => Plan.inputDemands_within hc hkept.keys hn hds hx) hkept
    exact ⟨(h₁.trans (after_retainOne hcount hn')).trans hafter, h₂⟩

/-- A visit of the first node of the worklist leads closer to the end. -/
theorem closer_of_visit {p : Plan} {c : Scope} (hc : c.Covers p) {retain : Bool} {id : Nat}
    {rest : List Nat} {s s' : State} (hs : s.Fits p c) (hp : s.pending = id :: rest)
    (h : visit p retain { s with pending := rest } id = .ok s') :
    Closer p c s' s ∧ s'.Fits p c := by
  obtain ⟨hafter, hfits⟩ := after_visit hc (s := { s with pending := rest })
    ⟨hs.length, hs.keys⟩ h
  refine ⟨?_, hfits⟩
  rcases hafter with hlt | ⟨hle, hpending⟩
  · exact Or.inl hlt
  · exact Or.inr ⟨hle, by rw [hpending, hp]; exact Nat.lt_succ_self _⟩

/-- Visits nodes until none is left to visit. -/
def run (p : Plan) (retain : Bool) (c : Scope) (hc : c.Covers p) (s : State) (hs : s.Fits p c) :
    Except Error State :=
  match hp : s.pending with
  | [] => .ok s
  | id :: rest =>
    match h : visit p retain { s with pending := rest } id with
    | .error e => .error e
    | .ok s' => run p retain c hc s' (closer_of_visit hc hs hp h).2
termination_by (s.room p c, s.pending.length)
decreasing_by exact (closer_of_visit hc hs hp h).1.lex

end Solver

namespace Plan

/-- The state in which an analysis starts fits the scope of the plan. -/
theorem start_fits (p : Plan) (trackers : Trackers) :
    (Solver.start p trackers).Fits p (p.scope (Solver.start p trackers).trackers) where
  length := by simp [Solver.start]
  keys := p.among_scope _

/-- The requirements of every node, starting from some trackers. With `retain`,
a node keeps a field even if nothing of it is required. -/
def solve (p : Plan) (trackers : Trackers) (retain : Bool) : Except Error Requirements := do
  let s ← Solver.run p retain _ (p.scope_covers _) (Solver.start p trackers)
    (p.start_fits trackers)
  return ⟨s.required, s.trackers, s.visits⟩

end Plan

end Dataflow
