import Dataflow.Proofs.Narrowing.InRange
import Dataflow.Proofs.Requirement.Closure

/-!
# Narrowed plans

The pass over a whole plan. A plan whose requirements are closed is narrowed
node by node, in order, and every node ends up in the relation `Node.Narrowed`
to the node before (`Plan.exists_narrowing`). The slices of the nodes before are
all that the next node needs to know.

When the pass is known to succeed its own outcome shows that every expression
could be renumbered; otherwise the expressions have to be in range.
-/

namespace Dataflow

open List (Forall₂)

/-! ## Demands of a checked node -/

namespace Plan

theorem inPlace_of_check {p : Plan} (h : p.check = .ok ()) : p.InPlace := fun id n hn => by
  obtain ⟨inputs, natural, hc⟩ := check_ok.mp h id n hn
  exact hc.id_eq

/-- What a node needs of its inputs, once its schemas are known. -/
theorem inputDemands_eq {p : Plan} {id : Nat} {n : Node} {inputs : List Schema} {natural : Schema}
    (hn : p.nodes[id]? = some n) (h : p.Checked id n inputs natural) (r : Required)
    (t : Trackers) :
    p.inputDemands id r t = (do
      let required ← (← n.naturalRequired r).resolve natural.length
      Demand.ofOperator n.displayName t n.op inputs required) := by
  have hnode : p.node id = .ok n := node_ok.mpr hn
  have hinputs : p.inputSchemas id = .ok inputs := by
    simp only [inputSchemas, hnode, bind, Except.bind, h.schemas]
  have hnatural : p.natural id = .ok natural := by
    simp only [Plan.natural, hnode, hinputs, bind, Except.bind, h.natural_eq]
  unfold inputDemands
  simp only [hnode, hinputs, hnatural, bind, Except.bind]

end Plan

theorem Demand.onFirst_length {name : String} {inputs : List Schema}
    {demand : Schema → Except Error Demand} {ds : List Demand}
    (h : Demand.onFirst name inputs demand = .ok ds) : ds.length = inputs.length := by
  cases inputs with
  | nil => cases h
  | cons s rest =>
    obtain ⟨d, -, h⟩ := bind_ok h
    cases h
    simp

theorem Demand.offsets_length (start : Nat) (inputs : List Schema) :
    (Demand.offsets start inputs).length = inputs.length := by
  induction inputs generalizing start with
  | nil => rfl
  | cons s inputs ih => exact congrArg Nat.succ (ih _)

/-- There is one demand for each input. -/
theorem Demand.ofOperator_length {name : String} {t : Trackers} {op : Operator}
    {inputs : List Schema} {required : List Nat} {ds : List Demand}
    (h : Demand.ofOperator name t op inputs required = .ok ds) : ds.length = inputs.length := by
  cases op with
  | load | store | distinct | stream => cases h; simp
  | filter | limit | orderBy | split | forEach => exact Demand.onFirst_length h
  | cross => rw [← (mapM_ok.mp h).length_eq, Demand.offsets_length]
  | join => rw [← (mapM_ok.mp h).length_eq, List.length_zipIdx, Demand.offsets_length]
  | cogroup | union => rw [← (mapM_ok.mp h).length_eq, List.length_zipIdx]

/-- There is one demand for each input of a node. -/
theorem Plan.inputDemands_length {p : Plan} {id : Nat} {n : Node} (hn : p.nodes[id]? = some n)
    {r : Required} {t : Trackers} {ds : List Demand} (hds : p.inputDemands id r t = .ok ds) :
    ds.length = n.inputs.length := by
  have hnode : p.node id = .ok n := node_ok.mpr hn
  unfold inputDemands inputSchemas at hds
  simp only [hnode, bind, Except.bind] at hds
  cases hinputs : p.edgeSchemas n.inputs with
  | error e => simp [hinputs] at hds
  | ok inputs =>
    simp only [hinputs] at hds
    obtain ⟨natural, -, hds⟩ := bind_ok hds
    obtain ⟨r', -, hds⟩ := bind_ok hds
    obtain ⟨required, -, hds⟩ := bind_ok hds
    rw [Demand.ofOperator_length hds, edgeSchemas_length hinputs]

/-! ## The relation -/

variable {g : String → String} {t : Trackers}

/-- The slices of a node's inputs, among those of all nodes. -/
def InputSlices (ws : List (Slice g t)) (edges : List Edge) (ins : List (Slice g t)) : Prop :=
  Forall₂ (fun e w => ws[e.node]? = some w) edges ins

/-- What the pass made of the node stored under a number. -/
def Plan.NarrowedAt (required : List Required) (ws : List (Slice g t)) (id : Nat) (n n' : Node) :
    Prop :=
  ∃ w ins keep req natural cols, ws[id]? = some w ∧ InputSlices ws n.inputs ins ∧
    n.Ready (required.getD id .none) keep req natural ins ∧
    n.Narrowed (required.getD id .none) req natural cols n' ins w

/-- A plan before and after the pass, with the slices of its nodes. -/
structure Plan.Narrowing (required : List Required) (ws : List (Slice g t)) (p p' : Plan) :
    Prop where
  length : p'.nodes.length = p.nodes.length
  slices : ws.length = p.nodes.length
  node : ∀ id n n', p.nodes[id]? = some n → p'.nodes[id]? = some n' →
    Plan.NarrowedAt required ws id n n'

theorem Plan.NarrowedAt.append {required : List Required} {ws : List (Slice g t)} {id : Nat}
    {n n' : Node} (h : Plan.NarrowedAt required ws id n n') (ws' : List (Slice g t)) :
    Plan.NarrowedAt required (ws ++ ws') id n n' := by
  have hmono : ∀ {i : Nat} {w : Slice g t}, ws[i]? = some w → (ws ++ ws')[i]? = some w :=
    fun hi => by rw [List.getElem?_append_left (List.getElem?_eq_some_iff.mp hi).1, hi]
  obtain ⟨w, ins, keep, req, natural, cols, hw, hins, hready, hnar⟩ := h
  exact ⟨w, ins, keep, req, natural, cols, hmono hw, hins.imp fun _ _ => hmono, hready, hnar⟩

namespace Plan

variable {p : Plan} {required : List Required} {Q : Slice g t → Prop}

/-- The slices of the nodes before some node: each keeps what is required of its
node, and has the property `Q`. -/
def Done (p : Plan) (required : List Required) (Q : Slice g t → Prop) (ws : List (Slice g t)) :
    Prop :=
  ∀ i w, ws[i]? = some w → Q w ∧ ∃ m, p.nodes[i]? = some m ∧ w.old = m.schema ∧
    ∀ e < m.schema.length, (required.getD i .none).contains e = true → e ∈ w.kept

/-- Slices with the property `Q` can answer the selections of every node. -/
def Answers (p : Plan) (required : List Required) (Q : Slice g t → Prop) : Prop :=
  ∀ (id : Nat) (n : Node) keep req natural ins ds, p.nodes[id]? = some n →
    p.edgeSchemas n.inputs = .ok (ins.map Slice.old) →
    n.Ready (required.getD id .none) keep req natural ins → n.op.Takes ins.length →
    Demand.ofOperator n.displayName t n.op (ins.map Slice.old) req = .ok ds → AllHeld ins ds →
    (∀ w ∈ ins, Q w) → n.Selects keep ins

/-- The slice of a node has the property `Q` if those of its inputs have it. -/
def Passes (p : Plan) (required : List Required) (Q : Slice g t → Prop) : Prop :=
  ∀ (id : Nat) (n : Node) keep ins proj w, p.nodes[id]? = some n →
    (required.getD id .none).resolve n.schema.length = .ok keep →
    Forall₂ (fun e (x : Slice g t) =>
      ∃ m, p.nodes[e.node]? = some m ∧ x.old = m.schema) n.inputs ins →
    (∀ w ∈ ins, Q w) → Projected.ofAny n keep (ins.map Slice.narrowed) = .ok proj →
    w.old = n.schema → w.new = proj.schema → Q w

/-! ## One node -/

theorem Done.inputs {ws : List (Slice g t)} {id : Nat} {n : Node} {inputs : List Schema}
    {natural : Schema} (hc : p.Checked id n inputs natural) (hlen : id ≤ ws.length) :
    ∃ ins, InputSlices ws n.inputs ins := exists_forall₂ fun e he =>
  ⟨_, List.getElem?_eq_getElem (Nat.lt_of_lt_of_le (hc.earlier e he).1 hlen)⟩

theorem Done.old_eq {ws ins : List (Slice g t)} (hws : p.Done required Q ws) {edges : List Edge}
    {inputs : List Schema} (hinputs : p.edgeSchemas edges = .ok inputs)
    (hins : InputSlices ws edges ins) : ins.map Slice.old = inputs := by
  have hschemas := edgeSchemas_ok.mp hinputs
  clear hinputs
  induction hins generalizing inputs with
  | nil => cases hschemas; rfl
  | cons hw _ ih =>
    cases hschemas with
    | cons hs hrest =>
      obtain ⟨-, m, hm, hold, -⟩ := hws _ _ hw
      obtain ⟨m', hm', rfl⟩ := hs
      rw [hm] at hm'
      cases hm'
      rw [List.map_cons, ih hrest, hold]

theorem Done.narrowedInputs {ws ins : List (Slice g t)} {n : Node}
    (hins : InputSlices ws n.inputs ins) :
    Plan.narrowedInputs (ws.map Slice.narrowed) n = .ok (ins.map Slice.narrowed) := by
  unfold Plan.narrowedInputs
  rw [mapM_ok, List.forall₂_map_right_iff]
  refine hins.imp fun e w hw => ?_
  rw [List.getElem?_map, hw]
  rfl

/-- Demands that were absorbed are held by the slices of the inputs. -/
theorem Done.allHeld {ws ins : List (Slice g t)} (hws : p.Done required Q ws) {edges : List Edge}
    (hins : InputSlices ws edges ins) {ds : List Demand} (hlen : ds.length = edges.length)
    (habs : ∀ e d, (e, d) ∈ edges.zip ds → Absorbed required t e.node d) : AllHeld ins ds := by
  refine forall₂_of_getElem? (hlen.trans hins.length_eq) fun i d w hd hw => ?_
  obtain ⟨e, he, hwe⟩ := getElem?_of_right hins hw
  obtain ⟨-, m, hm, hold, hkeeps⟩ := hws _ _ hwe
  have hx := habs e d (List.mem_of_getElem? (List.getElem?_zip_eq_some.mpr ⟨he, hd⟩))
  rw [hold]
  exact ⟨fun q hq hc => hkeeps q hq (hx.fields.contains q hc), hx.parts⟩

/-- One more node that is done. -/
theorem Done.append {ws : List (Slice g t)} (hws : p.Done required Q ws) {w : Slice g t} (hQ : Q w)
    {m : Node} (hm : p.nodes[ws.length]? = some m) (hold : w.old = m.schema)
    (hkeeps : ∀ e < m.schema.length,
      (required.getD ws.length .none).contains e = true → e ∈ w.kept) :
    p.Done required Q (ws ++ [w]) := by
  intro i x hx
  rcases Nat.lt_or_ge i ws.length with hi | hi
  · rw [List.getElem?_append_left hi] at hx
    exact hws i x hx
  · obtain rfl : i = ws.length := by
      have hlt := (List.getElem?_eq_some_iff.mp hx).1
      rw [List.length_append, List.length_singleton] at hlt
      omega
    rw [List.getElem?_append_right hi, Nat.sub_self] at hx
    cases hx
    exact ⟨hQ, m, hm, hold, hkeeps⟩

/-- The pass over the next node. -/
theorem narrowed_next (hclosed : p.Closed required t) (hanswers : p.Answers required Q)
    {id : Nat} {n : Node} {inputs : List Schema} {natural : Schema} (hn : p.nodes[id]? = some n)
    (hc : p.Checked id n inputs natural) {ws : List (Slice g t)} (hws : p.Done required Q ws)
    (hlen : ws.length = id)
    (hren : p.inRange = true ∨ ∃ proj, projectNode required (ws.map Slice.narrowed) n = .ok proj) :
    ∃ keep ins proj w, (required.getD id .none).resolve n.schema.length = .ok keep ∧
      InputSlices ws n.inputs ins ∧ Projected.ofAny n keep (ins.map Slice.narrowed) = .ok proj ∧
      projectNode required (ws.map Slice.narrowed) n = .ok proj ∧ proj.kept = w.kept ∧
      w.old = n.schema ∧ w.new = proj.schema ∧
      NarrowedAt required (ws ++ [w]) id n (proj.apply n) ∧
      ∀ e < n.schema.length, (required.getD id .none).contains e = true → e ∈ w.kept := by
  have hproper := hclosed.proper id
  obtain ⟨keep, hkeep⟩ := Required.exists_resolve (hclosed.below id n hn)
  obtain ⟨hasc, hmem⟩ := Required.resolve_ok hproper.ascending hkeep
  obtain ⟨ds, hds, habs⟩ := hclosed.settled id n hn
  rw [inputDemands_eq hn hc] at hds
  obtain ⟨r', hr', hds⟩ := bind_ok hds
  obtain ⟨req, hreq, hds⟩ := bind_ok hds
  obtain ⟨hrasc, hrb, hrmem⟩ := Node.mem_required hproper hr' hreq hc.exposed
  obtain ⟨ins, hins⟩ := Done.inputs hc (Nat.le_of_eq hlen.symm)
  have hold := hws.old_eq hc.schemas hins
  have hlens : ins.length = n.inputs.length := hins.length_eq.symm
  rw [← hold] at hds
  have hheld : AllHeld ins ds := hws.allHeld hins
    (by rw [Demand.ofOperator_length hds, List.length_map, hlens]) habs
  have hready : n.Ready (required.getD id .none) keep req natural ins :=
    ⟨⟨id, hc.exposed⟩, hasc, hmem, hrasc, hrb, hrmem⟩
  have htakes : n.op.Takes ins.length := hlens ▸ hc.takes
  have hproj : projectNode required (ws.map Slice.narrowed) n =
      failing (Projected.ofAny n keep (ins.map Slice.narrowed)) := by
    have hr : required[id]? = some (required.getD id .none) := by
      have hlt : id < required.length := by
        rw [hclosed.length]; exact (List.getElem?_eq_some_iff.mp hn).1
      simp [hlt]
    unfold projectNode
    simp only [List.length_map, hlen, hr, hkeep, Done.narrowedInputs hins, bind, Except.bind,
      failing, Except.mapError]
  have hrenumbers : n.Renumbers keep ins := by
    rcases hren with hrange | ⟨proj, hok⟩
    · refine Node.renumbers_of_inRange hready htakes hds hheld fun x hx => ?_
      obtain ⟨s, hs, hx'⟩ := inRange_at hrange (List.mem_of_getElem? hn) hc.schemas x hx
      rw [← hold, List.getElem?_map] at hs
      obtain ⟨w, hw, rfl⟩ := Option.map_eq_some_iff.mp hs
      exact ⟨w, hw, hx'⟩
    · rw [hproj] at hok
      cases hany : Projected.ofAny n keep (ins.map Slice.narrowed) with
      | error c => rw [hany] at hok; cases hok
      | ok proj' => exact Node.renumbers_of_ok hany
  have hsel := hanswers id n keep req natural ins ds hn (hold ▸ hc.schemas) hready htakes hds hheld
    fun w hw => by
      obtain ⟨e, -, he⟩ := mem_of_right hins hw
      exact (hws _ _ he).1
  obtain ⟨cols, proj, w, hany, hkept, hnar⟩ := Node.narrowed_of_held hready
    (by rw [hold]; exact hc.natural_eq) htakes hds hheld hsel hrenumbers
  refine ⟨keep, ins, proj, w, hkeep, hins, hany, by rw [hproj, hany]; rfl, hkept, hnar.old,
    hnar.new, ?_, hnar.keeps⟩
  refine ⟨w, ins, keep, req, natural, cols, ?_, hins.imp fun e x hx => ?_, hready, hnar⟩
  · rw [← hlen]; simp
  · rw [List.getElem?_append_left (List.getElem?_eq_some_iff.mp hx).1, hx]

/-! ## All nodes -/

/-- The pass over the nodes that are left. -/
theorem narrowed_rest (hcheck : p.check = .ok ()) (hclosed : p.Closed required t)
    (hanswers : p.Answers required Q) (hpasses : p.Passes required Q) (rest : List Node)
    (ws : List (Slice g t)) (hrest : p.nodes.drop ws.length = rest) (hws : p.Done required Q ws)
    (hren : p.inRange = true ∨
      ∃ changed, (projectNodes required (ws.map Slice.narrowed) rest).2 = .ok changed) :
    ∃ nodes changed ws', projectNodes required (ws.map Slice.narrowed) rest =
        (nodes, .ok changed) ∧ nodes.length = rest.length ∧ ws'.length = rest.length ∧
      (∀ i n n', rest[i]? = some n → nodes[i]? = some n' →
        NarrowedAt required (ws ++ ws') (ws.length + i) n n') ∧ p.Done required Q (ws ++ ws') := by
  induction rest generalizing ws with
  | nil =>
    refine ⟨[], false, [], rfl, rfl, rfl, fun i n n' hn => ?_, by rwa [List.append_nil]⟩
    cases hn
  | cons n rest ih =>
    obtain ⟨hn, hdrop⟩ := drop_eq_cons.mp hrest
    obtain ⟨inputs, natural, hc⟩ := check_ok.mp hcheck ws.length n hn
    have hren₁ : p.inRange = true ∨
        ∃ proj, projectNode required (ws.map Slice.narrowed) n = .ok proj := by
      refine hren.imp id fun ⟨changed, h⟩ => ?_
      cases hproj : projectNode required (ws.map Slice.narrowed) n with
      | ok proj => exact ⟨proj, rfl⟩
      | error c => rw [projectNodes, hproj] at h; cases h
    obtain ⟨keep, ins, proj, w, hkeep, hins, hany, hproj, hkept, hold, hnew, hat, hkeeps⟩ :=
      narrowed_next hclosed hanswers hn hc hws rfl hren₁
    have hQ : Q w := by
      refine hpasses _ n keep ins proj w hn hkeep (hins.imp fun e x hx => ?_) (fun x hx => ?_) hany
        hold hnew
      · obtain ⟨-, m, hm, hxold, -⟩ := hws _ _ hx
        exact ⟨m, hm, hxold⟩
      · obtain ⟨e, -, he⟩ := mem_of_right hins hx
        exact (hws _ _ he).1
    have hws' := hws.append hQ hn hold hkeeps
    -- What the pass remembers of the node is its slice.
    have hnext : (⟨n.schema, proj.schema, .ofKept n.schema.length proj.kept⟩ : Narrowed) =
        w.narrowed := by rw [hkept, ← hold, ← hnew]; rfl
    have hstep : projectNodes required (ws.map Slice.narrowed) (n :: rest) =
        (proj.apply n :: (projectNodes required ((ws ++ [w]).map Slice.narrowed) rest).1,
          (projectNodes required ((ws ++ [w]).map Slice.narrowed) rest).2.map
            fun changed => proj.differs n || changed) := by
      rw [List.map_append, List.map_singleton, ← hnext, projectNodes, hproj]
    have hren₂ : p.inRange = true ∨ ∃ changed,
        (projectNodes required ((ws ++ [w]).map Slice.narrowed) rest).2 = .ok changed := by
      refine hren.imp id fun ⟨changed, h⟩ => ?_
      rw [hstep] at h
      cases hrest : (projectNodes required ((ws ++ [w]).map Slice.narrowed) rest).2 with
      | ok c => exact ⟨c, rfl⟩
      | error c =>
        dsimp only at h
        rw [hrest] at h
        cases h
    obtain ⟨nodes, changed, ws', hnodes, hlen, hlen', hall, hdone⟩ := ih (ws ++ [w])
      (by rw [List.length_append, List.length_singleton, hdrop]) hws' hren₂
    rw [List.append_assoc, List.singleton_append] at hdone hall
    refine ⟨proj.apply n :: nodes, proj.differs n || changed, w :: ws', ?_, congrArg Nat.succ hlen,
      congrArg Nat.succ hlen', fun i m m' hm hm' => ?_, hdone⟩
    · rw [hstep, hnodes]
      rfl
    · cases i with
      | zero =>
        cases hm
        cases hm'
        have := hat.append ws'
        rwa [List.append_assoc, List.singleton_append] at this
      | succ i =>
        have := hall i m m' hm hm'
        rw [List.length_append, List.length_singleton] at this
        rwa [show ws.length + (i + 1) = ws.length + 1 + i by omega]

/-- The pass over a plan whose requirements are closed. -/
theorem exists_narrowing (hcheck : p.check = .ok ()) (hclosed : p.Closed required t)
    (hanswers : p.Answers required Q) (hpasses : p.Passes required Q)
    (hren : p.inRange = true ∨ ∃ changed, (p.project required).2 = .ok changed) :
    ∃ p' changed ws, p.project required = (p', .ok changed) ∧
      Narrowing required ws p p' ∧ p.Done required Q ws := by
  obtain ⟨nodes, changed, ws, hnodes, hlen, hlen', hall, hdone⟩ :=
    narrowed_rest hcheck hclosed hanswers hpasses p.nodes [] rfl nofun hren
  refine ⟨⟨nodes⟩, changed, ws, ?_, ⟨hlen, hlen', fun id n n' hn hn' => ?_⟩, hdone⟩
  · unfold project
    rw [show ([] : List Narrowed) = ([] : List (Slice g t)).map Slice.narrowed from rfl, hnodes]
  · have := hall id n n' hn hn'
    rwa [List.nil_append, List.length_nil, Nat.zero_add] at this

/-- The same for plans whose schemas are coherent. -/
theorem exists_narrowing_of_coherent (hcheck : p.check = .ok ()) (hclosed : p.Closed required t)
    (hs : ∀ n ∈ p.nodes, Schema.Coherent g n.schema)
    (hren : p.inRange = true ∨ ∃ changed, (p.project required).2 = .ok changed) :
    ∃ p' changed, ∃ ws : List (Slice g t), p.project required = (p', .ok changed) ∧
      Narrowing required ws p p' := by
  obtain ⟨p', changed, ws, hproj, hnar, -⟩ := exists_narrowing hcheck hclosed
    (Q := fun w : Slice g t => Schema.Coherent g w.old)
    (fun id n keep req natural ins ds hn _ hready htakes hd hh hQ =>
      Node.selects_of_coherent hready htakes hd hh hQ)
    (fun id n keep ins proj w hn _ _ _ _ hold _ => by
      show Schema.Coherent g w.old
      rw [hold]
      exact hs n (List.mem_of_getElem? hn)) hren
  exact ⟨p', changed, ws, hproj, hnar⟩

namespace Narrowing

variable {p' : Plan} {ws : List (Slice g t)}

theorem node_at (h : Narrowing required ws p p') {id : Nat} {n : Node}
    (hn : p.nodes[id]? = some n) : ∃ n' w, p'.nodes[id]? = some n' ∧ ws[id]? = some w := by
  have hlt := (List.getElem?_eq_some_iff.mp hn).1
  exact ⟨_, _, List.getElem?_eq_getElem (h.length ▸ hlt), List.getElem?_eq_getElem (h.slices ▸ hlt)⟩

theorem old_at (h : Narrowing required ws p p') {id : Nat} {n' : Node}
    (hn' : p'.nodes[id]? = some n') : ∃ n, p.nodes[id]? = some n :=
  ⟨_, List.getElem?_eq_getElem (h.length ▸ (List.getElem?_eq_some_iff.mp hn').1)⟩

/-- A slice is that of a node, before and after. -/
theorem slice_at (h : Narrowing required ws p p') {id : Nat} {w : Slice g t}
    (hw : ws[id]? = some w) : ∃ n n', p.nodes[id]? = some n ∧ p'.nodes[id]? = some n' ∧
      w.old = n.schema ∧ w.new = n'.schema ∧ NarrowedAt required ws id n n' := by
  have hlt : id < p.nodes.length := h.slices ▸ (List.getElem?_eq_some_iff.mp hw).1
  have hn := List.getElem?_eq_getElem hlt
  obtain ⟨n', -, hn', -⟩ := h.node_at hn
  obtain ⟨w₀, _, _, _, _, _, hw₀, -, -, hnode⟩ := h.node id _ n' hn hn'
  rw [hw] at hw₀
  cases hw₀
  exact ⟨_, n', hn, hn', hnode.old, hnode.new, h.node id _ n' hn hn'⟩

/-- The schemas that edges lead to before and after. -/
theorem edgeSchemas (h : Narrowing required ws p p') {edges : List Edge}
    {ins : List (Slice g t)} (hins : InputSlices ws edges ins) :
    p.edgeSchemas edges = .ok (ins.map Slice.old) ∧
      p'.edgeSchemas edges = .ok (ins.map Slice.new) := by
  constructor
  · refine edgeSchemas_ok.mpr (List.forall₂_map_right_iff.mpr (hins.imp fun e x hx => ?_))
    obtain ⟨m, -, hm, -, hold, -⟩ := h.slice_at hx
    exact ⟨m, hm, hold.symm⟩
  · refine edgeSchemas_ok.mpr (List.forall₂_map_right_iff.mpr (hins.imp fun e x hx => ?_))
    obtain ⟨-, m', -, hm', -, hnew, -⟩ := h.slice_at hx
    exact ⟨m', hm', hnew.symm⟩

end Narrowing

end Plan

end Dataflow
