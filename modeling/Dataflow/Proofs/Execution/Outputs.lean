import Dataflow.Proofs.Execution.Conforms
import Dataflow.Proofs.Execution.Nodes
import Dataflow.Proofs.Narrowing.Rerun
import Dataflow.Proofs.Plan.Built
import Dataflow.Proofs.Requirement.Progress

/-!
# Runs of narrowed plans

A run of a narrowed plan follows the run of the plan before: node by node, the
output is what is left of the output before (`Plan.Narrowing.outputs`). Sinks are
required whole, and so is the input of a store, so nothing is missing from the
result, which is the same (`Plan.Narrowing.run_eq`).

What the two plans do not say themselves is in `Plan.Supplied`: that the tables
of the two runs agree on what is loaded, that the first run conforms to the
declared schemas, and that the inner columns of the rewritten selections are the
ones that were selected before.
-/

namespace Dataflow

open List (Forall₂)

variable {g : String → String} {t : Trackers} {restricted : Bool}

namespace Run

variable {T : Tables} {p : Plan} {n : Node} {nodes : List Node} {done outs : List Output}

/-! ## Runs -/

/-- One node of a run, after those that are done. -/
def extend (T : Tables) (p : Plan) (done : List Output) (n : Node) :
    Except Failure (List Output) := do
  let inputs ← n.inputs.mapM (edgeRows done)
  return done ++ [← runNode T p n inputs]

theorem extend_ok : extend T p done n = .ok outs ↔ ∃ inputs out,
    n.inputs.mapM (edgeRows done) = .ok inputs ∧ runNode T p n inputs = .ok out ∧
      outs = done ++ [out] := by
  constructor
  · intro h
    obtain ⟨inputs, hin, h⟩ := bind_ok h
    obtain ⟨out, hout, h⟩ := bind_ok h
    cases h
    exact ⟨inputs, out, hin, hout, rfl⟩
  · rintro ⟨inputs, out, hin, hout, rfl⟩
    unfold extend
    rw [hin]
    show (runNode T p n inputs >>= _) = _
    rw [hout]
    rfl

/-- A run only adds to what is done. -/
theorem outputs_extend (h : nodes.foldlM (extend T p) done = .ok outs) :
    ∃ more, outs = done ++ more ∧ more.length = nodes.length := by
  induction nodes generalizing done with
  | nil =>
    cases h
    exact ⟨[], (List.append_nil _).symm, rfl⟩
  | cons n nodes ih =>
    rw [List.foldlM_cons] at h
    obtain ⟨done', hdone', h⟩ := bind_ok h
    obtain ⟨-, out, -, -, rfl⟩ := extend_ok.mp hdone'
    obtain ⟨more, rfl, hlen⟩ := ih h
    exact ⟨out :: more, by simp, congrArg Nat.succ hlen⟩

theorem edgeRows_append {e : Edge} {rows : List Row} (h : edgeRows done e = .ok rows)
    (more : List Output) : edgeRows (done ++ more) e = .ok rows := by
  have hlt : e.node < done.length := by
    rcases Nat.lt_or_ge e.node done.length with hlt | hge
    · exact hlt
    · unfold edgeRows at h
      rw [List.getElem?_eq_none hge] at h
      cases h
  unfold edgeRows at h ⊢
  rwa [List.getElem?_append_left hlt]

/-! ## What is left of the outputs -/

/-- The outputs of the nodes that are done, and what is left of them. -/
def Kept (restricted : Bool) (ws : List (Slice g t)) (done done' : List Output) : Prop :=
  done'.length = done.length ∧ ∀ (id : Nat) w out, ws[id]? = some w → done[id]? = some out →
    ∃ out', done'[id]? = some out' ∧ Output.Kept restricted w out out'

theorem Kept.append {ws : List (Slice g t)} {done' : List Output}
    (h : Kept restricted ws done done') {w : Slice g t} (hw : ws[done.length]? = some w)
    {out out' : Output} (hout : Output.Kept restricted w out out') :
    Kept restricted ws (done ++ [out]) (done' ++ [out']) := by
  refine ⟨by simp [h.1], fun id x o hx ho => ?_⟩
  rcases Nat.lt_or_ge id done.length with hlt | hge
  · rw [List.getElem?_append_left hlt] at ho
    rw [List.getElem?_append_left (h.1 ▸ hlt)]
    exact h.2 id x o hx ho
  · have hid : id = done.length := by
      have := (List.getElem?_eq_some_iff.mp ho).1
      rw [List.length_append, List.length_singleton] at this
      omega
    subst hid
    rw [hw] at hx
    cases hx
    rw [List.getElem?_append_right (Nat.le_refl _), Nat.sub_self] at ho
    cases ho
    rw [List.getElem?_append_right (Nat.le_of_eq h.1), h.1, Nat.sub_self]
    exact ⟨out', rfl, hout⟩

/-- The rows that an edge leads to, and what is left of them. -/
theorem Kept.edgeRows {ws : List (Slice g t)} {done' : List Output}
    (h : Kept restricted ws done done') {e : Edge} {w : Slice g t} (hw : ws[e.node]? = some w)
    {rows : List Row} (hrows : edgeRows done e = .ok rows) :
    ∃ rows', Run.edgeRows done' e = .ok rows' ∧ w.Rows restricted rows rows' := by
  unfold Run.edgeRows at hrows ⊢
  cases hout : done[e.node]? with
  | none => rw [hout] at hrows; cases hrows
  | some out =>
    obtain ⟨out', hout', hkept⟩ := h.2 _ w out hw hout
    rw [hout] at hrows
    rw [hout']
    cases hkept with
    | rows hkept =>
      cases hb : e.branch with
      | none =>
        rw [hb] at hrows
        cases hrows
        exact ⟨_, rfl, hkept⟩
      | some b => rw [hb] at hrows; cases hrows
    | @branches branches branches' hkept =>
      cases hb : e.branch with
      | none => rw [hb] at hrows; cases hrows
      | some b =>
        rw [hb] at hrows
        cases hbranch : branches[b]? with
        | none =>
          simp only [hbranch] at hrows
          cases hrows
        | some x =>
          simp only [hbranch] at hrows
          cases hrows
          obtain ⟨x', hx', hrel⟩ := getElem?_of_left hkept hbranch
          exact ⟨x', by simp only [hx'], hrel⟩

/-- Nothing is missing from the output of a node that is kept whole. -/
theorem Kept.eq_of_whole {ws : List (Slice g t)} {done' : List Output}
    (h : Kept restricted ws done done') {id : Nat} {w : Slice g t} (hw : ws[id]? = some w)
    (hwhole : w.Whole) : done'[id]? = done[id]? := by
  cases hout : done[id]? with
  | none =>
    rw [List.getElem?_eq_none_iff] at hout ⊢
    exact h.1 ▸ hout
  | some out =>
    obtain ⟨out', hout', hkept⟩ := h.2 id w out hw hout
    rw [hout', hkept.eq_of_whole hwhole]

theorem Kept.inputs {ws ins : List (Slice g t)} {done' : List Output}
    (h : Kept restricted ws done done') {edges : List Edge} (hins : InputSlices ws edges ins)
    {inputs : List (List Row)} (hin : edges.mapM (Run.edgeRows done) = .ok inputs) :
    ∃ inputs', edges.mapM (Run.edgeRows done') = .ok inputs' ∧
      Along (Slice.Rows restricted) ins inputs inputs' := by
  induction hins generalizing inputs with
  | nil =>
    cases hin
    exact ⟨[], rfl, .nil⟩
  | cons hw _ ih =>
    obtain ⟨rows, more, rfl, hrows, hmore⟩ := mapM_cons_ok hin
    obtain ⟨rows', hrows', hrel⟩ := h.edgeRows hw hrows
    obtain ⟨more', hmore', hrels⟩ := ih hmore
    exact ⟨rows' :: more', mapM_ok.mpr (.cons hrows' (mapM_ok.mp hmore')), .cons hrel hrels⟩

end Run

namespace Plan

variable {p p' : Plan} {required : List Required} {ws : List (Slice g t)} {T T' : Tables}
  {outs : List Output}

/-- What the run of a narrowed plan relies on, besides the plans. -/
structure Supplied (restricted : Bool) (ws : List (Slice g t)) (p p' : Plan) (T T' : Tables)
    (outs : List Output) : Prop where
  bags : p.BagPerInput
  exact : ∀ n ∈ p.nodes, ∀ ins, InputSlices ws n.inputs ins → n.op.Exact ins
  loads : ∀ (id : Nat) n n' l l', p.nodes[id]? = some n → p'.nodes[id]? = some n' →
    n.op = .load l → n'.op = .load l' →
      Forall₂ (Row.Kept t restricted l.source.schema (.all l.source.schema.length))
        (Run.loadRows T l) (Run.loadRows T' l')
  conforms : ∀ n ∈ p.nodes, Run.nodeConforms T p outs n = true

theorem inputSchemas_eq {id : Nat} {n : Node} (hn : p.nodes[id]? = some n) :
    p.inputSchemas id = p.edgeSchemas n.inputs := by
  simp only [inputSchemas, node, hn]
  rfl

/-! ## The simulation -/

/-- The rows that come to a node are as its operator needs them. -/
theorem Supplied.fed (h : Supplied restricted ws p p' T T' outs) {id : Nat} {n n' : Node}
    {inputs : List Schema} {natural : Schema} (hn : p.nodes[id]? = some n)
    (hn' : p'.nodes[id]? = some n') (hc : p.Checked id n inputs natural) {ins : List (Slice g t)}
    (hins : InputSlices ws n.inputs ins) (hold : ins.map Slice.old = inputs)
    {rows : List (List Row)} (hrows : n.inputs.mapM (Run.edgeRows outs) = .ok rows) {out : Output}
    (hrun : Run.runNode T p n rows = .ok out) (hout : outs[id]? = some out) :
    Operator.Fed restricted T T' n.op n'.op ins rows := by
  have hconf := h.conforms n (List.mem_of_getElem? hn)
  have hid : n.id = id := hc.id_eq
  refine ⟨fun l l' hl hl' => h.loads id n n' l l' hn hn' hl hl', ?_, fun c hop => ?_,
    fun u hop => ?_⟩
  · rintro items w one hop rfl rfl row hrow item hitem fs out hfs hitems
    have hschemas := hc.schemas
    rw [← hold] at hschemas
    exact Run.nodeConforms_item hconf hop hrows hschemas hrow hitem hfs hitems
  · rw [h.bags n (List.mem_of_getElem? hn) c hop]
    exact hins.length_eq
  · have hlen : u.mappings.length = inputs.length := by
      have htakes := hc.takes
      rw [hop] at htakes
      rw [edgeSchemas_length hc.schemas]
      exact Nat.le_antisymm htakes.least (htakes.greatest _ rfl)
    have hnatural := hc.natural_eq
    rw [hop] at hnatural
    cases hnatural
    have hnone := Node.projection_none hc.exposed (by rw [hop]; rfl)
    refine ⟨fun m hm => ?_, fun row hrow => ?_⟩
    · obtain ⟨i, hi⟩ := List.mem_iff_getElem?.mp hm
      obtain ⟨s, hs⟩ : ∃ s, inputs[i]? = some s :=
        ⟨_, List.getElem?_eq_getElem (hlen ▸ (List.getElem?_eq_some_iff.mp hi).1)⟩
      exact (checkMapping_ok.mp (hc.mapped u hop (m, s)
        (List.mem_of_getElem? (List.getElem?_zip_eq_some.mpr ⟨hi, hs⟩)))).1
    · -- A union exposes its natural rows, and these conform.
      obtain ⟨natural, exposed, hnat, hexp, rfl⟩ := (Run.runNode_rows
        ((inputSchemas_eq (hid.symm ▸ hn)).trans hc.schemas) (by rw [hop]; nofun)).mp hrun
      rw [hop] at hnat
      rw [hnone] at hexp
      cases hnat
      cases hexp
      rw [Node.natural_of_part hc.exposed hnone]
      rw [← hid] at hout
      exact Run.nodeConforms_output hconf hout hrow

/-- The nodes that are left to run. -/
theorem Narrowing.outputs_rest (h : Narrowing required ws p p') (hcheck : p.check = .ok ())
    (hs : Supplied restricted ws p p' T T' outs) (nodes nodes' : List Node)
    (done done' : List Output) (hnodes : p.nodes.drop done.length = nodes)
    (hnodes' : p'.nodes.drop done.length = nodes') (hkept : Run.Kept restricted ws done done')
    (hrun : nodes.foldlM (Run.extend T p) done = .ok outs) :
    ∃ outs', nodes'.foldlM (Run.extend T' p') done' = .ok outs' ∧
      Run.Kept restricted ws outs outs' := by
  induction nodes generalizing nodes' done done' with
  | nil =>
    cases hrun
    have hlen : p'.nodes.length ≤ outs.length := by
      rw [h.length]
      exact List.drop_eq_nil_iff.mp hnodes
    rw [List.drop_eq_nil_of_le hlen] at hnodes'
    subst hnodes'
    exact ⟨done', rfl, hkept⟩
  | cons n nodes ih =>
    obtain ⟨hn, hrest⟩ := drop_eq_cons.mp hnodes
    obtain ⟨n', w, hn', hw⟩ := h.node_at hn
    obtain ⟨inputs, natural, hc⟩ := check_ok.mp hcheck _ n hn
    obtain ⟨w₀, ins, keep, req, natural₀, cols, hw₀, hins, hready, hnode⟩ := h.node _ n n' hn hn'
    rw [hw] at hw₀
    cases hw₀
    obtain ⟨hschemas, hschemas'⟩ := h.edgeSchemas hins
    have hold : ins.map Slice.old = inputs := Except.ok.inj (hschemas.symm.trans hc.schemas)
    rw [List.foldlM_cons] at hrun
    obtain ⟨next, hnext, hrun⟩ := bind_ok hrun
    obtain ⟨rows, out, hrows, hout, rfl⟩ := Run.extend_ok.mp hnext
    -- The rest of the run does not change what the node has read and put out.
    obtain ⟨more, hmore, -⟩ := Run.outputs_extend hrun
    have hrowsAll : n.inputs.mapM (Run.edgeRows outs) = .ok rows := by
      rw [hmore, List.append_assoc]
      exact mapM_ok.mpr ((mapM_ok.mp hrows).imp fun e x hx => Run.edgeRows_append hx _)
    have houtAll : outs[done.length]? = some out := by
      rw [hmore, List.append_assoc, List.getElem?_append_right (Nat.le_refl _), Nat.sub_self]
      rfl
    obtain ⟨rows', hrows', hrel⟩ := hkept.inputs hins hrows
    obtain ⟨out', hout', hleft⟩ :=
      hnode.runNode hready (hs.exact n (List.mem_of_getElem? hn) ins hins)
      hrel (hs.fed hn hn' hc hins hold hrowsAll hout houtAll)
      ((inputSchemas_eq (hc.id_eq.symm ▸ hn)).trans hschemas)
      (show p'.inputSchemas n'.id = .ok (ins.map Slice.new) by
        rw [inputSchemas_eq (hnode.id.trans hc.id_eq ▸ hn'), hnode.inputs, hschemas']) hout
    have hlen : (done ++ [out]).length = done.length + 1 := by simp
    obtain ⟨outs', hrun', hall⟩ := ih (p'.nodes.drop (done.length + 1)) (done ++ [out])
      (done' ++ [out']) (hlen ▸ hrest) (hlen ▸ rfl) (hkept.append hw hleft) hrun
    refine ⟨outs', ?_, hall⟩
    rw [← hnodes', drop_eq_cons.mpr ⟨hn', rfl⟩, List.foldlM_cons,
      Run.extend_ok.mpr ⟨rows', out', by rw [hnode.inputs, hrows'], hout', rfl⟩]
    exact hrun'

/-- The run of a narrowed plan follows the run of the plan before. -/
theorem Narrowing.outputs (h : Narrowing required ws p p') (hcheck : p.check = .ok ())
    (hs : Supplied restricted ws p p' T T' outs) (hrun : Run.outputs T p = .ok outs) :
    ∃ outs', Run.outputs T' p' = .ok outs' ∧ Run.Kept restricted ws outs outs' :=
  h.outputs_rest hcheck hs p.nodes p'.nodes [] [] rfl rfl ⟨rfl, nofun⟩ hrun

/-! ## Sinks -/

theorem sinkRows_eq {id : Nat} {n : Node} (hn : p.nodes[id]? = some n) :
    Run.sinkRows p outs id = match n.op with
      | .store _ => Run.storedRows outs n
      | _ => .ok (((outs[id]?).map Run.Output.all).getD []) := by
  simp only [Run.sinkRows, Plan.node, hn]
  rfl

/-- A sink gives the rows that it gave before. -/
theorem Narrowing.sinkRows (h : Narrowing required ws p p') (hclosed : p.Closed required t)
    {outs' : List Output} (hkept : Run.Kept restricted ws outs outs') {id : Nat}
    (hid : id ∈ p.sinks) : Run.sinkRows p' outs' id = Run.sinkRows p outs id := by
  have hlt : id < p.nodes.length := List.mem_range.mp (List.mem_filter.mp hid).1
  have hn : p.nodes[id]? = some p.nodes[id] := List.getElem?_eq_getElem hlt
  generalize p.nodes[id] = n at hn
  obtain ⟨n', w, hn', hw⟩ := h.node_at hn
  obtain ⟨w₀, ins, keep, req, natural, cols, hw₀, hins, -, hnode⟩ := h.node id n n' hn hn'
  have hrest : outs'[id]? = outs[id]? := hkept.eq_of_whole hw (h.whole_of_sink hclosed hid hw)
  have hop := hnode.op
  rw [sinkRows_eq hn, sinkRows_eq hn']
  generalize hop₁ : n.op = op at hop
  generalize hop₂ : n'.op = op' at hop
  cases hop with
  | store location hwhole =>
    -- A store has read its input whole, and gives what the input gives.
    show Run.storedRows outs' n' = Run.storedRows outs n
    have hinputs : ∃ e, n.inputs = [e] ∧ outs'[e.node]? = outs[e.node]? := by
      generalize n.inputs = edges at hins
      cases hins with
      | cons hx hnil =>
        cases hnil
        exact ⟨_, rfl, hkept.eq_of_whole hx hwhole⟩
    obtain ⟨e, he, hout⟩ := hinputs
    simp only [Run.storedRows, hnode.inputs, he, hout]
  | load | forEach | filter | join | cogroup | cross | union | distinct | orderBy | limit | split
  | stream => simp only [hrest]

/-- The run of a narrowed plan has the result of the run of the plan before. -/
theorem Narrowing.run_eq (h : Narrowing required ws p p') (hcheck : p.check = .ok ())
    (hclosed : p.Closed required t) (hs : Supplied restricted ws p p' T T' outs)
    (hrun : Run.outputs T p = .ok outs) : p'.run T' = p.run T := by
  obtain ⟨outs', hrun', hkept⟩ := h.outputs hcheck hs hrun
  unfold Plan.run
  rw [hrun, hrun', h.sinks_eq]
  refine mapM_congr fun id hid => ?_
  simp only [h.sinkRows hclosed hkept hid]

end Plan

end Dataflow
