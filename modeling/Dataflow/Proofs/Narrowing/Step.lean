import Dataflow.Proofs.Narrowing.Nodes
import Dataflow.Proofs.Narrowing.Types

/-!
# The pass over one node, whatever is required of it

What a node is after a pass that succeeded, with nothing known of how the
required positions were found: the kept positions contain the required ones
(`Projected.ofAny_retains`), the fields at them are there with what is left of
their types (`Projected.ofAny_narrows`), and the expressions that remain are
those before, renumbered for their inputs (`Projected.ofAny_expressions`). Only
the second of these looks at what the inputs were narrowed to.
-/

namespace Dataflow

open List (Forall₂)
open Dataflow.Expr (Renumbered)

variable {P : Prop} {n : Node} {keep : List Nat} {ins : List Dataflow.Narrowed}
  {proj : Projected}

/-! ## Expressions put back -/

/-- What a revision that succeeded made of an operator. -/
theorem Operator.revise_of_ok {op : Operator} {f : Nat → Expr → Except Error (Revised Expr)}
    {changed : Bool} (h : (op.revise f).result = .ok changed) :
    ∃ rs, Forall₂ (fun x r => f x.1 x.2 = .ok r) op.expressions rs ∧ op.revise f =
      ⟨op.withExpressions (rs.map Revised.value), op.expressions.length,
        .ok (rs.any Revised.changed)⟩ := by
  obtain ⟨rs, hrs⟩ := forall₂_of_reviseEach h
  refine ⟨rs, hrs, ?_⟩
  unfold Operator.revise
  rw [reviseEach_ok hrs]

/-- The natural output of an operator does not depend on its expressions, unless
it has items. -/
theorem Operator.natural_withExpressions {op : Operator} (hop : ∀ items, op ≠ .forEach items)
    (es : List Expr) (inputs : List Schema) :
    (op.withExpressions es).natural inputs = op.natural inputs := by
  cases op with
  | forEach items => exact absurd rfl (hop items)
  | filter p => cases inputs <;> rfl
  | orderBy o => cases inputs <;> rfl
  | split ps => cases inputs <;> rfl
  | _ => rfl

theorem Operator.canProject_withExpressions (op : Operator) (es : List Expr) :
    (op.withExpressions es).canProject = op.canProject := by cases op <;> rfl

theorem Operator.name_withExpressions (op : Operator) (es : List Expr) :
    (op.withExpressions es).name = op.name := by cases op <;> rfl

theorem Projected.naturalMap_withExpressions (op : Operator) (es : List Expr) (width : Nat) :
    naturalMap (op.withExpressions es) ins width = naturalMap op ins width := by cases op <;> rfl

/-! ## Natural outputs -/

/-- Positions of a schema that lead to what is left of their fields in
another. -/
def PositionMap.Leads (P : Prop) (s s' : Schema) (moved : PositionMap) : Prop :=
  ∀ m q : Nat, moved[m]?.join = some q → ∃ f f', s[m]? = some f ∧ s'[q]? = some f' ∧
    Field.Narrows P f f'

theorem Narrowed.Keeps.leads {N : Narrowed} {kept : List Nat} (h : N.Keeps P kept) :
    PositionMap.Leads P N.old N.new N.moved := by
  intro m q hq
  rw [h.moved, PositionMap.ofKept_getElem? h.narrows.ascending h.narrows.bounded] at hq
  exact h.narrows.field_kept hq

/-- Fields side by side lead to what is left of them, side by side. -/
theorem Projected.joined_leads (h : ∀ N ∈ ins, ∃ kept, Narrowed.Keeps P kept N) (offset m q : Nat)
    (hq : (joined offset ins)[m]?.join = some q) :
    offset ≤ q ∧ ∃ f f', (ins.map Narrowed.old).flatten[m]? = some f ∧
      (ins.map Narrowed.new).flatten[q - offset]? = some f' ∧ f.Narrows P f' := by
  induction ins generalizing offset m with
  | nil => cases hq
  | cons N ins ih =>
    obtain ⟨kept, hN⟩ := h N (List.mem_cons_self ..)
    have hlen : N.moved.length = N.old.length := by
      rw [hN.moved, PositionMap.ofKept, List.length_map, List.length_range]
    rw [joined, List.getElem?_append, List.length_map, hlen] at hq
    rw [List.map_cons, List.map_cons, List.flatten_cons, List.flatten_cons]
    split at hq
    · rename_i hm
      rw [List.getElem?_map] at hq
      obtain ⟨r, hr, hrq⟩ : ∃ r, N.moved[m]?.join = some r ∧ r + offset = q := by
        cases hmv : N.moved[m]? with
        | none => rw [hmv] at hq; cases hq
        | some x => rw [hmv] at hq; exact Option.map_eq_some_iff.mp hq
      obtain ⟨f, f', hf, hf', hn⟩ := hN.leads m r hr
      refine ⟨by omega, f, f', ?_, ?_, hn⟩
      · rw [List.getElem?_append_left hm, hf]
      · rw [show q - offset = r by omega,
          List.getElem?_append_left (List.getElem?_eq_some_iff.mp hf').1, hf']
    · rename_i hm
      obtain ⟨hle, f, f', hf, hf', hn⟩ :=
        ih (fun N hN => h N (List.mem_cons_of_mem _ hN)) _ _ hq
      refine ⟨by omega, f, f', ?_, ?_, hn⟩
      · rw [List.getElem?_append_right (by omega), hf]
      · rw [List.getElem?_append_right (by omega), ← hf']
        congr 1
        omega

theorem PositionMap.leads_range {s s' : Schema} (h : Forall₂ (Field.Narrows P) s s') :
    PositionMap.Leads P s s' ((List.range s.length).map some) := by
  intro m q hq
  rw [List.getElem?_map] at hq
  by_cases hm : m < s.length
  · rw [List.getElem?_range hm] at hq
    cases hq
    obtain ⟨f', hf', hn⟩ := getElem?_of_left h (List.getElem?_eq_getElem hm)
    exact ⟨_, f', List.getElem?_eq_getElem hm, hf', hn⟩
  · rw [List.getElem?_eq_none (by simpa using hm)] at hq
    cases hq

theorem CoGroup.schema_narrows (c : CoGroup) (h : ∀ N ∈ ins, ∃ kept, Narrowed.Keeps P kept N) :
    Forall₂ (Field.Narrows P) (c.schema (ins.map Narrowed.old))
      (c.schema (ins.map Narrowed.new)) := by
  refine .cons c.group.narrows_refl ?_
  generalize c.bags = bags
  induction bags generalizing ins with
  | nil => exact .nil
  | cons b bags ih =>
    cases ins with
    | nil => exact .nil
    | cons N ins =>
      obtain ⟨kept, hN⟩ := h N (List.mem_cons_self ..)
      exact .cons ⟨rfl, fun _ => rfl, hN.narrows.type rfl rfl rfl⟩
        (ih fun N hN => h N (List.mem_cons_of_mem _ hN))

/-- The natural positions of an operator lead to what is left of its natural
output. -/
theorem Projected.naturalMap_leads (h : ∀ N ∈ ins, ∃ kept, Narrowed.Keeps P kept N) {op : Operator}
    (hop : op.canProject = true) {natural natural' : Schema}
    (hnat : op.natural (ins.map Narrowed.old) = .ok natural)
    (hnat' : op.natural (ins.map Narrowed.new) = .ok natural') :
    PositionMap.Leads P natural natural' (naturalMap op ins natural.length) := by
  have hsame : ∀ {s : Schema}, PositionMap.Leads P s s ((List.range s.length).map some) :=
    PositionMap.leads_range (List.forall₂_same.mpr fun f _ => f.narrows_refl)
  have hjoined : PositionMap.Leads P (ins.map Narrowed.old).flatten (ins.map Narrowed.new).flatten
      (joined 0 ins) := fun m q hq => (joined_leads h 0 m q hq).2
  have hfirst : ∀ {N : Narrowed} {rest : List Narrowed}, ins = N :: rest →
      PositionMap.Leads P N.old N.new ((ins.head?.map Narrowed.moved).getD []) := by
    rintro N rest rfl
    obtain ⟨kept, hN⟩ := h N (List.mem_cons_self ..)
    exact hN.leads
  cases op with
  | load l => cases hnat; cases hnat'; exact hsame
  | stream command schema => cases hnat; cases hnat'; exact hsame
  | join j => cases hnat; cases hnat'; exact hjoined
  | cross => cases hnat; cases hnat'; exact hjoined
  | cogroup c =>
    cases hnat
    cases hnat'
    exact PositionMap.leads_range (c.schema_narrows h)
  | store location => cases hop
  | forEach items => cases hop
  | union u => cases hop
  | _ =>
    cases ins with
    | nil => cases hnat
    | cons N rest =>
      cases hnat
      cases hnat'
      exact hfirst rfl

/-! ## The pass over a node that is neither a `forEach` nor a union -/

/-- What the pass over such a node did. -/
theorem Projected.ofNode_ok (h : Projected.ofNode n keep ins = .ok proj) :
    ∃ rs, Forall₂ (fun x r => ∃ N, ins[x.1]? = some N ∧ x.2.renumber N.renumbering = .ok r)
        n.op.expressions rs ∧
      proj.op.getD n.op = n.op.withExpressions (rs.map Revised.value) ∧
      proj.op = (if rs.any Revised.changed then
        some (n.op.withExpressions (rs.map Revised.value)) else none) ∧
      proj.kept = keep ∧
      ∃ natural', (n.op.withExpressions (rs.map Revised.value)).natural (ins.map Narrowed.new) =
        .ok natural' ∧
      ((n.op.canProject = false ∧ proj.schema = natural') ∨
        n.op.canProject = true ∧ ∃ natural projection,
          n.op.natural (ins.map Narrowed.old) = .ok natural ∧
          exposing n (naturalMap n.op ins natural.length) keep = .ok projection ∧
          Schema.project natural' projection = .ok proj.schema) := by
  obtain ⟨changed, hchanged, h⟩ := bind_ok h
  obtain ⟨natural', hnat', h⟩ := bind_ok h
  obtain ⟨rs, hrs, hrev⟩ := Operator.revise_of_ok hchanged
  have hren : Forall₂ (fun x r => ∃ N, ins[x.1]? = some N ∧
      x.2.renumber N.renumbering = .ok r) n.op.expressions rs := hrs.imp fun x r hr => by
    cases hN : ins[x.1]? with
    | none => rw [hN] at hr; cases hr
    | some N => rw [hN] at hr; exact ⟨N, rfl, hr⟩
  simp only [hrev] at hchanged hnat' h
  cases hchanged
  have hget : (if rs.any Revised.changed then
      some (n.op.withExpressions (rs.map Revised.value)) else none).getD n.op =
        n.op.withExpressions (rs.map Revised.value) := by
    cases hc : rs.any Revised.changed with
    | true => rfl
    | false =>
      refine ((Operator.withExpressions_eq_iff (hren.imp fun _ _ hx => ?_)).mpr hc).symm
      obtain ⟨N, -, hr⟩ := hx
      exact ⟨_, hr⟩
  rw [Operator.canProject_withExpressions] at h
  refine ⟨rs, hren, ?_⟩
  by_cases hcan : n.op.canProject = true
  · simp only [hcan, Bool.not_true, Bool.false_eq_true, if_false] at h
    obtain ⟨natural, hnat, h⟩ := bind_ok h
    obtain ⟨projection, hprojection, h⟩ := bind_ok h
    obtain ⟨schema, hschema, h⟩ := bind_ok h
    cases h
    rw [naturalMap_withExpressions] at hprojection
    exact ⟨hget, rfl, rfl, natural', hnat',
      Or.inr ⟨hcan, natural, projection, hnat, hprojection, hschema⟩⟩
  · rw [Bool.not_eq_true] at hcan
    simp only [hcan, Bool.not_false, if_true] at h
    cases h
    exact ⟨hget, rfl, rfl, natural', hnat', Or.inl ⟨hcan, rfl⟩⟩

/-- The exposed fields that are kept, and what is left of them. -/
theorem Projected.exposing_narrows {natural natural' schema' : Schema} {moved : PositionMap}
    {projection : List Nat}
    (hexp : Forall₂ (fun m f => natural[m]? = some f) n.exposed n.schema)
    (hleads : PositionMap.Leads P natural natural' moved)
    (h : exposing n moved keep = .ok projection)
    (hschema : Schema.project natural' projection = .ok schema') :
    Forall₂ (fun k f' => ∃ f, n.schema[k]? = some f ∧ Field.Narrows P f f') keep schema' := by
  have hpoint : Forall₂ (fun k q => ∃ m, n.exposed[k]? = some m ∧ moved[m]?.join = some q)
      keep projection := (mapM_ok.mp h).imp fun k q hkq => by
    split at hkq
    · cases hkq
    · rename_i m hm
      split at hkq
      · rename_i r hr
        cases hkq
        exact ⟨m, hm, hr⟩
      · cases hkq
  have hproj := Schema.project_ok.mp hschema
  refine forall₂_of_getElem? (hpoint.length_eq.trans hproj.length_eq) fun i k f' hk hf' => ?_
  obtain ⟨q, hq, m, hm, hmq⟩ := getElem?_of_left hpoint hk
  obtain ⟨q', hq', hqf'⟩ := getElem?_of_right hproj hf'
  rw [hq] at hq'
  cases hq'
  obtain ⟨f, f₀', hf, hf₀', hn⟩ := hleads m q hmq
  rw [hqf'] at hf₀'
  cases hf₀'
  obtain ⟨f₀, hf₀, hmf⟩ := getElem?_of_left hexp hm
  rw [hf] at hmf
  cases hmf
  exact ⟨f, hf₀, hn⟩

/-! ## The pass over items -/

section Items

variable {input : Dataflow.Narrowed} {required : List Nat}

theorem Items.positions_cons (x : Item × Nat × Nat) (kept : List (Item × Nat × Nat)) :
    Items.positions (x :: kept) = List.range' x.2.1 (x.2.2 - x.2.1) ++ Items.positions kept := rfl

/-- Required output positions belong to items that stay. -/
theorem Items.mem_positions {items : List Item} {fss : List (List Field)} (start : Nat)
    (hlen : fss.length = items.length) {p : Nat} (hp : p ∈ required) (hge : start ≤ p)
    (hlt : p < start + fss.flatten.length) :
    p ∈ Items.positions
      (Items.wanted required items (Items.spans start (fss.map List.length))) := by
  induction items generalizing fss start with
  | nil =>
    rw [List.length_nil, List.length_eq_zero_iff] at hlen
    subst hlen
    simp only [List.flatten_nil, List.length_nil] at hlt
    omega
  | cons item items ih =>
    obtain ⟨fs, fss, rfl⟩ := List.exists_cons_of_length_eq_add_one hlen
    rw [List.flatten_cons, List.length_append] at hlt
    rw [List.map_cons, Items.wanted_cons]
    by_cases hin : p < start + fs.length
    · rw [if_pos (Items.wanted_iff.mpr (Or.inr ⟨p, hp, hge, hin⟩)), Items.positions_cons]
      exact List.mem_append_left _ (List.mem_range'_1.mpr ⟨hge, by dsimp only; omega⟩)
    · have hrest := ih (start + fs.length) (Nat.succ.inj hlen) (by omega) (by omega)
      split
      · rw [Items.positions_cons]
        exact List.mem_append_right _ hrest
      · exact hrest

/-- What the items that stay produce: no more fields than before, and if as many
then what is left of each. -/
theorem Items.narrows_of_wanted {kept : List Nat} (hin : input.Keeps P kept)
    (ha : input.old.Agrees P) {items : List Item} {fss fss' : List (List Field)}
    {revised : List (Revised Expr)} (start : Nat)
    (hd : ∀ item ∈ items, item.expr.selectsDirectly = true)
    (hfss : Forall₂ (fun (item : Item) fs => item.fields input.old = .ok fs) items fss)
    (hrev : Forall₂ (fun (x : Item × Nat × Nat) out =>
        x.1.expr.renumber input.renumbering = .ok out)
      (Items.wanted required items (Items.spans start (fss.map List.length))) revised)
    (hfss' : Forall₂ (fun (item : Item) fs => item.fields input.new = .ok fs)
      (Items.withExprs (Items.wanted required items (Items.spans start (fss.map List.length)))
        revised) fss') :
    fss'.flatten.length ≤
        (Items.positions (Items.wanted required items
          (Items.spans start (fss.map List.length)))).length ∧
      (fss'.flatten.length = (Items.positions (Items.wanted required items
          (Items.spans start (fss.map List.length)))).length →
        Forall₂ (fun k f' => start ≤ k ∧ ∃ f, fss.flatten[k - start]? = some f ∧ f.Narrows P f')
          (Items.positions (Items.wanted required items (Items.spans start (fss.map List.length))))
          fss'.flatten) := by
  induction hfss generalizing start revised fss' with
  | nil =>
    cases hrev
    cases hfss'
    exact ⟨Nat.le_refl _, fun _ => .nil⟩
  | @cons item fs items fss hfs _ ih =>
    have hshift : ∀ {qs : List Nat} {gs : List Field},
        Forall₂ (fun k f' => start + fs.length ≤ k ∧
          ∃ f, fss.flatten[k - (start + fs.length)]? = some f ∧ f.Narrows P f') qs gs →
        Forall₂ (fun k f' => start ≤ k ∧
          ∃ f, (fs :: fss).flatten[k - start]? = some f ∧ f.Narrows P f') qs gs := by
      intro qs gs hqs
      refine hqs.imp fun k f' hk => ?_
      obtain ⟨hle, f, hf, hn⟩ := hk
      refine ⟨by omega, f, ?_, hn⟩
      rw [List.flatten_cons, List.getElem?_append_right (by omega),
        show k - start - fs.length = k - (start + fs.length) by omega, hf]
    have hd' := fun x hx => hd x (List.mem_cons_of_mem _ hx)
    rw [List.map_cons, Items.wanted_cons] at hrev hfss' ⊢
    split at hrev
    · rename_i hw
      rw [if_pos hw] at hfss' ⊢
      cases hrev with
      | @cons _ out _ revised hout hrest =>
        cases hfss' with
        | @cons _ fs' _ fss' hfs' hfss' =>
          obtain ⟨hle, hall⟩ := ih (start + fs.length) hd' hrest hfss'
          have hitem := Item.fields_narrow hin ha (hd item (List.mem_cons_self ..))
            (Expr.renumbered_of_ok hout) hfs hfs'
          have hwidth : start + fs.length - start = fs.length := by omega
          rw [Items.positions_cons, List.flatten_cons, List.length_append, List.length_append,
            List.length_range', hwidth]
          refine ⟨by omega, fun hlen => ?_⟩
          have hone := hitem.2 (by omega)
          refine List.rel_append ?_ (hshift (hall (by omega)))
          refine forall₂_of_getElem? (by rw [List.length_range', hone.length_eq])
            fun i k f' hk hf' => ?_
          obtain ⟨f, hf, hn⟩ := getElem?_of_right hone hf'
          rw [List.getElem?_range' (List.getElem?_eq_some_iff.mp hf).1] at hk
          cases hk
          dsimp only
          refine ⟨by omega, f, ?_, hn⟩
          rw [List.flatten_cons, show start + 1 * i - start = i by omega,
            List.getElem?_append_left (List.getElem?_eq_some_iff.mp hf).1, hf]
    · rename_i hw
      rw [if_neg hw] at hfss' ⊢
      obtain ⟨hle, hall⟩ := ih (start + fs.length) hd' hrev hfss'
      exact ⟨hle, fun hlen => hshift (hall hlen)⟩

/-- What the pass over items did. -/
theorem Projected.ofItems_parts {items : List Item}
    (h : Projected.ofItems items keep ins = .ok proj) :
    ∃ input rest fss revised fss', ins = input :: rest ∧
      Forall₂ (fun (item : Item) fs => item.fields input.old = .ok fs) items fss ∧
      Forall₂ (fun (x : Item × Nat × Nat) out => x.1.expr.renumber input.renumbering = .ok out)
        (Items.wanted keep items (Items.spans 0 (fss.map List.length))) revised ∧
      Forall₂ (fun (item : Item) fs => item.fields input.new = .ok fs)
        (Items.withExprs (Items.wanted keep items (Items.spans 0 (fss.map List.length))) revised)
        fss' ∧
      proj.op.getD (.forEach items) = .forEach (Items.withExprs
        (Items.wanted keep items (Items.spans 0 (fss.map List.length))) revised) ∧
      proj.op = (if decide ((Items.wanted keep items
            (Items.spans 0 (fss.map List.length))).length ≠ items.length) ||
          revised.any Revised.changed then
        some (.forEach (Items.withExprs
          (Items.wanted keep items (Items.spans 0 (fss.map List.length))) revised)) else none) ∧
      proj.kept = Items.positions (Items.wanted keep items (Items.spans 0 (fss.map List.length))) ∧
      proj.schema = fss'.flatten ∧ fss'.flatten.length = proj.kept.length := by
  cases ins with
  | nil => cases h
  | cons input rest =>
    rw [Projected.ofItems_eq] at h
    obtain ⟨ranges, hranges, h⟩ := bind_ok h
    obtain ⟨fss, hfss, hranges⟩ := bind_ok hranges
    cases hranges
    obtain ⟨revised, hrev, h⟩ := bind_ok h
    obtain ⟨schema, hschema, h⟩ := bind_ok h
    obtain ⟨fss', hfss', hschema⟩ := bind_ok hschema
    cases hschema
    split at h
    · cases h
    · rename_i hwidth
      cases h
      refine ⟨input, rest, fss, revised, fss', rfl, mapM_ok.mp hfss, mapM_ok.mp hrev,
        mapM_ok.mp hfss', ?_, rfl, rfl, rfl, not_not.mp hwidth⟩
      dsimp only
      split
      · rfl
      · rename_i hch
        rw [Bool.not_eq_true, Bool.or_eq_false_iff] at hch
        have hself := (Items.withExprs_eq_iff (mapM_ok.mp hrev)).mpr
          ⟨by simpa using hch.1, hch.2⟩
        rw [hself]
        rfl

end Items

/-- A union stays a union. -/
theorem Projected.ofUnion_op {u : Union} (hop : n.op = .union u)
    (h : Projected.ofUnion u keep ins = .ok proj) : ∃ u', proj.op.getD n.op = .union u' := by
  rw [Projected.ofUnion_eq] at h
  obtain ⟨fields, -, h⟩ := bind_ok h
  obtain ⟨mappings, -, h⟩ := bind_ok h
  cases h
  dsimp only
  split
  · exact ⟨u, hop⟩
  · exact ⟨_, rfl⟩

/-! ## Any node -/

/-- A narrowed node has the operator it had, up to expressions, unless its items
or columns were dropped. -/
theorem Projected.ofAny_op (h : Projected.ofAny n keep ins = .ok proj) :
    (∃ es, proj.op.getD n.op = n.op.withExpressions es) ∨
      ((∃ items items', n.op = .forEach items ∧ proj.op.getD n.op = .forEach items') ∨
        ∃ u u', n.op = .union u ∧ proj.op.getD n.op = .union u') := by
  unfold Projected.ofAny at h
  split at h
  · rename_i items hop
    obtain ⟨_, _, _, _, _, _, _, _, _, hget, _⟩ := Projected.ofItems_parts h
    exact Or.inr (Or.inl ⟨items, _, hop, by rw [hop, hget]⟩)
  · rename_i u hop
    obtain ⟨u', hu'⟩ := Projected.ofUnion_op hop h
    exact Or.inr (Or.inr ⟨u, u', hop, hu'⟩)
  · obtain ⟨rs, -, hget, -⟩ := Projected.ofNode_ok h
    exact Or.inl ⟨_, hget⟩

/-- A node stays of its kind. -/
theorem Projected.ofAny_name (h : Projected.ofAny n keep ins = .ok proj) :
    (proj.op.getD n.op).name = n.op.name := by
  rcases Projected.ofAny_op h with ⟨es, hop⟩ | ⟨_, _, hn, hop⟩ | ⟨_, _, hn, hop⟩
  · rw [hop, Operator.name_withExpressions]
  · rw [hop, hn]; rfl
  · rw [hop, hn]; rfl

/-- What a `forEach` exposes is what its items produce. -/
theorem Projected.flatten_of_items {id : Nat} {natural : Schema} {items : List Item}
    {input : Dataflow.Narrowed} {rest : List Dataflow.Narrowed} {fss : List (List Field)}
    (hop : n.op = .forEach items)
    (hnat : n.op.natural ((input :: rest).map Narrowed.old) = .ok natural)
    (hpart : Plan.exposedPart id n natural = .ok n.schema)
    (hfss : Forall₂ (fun (item : Item) fs => item.fields input.old = .ok fs) items fss) :
    n.schema = fss.flatten := by
  have hnatural : natural = n.schema :=
    Node.natural_of_part hpart (Node.projection_none hpart (by rw [hop]; rfl))
  rw [hop, List.map_cons] at hnat
  obtain ⟨fss₀, hfss₀, hnat⟩ := bind_ok hnat
  cases hnat
  rw [← hnatural, Except.ok.inj (hfss₀.symm.trans (mapM_ok.mpr hfss))]

/-- A node that cannot project exposes nothing, unless it has items or is a
union. -/
theorem Projected.empty_of_store {id : Nat} {natural natural' : Schema} {es : List Expr}
    (hitems : ∀ items, n.op ≠ .forEach items) (hunion : ∀ u, n.op ≠ .union u)
    (hcan : n.op.canProject = false) (hnat : n.op.natural (ins.map Narrowed.old) = .ok natural)
    (hpart : Plan.exposedPart id n natural = .ok n.schema)
    (hnat' : (n.op.withExpressions es).natural (ins.map Narrowed.new) = .ok natural') :
    n.schema = [] ∧ natural' = [] := by
  have hnatural := Node.natural_of_part hpart (Node.projection_none hpart hcan)
  rw [Operator.natural_withExpressions hitems] at hnat'
  cases hop : n.op with
  | store location =>
    rw [hop] at hnat hnat'
    cases hnat
    cases hnat'
    exact ⟨hnatural.symm, rfl⟩
  | forEach items => exact absurd hop (hitems items)
  | union u => exact absurd hop (hunion u)
  | _ => rw [hop] at hcan; cases hcan

/-- The kept positions of a node contain the required ones, and only a `forEach`
keeps others. -/
theorem Projected.ofAny_retains {id : Nat} {natural : Schema}
    (hnat : n.op.natural (ins.map Narrowed.old) = .ok natural)
    (hpart : Plan.exposedPart id n natural = .ok n.schema) (hasc : keep.Pairwise (· < ·))
    (hb : ∀ p ∈ keep, p < n.schema.length) (h : Projected.ofAny n keep ins = .ok proj) :
    Schema.Retains proj.kept n.schema proj.schema ∧ (∀ p ∈ keep, p ∈ proj.kept) ∧
      ((∀ items, n.op ≠ .forEach items) → proj.kept = keep) := by
  unfold Projected.ofAny at h
  split at h
  · rename_i items hop
    obtain ⟨input, rest, fss, revised, fss', rfl, hfss, -, -, -, -, hkept, hschema, hlen⟩ :=
      Projected.ofItems_parts h
    have hflat := Projected.flatten_of_items hop hnat hpart hfss
    have hsub : proj.kept.Sublist (List.range n.schema.length) := by
      rw [hkept, hflat, List.range_eq_range']
      exact Items.positions_sublist hfss.length_eq.symm
    refine ⟨⟨List.Pairwise.sublist hsub List.pairwise_lt_range,
      fun k hk => List.mem_range.mp (hsub.subset hk), by rw [hschema, hlen]⟩, fun p hp => ?_,
      fun hne => absurd hop (hne items)⟩
    have hp' := hb p hp
    rw [hflat] at hp'
    rw [hkept]
    exact Items.mem_positions 0 hfss.length_eq.symm hp (Nat.zero_le p) (by omega)
  · rw [Projected.ofUnion_eq] at h
    obtain ⟨fields, hfields, h⟩ := bind_ok h
    obtain ⟨mappings, -, h⟩ := bind_ok h
    cases h
    exact ⟨⟨hasc, hb, (mapM_ok.mp hfields).length_eq.symm⟩, fun p hp => hp, fun _ => rfl⟩
  · rename_i hitems hunion
    obtain ⟨rs, -, -, -, hkept, natural', hnat', hcases⟩ := Projected.ofNode_ok h
    rw [hkept]
    refine ⟨⟨hasc, hb, ?_⟩, fun p hp => hp, fun _ => rfl⟩
    rcases hcases with ⟨hcan, hschema⟩ | ⟨-, natural₀, projection, -, hexp, hschema⟩
    · obtain ⟨hempty, hempty'⟩ := Projected.empty_of_store hitems hunion hcan hnat hpart hnat'
      have hnone : keep = [] := List.eq_nil_iff_forall_not_mem.mpr fun k hk =>
        Nat.not_lt_zero k (by simpa [hempty] using hb k hk)
      rw [hschema, hempty', hnone]
      rfl
    · rw [(mapM_ok.mp hexp).length_eq, (Schema.project_ok.mp hschema).length_eq]

/-- The fields at the kept positions of a node are there with what is left of
their types. -/
theorem Projected.ofAny_narrows {id : Nat} {natural : Schema}
    (hins : ∀ N ∈ ins, (∃ kept, Narrowed.Keeps P kept N) ∧ N.old.Agrees P)
    (hnat : n.op.natural (ins.map Narrowed.old) = .ok natural)
    (hpart : Plan.exposedPart id n natural = .ok n.schema)
    (hd : ∀ x ∈ n.op.expressions, (∃ items, n.op = .forEach items) → x.2.selectsDirectly = true)
    (h : Projected.ofAny n keep ins = .ok proj)
    (hretains : Schema.Retains proj.kept n.schema proj.schema) :
    Schema.Narrows P proj.kept n.schema proj.schema := by
  refine ⟨hretains.ascending, ?_⟩
  unfold Projected.ofAny at h
  split at h
  · rename_i items hop
    obtain ⟨input, rest, fss, revised, fss', rfl, hfss, hrev, hfss', -, -, hkept, hschema, hlen⟩ :=
      Projected.ofItems_parts h
    obtain ⟨⟨kept, hin⟩, ha⟩ := hins input (List.mem_cons_self ..)
    have hdirect : ∀ item ∈ items, item.expr.selectsDirectly = true := fun item hitem =>
      hd (0, item.expr) (by rw [hop]; exact List.mem_map.mpr ⟨item, hitem, rfl⟩) ⟨items, hop⟩
    have hall := (Items.narrows_of_wanted hin ha 0 hdirect hfss hrev hfss').2 (hkept ▸ hlen)
    rw [hkept, hschema, Projected.flatten_of_items hop hnat hpart hfss]
    exact hall.imp fun k f' hk => hk.2
  · rename_i u hop
    rw [Projected.ofUnion_eq] at h
    obtain ⟨fields, hfields, h⟩ := bind_ok h
    obtain ⟨mappings, -, h⟩ := bind_ok h
    cases h
    have hnatural : u.fields = n.schema := by
      rw [hop] at hnat
      cases hnat
      exact Node.natural_of_part hpart (Node.projection_none hpart (by rw [hop]; rfl))
    refine (mapM_ok.mp hfields).imp fun k f hk => ⟨f, ?_, f.narrows_refl⟩
    rw [← hnatural]
    unfold Projected.unionField at hk
    split at hk
    · rename_i f₀ hf₀
      cases hk
      exact hf₀
    · cases hk
  · rename_i hitems hunion
    obtain ⟨rs, -, -, -, hkept, natural', hnat', hcases⟩ := Projected.ofNode_ok h
    rcases hcases with ⟨hcan, hschema⟩ | ⟨hcan, natural₀, projection, hnat₀, hexp, hschema⟩
    · have hempty := Projected.empty_of_store hitems hunion hcan hnat hpart hnat'
      have hwidth := hretains.width
      rw [hschema, hempty.2] at hwidth ⊢
      rw [List.length_eq_zero_iff.mp hwidth.symm]
      exact .nil
    · rw [hnat] at hnat₀
      cases hnat₀
      rw [Operator.natural_withExpressions hitems] at hnat'
      rw [hkept]
      exact Projected.exposing_narrows (Node.exposes_of_part hpart)
        (Projected.naturalMap_leads (fun N hN => (hins N hN).1) hcan hnat hnat') hexp hschema

/-- The expressions that remain are those before, renumbered for their inputs;
only a `forEach` may lose any. -/
theorem Projected.ofAny_expressions (h : Projected.ofAny n keep ins = .ok proj) :
    ∃ survivors, survivors.Sublist n.op.expressions ∧
      ((∀ items, n.op ≠ .forEach items) → survivors = n.op.expressions) ∧
      Forall₂ (fun x x' => x'.1 = x.1 ∧ ∃ N, ins[x.1]? = some N ∧
        Renumbered N.renumbering x.2 x'.2) survivors (proj.op.getD n.op).expressions := by
  unfold Projected.ofAny at h
  split at h
  · rename_i items hop
    obtain ⟨input, rest, fss, revised, fss', rfl, hfss, hrev, -, hget, -⟩ :=
      Projected.ofItems_parts h
    have hsub := (Items.wanted_sublist keep items (Items.spans 0 (fss.map List.length))).map
      fun item : Item => ((0 : Nat), item.expr)
    rw [List.map_map] at hsub
    rw [hop, hget]
    refine ⟨_, hsub, fun hne => absurd rfl (hne items), ?_⟩
    refine forall₂_of_getElem? ?_ fun i x x' hx hx' => ?_
    · simp [Operator.expressions, Items.withExprs, hrev.length_eq]
    · rw [List.getElem?_map] at hx
      obtain ⟨y, hy, rfl⟩ := Option.map_eq_some_iff.mp hx
      obtain ⟨out, hout, hren⟩ := getElem?_of_left hrev hy
      simp only [Operator.expressions, Items.withExprs, List.getElem?_map, List.getElem?_zipWith,
        hy, hout] at hx'
      cases hx'
      exact ⟨rfl, input, rfl, Expr.renumbered_of_ok hren⟩
  · rename_i u hop
    obtain ⟨u', hu'⟩ := Projected.ofUnion_op hop h
    refine ⟨[], List.nil_sublist _, fun _ => by rw [hop]; rfl, ?_⟩
    rw [hu']
    exact .nil
  · obtain ⟨rs, hrs, hget, -⟩ := Projected.ofNode_ok h
    refine ⟨_, List.Sublist.refl _, fun _ => rfl, ?_⟩
    rw [hget, Operator.expressions_withExpressions (by rw [List.length_map, hrs.length_eq])]
    refine forall₂_of_getElem? (by simp [hrs.length_eq]) fun i x x' hx hx' => ?_
    obtain ⟨r, hr, N, hN, hren⟩ := getElem?_of_left hrs hx
    simp only [List.getElem?_zipWith, List.getElem?_map, hx, hr] at hx'
    cases hx'
    exact ⟨rfl, N, hN, Expr.renumbered_of_ok hren⟩

end Dataflow
