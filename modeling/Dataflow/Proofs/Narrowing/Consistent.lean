import Dataflow.Proofs.Narrowing.Plans

/-!
# Narrowed plans are consistent

A plan that stands in the relation `Plan.Narrowing` to a consistent one passes
its own check (`Plan.Narrowing.check`): renumbered expressions keep their types,
operators keep the number of their inputs and branches, the mappings of a union
stay within their inputs, and what a node exposes is what its schema says.
-/

namespace Dataflow

open Dataflow.Expr (Renumbered)
open List (Forall₂)

variable {g : String → String} {t : Trackers}

theorem Expr.type_of_forwards? {s : Schema} {e : Expr} {p : Nat} {f : Field}
    (h : e.forwards? = some p) (hf : s[p]? = some f) : e.type s = .ok f.type := by
  induction e using readingInduction with
  | column q => cases h; simp [type, Schema.fieldAt_ok.mpr hf, Except.map]
  | unary op e _ ih => cases op <;> first | exact ih h | cases h
  | _ => cases h

theorem Reading.type_ok {w : Slice g t} {e e' : Expr} (h : Reading w e e') {τ : DataType}
    (hτ : e.type w.old = .ok τ) : ∃ τ', e'.type w.new = .ok τ' := by
  obtain ⟨τ', hτ', -⟩ := h.expr.type_ok h.met h.selects hτ
  exact ⟨τ', hτ'⟩

theorem Item.Narrowed.type_ok {w : Slice g t} {item item' : Item} {fields : List Field}
    (h : item.Narrowed w item' fields) {τ : DataType} (hτ : item.expr.type w.old = .ok τ) :
    ∃ τ', item'.expr.type w.new = .ok τ' := by
  cases h.met with
  | star hstar hall =>
    rw [Item.isStar_iff.mp (h.isStar_eq.trans hstar)]
    exact ⟨_, rfl⟩
  | forward hstar hp hf hk hflat =>
    obtain ⟨q, hq, hp'⟩ := h.expr.forwards?.1 _ hp
    obtain ⟨-, f', -, hf', -, -⟩ := Slice.field_at hq
    exact ⟨_, Expr.type_of_forwards? hp' hf'⟩
  | compute hstar hp hm =>
    obtain ⟨τ', hτ', -⟩ := h.expr.type_ok hm h.selects hτ
    exact ⟨τ', hτ'⟩

/-- Every item that is left was an item that stays. -/
theorem Items.Narrowed.mem_new {w : Slice g t} {required : List Nat} {start : Nat}
    {items items' : List Item} {fields : List Field} {cols : Columns}
    (h : Items.Narrowed w required start items items' fields cols) :
    ∀ item' ∈ items', ∃ item ∈ items, ∃ fs, item.Narrowed w item' fs := by
  induction h with
  | nil => nofun
  | drop _ _ _ _ ih =>
    intro x hx
    obtain ⟨item, hmem, hitem⟩ := ih x hx
    exact ⟨item, List.mem_cons_of_mem _ hmem, hitem⟩
  | keep h _ _ ih =>
    intro x hx
    rcases List.mem_cons.mp hx with rfl | hx
    · exact ⟨_, List.mem_cons_self .., _, h⟩
    · obtain ⟨item, hmem, hitem⟩ := ih x hx
      exact ⟨item, List.mem_cons_of_mem _ hmem, hitem⟩

namespace Operator.Narrowed

variable {required : List Nat} {op op' : Operator} {ws : List (Slice g t)} {natural : Schema}
  {cols : Columns}

theorem arity_eq (h : op.Narrowed required op' ws natural cols) : op'.arity = op.arity := by
  cases h with
  | join keys same => simp only [arity, keys.length_eq.1]
  | cogroup h => simp only [arity, h.keys.length_eq.1]
  | union h => simp only [arity, h.sides.length_eq.1]
  | _ => rfl

/-- A node addresses the branches of a narrowed split as before. -/
theorem checkBranch_eq (h : op.Narrowed required op' ws natural cols) {n n' : Node}
    (hn : n.op = op) (hn' : n'.op = op') (id : Nat) (e : Edge) :
    Plan.checkBranch id e n' = Plan.checkBranch id e n := by
  unfold Plan.checkBranch
  rw [hn, hn']
  cases e.branch with
  | none => cases h <;> rfl
  | some b =>
    cases h with
    | split hps => simp only [hps.length_eq]
    | _ => rfl

theorem keys_typed {keys keys' : List (List Expr)}
    (h : Along (fun ks ks' w => Forall₂ (KeyReading w) ks ks') keys keys' ws)
    (hτ : ∀ x ∈ Operator.keyed keys, ∃ s τ, (ws.map Slice.old)[x.1]? = some s ∧
      x.2.type s = .ok τ) :
    ∀ x ∈ Operator.keyed keys', ∃ s τ, (ws.map Slice.new)[x.1]? = some s ∧ x.2.type s = .ok τ := by
  intro x hx
  obtain ⟨ks', hks', he'⟩ := Operator.mem_keyed.mp hx
  obtain ⟨ks, hks⟩ : ∃ ks, keys[x.1]? = some ks :=
    ⟨_, List.getElem?_eq_getElem (by
      rw [← h.length_eq.1]; exact (List.getElem?_eq_some_iff.mp hks').1)⟩
  obtain ⟨ks₁, w, hks₁, hw, hall⟩ := h.getElem?_of_left hks
  rw [hks'] at hks₁
  cases hks₁
  obtain ⟨e, he, hread⟩ := mem_of_right hall he'
  obtain ⟨s, τ, hs, hτ⟩ := hτ (x.1, e) (Operator.mem_keyed.mpr ⟨ks, hks, he⟩)
  rw [List.getElem?_map, hw] at hs
  cases hs
  obtain ⟨τ', hτ'⟩ := hread.reading.type_ok hτ
  exact ⟨w.new, τ', by rw [List.getElem?_map, hw]; rfl, hτ'⟩

/-- The expressions of a narrowed operator have types over its narrowed
inputs. -/
theorem typed (h : op.Narrowed required op' ws natural cols)
    (hτ : ∀ x ∈ op.expressions, ∃ s τ, (ws.map Slice.old)[x.1]? = some s ∧ x.2.type s = .ok τ) :
    ∀ x ∈ op'.expressions, ∃ s τ, (ws.map Slice.new)[x.1]? = some s ∧ x.2.type s = .ok τ := by
  -- One expression of an operator with a single input.
  have hone : ∀ {w : Slice g t} {e e' : Expr}, Reading w e e' →
      (∃ s τ, ([w].map Slice.old)[0]? = some s ∧ e.type s = .ok τ) →
      ∃ s τ, ([w].map Slice.new)[0]? = some s ∧ e'.type s = .ok τ := by
    rintro w e e' hread ⟨s, τ, hs, hτ⟩
    cases hs
    obtain ⟨τ', hτ'⟩ := hread.type_ok hτ
    exact ⟨w.new, τ', rfl, hτ'⟩
  cases h with
  | @forEach w _ _ _ _ h =>
    intro x hx
    obtain ⟨item', hmem', rfl⟩ := List.mem_map.mp hx
    obtain ⟨item, hmem, fs, hitem⟩ := h.mem_new item' hmem'
    obtain ⟨s, τ, hs, hτ⟩ := hτ (0, item.expr) (List.mem_map.mpr ⟨item, hmem, rfl⟩)
    cases hs
    obtain ⟨τ', hτ'⟩ := hitem.type_ok hτ
    exact ⟨w.new, τ', rfl, hτ'⟩
  | filter h =>
    intro x hx
    rw [List.mem_singleton.mp hx]
    exact hone h (hτ _ (List.mem_singleton.mpr rfl))
  | orderBy keys same =>
    intro x hx
    obtain ⟨e', he', rfl⟩ := List.mem_map.mp hx
    obtain ⟨e, he, hread⟩ := mem_of_right keys he'
    exact hone hread.reading (hτ (0, e) (List.mem_map.mpr ⟨e, he, rfl⟩))
  | split h =>
    intro x hx
    obtain ⟨e', he', rfl⟩ := List.mem_map.mp hx
    obtain ⟨e, he, hread⟩ := mem_of_right h he'
    exact hone hread (hτ (0, e) (List.mem_map.mpr ⟨e, he, rfl⟩))
  | join keys same => exact keys_typed keys hτ
  | cogroup h => exact keys_typed h.keys hτ
  | _ => nofun

end Operator.Narrowed

/-- The mappings of a narrowed union stay within its narrowed inputs. -/
theorem Union.Narrowed.mapped {required : List Nat} {u u' : Union} {ws : List (Slice g t)}
    (h : u.Narrowed required u' ws) (id : Nat) :
    ∀ x ∈ u'.mappings.zip (ws.map Slice.new),
      Plan.checkMapping id u'.fields.length x.1 x.2 = .ok () := by
  rintro ⟨m', s⟩ hx
  obtain ⟨i, hi⟩ := List.mem_iff_getElem?.mp hx
  obtain ⟨hm', hs⟩ := List.getElem?_zip_eq_some.mp hi
  rw [List.getElem?_map] at hs
  obtain ⟨w, hw, rfl⟩ := Option.map_eq_some_iff.mp hs
  obtain ⟨m, hm⟩ : ∃ m, u.mappings[i]? = some m :=
    ⟨_, List.getElem?_eq_getElem (by
      rw [← h.sides.length_eq.1]; exact (List.getElem?_eq_some_iff.mp hm').1)⟩
  obtain ⟨m₁, w₁, hm₁, hw₁, hside⟩ := h.sides.getElem?_of_left hm
  rw [hm'] at hm₁
  cases hm₁
  rw [hw] at hw₁
  cases hw₁
  refine Plan.checkMapping_ok.mpr ⟨?_, fun q hq => ?_⟩
  · rw [← hside.moved.length_eq, ← h.fields.length_eq]
  · obtain ⟨p, -, hp⟩ := mem_of_right hside.moved hq
    split at hp
    · obtain ⟨r, hr, hqr⟩ := hp
      cases hqr
      obtain ⟨-, f', -, hf', -, -⟩ := Slice.field_at hr
      exact (List.getElem?_eq_some_iff.mp hf').1
    · cases hp

/-- A narrowed plan passes its check. -/
theorem Plan.Narrowing.check {p p' : Plan} {required : List Required} {ws : List (Slice g t)}
    (h : Plan.Narrowing required ws p p') (hcheck : p.check = .ok ()) : p'.check = .ok () := by
  refine Plan.check_ok.mpr fun id n' hn' => ?_
  obtain ⟨n, hn⟩ : ∃ n, p.nodes[id]? = some n :=
    ⟨_, List.getElem?_eq_getElem (by rw [← h.length]; exact (List.getElem?_eq_some_iff.mp hn').1)⟩
  obtain ⟨inputs, natural, hc⟩ := Plan.check_ok.mp hcheck id n hn
  obtain ⟨w, ins, keep, req, natural₀, cols, hw, hins, hready, hnar⟩ := h.node id n n' hn hn'
  obtain ⟨hschemas, hschemas'⟩ := h.edgeSchemas hins
  have hold : ins.map Slice.old = inputs := Except.ok.inj (hschemas.symm.trans hc.schemas)
  obtain ⟨natural', hnat', -⟩ := hnar.op.natural_new
  refine ⟨ins.map Slice.new, natural', hnar.id.trans hc.id_eq, ?_, fun e he => ?_, ?_, ?_, ?_,
    hnat', hnar.part id natural' hnat'⟩
  · rw [hnar.inputs]
    exact ⟨by rw [hnar.op.arity_eq]; exact hc.takes.least,
      by rw [hnar.op.arity_eq]; exact hc.takes.greatest⟩
  · rw [hnar.inputs] at he
    obtain ⟨hlt, m, hm, hb⟩ := hc.earlier e he
    obtain ⟨x, -, hx⟩ := mem_of_left hins he
    obtain ⟨m₁, m', hm₁, hm', -, -, _, _, _, _, _, _, -, -, -, hinput⟩ := h.slice_at hx
    rw [hm] at hm₁
    cases hm₁
    exact ⟨hlt, m', hm', by rw [hinput.op.checkBranch_eq rfl rfl, hb]⟩
  · rw [hnar.inputs]
    exact hschemas'
  · exact hnar.op.typed (by rw [hold]; exact hc.typed)
  · intro u' hu'
    have hop := hnar.op
    rw [hu'] at hop
    generalize n.op = op at hop
    cases hop with
    | union hu => exact hu.mapped id

end Dataflow
