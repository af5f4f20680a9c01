import Dataflow.Plan.Natural
import Dataflow.Proofs.Narrowing.Reading

/-!
# Narrowed types

What becomes of types and fields when columns are removed from the schemas that
they come from, whatever the columns: a bag or tuple has lost some of its inner
columns, the others are there in the same order with the same identities, and
have lost inner columns in turn. Nothing is assumed of which columns are needed,
so the types here may shrink, unlike those of expressions whose reads are met.

An expression whose references were renumbered has a narrowed type, except where
it selects inner columns of a value that it merely passes on: such a selection is
not renumbered. `Expr.selectsDirectly` excludes these.
-/

namespace Dataflow

open List (Forall₂)
open Dataflow.Expr (Renumbered)

/-! ## Types, fields and schemas -/

/-- A type, and what is left of it after inner columns were removed. With `P`
names are kept. -/
inductive DataType.Narrows (P : Prop) : DataType → DataType → Prop
  | same (t : DataType) : Narrows P t t
  | inside {t t' : DataType} {inner inner' : Schema} {kept : List Nat}
      (ht : t.inner? = some inner) (ht' : t'.inner? = some inner') (hbag : t'.isBag = t.isBag)
      (ascending : kept.Pairwise (· < ·)) (bounded : ∀ k ∈ kept, k < inner.length)
      (length : kept.length = inner'.length)
      (fields : ∀ (i k : Nat) (f f' : Field), kept[i]? = some k → inner[k]? = some f →
        inner'[i]? = some f' → f'.uid = f.uid ∧ (P → f'.name = f.name))
      (types : ∀ (i k : Nat) (f f' : Field), kept[i]? = some k → inner[k]? = some f →
        inner'[i]? = some f' → Narrows P f.type f'.type) : Narrows P t t'

structure Field.Narrows (P : Prop) (f f' : Field) : Prop where
  uid : f'.uid = f.uid
  name : P → f'.name = f.name
  type : f.type.Narrows P f'.type

/-- A schema, and what is left of it when only the positions `kept` remain. -/
structure Schema.Narrows (P : Prop) (kept : List Nat) (s s' : Schema) : Prop where
  ascending : kept.Pairwise (· < ·)
  fields : Forall₂ (fun k f' => ∃ f, s[k]? = some f ∧ Field.Narrows P f f') kept s'

/-- Old positions of a schema that remain, whatever stands at them now. -/
structure Schema.Retains (kept : List Nat) (s s' : Schema) : Prop where
  ascending : kept.Pairwise (· < ·)
  bounded : ∀ k ∈ kept, k < s.length
  width : s'.length = kept.length

variable {P : Prop}

theorem Field.narrows_refl (f : Field) : f.Narrows P f := ⟨rfl, fun _ => rfl, .same _⟩

theorem Schema.narrows_refl (s : Schema) : Schema.Narrows P (List.range s.length) s s where
  ascending := List.pairwise_lt_range
  fields := forall₂_of_getElem? (List.length_range) fun i k f' hk hf' => by
    have hi : i < s.length := (List.getElem?_eq_some_iff.mp hf').1
    rw [List.getElem?_range hi] at hk
    cases hk
    exact ⟨f', hf', f'.narrows_refl⟩

namespace Schema.Narrows

variable {kept : List Nat} {s s' : Schema}

theorem bounded (h : Schema.Narrows P kept s s') : ∀ k ∈ kept, k < s.length := by
  intro k hk
  obtain ⟨f', -, f, hf, -⟩ := mem_of_left h.fields hk
  exact (List.getElem?_eq_some_iff.mp hf).1

theorem retains (h : Schema.Narrows P kept s s') : Schema.Retains kept s s' :=
  ⟨h.ascending, h.bounded, h.fields.length_eq.symm⟩

/-- The field that stands at a new position. -/
theorem field_at (h : Schema.Narrows P kept s s') {i : Nat} {f' : Field} (hf' : s'[i]? = some f') :
    ∃ k f, kept[i]? = some k ∧ s[k]? = some f ∧ f.Narrows P f' := by
  obtain ⟨k, hk, f, hf, hn⟩ := getElem?_of_right h.fields hf'
  exact ⟨k, f, hk, hf, hn⟩

theorem field_kept (h : Schema.Narrows P kept s s') {i k : Nat} (hk : kept[i]? = some k) :
    ∃ f f', s[k]? = some f ∧ s'[i]? = some f' ∧ f.Narrows P f' := by
  obtain ⟨f', hf', f, hf, hn⟩ := getElem?_of_left h.fields hk
  exact ⟨f, f', hf, hf', hn⟩

theorem type (h : Schema.Narrows P kept s s') {t t' : DataType} (ht : t.inner? = some s)
    (ht' : t'.inner? = some s') (hbag : t'.isBag = t.isBag) : t.Narrows P t' := by
  have hat : ∀ (i k : Nat) (f f' : Field), kept[i]? = some k → s[k]? = some f →
      s'[i]? = some f' → f.Narrows P f' := by
    intro i k f f' hk hf hf'
    obtain ⟨k₀, f₀, hk₀, hf₀, hn⟩ := h.field_at hf'
    rw [hk] at hk₀
    cases hk₀
    rw [hf] at hf₀
    cases hf₀
    exact hn
  exact .inside ht ht' hbag h.ascending h.bounded h.fields.length_eq
    (fun i k f f' hk hf hf' => ⟨(hat i k f f' hk hf hf').uid, (hat i k f f' hk hf hf').name⟩)
    fun i k f f' hk hf hf' => (hat i k f f' hk hf hf').type

end Schema.Narrows

/-! ## Widths -/

theorem le_of_ascending {ps : List Nat} (h : ps.Pairwise (· < ·)) {i p : Nat}
    (hp : ps[i]? = some p) : i ≤ p := by
  induction i generalizing p with
  | zero => exact Nat.zero_le p
  | succ i ih =>
    obtain ⟨hlt, rfl⟩ := List.getElem?_eq_some_iff.mp hp
    have hi := ih (List.getElem?_eq_getElem (Nat.lt_of_succ_lt hlt))
    have := List.pairwise_iff_getElem.mp h i (i + 1) (Nat.lt_of_succ_lt hlt) hlt
      (Nat.lt_succ_self i)
    omega

/-- Ascending positions below `n` are at most `n`, and all of them if they are
`n`. -/
theorem length_le_of_ascending {ps : List Nat} (h : ps.Pairwise (· < ·)) {n : Nat}
    (hb : ∀ p ∈ ps, p < n) : ps.length ≤ n ∧ (ps.length = n → ps = List.range n) := by
  have hle : ps.length ≤ n := by
    rcases Nat.eq_zero_or_pos ps.length with h0 | hpos
    · omega
    · have hlast : ps.length - 1 < ps.length := by omega
      have := le_of_ascending h (List.getElem?_eq_getElem hlast)
      have := hb _ (List.getElem_mem hlast)
      omega
  refine ⟨hle, fun hlen => List.ext_getElem? fun i => ?_⟩
  by_cases hi : i < n
  · rw [List.getElem?_range hi, List.getElem?_eq_getElem (by omega)]
    -- Position `i` is at least `i`, and leaves room for the ones after it.
    have hge := le_of_ascending h (List.getElem?_eq_getElem (by omega : i < ps.length))
    have hroom : ∀ j (hj : i + j < ps.length), ps[i + j] ≥ ps[i] + j := by
      intro j
      induction j with
      | zero => exact fun _ => Nat.le_refl _
      | succ j ih =>
        intro hj
        have h₁ := ih (by omega)
        have h₂ := List.pairwise_iff_getElem.mp h (i + j) (i + (j + 1)) (by omega) hj (by omega)
        omega
    have h₁ := hroom (n - 1 - i) (by omega)
    have h₂ := hb _ (List.getElem_mem (by omega : i + (n - 1 - i) < ps.length))
    exact congrArg some (by omega)
  · rw [List.getElem?_eq_none (by omega), List.getElem?_eq_none (by simpa using hi)]

/-- A narrowed schema has no more fields, and if it has as many, then each of
them is what is left of the one in its place. -/
theorem Schema.Narrows.width {kept : List Nat} {s s' : Schema} (h : Schema.Narrows P kept s s') :
    s'.length ≤ s.length ∧ (s'.length = s.length → Forall₂ (Field.Narrows P) s s') := by
  obtain ⟨hle, hall⟩ := length_le_of_ascending h.ascending h.bounded
  have hlen := h.fields.length_eq
  refine ⟨by omega, fun heq => forall₂_of_getElem? heq.symm fun i f f' hf hf' => ?_⟩
  obtain ⟨k, f₀, hk, hf₀, hn⟩ := h.field_at hf'
  rw [hall (by omega), List.getElem?_range (List.getElem?_eq_some_iff.mp hf).1] at hk
  cases hk
  rw [hf] at hf₀
  cases hf₀
  exact hn

/-! ## Inner schemas -/

namespace DataType.Narrows

variable {t t' : DataType}

theorem isBag (h : t.Narrows P t') : t'.isBag = t.isBag := by
  cases h with
  | same => rfl
  | inside _ _ hbag => exact hbag

/-- The inner schema of what is left. -/
theorem inner (h : t.Narrows P t') {inner : Schema} (ht : t.inner? = some inner) :
    ∃ inner' kept, t'.inner? = some inner' ∧ Schema.Narrows P kept inner inner' := by
  cases h with
  | same => exact ⟨inner, _, ht, Schema.narrows_refl inner⟩
  | @inside _ _ inner₀ inner' kept ht₀ ht' _ ascending bounded length fields types =>
    rw [ht] at ht₀
    cases ht₀
    refine ⟨inner', kept, ht', ascending, forall₂_of_getElem? length fun i k f' hk hf' => ?_⟩
    have hlt := bounded k (List.mem_of_getElem? hk)
    obtain ⟨huid, hname⟩ := fields i k _ f' hk (List.getElem?_eq_getElem hlt) hf'
    exact ⟨_, List.getElem?_eq_getElem hlt, huid, hname,
      types i k _ f' hk (List.getElem?_eq_getElem hlt) hf'⟩

/-- A type that nests nothing is left as it is. -/
theorem eq_of_flat (h : t.Narrows P t') (ht : t.inner? = none) : t' = t := by
  cases h with
  | same => rfl
  | inside ht₀ => rw [ht] at ht₀; cases ht₀

end DataType.Narrows

/-- A type whose own inner columns are all there, though less may be left of
each of them. -/
def DataType.Aligned (P : Prop) (t t' : DataType) : Prop :=
  t' = t ∨ t'.isBag = t.isBag ∧ ∃ inner inner', t.inner? = some inner ∧ t'.inner? = some inner' ∧
    Forall₂ (Field.Narrows P) inner inner'

theorem DataType.Aligned.narrows {t t' : DataType} (h : t.Aligned P t') : t.Narrows P t' := by
  rcases h with rfl | ⟨hbag, inner, inner', ht, ht', hall⟩
  · exact .same _
  · have hs : Schema.Narrows P (List.range inner.length) inner inner' := by
      refine ⟨List.pairwise_lt_range, forall₂_of_getElem? ?_ fun i k f' hk hf' => ?_⟩
      · rw [List.length_range, hall.length_eq]
      · obtain ⟨f, hf, hn⟩ := getElem?_of_right hall hf'
        rw [List.getElem?_range (List.getElem?_eq_some_iff.mp hf).1] at hk
        cases hk
        exact ⟨f, hf, hn⟩
    exact hs.type ht ht' hbag

theorem Schema.project_ok {s out : Schema} {cs : List Nat} :
    Schema.project s cs = .ok out ↔ Forall₂ (fun c f => s[c]? = some f) cs out := by
  unfold Schema.project
  rw [mapM_ok]
  exact ⟨List.Forall₂.imp fun c f => Schema.fieldAt_ok.mp,
    List.Forall₂.imp fun c f => Schema.fieldAt_ok.mpr⟩

theorem Schema.project_narrows {inner inner' out out' : Schema} {cs : List Nat}
    (h : Forall₂ (Field.Narrows P) inner inner') (hout : Schema.project inner cs = .ok out)
    (hout' : Schema.project inner' cs = .ok out') : Forall₂ (Field.Narrows P) out out' := by
  have hp := Schema.project_ok.mp hout
  have hp' := Schema.project_ok.mp hout'
  refine forall₂_of_getElem? (hp.length_eq.symm.trans hp'.length_eq) fun i f f' hf hf' => ?_
  obtain ⟨c, hc, hcf⟩ := getElem?_of_right hp hf
  obtain ⟨c', hc', hcf'⟩ := getElem?_of_right hp' hf'
  rw [hc] at hc'
  cases hc'
  obtain ⟨x', hx', hn⟩ := getElem?_of_left h hcf
  rw [hcf'] at hx'
  cases hx'
  exact hn

/-! ## What became of a node's fields -/

/-- Inner columns that share an identity have one type, and with `P` one
name. -/
def Schema.Agrees (P : Prop) (s : Schema) : Prop :=
  ∀ inner ∈ Schema.inners s, ∀ f ∈ inner, ∀ h ∈ inner, f.uid = h.uid →
    f.type = h.type ∧ (P → f.name = h.name)

theorem Schema.SharesTypes.agrees {s : Schema} (h : s.SharesTypes) (hP : P → s.DistinctInside) :
    s.Agrees P := by
  intro inner hinner f hf f' hf' huid
  refine ⟨h inner hinner f hf f' hf' huid, fun hp => ?_⟩
  exact congrArg Field.name (List.inj_on_of_nodup_map (hP hp inner hinner) hf hf' huid)

/-- The record of a node's fields says which positions were kept. -/
structure Narrowed.Retains (kept : List Nat) (n : Narrowed) : Prop where
  moved : n.moved = .ofKept n.old.length kept
  retains : Schema.Retains kept n.old n.new

/-- The record of a node's fields says which positions were kept, and what is
left of their fields. -/
structure Narrowed.Keeps (P : Prop) (kept : List Nat) (n : Narrowed) : Prop where
  moved : n.moved = .ofKept n.old.length kept
  narrows : Schema.Narrows P kept n.old n.new

section Narrowed

variable {n : Narrowed} {kept : List Nat} {p q : Nat}

theorem Narrowed.Retains.column_ok (h : n.Retains kept) :
    n.column p = .ok q ↔ kept[q]? = some p := by
  unfold Narrowed.column
  rw [h.moved, ← PositionMap.ofKept_getElem? h.retains.ascending h.retains.bounded]
  split
  · rename_i r hr
    rw [hr]
    simp
  · rename_i hr
    rw [hr]
    simp

theorem Narrowed.Keeps.retains (h : n.Keeps P kept) : n.Retains kept := ⟨h.moved, h.narrows.retains⟩

/-- The field that a column refers to, before and after. -/
theorem Narrowed.Keeps.field_at (h : n.Keeps P kept) (hq : n.column p = .ok q) :
    ∃ f f', n.old[p]? = some f ∧ n.new[q]? = some f' ∧ f.Narrows P f' :=
  h.narrows.field_kept (h.retains.column_ok.mp hq)

/-- Inner columns are found by identity, in whatever stands at the column now. -/
theorem Narrowed.inner_ok (hq : n.column p = .ok q) {cs cs' : List Nat}
    (hcs : n.inner p cs = .ok cs') :
    ∃ f f' inner inner', n.old[p]? = some f ∧ n.new[q]? = some f' ∧
      f.type.inner? = some inner ∧ f'.type.inner? = some inner' ∧
      Forall₂ (fun c c' => ∃ x, inner[c]? = some x ∧
        Schema.positionOf? inner' x.uid = some c') cs cs' := by
  have hfield : ∀ {s : Schema} {i : Nat} {x : Field},
      (s.fieldAt i).mapError Error.asDefect = .ok x → s[i]? = some x := by
    intro s i x hx
    rw [← Schema.fieldAt_ok]
    cases hs : s.fieldAt i <;> rw [hs] at hx <;> cases hx
    rfl
  obtain ⟨f, hf, hcs⟩ := bind_ok hcs
  obtain ⟨r, hr, hcs⟩ := bind_ok hcs
  cases hr.symm.trans hq
  obtain ⟨f', hf', hcs⟩ := bind_ok hcs
  split at hcs
  · rename_i inner inner' hi hi'
    refine ⟨f, f', inner, inner', hfield hf, hfield hf', hi, hi',
      (mapM_ok.mp hcs).imp fun c c' hcc => ?_⟩
    exact Slice.innerPosition_ok (p := p).mp hcc
  · cases hcs

/-- An inner column, and the one that is found for it. -/
theorem Narrowed.Keeps.selected (h : n.Keeps P kept) (ha : n.old.Agrees P) (hq : n.column p = .ok q)
    {cs cs' : List Nat} (hcs : n.inner p cs = .ok cs') :
    ∃ f f' inner inner', n.old[p]? = some f ∧ n.new[q]? = some f' ∧
      f.type.inner? = some inner ∧ f'.type.inner? = some inner' ∧ f'.type.isBag = f.type.isBag ∧
      Forall₂ (fun c c' => ∃ x x', inner[c]? = some x ∧ inner'[c']? = some x' ∧
        x.Narrows P x') cs cs' := by
  obtain ⟨f, f', inner, inner', hf, hf', hi, hi', hall⟩ := Narrowed.inner_ok hq hcs
  obtain ⟨f₀, f₀', hf₀, hf₀', hn⟩ := h.field_at hq
  rw [hf] at hf₀
  cases hf₀
  rw [hf'] at hf₀'
  cases hf₀'
  obtain ⟨inner₀, kept', hi₀, hin⟩ := hn.type.inner hi
  rw [hi'] at hi₀
  cases hi₀
  refine ⟨f, f', inner, inner', hf, hf', hi, hi', hn.type.isBag, hall.imp fun c c' hcc => ?_⟩
  obtain ⟨x, hx, hpos⟩ := hcc
  obtain ⟨x', hx', huid, -⟩ := Schema.positionOf?_eq_some.mp hpos
  obtain ⟨k, y, -, hy, hyn⟩ := hin.field_at hx'
  -- The column that is found comes from one with the same identity.
  have hinner : inner ∈ Schema.inners n.old :=
    Schema.mem_inners.mpr ⟨f, List.mem_of_getElem? hf, (Field.mem_inners hi).mpr (Or.inl rfl)⟩
  obtain ⟨htype, hname⟩ := ha inner hinner y (List.mem_of_getElem? hy) x (List.mem_of_getElem? hx)
    (hyn.uid.symm.trans huid)
  exact ⟨x, x', hx, hx', huid, fun hp => (hyn.name hp).trans (hname hp), htype ▸ hyn.type⟩

end Narrowed

/-! ## Types of renumbered expressions -/

namespace Expr

/-- The expression has the type of a column or of the whole row. -/
def passesOn : Expr → Bool
  | .column _ | .star => true
  | .named e _ => e.passesOn
  | .ifElse t _ _ => t.passesOn
  | _ => false

/-- Inner columns are selected from columns themselves or from values that the
expression computes, as far as its type depends on them. -/
def selectsDirectly : Expr → Bool
  | .column _ | .literal _ | .star | .call _ _ | .cast _ _ | .isNull _ => true
  | .select (.column _) _ => true
  | .select e _ => !e.passesOn && e.selectsDirectly
  | .unary _ e => e.selectsDirectly
  | .binary op l r =>
    op.isComparison || op.isLogical || (l.selectsDirectly && r.selectsDirectly)
  | .ifElse t _ _ => t.selectsDirectly

theorem type_select {e : Expr} {s : Schema} {cs : List Nat} {τ : DataType}
    (h : (Expr.select e cs).type s = .ok τ) :
    ∃ σ inner out, e.type s = .ok σ ∧ σ.inner? = some inner ∧
      Schema.project inner cs = .ok out ∧ τ.inner? = some out ∧ τ.isBag = σ.isBag := by
  obtain ⟨σ, hσ, h⟩ := bind_ok h
  cases σ with
  | bag inner =>
    obtain ⟨out, hout, h⟩ := bind_ok h
    cases h
    exact ⟨_, inner, out, hσ, rfl, hout, rfl, rfl⟩
  | tuple inner =>
    obtain ⟨out, hout, h⟩ := bind_ok h
    cases h
    exact ⟨_, inner, out, hσ, rfl, hout, rfl, rfl⟩
  | _ => cases h

theorem type_column {s : Schema} {p : Nat} {τ : DataType} (h : (Expr.column p).type s = .ok τ) :
    ∃ f, s[p]? = some f ∧ f.type = τ := by
  cases hf : s[p]? with
  | none => simp [type, Schema.fieldAt, hf, Except.map] at h
  | some f => exact ⟨f, rfl, by simpa [type, Schema.fieldAt, hf, Except.map] using h⟩

variable {n : Narrowed} {kept : List Nat}

/-- The type of a column, before and after. -/
theorem column_narrows (hn : n.Keeps P kept) {p q : Nat} (hq : n.column p = .ok q)
    {τ τ' : DataType} (hτ : (Expr.column p).type n.old = .ok τ)
    (hτ' : (Expr.column q).type n.new = .ok τ') : τ.Narrows P τ' := by
  obtain ⟨f, hf, rfl⟩ := type_column hτ
  obtain ⟨f', hf', rfl⟩ := type_column hτ'
  obtain ⟨f₀, f₀', hf₀, hf₀', h⟩ := hn.field_at hq
  rw [hf] at hf₀
  cases hf₀
  rw [hf'] at hf₀'
  cases hf₀'
  exact h.type

/-- A key is looked up in a map, of whose type nothing is removed. -/
theorem lookup_aligned {e e' : Expr} {s s' : Schema} {k : String} {τ τ' : DataType}
    (ih : ∀ σ σ', e.type s = .ok σ → e'.type s' = .ok σ' → σ.Narrows P σ')
    (hτ : (Expr.lookup e k).type s = .ok τ) (hτ' : (Expr.lookup e' k).type s' = .ok τ') :
    τ' = τ := by
  obtain ⟨σ, hσ, hτ⟩ := bind_ok hτ
  obtain ⟨σ', hσ', hτ'⟩ := bind_ok hτ'
  cases σ with
  | map value =>
    cases (ih _ _ hσ hσ').eq_of_flat rfl
    cases hτ
    cases hτ'
    rfl
  | _ => cases hτ

/-- Columns that are selected from a column are found by identity. -/
theorem select_column_aligned (hn : n.Keeps P kept) (ha : n.old.Agrees P) {p q : Nat}
    {cs cs' : List Nat} (hq : n.column p = .ok q) (hcs : n.inner p cs = .ok cs') {τ τ' : DataType}
    (hτ : (Expr.select (.column p) cs).type n.old = .ok τ)
    (hτ' : (Expr.select (.column q) cs').type n.new = .ok τ') : τ.Aligned P τ' := by
  obtain ⟨f, f', inner, inner', hf, hf', hi, hi', hbag, hall⟩ := hn.selected ha hq hcs
  obtain ⟨σ, i₀, out, hσ, hi₀, hout, hτo, hτb⟩ := type_select hτ
  obtain ⟨σ', i₀', out', hσ', hi₀', hout', hτo', hτb'⟩ := type_select hτ'
  obtain ⟨f₀, hf₀, rfl⟩ := type_column hσ
  obtain ⟨f₀', hf₀', rfl⟩ := type_column hσ'
  rw [hf] at hf₀
  cases hf₀
  rw [hf'] at hf₀'
  cases hf₀'
  rw [hi] at hi₀
  cases hi₀
  rw [hi'] at hi₀'
  cases hi₀'
  refine Or.inr ⟨by rw [hτb', hτb, hbag], out, out', hτo, hτo', ?_⟩
  have hp := Schema.project_ok.mp hout
  have hp' := Schema.project_ok.mp hout'
  have hlen : out.length = out'.length := by
    rw [← hp.length_eq, ← hp'.length_eq, hall.length_eq]
  refine forall₂_of_getElem? hlen fun i x x' hx hx' => ?_
  obtain ⟨c, hc, hcx⟩ := getElem?_of_right hp hx
  obtain ⟨c', hc', hcx'⟩ := getElem?_of_right hp' hx'
  obtain ⟨c₀, hc₀, y, y', hy, hy', hyn⟩ := getElem?_of_left hall hc
  rw [hc'] at hc₀
  cases hc₀
  rw [hcx] at hy
  cases hy
  rw [hcx'] at hy'
  cases hy'
  exact hyn

/-- Columns that are selected from a value of which nothing is removed are found
where they were. -/
theorem select_aligned {e e' : Expr} {s s' : Schema} {cs : List Nat} {τ τ' : DataType}
    (ih : ∀ σ σ', e.type s = .ok σ → e'.type s' = .ok σ' → σ.Aligned P σ')
    (hτ : (Expr.select e cs).type s = .ok τ) (hτ' : (Expr.select e' cs).type s' = .ok τ') :
    τ.Aligned P τ' := by
  obtain ⟨σ, inner, out, hσ, hi, hout, hτo, hτb⟩ := type_select hτ
  obtain ⟨σ', inner', out', hσ', hi', hout', hτo', hτb'⟩ := type_select hτ'
  have hin : σ'.isBag = σ.isBag ∧ Forall₂ (Field.Narrows P) inner inner' := by
    rcases ih σ σ' hσ hσ' with rfl | ⟨hbag, i₀, i₀', h₀, h₀', hall⟩
    · rw [hi] at hi'
      cases hi'
      exact ⟨rfl, List.forall₂_same.mpr fun x _ => x.narrows_refl⟩
    · rw [hi] at h₀
      cases h₀
      rw [hi'] at h₀'
      cases h₀'
      exact ⟨hbag, hall⟩
  exact Or.inr ⟨by rw [hτb', hτb, hin.1], out, out', hτo, hτo',
    Schema.project_narrows hin.2 hout hout'⟩

/-- The type of a renumbered expression is what is left of its type, and the
columns that it selects itself are all there. -/
theorem Renumbered.type_narrows (hn : n.Keeps P kept) (ha : n.old.Agrees P) {e e' : Expr}
    (h : Renumbered n.renumbering e e') (hd : e.selectsDirectly = true) {τ τ' : DataType}
    (hτ : e.type n.old = .ok τ) (hτ' : e'.type n.new = .ok τ') :
    τ.Narrows P τ' ∧ (e.passesOn = false → τ.Aligned P τ') := by
  have aligned : ∀ {τ τ' : DataType} {b : Bool}, τ.Aligned P τ' →
      τ.Narrows P τ' ∧ (b = false → τ.Aligned P τ') := fun h => ⟨h.narrows, fun _ => h⟩
  induction h generalizing τ τ' with
  | column hq => exact ⟨column_narrows hn hq hτ hτ', fun h => by cases h⟩
  | literal v =>
    cases hτ
    cases hτ'
    exact aligned (Or.inl rfl)
  | star =>
    cases hτ
    cases hτ'
    exact ⟨hn.narrows.type rfl rfl rfl, fun h => by cases h⟩
  | lookup k hq =>
    exact aligned (Or.inl (lookup_aligned (fun _ _ => column_narrows hn hq) hτ hτ'))
  | select hq hcs => exact aligned (select_column_aligned hn ha hq hcs hτ hτ')
  | @unary op e e' hop _ ih =>
    cases op with
    | named name => exact ih hd hτ hτ'
    | cast type =>
      cases hτ
      cases hτ'
      exact aligned (Or.inl rfl)
    | isNull =>
      cases hτ
      cases hτ'
      exact aligned (Or.inl rfl)
    | lookup k =>
      exact aligned (Or.inl (lookup_aligned (fun _ _ hσ hσ' => (ih hd hσ hσ').1) hτ hτ'))
    | not =>
      obtain ⟨σ, hσ, hτ⟩ := bind_ok hτ
      obtain ⟨σ', hσ', hτ'⟩ := bind_ok hτ'
      split at hτ
      · rename_i hb
        cases hτ
        split at hτ'
        · rename_i hb'
          cases hτ'
          exact aligned (Or.inl (hb'.trans hb.symm))
        · cases hτ'
      · cases hτ
    | select cs =>
      have hsel : e.passesOn = false ∧ e.selectsDirectly = true := by
        cases e with
        | column p => exact absurd trivial hop
        | _ => simpa [selectsDirectly] using hd
      exact aligned (select_aligned (fun _ _ hσ hσ' => (ih hsel.2 hσ hσ').2 hsel.1) hτ hτ')
  | binary op _ _ ihx ihy =>
    obtain ⟨σ, hσ, hτ⟩ := bind_ok hτ
    obtain ⟨ρ, hρ, hτ⟩ := bind_ok hτ
    obtain ⟨σ', hσ', hτ'⟩ := bind_ok hτ'
    obtain ⟨ρ', hρ', hτ'⟩ := bind_ok hτ'
    refine aligned (Or.inl ?_)
    by_cases hop : (op.isComparison || op.isLogical) = true
    · rw [if_pos hop] at hτ hτ'
      cases hτ
      cases hτ'
      rfl
    · rw [if_neg hop] at hτ hτ'
      simp only [selectsDirectly, Bool.not_eq_true] at hd hop
      simp only [hop, Bool.false_or, Bool.and_eq_true] at hd
      split at hτ
      · rename_i t hwider
        cases hτ
        -- Arithmetic is on scalars, of which nothing is removed.
        obtain ⟨⟨a, rfl⟩, b, rfl⟩ := DataType.scalar_of_wider? hwider
        cases (ihx hd.1 hσ hσ').1.eq_of_flat rfl
        cases (ihy hd.2 hρ hρ').1.eq_of_flat rfl
        rw [hwider] at hτ'
        cases hτ'
        rfl
      · cases hτ
  | ifElse _ _ _ iht _ _ => exact iht hd hτ hτ'
  | call f _ _ _ =>
    cases hτ
    cases hτ'
    exact aligned (Or.inl rfl)

theorem name_column {s : Schema} {p : Nat} {x : String} (h : (Expr.column p).name s = .ok x) :
    ∃ f, s[p]? = some f ∧ f.name = x := by
  cases hf : s[p]? with
  | none => simp [name, Schema.fieldAt, hf, Except.map] at h
  | some f => exact ⟨f, rfl, by simpa [name, Schema.fieldAt, hf, Except.map] using h⟩

/-- A renumbered expression names its field as before, where fields keep their
names. -/
theorem Renumbered.name_narrows (hn : n.Keeps P kept) {e e' : Expr}
    (h : Renumbered n.renumbering e e') {x x' : String} (hx : e.name n.old = .ok x)
    (hx' : e'.name n.new = .ok x') : P → x' = x := by
  intro hP
  have hcolumn : ∀ {p q : Nat} {x x' : String}, n.renumbering.column p = .ok q →
      (Expr.column p).name n.old = .ok x → (Expr.column q).name n.new = .ok x' → x' = x := by
    intro p q x x' hq hx hx'
    obtain ⟨f, hf, rfl⟩ := name_column hx
    obtain ⟨f', hf', rfl⟩ := name_column hx'
    obtain ⟨f₀, f₀', hf₀, hf₀', h⟩ := hn.field_at hq
    rw [hf] at hf₀
    cases hf₀
    rw [hf'] at hf₀'
    cases hf₀'
    exact h.name hP
  induction h generalizing x x' with
  | column hq => exact hcolumn hq hx hx'
  | literal v => cases hx; cases hx'; rfl
  | star => cases hx; cases hx'; rfl
  | lookup k hq => exact hcolumn hq hx hx'
  | select hq hcs => exact hcolumn hq hx hx'
  | @unary op e e' hop _ ih =>
    cases op with
    | named name => cases hx; cases hx'; rfl
    | _ => exact ih hx hx'
  | binary op _ _ ihx _ => exact ihx hx hx'
  | ifElse _ _ _ iht _ _ => exact iht hx hx'
  | call f _ _ _ => cases hx; cases hx'; rfl

end Expr

/-! ## Items -/

/-- What a flattened value unnests to, before and after. -/
theorem DataType.Narrows.unnest {τ τ' : DataType} (h : τ.Narrows P τ') (flatten : Bool) :
    (if flatten then τ.inner? else none) = none ∧ (if flatten then τ'.inner? else none) = none ∨
      ∃ inner inner', (if flatten then τ.inner? else none) = some inner ∧
        (if flatten then τ'.inner? else none) = some inner' ∧ inner'.length ≤ inner.length ∧
        (inner'.length = inner.length → Forall₂ (Field.Narrows P) inner inner') := by
  cases flatten with
  | false => exact Or.inl ⟨rfl, rfl⟩
  | true =>
    cases hi : τ.inner? with
    | none => exact Or.inl ⟨by simp, by rw [h.eq_of_flat hi, hi]; simp⟩
    | some inner =>
      obtain ⟨inner', kept, hi', hin⟩ := h.inner hi
      exact Or.inr ⟨inner, inner', by simp, by rw [hi']; simp, hin.width⟩

theorem Expr.Renumbered.isStar {n : Dataflow.Narrowed} {item : Item} {e' : Expr}
    (h : Renumbered n.renumbering item.expr e') :
    Item.isStar { item with expr := e' } = item.isStar := by
  unfold Item.isStar
  generalize item.expr = e at h
  cases h <;> rfl

/-- What an item produces, before and after: no more fields, and if as many then
what is left of each. -/
theorem Item.fields_narrow {n : Dataflow.Narrowed} {kept : List Nat} (hn : n.Keeps P kept)
    (ha : n.old.Agrees P) {item : Item} {e' : Expr} (hd : item.expr.selectsDirectly = true)
    (h : Renumbered n.renumbering item.expr e') {fs fs' : List Field}
    (hfs : item.fields n.old = .ok fs)
    (hfs' : Item.fields { item with expr := e' } n.new = .ok fs') :
    fs'.length ≤ fs.length ∧ (fs'.length = fs.length → Forall₂ (Field.Narrows P) fs fs') := by
  have hone : ∀ {f f' : Field}, f.Narrows P f' → [f'].length ≤ [f].length ∧
      ([f'].length = [f].length → Forall₂ (Field.Narrows P) [f] [f']) :=
    fun h => ⟨Nat.le_refl _, fun _ => .cons h .nil⟩
  unfold Item.fields at hfs hfs'
  rw [h.isStar] at hfs'
  by_cases hs : item.isStar = true
  · rw [if_pos hs] at hfs hfs'
    cases hfs
    cases hfs'
    exact hn.narrows.width
  rw [if_neg hs] at hfs hfs'
  cases hp : item.expr.forwards? with
  | some p =>
    obtain ⟨q, hq, hp'⟩ := h.forwards?.1 p hp
    rw [hp] at hfs
    rw [hp'] at hfs'
    obtain ⟨f, hf, hfs⟩ := bind_ok hfs
    obtain ⟨f', hf', hfs'⟩ := bind_ok hfs'
    obtain ⟨f₀, f₀', hf₀, hf₀', hff⟩ := hn.field_at hq
    rw [Schema.fieldAt_ok.mp hf] at hf₀
    cases hf₀
    rw [Schema.fieldAt_ok.mp hf'] at hf₀'
    cases hf₀'
    rcases hff.type.unnest item.flatten with ⟨hi, hi'⟩ | ⟨inner, inner', hi, hi', hwidth⟩
    · rw [hi] at hfs
      rw [hi'] at hfs'
      obtain ⟨x, hx, hfs⟩ := bind_ok hfs
      obtain ⟨x', hx', hfs'⟩ := bind_ok hfs'
      cases hfs
      cases hfs'
      exact hone ⟨hff.uid, h.name_narrows hn hx hx', hff.type⟩
    · rw [hi] at hfs
      rw [hi'] at hfs'
      cases hfs
      cases hfs'
      exact hwidth
  | none =>
    rw [hp] at hfs
    rw [h.forwards?.2 hp] at hfs'
    obtain ⟨τ, hτ, hfs⟩ := bind_ok hfs
    obtain ⟨τ', hτ', hfs'⟩ := bind_ok hfs'
    have hττ := (h.type_narrows hn ha hd hτ hτ').1
    rcases hττ.unnest item.flatten with ⟨hi, hi'⟩ | ⟨inner, inner', hi, hi', hwidth⟩
    · rw [hi] at hfs
      rw [hi'] at hfs'
      obtain ⟨x, hx, hfs⟩ := bind_ok hfs
      obtain ⟨x', hx', hfs'⟩ := bind_ok hfs'
      cases hfs
      cases hfs'
      exact hone ⟨rfl, h.name_narrows hn hx hx', hττ⟩
    · rw [hi] at hfs
      rw [hi'] at hfs'
      cases hfs
      cases hfs'
      exact hwidth

end Dataflow
