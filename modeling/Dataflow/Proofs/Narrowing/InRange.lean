import Dataflow.Proofs.Narrowing.Nodes

/-!
# Expressions that stay in range

Typing does not look at everything: the arguments of a call, the operand of a
cast and a branch that is not the first may name columns that do not exist.
`Expr.inRange` does look at everything, and an expression in range whose reads
have been recorded can always be renumbered (`exists_renumber_of_met`).
-/

namespace Dataflow

namespace Expr

mutual

/-- Every column exists, and a selection directly of a column names existing
columns of a bag or tuple. -/
def inRange (s : Schema) : Expr → Bool
  | .column p => p < s.length
  | .literal _ => true
  | .star => true
  | .select (.column p) cs =>
    match s[p]?.bind fun f => f.type.inner? with
    | some inner => cs.all fun c => c < inner.length
    | none => false
  | .unary _ e => e.inRange s
  | .binary _ l r => l.inRange s && r.inRange s
  | .ifElse t e p => t.inRange s && e.inRange s && p.inRange s
  | .call _ args => inRangeAll s args

def inRangeAll (s : Schema) : List Expr → Bool
  | [] => true
  | e :: es => e.inRange s && inRangeAll s es

end

theorem inRangeAll_iff {s : Schema} {args : List Expr} :
    inRangeAll s args = true ↔ ∀ a ∈ args, a.inRange s = true := by
  induction args with
  | nil => simp [inRangeAll]
  | cons a as ih => simp [inRangeAll, ih]

theorem inRange_unary {s : Schema} {op : Unary} {e : Expr} (h : ¬ Direct op e) :
    (Expr.unary op e).inRange s = e.inRange s := by
  cases op <;> cases e <;> first | rfl | exact absurd trivial h

def AccessInRange (s : Schema) (x : Nat × Access) : Prop :=
  x.1 < s.length ∧ ∀ cs, x.2 = .columns cs →
    ∃ f inner, s[x.1]? = some f ∧ f.type.inner? = some inner ∧ ∀ c ∈ cs, c < inner.length

theorem access_inRange {s : Schema} {e : Expr} (h : e.inRange s = true) :
    ∀ x ∈ e.reads.accesses, AccessInRange s x := by
  induction e using readingInduction with
  | column p =>
    intro x hx
    rw [List.mem_singleton.mp hx]
    exact ⟨by simpa [inRange] using h, nofun⟩
  | literal v => nofun
  | star => nofun
  | lookup p k =>
    intro x hx
    rw [List.mem_singleton.mp hx]
    exact ⟨by simpa [inRange] using h, nofun⟩
  | select p cs =>
    intro x hx
    rw [List.mem_singleton.mp hx]
    simp only [inRange] at h
    split at h
    · rename_i inner hin
      obtain ⟨f, hf, hinner⟩ := Option.bind_eq_some_iff.mp hin
      refine ⟨(List.getElem?_eq_some_iff.mp hf).1, fun cs' hcs => ?_⟩
      cases hcs
      exact ⟨f, inner, hf, hinner, fun c hc => by simpa using List.all_eq_true.mp h c hc⟩
    · cases h
  | unary op e hop ih =>
    rw [inRange_unary hop] at h
    rw [reads_unary hop]
    exact ih h
  | binary op l r ihl ihr =>
    simp only [inRange, Bool.and_eq_true] at h
    intro x hx
    exact (Reads.mem_append.mp hx).elim (ihl h.1 x) (ihr h.2 x)
  | ifElse t e p iht ihe ihp =>
    simp only [inRange, Bool.and_eq_true] at h
    intro x hx
    rcases Reads.mem_append.mp hx with hx | hx
    · exact (Reads.mem_append.mp hx).elim (iht h.1.1 x) (ihe h.1.2 x)
    · exact ihp h.2 x hx
  | call f args ih =>
    intro x hx
    obtain ⟨a, ha, hx⟩ := mem_readsAll.mp hx
    exact ih a ha (inRangeAll_iff.mp h a ha) x hx

end Expr

variable {g : String → String} {t : Trackers} {w : Slice g t}

/-- The first inner column with the identity of one that was recorded as read is
known to be read. -/
theorem Known.first_mem {f : Field} {inner : Schema} {kept cs : List Nat}
    (hknown : Known t f.uid inner kept) (hi : f.type.inner? = some inner)
    (hm : (Access.columns cs).Met t f) {c : Nat} (hc : c ∈ cs) {h : Field}
    (hh : inner[c]? = some h) {i : Nat} (hpos : Schema.positionOf? inner h.uid = some i) :
    i ∈ kept := by
  obtain ⟨x, hx, -, -⟩ := Schema.positionOf?_eq_some.mp hpos
  have hlt := (List.getElem?_eq_some_iff.mp hx).1
  unfold Known at hknown
  rcases hm with hw | ⟨inner₀, hi₀, hall⟩
  · rw [(hw.bag hi).1] at hknown
    exact hknown i hlt
  · rw [hi] at hi₀
    cases hi₀
    obtain ⟨h₀, hh', -, hrec⟩ := hall c hc
    rw [hh] at hh'
    cases hh'
    obtain ⟨s, hs, hhas⟩ := Trackers.records_bagColumns.mp hrec
    rw [hs] at hknown
    cases s with
    | all => exact hknown i hlt
    | only us => exact hknown _ (hhas _ (List.mem_singleton.mpr rfl)) i hpos

/-- Inner columns that were recorded as read can be renumbered. -/
theorem Slice.exists_inner {p : Nat} {cs : List Nat} {f : Field} {inner : Schema} {q : Nat}
    (hq : w.narrowed.column p = .ok q) (hf : w.old[p]? = some f)
    (hi : f.type.inner? = some inner) (hcs : ∀ c ∈ cs, c < inner.length)
    (hm : (Access.columns cs).Met t f) : ∃ cs', w.narrowed.inner p cs = .ok cs' := by
  obtain ⟨f', inner', hf', hi', hinner, hfit, hknown⟩ := Slice.inner_at hq hf hi
  rw [Slice.inner_eq hq hf hf' hi hi']
  refine exists_mapM_ok fun c hc => ?_
  obtain ⟨h, hh⟩ : ∃ h, inner[c]? = some h := ⟨_, List.getElem?_eq_getElem (hcs c hc)⟩
  obtain ⟨i, hpos⟩ := Schema.positionOf?_isSome (List.mem_of_getElem? hh) rfl
  obtain ⟨x, hx, hu, -⟩ := Schema.positionOf?_eq_some.mp hpos
  obtain ⟨j, hj⟩ := Slice.positionOf?_kept (w := Slice.ofInner hinner hfit)
    (hknown.first_mem hi hm hc hh hpos) hx hu
  exact ⟨j, Slice.innerPosition_ok.mpr ⟨_, hh, hj⟩⟩

/-- An expression in range whose reads were recorded can be renumbered. -/
theorem exists_renumber_of_met {e : Expr} (hin : e.inRange w.old = true)
    (hm : e.reads.Met t w.old w.kept) :
    ∃ out, e.renumber w.narrowed.renumbering = .ok out := by
  refine Expr.exists_renumber fun x hx => ?_
  obtain ⟨hlt, hcols⟩ := Expr.access_inRange hin x hx
  obtain ⟨hk, hmet⟩ := hm.access x hx _ (List.getElem?_eq_getElem hlt)
  obtain ⟨q, hq⟩ := Slice.exists_column hk
  refine ⟨⟨q, hq⟩, fun cs hcs => ?_⟩
  obtain ⟨f, inner, hf, hi, hlts⟩ := hcols cs hcs
  rw [List.getElem?_eq_getElem hlt] at hf
  rw [hcs] at hmet
  rw [Option.some.inj hf] at hmet
  exact Slice.exists_inner hq (hf ▸ List.getElem?_eq_getElem hlt) hi hlts hmet

/-- An item in range that was demanded can be renumbered. -/
theorem Item.Met.exists_renumber {item : Item} (h : item.Met t w.old w.kept)
    (hin : item.expr.inRange w.old = true) :
    ∃ out, item.expr.renumber w.narrowed.renumbering = .ok out := by
  cases h with
  | star hstar hall => exact ⟨_, by rw [Item.isStar_iff.mp hstar]; rfl⟩
  | forward hstar hp hf hk hflat =>
    refine Expr.exists_renumber fun x hx => ?_
    rw [Expr.accesses_of_forwards? hp] at hx
    rw [List.mem_singleton.mp hx]
    exact ⟨Slice.exists_column hk, nofun⟩
  | compute hstar hp hm => exact exists_renumber_of_met hin hm

/-- The expressions that stay with a node can be renumbered if they are in range
and their demands are held. -/
theorem Node.renumbers_of_inRange {r : Required} {keep required : List Nat} {natural : Schema}
    {n : Node} {ins : List (Slice g t)} {name : String} {ds : List Demand}
    (hready : n.Ready r keep required natural ins) (htakes : n.op.Takes ins.length)
    (hd : Demand.ofOperator name t n.op (ins.map Slice.old) required = .ok ds)
    (hh : AllHeld ins ds)
    (hin : ∀ x ∈ n.op.expressions, ∃ w, ins[x.1]? = some w ∧ x.2.inRange w.old = true) :
    n.Renumbers keep ins := by
  by_cases hitems : ∃ items, n.op = .forEach items
  · obtain ⟨items, hn⟩ := hitems
    have hcan : n.op.canProject = false := by rw [hn]; rfl
    obtain ⟨-, rfl⟩ := hready.required_eq (hready.projection_none hcan)
    unfold Node.Renumbers
    rw [hn] at hd hin ⊢
    intro w hw ranges hranges x hx
    subst hw
    obtain ⟨w', hw', hx'⟩ := hin (0, x.1.expr)
      (List.mem_map.mpr ⟨x.1, (List.of_mem_zip (List.mem_filter.mp hx).1).1, rfl⟩)
    cases hw'
    exact (AllHeld.item_met hd hh hranges hx).exists_renumber hx'
  · have hitems' : ∀ items, n.op ≠ .forEach items := fun items h => hitems ⟨items, h⟩
    refine (Node.renumbers_iff hitems').mpr (exists_forall₂ fun x hx => ?_)
    obtain ⟨w, hw, hx'⟩ := hin x hx
    obtain ⟨out, hout⟩ := exists_renumber_of_met hx'
      (Operator.met_of_held htakes hd hh hitems' hx hw)
    exact ⟨out, w, hw, hout⟩

/-- Every expression of a plan is in range of the input it belongs to. -/
def Plan.inRange (p : Plan) : Bool :=
  p.nodes.all fun n =>
    match p.edgeSchemas n.inputs with
    | .ok inputs => n.op.expressions.all fun x => inputs[x.1]?.any fun s => x.2.inRange s
    | .error _ => false

theorem Plan.inRange_at {p : Plan} (h : p.inRange = true) {n : Node} (hn : n ∈ p.nodes)
    {inputs : List Schema} (hinputs : p.edgeSchemas n.inputs = .ok inputs) :
    ∀ x ∈ n.op.expressions, ∃ s, inputs[x.1]? = some s ∧ x.2.inRange s = true := by
  intro x hx
  have hall := List.all_eq_true.mp h n hn
  rw [hinputs] at hall
  have hat := List.all_eq_true.mp hall x hx
  cases hs : inputs[x.1]? with
  | none => rw [hs] at hat; cases hat
  | some s => rw [hs] at hat; exact ⟨s, rfl, hat⟩

end Dataflow
