import Dataflow.Proofs.Prune.References
import Dataflow.Proofs.Prune.Twice

/-!
# Selections from the bags of a group

What becomes of an expression that selects columns of a bag that a group has
collected from one of its inputs (`Plan.prune_selections`). A column is looked
up by its identity, and so it becomes the new position of the *first* column of
that input that has this identity. Where an input has a column twice, as a
relation that was crossed with itself has, a selection of the second one is
turned into a selection of the first: `Plan.prune_confuses` shows a run that
removes nothing from such an input and still changes what is selected from it.
-/

namespace Dataflow

open List (Forall₂)
open Dataflow.Expr (Renumbered)

variable {g : String → String} {t : Trackers}

/-! ## Expressions of narrowed operators -/

/-- An expression before and after: it was renumbered for its input, and what it
selects from columns there was recorded. -/
def ReadFrom (ws : List (Slice g t)) (x x' : Nat × Expr) : Prop :=
  x'.1 = x.1 ∧ ∃ w, ws[x.1]? = some w ∧ Renumbered w.narrowed.renumbering x.2 x'.2 ∧
    ∀ p cs f, (p, Access.columns cs) ∈ x.2.reads.accesses → w.old[p]? = some f →
      (Access.columns cs).Met t f

theorem Reading.readFrom {ws : List (Slice g t)} {w : Slice g t} {e e' : Expr}
    (h : Reading w e e') {i : Nat} (hw : ws[i]? = some w) : ReadFrom ws (i, e) (i, e') :=
  ⟨rfl, w, hw, h.expr, fun _ _ f hx hf => (h.met.access _ hx f hf).2⟩

theorem Item.Narrowed.readFrom {ws : List (Slice g t)} {w : Slice g t} {item item' : Item}
    {fields : List Field} (h : item.Narrowed w item' fields) {i : Nat} (hw : ws[i]? = some w) :
    ReadFrom ws (i, item.expr) (i, item'.expr) := by
  refine ⟨rfl, w, hw, h.expr, fun p cs f hx hf => ?_⟩
  cases h.met with
  | star hstar _ =>
    rw [Item.isStar_iff.mp hstar] at hx
    cases hx
  | forward _ hp _ _ _ =>
    rw [Expr.accesses_of_forwards? hp] at hx
    cases List.mem_singleton.mp hx
  | compute _ _ hm _ => exact (hm.access _ hx f hf).2

/-- The items that stay, in order. -/
theorem Items.Narrowed.readFrom {w : Slice g t} {required : List Nat} {start : Nat}
    {items items' : List Item} {fields : List Field} {cols : Columns}
    (h : Items.Narrowed w required start items items' fields cols) :
    ∃ survivors, survivors.Sublist items ∧
      Forall₂ (fun item item' : Item => ReadFrom [w] (0, item.expr) (0, item'.expr))
        survivors items' := by
  induction h with
  | nil => exact ⟨[], .slnil, .nil⟩
  | drop _ _ _ _ ih =>
    obtain ⟨survivors, hsub, hall⟩ := ih
    exact ⟨survivors, hsub.cons _, hall⟩
  | keep h _ _ ih =>
    obtain ⟨survivors, hsub, hall⟩ := ih
    exact ⟨_ :: survivors, hsub.cons_cons _, .cons (h.readFrom rfl) hall⟩

theorem keyed_readFrom {keys keys' : List (List Expr)} {ws : List (Slice g t)}
    (h : Along (fun ks ks' w => Forall₂ (KeyReading w) ks ks') keys keys' ws) :
    Forall₂ (ReadFrom ws) (Operator.keyed keys) (Operator.keyed keys') := by
  have hfrom : ∀ {rest : List (Slice g t)} (done : List (Slice g t)), ws = done ++ rest →
      ∀ {keys keys' : List (List Expr)},
      Along (fun ks ks' w => Forall₂ (KeyReading w) ks ks') keys keys' rest →
      Forall₂ (ReadFrom ws)
        ((keys.zipIdx done.length).flatMap fun x => x.1.map fun e => (x.2, e))
        ((keys'.zipIdx done.length).flatMap fun x => x.1.map fun e => (x.2, e)) := by
    intro rest done hws keys keys' h
    induction h generalizing done with
    | nil => exact .nil
    | @cons ks ks' w _ _ _ hks _ ih =>
      rw [List.zipIdx_cons, List.zipIdx_cons, List.flatMap_cons, List.flatMap_cons]
      refine List.rel_append ?_ ?_
      · refine List.forall₂_map_left_iff.mpr (List.forall₂_map_right_iff.mpr ?_)
        exact hks.imp fun e e' he => he.reading.readFrom (by rw [hws]; simp)
      · have := ih (done ++ [w]) (by rw [hws, List.append_assoc]; rfl)
        rwa [List.length_append, List.length_singleton] at this
  exact hfrom [] rfl h

/-- The expressions of a narrowed operator are those before; only a `forEach`
may have lost any. -/
theorem Operator.Narrowed.readFrom {required : List Nat} {op op' : Operator}
    {ws : List (Slice g t)} {natural : Schema} {cols : Columns}
    (h : op.Narrowed required op' ws natural cols) :
    ∃ survivors, survivors.Sublist op.expressions ∧
      ((∀ items, op ≠ .forEach items) → survivors = op.expressions) ∧
      Forall₂ (ReadFrom ws) survivors op'.expressions := by
  have hone : ∀ {w : Slice g t} {es es' : List Expr}, Forall₂ (Reading w) es es' →
      Forall₂ (ReadFrom [w]) (es.map fun e => ((0 : Nat), e))
        (es'.map fun e => ((0 : Nat), e)) := by
    intro w es es' hes
    refine List.forall₂_map_left_iff.mpr (List.forall₂_map_right_iff.mpr ?_)
    exact hes.imp fun e e' he => he.readFrom rfl
  cases h with
  | forEach h =>
    obtain ⟨survivors, hsub, hall⟩ := h.readFrom
    refine ⟨_, hsub.map fun item : Item => ((0 : Nat), item.expr),
      fun hne => absurd rfl (hne _), ?_⟩
    exact List.forall₂_map_left_iff.mpr (List.forall₂_map_right_iff.mpr hall)
  | filter h => exact ⟨_, .refl _, fun _ => rfl, .cons (h.readFrom rfl) .nil⟩
  | orderBy keys => exact ⟨_, .refl _, fun _ => rfl, hone (keys.imp fun _ _ h => h.reading)⟩
  | split h => exact ⟨_, .refl _, fun _ => rfl, hone h⟩
  | join keys => exact ⟨_, .refl _, fun _ => rfl, keyed_readFrom keys⟩
  | cogroup h => exact ⟨_, .refl _, fun _ => rfl, keyed_readFrom h.keys⟩
  | _ => exact ⟨[], .slnil, fun _ => rfl, .nil⟩

theorem Operator.Narrowed.name_eq {required : List Nat} {op op' : Operator}
    {ws : List (Slice g t)} {natural : Schema} {cols : Columns}
    (h : op.Narrowed required op' ws natural cols) : op'.name = op.name := by
  cases h <;> rfl

/-! ## Bags of a group -/

/-- A narrowed node exposes its bags with what is left of the inputs that they
were collected from. -/
theorem Node.Narrowed.bag_at {r : Required} {required : List Nat} {natural : Schema}
    {cols : Columns} {n n' : Node} {ins : List (Slice g t)} {w : Slice g t}
    (h : n.Narrowed r required natural cols n' ins w) {id : Nat}
    (hpart : Plan.exposedPart id n natural = .ok n.schema) {c : CoGroup} (hop : n.op = .cogroup c)
    {p q i : Nat} (hp : n.exposed[p]? = some (CoGroup.bagPosition i))
    (hq : w.narrowed.column p = .ok q) :
    ∃ wi f, ins[i]? = some wi ∧ w.old[p]? = some f ∧ f.type = .bag wi.old ∧
      w.cutAt p = .bag wi.columns := by
  obtain ⟨m, -, x, hx, hcols⟩ := getElem?_of_left h.exposes (Slice.columns_at hq)
  rw [hp] at hx
  cases hx
  obtain ⟨f, hf, hnat⟩ := getElem?_of_left (Node.exposes_of_part hpart) hp
  have hopn := h.op
  rw [hop] at hopn
  generalize n'.op = op' at hopn
  cases hopn with
  | cogroup hc =>
    -- The group comes first, and the bags after it in the order of the inputs.
    unfold CoGroup.columns Columns.beside at hcols
    cases m with
    | zero => cases hcols
    | succ m =>
      rw [List.singleton_append, List.getElem?_cons_succ, Columns.shift, List.getElem?_map] at hcols
      obtain ⟨y, hy, hyx⟩ := Option.map_eq_some_iff.mp hcols
      obtain ⟨k, cut⟩ := y
      cases hyx
      obtain ⟨rfl, b, wi, hb, hwi, hcut⟩ := Slice.bagged_getElem? hy
      rw [CoGroup.schema_eq, CoGroup.bagPosition, List.singleton_append, List.getElem?_cons_succ,
        Slice.bagFields, List.getElem?_zipWith, hb, List.getElem?_map, hwi] at hnat
      refine ⟨wi, f, hwi, by rw [h.old]; exact hf, ?_, hcut⟩
      rw [← Option.some.inj hnat]

/-- Inner columns that are selected from a bag are found where the first columns
with their identities are now. -/
theorem Slice.inner_first {w wi : Slice g t} {p q : Nat} {f : Field} {cs cs' : List Nat}
    (hq : w.narrowed.column p = .ok q) (hf : w.old[p]? = some f) (htype : f.type = .bag wi.old)
    (hcut : w.cutAt p = .bag wi.columns) (hm : (Access.columns cs).Met t f)
    (hcs : w.narrowed.inner p cs = .ok cs') :
    Forall₂ (fun j j' => ∃ x j₀, wi.old[j]? = some x ∧
      Schema.positionOf? wi.old x.uid = some j₀ ∧ MovedTo wi.kept j₀ j') cs cs' := by
  have hi : f.type.inner? = some wi.old := by rw [htype]; rfl
  obtain ⟨f', inner', hf', hi', hinner, hfit, hknown⟩ := Slice.inner_at hq hf hi
  rw [Slice.inner_eq hq hf hf' hi hi'] at hcs
  rw [hcut] at hinner hfit hknown
  have hpoint := mapM_ok.mp hcs
  refine forall₂_of_getElem? hpoint.length_eq fun k j j' hj hj' => ?_
  obtain ⟨j₁, hj₁, hjj⟩ := getElem?_of_left hpoint hj
  rw [hj'] at hj₁
  cases hj₁
  obtain ⟨x, hx, hpos⟩ := Slice.innerPosition_ok.mp hjj
  obtain ⟨j₀, hj₀⟩ := Schema.positionOf?_isSome (List.mem_of_getElem? hx) rfl
  have hkept := hknown.first_mem hi hm (List.mem_of_getElem? hj) hx hj₀
  obtain ⟨j₂, hj₂⟩ := List.mem_iff_getElem?.mp hkept
  have hnew :=
    Slice.positionOf?_first (w := Slice.ofInner hinner hfit) hj₀ (Slice.column_ok.mpr hj₂)
  rw [show (Slice.ofInner hinner hfit).new = inner' from rfl, hpos] at hnew
  cases hnew
  exact ⟨x, j₀, hx, hj₀, hj₂⟩

namespace Plan

variable {p p' : Plan} {config : Config}

/-- A selection from a node's column that is one of its bags: how the columns
selected before and after correspond, given the kept positions and the schema of
the input that the bag was collected from. -/
def FromBags (R : List Nat → Schema → List Nat → List Nat → Prop) (p : Plan)
    (kept : List (List Nat)) (node c _ : Nat) (cs cs' : List Nat) : Prop :=
  ∀ n g i e m, p.nodes[node]? = some n → n.op = .cogroup g →
    n.exposed[c]? = some (CoGroup.bagPosition i) → n.inputs[i]? = some e →
    p.nodes[e.node]? = some m → ∃ ks, kept[e.node]? = some ks ∧ R ks m.schema cs cs'

/-- Each column selected from a bag has become the new position of the first one
with its identity. -/
def FirstImages : Plan → List (List Nat) → Nat → Nat → Nat → List Nat → List Nat → Prop :=
  FromBags fun ks s => Forall₂ fun j j' => ∃ f j₀, s[j]? = some f ∧
    Schema.positionOf? s f.uid = some j₀ ∧ MovedTo ks j₀ j'

/-- Each column selected from a bag has become its new position. -/
def Images : Plan → List (List Nat) → Nat → Nat → Nat → List Nat → List Nat → Prop :=
  FromBags fun ks _ => Forall₂ (MovedTo ks)

theorem Narrowing.rewritten {required : List Required} {ws : List (Slice g t)}
    (h : Narrowing required ws p p') (hlen : required.length = p.nodes.length) :
    Rewritten False required (ws.map Slice.kept) (p.FirstImages (ws.map Slice.kept)) p p' := by
  have hkept : ∀ {i : Nat} {w : Slice g t}, ws[i]? = some w →
      (ws.map Slice.kept)[i]? = some w.kept := fun hw => by rw [List.getElem?_map, hw]; rfl
  refine ⟨h.length, fun id n n' hn hn' => ?_⟩
  obtain ⟨w, ins, keep, req, natural, cols, hw, hins, hready, hnar⟩ := h.node id n n' hn hn'
  have hr : required[id]? = some (required.getD id .none) := by
    have hlt : id < required.length := hlen ▸ (List.getElem?_eq_some_iff.mp hn).1
    simp [hlt]
  refine ⟨⟨hnar.id, hnar.label, hnar.inputs, hnar.op.name_eq, ?_⟩, _, w.kept, hr, hkept hw,
    w.fits.ascending, ?_, hnar.keeps, hnar.exact⟩
  · obtain ⟨survivors, hsub, hall, hread⟩ := hnar.op.readFrom
    refine ⟨survivors, hsub, hall, hread.imp fun x x' hx => ?_⟩
    obtain ⟨hinput, wx, hwx, hren, hmet⟩ := hx
    obtain ⟨e, he, hwe⟩ := getElem?_of_right hins hwx
    obtain ⟨m, m', hm, hm', hold, hnew, hat⟩ := h.slice_at hwe
    refine ⟨hinput, e, he, hren.related (fun c c' hc => ?_) fun c c' cs cs' hacc hc hcs => ?_⟩
    · obtain ⟨f, f', hf, hf', -, -⟩ := Slice.field_at hc
      exact ⟨⟨wx.kept, hkept hwe, Slice.column_ok.mp hc⟩, m, m', f, f', hm, hm', hold ▸ hf,
        hnew ▸ hf', Slice.uid_at hc hf hf'⟩
    · intro n₁ c₁ i e₁ m₁ hn₁ hop hexp he₁ hm₁
      rw [hm] at hn₁
      cases hn₁
      obtain ⟨w₀, ins₁, keep₁, req₁, natural₁, cols₁, hw₀, hins₁, hready₁, hnar₁⟩ := hat
      rw [hwe] at hw₀
      cases hw₀
      obtain ⟨id₁, hpart⟩ := hready₁.part
      obtain ⟨wi, f, hwi, hf, htype, hcut⟩ := hnar₁.bag_at hpart hop hexp hc
      obtain ⟨e₂, he₂, hwi'⟩ := getElem?_of_right hins₁ hwi
      rw [he₁] at he₂
      cases he₂
      obtain ⟨m₂, -, hm₂, -, hold₂, -⟩ := h.slice_at hwi'
      rw [hm₁] at hm₂
      cases hm₂
      refine ⟨wi.kept, hkept hwi', ?_⟩
      rw [← hold₂]
      exact Slice.inner_first hc hf htype hcut (hmet c cs f hacc hf) hcs
  · refine forall₂_of_getElem? ?_ fun i k f' hk hf' => ?_
    · rw [← hnar.new, w.new_length]
      exact List.length_map ..
    · obtain ⟨f, f₀', hf, hf₀', -, -⟩ := Slice.field_at (Slice.column_ok.mpr hk)
      rw [hnar.new, hf'] at hf₀'
      cases hf₀'
      exact ⟨f, hnar.old ▸ hf, Slice.uid_at (Slice.column_ok.mpr hk) hf (hnar.new ▸ hf'),
        fun hfalse => hfalse.elim⟩

/-- After a run every reference leads to the column it led to before, except that
a selection from a bag of a group takes the first column of the bag that has the
identity of the one that was selected. -/
theorem prune_selections (htypes : p.SharesTypes) {outcome : PruneOutcome}
    (h : (p.prune config).result = .ok outcome) :
    ∃ r kept, p.solve (.empty config.mapKeys) config.retainOne = .ok r ∧
      Rewritten False r.required kept (p.FirstImages kept) p (p.prune config).plan := by
  obtain ⟨r, ws, -, hsolve, hclosed, hnar⟩ := exists_narrowing_of_prune h
    fun n hn => (htypes n hn).coherent ""
  exact ⟨r, _, hsolve, hnar.rewritten hclosed.length⟩

/-- Where no column of the input has the identity of another, the first column
with an identity is the only one. -/
theorem FirstImages.images {kept : List (List Nat)} {node c c' : Nat} {cs cs' : List Nat}
    (h : p.FirstImages kept node c c' cs cs')
    (hdistinct : ∀ n ∈ p.nodes, (Schema.uids n.schema).Nodup) :
    p.Images kept node c c' cs cs' := by
  intro n g i e m hn hop hexp he hm
  obtain ⟨ks, hks, hall⟩ := h n g i e m hn hop hexp he hm
  refine ⟨ks, hks, hall.imp fun j j' hj => ?_⟩
  obtain ⟨f, j₀, hf, hpos, hmoved⟩ := hj
  obtain ⟨f₀, hf₀, huid, -⟩ := Schema.positionOf?_eq_some.mp hpos
  have hsame : (Schema.uids m.schema)[j₀]? = (Schema.uids m.schema)[j]? := by
    rw [Schema.uids, List.getElem?_map, List.getElem?_map, hf₀, hf]
    exact congrArg some huid
  have hlt : j₀ < (Schema.uids m.schema).length := by
    rw [Schema.uids, List.length_map]
    exact (List.getElem?_eq_some_iff.mp hf₀).1
  cases (List.getElem?_inj hlt (hdistinct m (List.mem_of_getElem? hm))).mp hsame
  exact hmoved

end Plan

/-! ## A relation crossed with itself -/

namespace Builder

/-- Pairs of visits of which the first is by one user: the users of the second
visits, and the pairs without repetitions. -/
def paired : Builder := empty
  |>.after (schema [("user", .scalar .chararray), ("page", .scalar .chararray)])
  |>.after (load "A" "visits" [⟨"user", .scalar .chararray, ⟨0⟩⟩,
      ⟨"page", .scalar .chararray, ⟨1⟩⟩] none)
  |>.after (cross "X" [⟨0, none⟩, ⟨0, none⟩])
  |>.after (filter "Y" ⟨1, none⟩ (.binary .eq (.column 0) (.literal (.chararray "a"))))
  |>.after (cogroup "G" [(⟨2, none⟩, [], false)])
  |>.after (forEach "F" ⟨3, none⟩ [(.select (.column 1) [2], false)])
  |>.after (distinct "D" ⟨2, none⟩)

theorem paired_made : paired.plan.Made :=
  .built (b := paired)
    (.step (.step (.step (.step (.step (.step (.step .empty (.schema _)) (.load ..)) (.cross ..))
      (.filter ..)) (.cogroup ..)) (.forEach ..)) (.distinct ..)) rfl

theorem paired_pruned : (paired.plan.prune {}).result = .ok ⟨true, [], [], 6⟩ :=
  Plan.result_of_within 6 (by decide +kernel)

/-- After the run the pairs have all their columns, and the first of them is
selected. -/
theorem paired_selects :
    ((paired.plan.prune {}).plan.nodes[2]?.map fun n => n.schema.length) = some 4 ∧
      ((paired.plan.prune {}).plan.nodes[4]?.map fun n =>
        n.op.expressions.map fun x => x.2.reads.accesses) = some [[(0, .columns [0])]] := by
  have hrun : ((paired.plan.pruneWithin 6 {}).map fun run =>
      (run.plan.nodes[2]?.map (fun n => n.schema.length),
        run.plan.nodes[4]?.map fun n => n.op.expressions.map fun x => x.2.reads.accesses)) =
      some (some 4, some [[(0, .columns [0])]]) := by decide +kernel
  obtain ⟨run, hwithin, hboth⟩ := Option.map_eq_some_iff.mp hrun
  rw [Plan.prune_of_within hwithin]
  exact Prod.mk.inj hboth

end Builder

namespace Plan

/-- Selections from bags do not in general become the new positions of the
columns that were selected, not even of an input that keeps all its columns. -/
theorem prune_confuses : Builder.paired.plan.Made ∧
    (Builder.paired.plan.prune {}).result = .ok ⟨true, [], [], 6⟩ ∧
    ¬ ∃ required kept, Rewritten False required kept (Builder.paired.plan.Images kept)
      Builder.paired.plan (Builder.paired.plan.prune {}).plan := by
  refine ⟨Builder.paired_made, Builder.paired_pruned, ?_⟩
  rintro ⟨required, kept, h⟩
  obtain ⟨hwidth, hacc⟩ := Builder.paired_selects
  obtain ⟨y', hy', hlen⟩ := Option.map_eq_some_iff.mp hwidth
  obtain ⟨f', hf', hacc⟩ := Option.map_eq_some_iff.mp hacc
  obtain ⟨⟨-, -, -, -, survivors, hsub, -, hall⟩, -⟩ := h.node 4 _ f' rfl hf'
  -- The one expression that is left selects the first column of the bag.
  obtain ⟨x', hx'⟩ : ∃ x', f'.op.expressions = [x'] :=
    List.length_eq_one_iff.mp (by simpa using congrArg List.length hacc)
  rw [hx'] at hall hacc
  replace hacc : x'.2.reads.accesses = [(0, .columns [0])] := List.head_eq_of_cons_eq hacc
  cases hall with
  | @cons x _ survivors _ hx hrest =>
    cases hrest
    cases List.mem_singleton.mp (hsub.subset (List.mem_singleton.mpr rfl))
    obtain ⟨-, e, he, hrel⟩ := hx
    cases he
    generalize x'.2 = e' at hrel hacc
    cases hrel with
    | unary hop _ => exact hop 1 [2] rfl
    | @select _ q _ cs' _ hcs =>
      change [(q, Access.columns cs')] = [(0, .columns [0])] at hacc
      cases hacc
      obtain ⟨ks, hks, himage⟩ := hcs _ _ 0 _ _ rfl rfl rfl rfl rfl
      obtain ⟨-, r, ks', -, hks', hreduced⟩ := h.node 2 _ y' rfl hy'
      rw [hks] at hks'
      cases hks'
      have hbound : ∀ k ∈ ks, k < 4 := by
        intro k hk
        obtain ⟨_, -, f, hf, -⟩ := mem_of_left hreduced.fields hk
        exact (List.getElem?_eq_some_iff.mp hf).1
      have hall := (length_le_of_ascending hreduced.ascending hbound).2
        (hreduced.fields.length_eq.trans hlen)
      cases himage with
      | cons hmoved _ =>
        rw [hall] at hmoved
        cases hmoved

theorem prune_selections_paired : Builder.paired.plan.SharesTypes ∧
    ∃ r kept, Builder.paired.plan.solve (.empty true) true = .ok r ∧
      Rewritten False r.required kept (Builder.paired.plan.FirstImages kept) Builder.paired.plan
        (Builder.paired.plan.prune {}).plan :=
  ⟨by decide, prune_selections (by decide) Builder.paired_pruned⟩

end Plan

end Dataflow
