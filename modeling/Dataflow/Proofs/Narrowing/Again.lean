import Dataflow.Proofs.Narrowing.Moved

/-!
# Asking a narrowed operator again

The demands of a narrowed operator on its narrowed inputs are those of the
operator it was, moved (`Operator.Narrowed.demands`). This holds at every stage
of an analysis, as long as it has not found out more than what the plan was
narrowed to. An item that was dropped had nothing to demand.
-/

namespace Dataflow

open Dataflow.Expr (Renumbered)
open List (Forall₂)

variable {g : String → String} {t : Trackers} {w : Slice g t}

/-! ## Items -/

/-- The demand of an item that stays. -/
theorem Item.Narrowed.moves {item item' : Item} {fields : List Field} {req req' : List Nat}
    {start stop start' stop' : Nat} (h : item.Narrowed w item' fields)
    (hreq : (req'.any fun p => start' ≤ p && p < stop') =
      req.any fun p => start ≤ p && p < stop) :
    Demand.Moves w.kept (Demand.ofItem w.old req item (start, stop))
      (Demand.ofItem w.new req' item' (start', stop')) := by
  have hmoved := h.expr.reads
  unfold Demand.ofItem
  rw [hreq, h.flatten, h.isStar_eq, Expr.hasStar_eq, Expr.hasStar_eq, hmoved.star]
  split
  · intro d hd
    cases hd
    exact ⟨_, rfl, Demand.moved_empty _⟩
  · cases h.met with
    | star hstar hall =>
      rw [if_pos hstar, if_pos hstar]
      exact Demand.moves_all w.kept
    | @forward p f hstar hp hf hk hflat =>
      obtain ⟨q, hq, hp'⟩ := h.expr.forwards?.1 p hp
      simp only [hstar, Expr.star_of_forwards? hp, hp, hp', Bool.false_eq_true, if_false]
      refine Demand.moves_onField hq fun f₀ f' hf₀ hf' => ?_
      rw [Slice.forwardDemands_at hq hf₀ hf']
    | compute hstar hp hm hflat =>
      simp only [hstar, hp, h.expr.forwards?.2 hp, Bool.false_eq_true, if_false]
      split
      · rename_i hread
        obtain ⟨hall, hw⟩ := hm.star hread
        exact Demand.moves_readAll hall hw
      · split
        · rename_i hfl
          exact Demand.moves_ofReads hmoved.toWhole (hflat hfl) (Demand.selects_toWhole _)
        · exact Demand.moves_ofReads hmoved hm h.selects

/-- Whether something is required of an item, before and after. -/
theorem any_moved {req req' : List Nat} {start stop start' stop' : Nat}
    (h : Forall₂ (fun p q => start ≤ p ∧ p < stop ↔ start' ≤ q ∧ q < stop') req req') :
    (req'.any fun p => start' ≤ p && p < stop') = req.any fun p => start ≤ p && p < stop := by
  induction h with
  | nil => rfl
  | cons hpq _ ih =>
    rw [List.any_cons, List.any_cons, ih]
    congr 1
    exact Bool.eq_iff_iff.mpr (by simpa using hpq.symm)

/-- The demands of all items, from some output position on. -/
theorem Items.Narrowed.demands {required req req' : List Nat} {start start' : Nat}
    {items items' : List Item} {fields : List Field} {cols : Columns}
    (h : Items.Narrowed w required start items items' fields cols)
    (hreq : Forall₂ (MovedFrom start start' cols.positions) req req')
    (hsub : ∀ p ∈ req, p ∈ required) {fss fss' : List (List Field)}
    (hfss : items.mapM (fun item => item.fields w.old) = .ok fss)
    (hfss' : items'.mapM (fun item => item.fields w.new) = .ok fss') {ds : List Demand}
    (hds : (items.zip (spans start (fss.map List.length))).mapM
      (fun x => Demand.ofItem w.old req x.1 x.2) = .ok ds) :
    ∃ ds', (items'.zip (spans start' (fss'.map List.length))).mapM
      (fun x => Demand.ofItem w.new req' x.1 x.2) = .ok ds' ∧
      Demand.SumsMoved w.kept ds ds' := by
  induction h generalizing start' fss fss' ds with
  | nil start =>
    cases hfss
    cases hfss'
    cases hds
    exact ⟨[], rfl, Demand.sumsMoved_nil _⟩
  | @drop start item items items' fs fields cols hflat hfs hnone _ ih =>
    obtain ⟨fs₀, fss, rfl, hfs₀, hrest⟩ := mapM_cons_ok hfss
    obtain rfl : fs = fs₀ := Except.ok.inj (hfs.symm.trans hfs₀)
    rw [List.map_cons, spans, List.zip_cons_cons] at hds
    obtain ⟨d, ds, rfl, hd, hds⟩ := mapM_cons_ok hds
    rw [Columns.positions_shift] at hreq
    have hany : (req.any fun p => start ≤ p && p < start + fs.length) = false := by
      refine List.any_eq_false.mpr fun p hp => ?_
      simpa using hnone p (hsub p hp)
    have hd' : d = .empty := by
      simp only [Demand.ofItem, hflat, hany, Bool.not_false, Bool.and_self, if_true] at hd
      exact (Except.ok.inj hd).symm
    have hreq' : Forall₂ (MovedFrom (start + fs.length) start' cols.positions) req req' :=
      hreq.imp fun p q hpq => by
        simpa using MovedFrom.rest (a := []) hpq fun x hx => absurd hx List.not_mem_nil
    obtain ⟨ds', hds', hsums⟩ := ih hreq' hrest hfss' hds
    exact ⟨ds', hds', hd' ▸ hsums.empty⟩
  | @keep start item item' items items' fs fields cols hitem _ _ ih =>
    obtain ⟨fs₀, fss, rfl, hfs₀, hrest⟩ := mapM_cons_ok hfss
    obtain ⟨fs', fss', rfl, hfs', hrest'⟩ := mapM_cons_ok hfss'
    obtain rfl : fs = fs₀ := Except.ok.inj (hitem.fields.symm.trans hfs₀)
    have hp := hitem.produces
    have hlen : (List.range fs.length).length = fs'.length := by
      rw [List.length_range, hp.width_eq hfs']
    rw [List.map_cons, spans, List.zip_cons_cons] at hds
    obtain ⟨d, ds, rfl, hd, hds⟩ := mapM_cons_ok hds
    rw [Columns.positions_beside, hp.positions] at hreq
    have hb : ∀ x ∈ List.range fs.length, x < fs.length := fun x => List.mem_range.mp
    have hany : (req'.any fun p => start' ≤ p && p < start' + fs'.length) =
        req.any fun p => start ≤ p && p < start + fs.length :=
      any_moved (hreq.imp fun p q hpq => by simpa only [hlen] using (hpq.first hb).1)
    have hreq' : Forall₂ (MovedFrom (start + fs.length) (start' + fs'.length) cols.positions)
        req req' := hreq.imp fun p q hpq => by simpa only [hlen] using hpq.rest hb
    obtain ⟨d', hd', hdd'⟩ := hitem.moves hany d hd
    obtain ⟨ds', hds', hsums⟩ := ih hreq' hrest hrest' hds
    refine ⟨d' :: ds', ?_, hsums.cons w.fits.ascending hdd'⟩
    rw [List.map_cons, spans, List.zip_cons_cons]
    exact mapM_ok.mpr (.cons hd' (mapM_ok.mp hds'))

/-! ## Operators -/

/-- Demands on several inputs before, and the same on the narrowed inputs. -/
def AllMoved (ws : List (Slice g t)) (ds ds' : List Demand) : Prop :=
  Along (fun d d' (w : Slice g t) => d.Moved w.kept d') ds ds' ws

namespace Demand

theorem exists_moved {α β : Type} {f : α → Except Error Demand} {f' : β → Except Error Demand}
    {xs : List α} {xs' : List β} {ws : List (Slice g t)}
    (h : Along (fun x x' (w : Slice g t) => Moves w.kept (f x) (f' x')) xs xs' ws)
    {ds : List Demand} (hds : xs.mapM f = .ok ds) :
    ∃ ds', xs'.mapM f' = .ok ds' ∧ AllMoved ws ds ds' := by
  induction h generalizing ds with
  | nil => cases hds; exact ⟨[], rfl, .nil⟩
  | cons h _ ih =>
    obtain ⟨d, ds, rfl, hd, hds⟩ := mapM_cons_ok hds
    obtain ⟨d', hd', hdd'⟩ := h d hd
    obtain ⟨ds', hds', hmoved⟩ := ih hds
    exact ⟨d' :: ds', mapM_ok.mpr (.cons hd' (mapM_ok.mp hds')), .cons hdd' hmoved⟩

theorem onFirst_moved {name name' : String} {demand demand' : Schema → Except Error Demand}
    (h : Moves w.kept (demand w.old) (demand' w.new)) {ds : List Demand}
    (hds : onFirst name [w.old] demand = .ok ds) :
    ∃ ds', onFirst name' [w.new] demand' = .ok ds' ∧ AllMoved [w] ds ds' := by
  obtain ⟨d, hd, hds⟩ := bind_ok hds
  cases hds
  obtain ⟨d', hd', hmoved⟩ := h d hd
  exact ⟨[d'], by simp only [onFirst, hd']; rfl, .cons hmoved .nil⟩

theorem readAll_moved {ws : List (Slice g t)} (h : ∀ w ∈ ws, w.Whole) :
    AllMoved ws ((ws.map Slice.old).map readAll) ((ws.map Slice.new).map readAll) := by
  induction ws with
  | nil => exact .nil
  | cons w ws ih =>
    have hw := h w (List.mem_cons_self ..)
    exact .cons ⟨.all, Slice.wholeDemands_row hw.all hw.reads⟩
      (ih fun x hx => h x (List.mem_cons_of_mem _ hx))

theorem along_zipIdx {α β γ : Type} {R : α × Nat → β × Nat → γ → Prop} {xs : List α} {ys : List β}
    {zs : List γ} (hy : ys.length = xs.length) (hz : zs.length = xs.length)
    (h : ∀ (i : Nat) (x : α) (y : β) (z : γ), xs[i]? = some x → ys[i]? = some y →
      zs[i]? = some z → R (x, i) (y, i) z) : Along R xs.zipIdx ys.zipIdx zs := by
  refine Along.of_getElem? (by simpa using hy) (by simpa using hz) fun i x y z hx hy hz => ?_
  rw [List.getElem?_zipIdx] at hx hy
  obtain ⟨a, ha, rfl⟩ := Option.map_eq_some_iff.mp hx
  obtain ⟨b, hb, rfl⟩ := Option.map_eq_some_iff.mp hy
  rw [Nat.zero_add]
  exact h i a b z ha hb hz

/-- Inputs that are asked under their numbers by an operator that has something
of its own for every input. -/
theorem exists_moved_sides {α β : Type} {R : α → β → Slice g t → Prop} {sides : List α}
    {sides' : List β} {ws : List (Slice g t)} (hsides : Along R sides sides' ws)
    {f f' : Schema × Nat → Except Error Demand}
    (h : ∀ (i : Nat) (x : α) (x' : β) (w : Slice g t), sides[i]? = some x →
      sides'[i]? = some x' → ws[i]? = some w → R x x' w →
      Moves w.kept (f (w.old, i)) (f' (w.new, i)))
    {ds : List Demand} (hds : (ws.map Slice.old).zipIdx.mapM f = .ok ds) :
    ∃ ds', (ws.map Slice.new).zipIdx.mapM f' = .ok ds' ∧ AllMoved ws ds ds' := by
  refine exists_moved (along_zipIdx (by simp) (by simp) fun i s s' w hs hs' hw => ?_) hds
  obtain ⟨x, x', hx, hx', hside⟩ := hsides.getElem?_of_last hw
  rw [List.getElem?_map, hw] at hs hs'
  cases hs
  cases hs'
  exact h i x x' w hx hx' hw hside

end Demand

open Demand

theorem moved_range {n : Nat} {req req' : List Nat}
    (h : Forall₂ (MovedTo (List.range n)) req req') : req' = req := by
  induction h with
  | nil => rfl
  | cons hpq _ ih =>
    obtain ⟨hlt, heq⟩ := List.getElem?_eq_some_iff.mp hpq
    rw [List.getElem_range] at heq
    rw [ih, heq]

/-- The demands of a narrowed operator, at a stage at which no more than
`required` is required and no more than `t` known. -/
theorem Operator.Narrowed.demands {required req req' : List Nat} {op op' : Operator}
    {ws : List (Slice g t)} {natural : Schema} {cols : Columns}
    (h : op.Narrowed required op' ws natural cols) {t' : Trackers} (hle : t'.Le t)
    (hsub : ∀ p ∈ req, p ∈ required) (hreq : Forall₂ (MovedTo cols.positions) req req')
    {name name' : String} {ds : List Demand}
    (hds : Demand.ofOperator name t' op (ws.map Slice.old) req = .ok ds) :
    ∃ ds', Demand.ofOperator name' t' op' (ws.map Slice.new) req' = .ok ds' ∧
      AllMoved ws ds ds' := by
  cases h with
  | load => cases hds; exact ⟨[], rfl, .nil⟩
  | store _ h | distinct h | stream _ _ h =>
    cases hds
    exact ⟨_, rfl, readAll_moved fun x hx => List.mem_singleton.mp hx ▸ h⟩
  | @filter w e e' h =>
    simp only [ofOperator, List.map_cons, List.map_nil] at hds ⊢
    refine onFirst_moved ?_ hds
    exact (moves_ofRange (hreq.imp fun _ _ => Slice.places_self)).append w.fits.ascending
      (moves_ofExpr h)
  | limit =>
    simp only [ofOperator, List.map_cons, List.map_nil] at hds ⊢
    refine onFirst_moved ?_ hds
    exact moves_ofRange (hreq.imp fun _ _ => Slice.places_self)
  | @orderBy w o o' keys =>
    simp only [ofOperator, List.map_cons, List.map_nil] at hds ⊢
    refine onFirst_moved ?_ hds
    exact (moves_ofRange (hreq.imp fun _ _ => Slice.places_self)).append w.fits.ascending
      (moves_ofKeys keys)
  | @split w ps ps' h =>
    simp only [ofOperator, List.map_cons, List.map_nil] at hds ⊢
    refine onFirst_moved ?_ hds
    exact (moves_ofRange (hreq.imp fun _ _ => Slice.places_self)).append w.fits.ascending
      (Moves.collect w.fits.ascending (h.imp fun _ _ => moves_ofExpr))
  | @forEach w items items' fields cols h =>
    obtain ⟨fss, hfss, -⟩ := h.old_ok
    obtain ⟨fss', hfss', -⟩ := h.new_ok
    simp only [ofOperator, List.map_cons, List.map_nil] at hds ⊢
    refine onFirst_moved ?_ hds
    simp only [Items.ranges, hfss, hfss', bind, Except.bind, pure, Except.pure]
    exact SumsMoved.collect fun ds hds =>
      h.demands (hreq.imp fun _ _ => movedFrom_zero) hsub hfss hfss' hds
  | cross ws =>
    exact exists_moved ((offsets_moved ws (hreq.imp fun _ _ => movedFrom_zero)).imp
      fun x x' w ⟨hx, hx', hplaces⟩ => by
        show Moves w.kept (ofRange x.1 req x.2) (ofRange x'.1 req' x'.2)
        rw [hx, hx']
        exact moves_ofRange hplaces) hds
  | @join ws j j' keys same =>
    have hoff := offsets_moved ws (hreq.imp fun _ _ => movedFrom_zero)
    refine exists_moved (along_zipIdx hoff.length_eq.1 hoff.length_eq.2
      fun i x x' w hx hx' hw => ?_) hds
    obtain ⟨y, y', hy, hy', heq, heq', hplaces⟩ := hoff.getElem?_of_last hw
    rw [hx] at hy
    rw [hx'] at hy'
    cases hy
    cases hy'
    obtain ⟨ks, ks', hks, hks', hall⟩ := keys.getElem?_of_last hw
    simp only [heq, heq', hks, hks', Option.getD_some]
    exact (moves_ofRange hplaces).append w.fits.ascending (moves_ofKeys hall)
  | @cogroup ws c c' h =>
    rw [CoGroup.positions_columns] at hreq
    rw [moved_range hreq]
    refine exists_moved_sides h.keys (fun i ks ks' w hks hks' hw hall => ?_) hds
    simp only [hks, hks']
    exact moves_ofGroup hle h hsub hw hall
  | @union ws u u' h =>
    rw [Columns.positions_whole] at hreq
    refine exists_moved_sides h.sides (fun i m m' w hm hm' _ hside => ?_) hds
    simp only [hm, hm']
    exact moves_ofMapping h.fields hside hreq

end Dataflow
