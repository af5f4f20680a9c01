import Dataflow.Proofs.Expr.Traversed
import Dataflow.Proofs.Narrowing.Operators

/-!
# Demands on a narrowed plan

What is needed of an input can be asked again after narrowing. The answer is
the one from before at the new positions (`Demand.Moved`): the same findings
about parts, in the same order, and the required positions where they are now.
For each rule of the analysis this module says that its answer moves in this way
(`Demand.Moves`), given that what the rule reads is what the input was narrowed
to, or less.
-/

namespace Dataflow

open Dataflow.Expr (Renumbered)
open List (Forall₂)

/-! ## Positions -/

/-- The old position `p` is now `q`. -/
def MovedTo (kept : List Nat) (p q : Nat) : Prop := kept[q]? = some p

namespace MovedTo

variable {kept : List Nat} {p q p' q' : Nat}

theorem lt_iff (hk : kept.Pairwise (· < ·)) (h : MovedTo kept p q) (h' : MovedTo kept p' q') :
    p < p' ↔ q < q' := by
  obtain ⟨hq, rfl⟩ := List.getElem?_eq_some_iff.mp h
  obtain ⟨hq', rfl⟩ := List.getElem?_eq_some_iff.mp h'
  have hasc := List.pairwise_iff_getElem.mp hk
  rcases Nat.lt_trichotomy q q' with hlt | rfl | hlt
  · exact ⟨fun _ => hlt, fun _ => hasc q q' hq hq' hlt⟩
  · simp
  · have := hasc q' q hq' hq hlt
    constructor <;> intro <;> omega

theorem eq_iff (hk : kept.Pairwise (· < ·)) (h : MovedTo kept p q) (h' : MovedTo kept p' q') :
    p = p' ↔ q = q' := by
  have h₁ := lt_iff hk h h'
  have h₂ := lt_iff hk h' h
  omega

theorem insert (hk : kept.Pairwise (· < ·)) {ps qs : List Nat} (h : MovedTo kept p q)
    (hs : Forall₂ (MovedTo kept) ps qs) :
    Forall₂ (MovedTo kept) (Positions.insert p ps) (Positions.insert q qs) := by
  induction hs with
  | nil => exact .cons h .nil
  | cons hx hxs ih =>
    simp only [Positions.insert, lt_iff hk h hx, eq_iff hk h hx]
    split
    · exact .cons h (.cons hx hxs)
    · split
      · exact .cons hx hxs
      · exact .cons hx ih

theorem contains (hk : kept.Pairwise (· < ·)) {ps qs : List Nat} (h : MovedTo kept p q)
    (hs : Forall₂ (MovedTo kept) ps qs) : qs.contains q = ps.contains p := by
  induction hs with
  | nil => rfl
  | cons hx _ ih =>
    rw [List.contains_cons, List.contains_cons, ih]
    congr 1
    exact Bool.eq_iff_iff.mpr (by simpa using (eq_iff hk h hx).symm)

/-- Two ascending lists that name the same positions before and after. -/
theorem forall₂ (hk : kept.Pairwise (· < ·)) {ps qs : List Nat} (hps : ps.Pairwise (· < ·))
    (hqs : qs.Pairwise (· < ·)) (h : ∀ p ∈ ps, ∃ q ∈ qs, MovedTo kept p q)
    (h' : ∀ q ∈ qs, ∃ p ∈ ps, MovedTo kept p q) : Forall₂ (MovedTo kept) ps qs := by
  obtain ⟨ps', hps'⟩ := exists_forall₂ h'
  have hsame : ps' = ps := by
    refine Positions.ext_ascending ?_ hps fun x => ?_
    · have hmoved : Forall₂ (MovedTo kept) ps' qs := (hps'.imp fun _ _ h => h.2).flip
      clear h h' hps hps'
      induction hmoved with
      | nil => exact .nil
      | cons hx hxs ih =>
        obtain ⟨hlt, hrest⟩ := List.pairwise_cons.mp hqs
        refine List.pairwise_cons.mpr ⟨fun y hy => ?_, ih hrest⟩
        obtain ⟨z, hz, hyz⟩ := mem_of_left hxs hy
        exact (lt_iff hk hx hyz).mpr (hlt z hz)
    · constructor
      · intro hx
        obtain ⟨q, -, hp, -⟩ := mem_of_right hps' hx
        exact hp
      · intro hx
        obtain ⟨q, hq, hm⟩ := h x hx
        obtain ⟨y, hy, -, hm'⟩ := mem_of_left hps' hq
        rw [(eq_iff hk hm hm').mpr rfl]
        exact hy
  rw [hsame] at hps'
  exact (hps'.imp fun _ _ h => h.2).flip

end MovedTo

/-! ## Requirements -/

/-- A requirement before, and the same of the kept positions. -/
inductive Required.Moved (kept : List Nat) : Required → Required → Prop
  | none : Moved kept .none .none
  | all : Moved kept .all .all
  | positions {ps qs : List Nat} (h : Forall₂ (MovedTo kept) ps qs) :
      Moved kept (.positions ps) (.positions qs)

namespace Required.Moved

variable {kept : List Nat} {r r' d d' : Required}

theorem contains (hk : kept.Pairwise (· < ·)) (h : Moved kept r r') {p q : Nat}
    (hm : MovedTo kept p q) : r'.contains q = r.contains p := by
  cases h with
  | none => rfl
  | all => rfl
  | positions h => exact hm.contains hk h

theorem insert (hk : kept.Pairwise (· < ·)) (h : Moved kept r r') {p q : Nat}
    (hm : MovedTo kept p q) :
    Moved kept (r.insert p).1 (r'.insert q).1 ∧ (r'.insert q).2 = (r.insert p).2 := by
  cases h with
  | none => exact ⟨.positions (.cons hm .nil), rfl⟩
  | all => exact ⟨.all, rfl⟩
  | positions h => exact ⟨.positions (hm.insert hk h), congrArg not (hm.contains hk h)⟩

theorem insertAll (hk : kept.Pairwise (· < ·)) (h : Moved kept r r') {ps qs : List Nat}
    (hs : Forall₂ (MovedTo kept) ps qs) :
    Moved kept (r.insertAll ps).1 (r'.insertAll qs).1 ∧
      (r'.insertAll qs).2 = (r.insertAll ps).2 := by
  induction hs generalizing r r' with
  | nil => exact ⟨h, rfl⟩
  | cons hx _ ih =>
    obtain ⟨h₁, h₂⟩ := h.insert hk hx
    obtain ⟨h₃, h₄⟩ := ih h₁
    exact ⟨h₃, congrArg₂ or h₂ h₄⟩

theorem merge (hk : kept.Pairwise (· < ·)) (h : Moved kept r r') (hd : Moved kept d d') :
    Moved kept (r.merge d).1 (r'.merge d').1 ∧ (r'.merge d').2 = (r.merge d).2 := by
  cases hd with
  | none => exact ⟨h, rfl⟩
  | all => cases h <;> exact ⟨.all, rfl⟩
  | positions hs => exact h.insertAll hk hs

theorem covers (hk : kept.Pairwise (· < ·)) (h : Moved kept r r') (hd : Moved kept d d')
    (hr' : r'.Proper) (hc : r'.Covers d') : r.Covers d := by
  refine Required.covers_of_merge_false ?_
  rw [← (h.merge hk hd).2, Required.merge_eq_of_covers hr' hc]

theorem eq_none_iff (h : Moved kept r r') : r' = .none ↔ r = .none := by
  cases h <;> simp

theorem proper (hk : kept.Pairwise (· < ·)) (h : Moved kept r r') (hr : r.Proper) :
    r'.Proper := by
  cases h with
  | none => trivial
  | all => trivial
  | @positions ps qs h =>
    refine ⟨?_, fun hnil => hr.2 ?_⟩
    · have hps := hr.1
      clear hr
      induction h with
      | nil => exact .nil
      | cons hx hxs ih =>
        obtain ⟨hlt, hrest⟩ := List.pairwise_cons.mp hps
        refine List.pairwise_cons.mpr ⟨fun y hy => ?_, ih hrest⟩
        obtain ⟨z, hz, hyz⟩ := mem_of_right hxs hy
        exact (hx.lt_iff hk hyz).mp (hlt z hz)
    · exact List.length_eq_zero_iff.mp (h.length_eq.trans (congrArg List.length hnil))

theorem below (h : Moved kept r r') : r'.Below kept.length := by
  cases h with
  | none => trivial
  | all => trivial
  | positions h =>
    intro q hq
    obtain ⟨p, -, hpq⟩ := mem_of_right h hq
    exact (List.getElem?_eq_some_iff.mp hpq).1

end Required.Moved

/-! ## Demands -/

/-- A demand before, and the same on the narrowed input. -/
structure Demand.Moved (kept : List Nat) (d d' : Demand) : Prop where
  fields : d.fields.Moved kept d'.fields
  parts : d'.parts = d.parts

/-- A demand that is computed before is computed after, and has moved. -/
def Demand.Moves (kept : List Nat) (before after : Except Error Demand) : Prop :=
  ∀ d, before = .ok d → ∃ d', after = .ok d' ∧ d.Moved kept d'

namespace Demand

variable {kept : List Nat} {a b a' b' : Except Error Demand}

theorem moved_empty (kept : List Nat) : empty.Moved kept empty := ⟨.none, rfl⟩

theorem Moved.append (hk : kept.Pairwise (· < ·)) {d d' e e' : Demand} (hd : d.Moved kept d')
    (he : e.Moved kept e') : (d ++ e).Moved kept (d' ++ e') :=
  ⟨(hd.fields.merge hk he.fields).1, congrArg₂ (· ++ ·) hd.parts he.parts⟩

theorem Moves.append (hk : kept.Pairwise (· < ·)) (ha : Moves kept a a') (hb : Moves kept b b') :
    Moves kept (do return (← a) ++ (← b)) (do return (← a') ++ (← b')) := by
  intro d hd
  obtain ⟨x, hx, hd⟩ := bind_ok hd
  obtain ⟨y, hy, hd⟩ := bind_ok hd
  cases hd
  obtain ⟨x', hx', hxx'⟩ := ha x hx
  obtain ⟨y', hy', hyy'⟩ := hb y hy
  exact ⟨x' ++ y', by rw [hx', hy']; rfl, hxx'.append hk hyy'⟩

/-- Demands whose sums have moved, whatever they are added to. -/
def SumsMoved (kept : List Nat) (ds ds' : List Demand) : Prop :=
  ∀ acc acc' : Demand, acc.Moved kept acc' →
    (ds.foldl Demand.append acc).Moved kept (ds'.foldl Demand.append acc')

theorem sumsMoved_nil (kept : List Nat) : SumsMoved kept [] [] := fun _ _ h => h

theorem SumsMoved.cons (hk : kept.Pairwise (· < ·)) {d d' : Demand} {ds ds' : List Demand}
    (hd : d.Moved kept d') (h : SumsMoved kept ds ds') : SumsMoved kept (d :: ds) (d' :: ds') :=
  fun _ _ hacc => h _ _ (hacc.append hk hd)

theorem SumsMoved.empty {ds ds' : List Demand} (h : SumsMoved kept ds ds') :
    SumsMoved kept (Demand.empty :: ds) ds' := fun acc acc' hacc => by
  have hself : Demand.append acc Demand.empty = acc := by
    cases acc
    simp [Demand.append, Demand.empty, Required.merge]
  rw [List.foldl_cons, hself]
  exact h acc acc' hacc

theorem SumsMoved.collect {α β : Type} {causes : List α} {causes' : List β}
    {demand : α → Except Error Demand} {demand' : β → Except Error Demand}
    (h : ∀ ds, causes.mapM demand = .ok ds →
      ∃ ds', causes'.mapM demand' = .ok ds' ∧ SumsMoved kept ds ds') :
    Moves kept (Demand.collect causes demand) (Demand.collect causes' demand') := by
  intro d hd
  obtain ⟨ds, hds, hd⟩ := bind_ok hd
  cases hd
  obtain ⟨ds', hds', hmoved⟩ := h ds hds
  exact ⟨_, by rw [Demand.collect, hds']; rfl, hmoved _ _ (moved_empty kept)⟩

theorem Moves.collect {α β : Type} (hk : kept.Pairwise (· < ·)) {causes : List α}
    {causes' : List β} {demand : α → Except Error Demand} {demand' : β → Except Error Demand}
    (h : Forall₂ (fun c c' => Moves kept (demand c) (demand' c')) causes causes') :
    Moves kept (Demand.collect causes demand) (Demand.collect causes' demand') := by
  refine SumsMoved.collect ?_
  induction h with
  | nil =>
    intro ds hds
    cases hds
    exact ⟨[], rfl, sumsMoved_nil kept⟩
  | cons hc _ ih =>
    intro ds hds
    obtain ⟨x, xs, rfl, hx, hxs⟩ := mapM_cons_ok hds
    obtain ⟨x', hx', hxx'⟩ := hc x hx
    obtain ⟨xs', hxs', hmoved⟩ := ih xs hxs
    exact ⟨x' :: xs', mapM_ok.mpr (.cons hx' (mapM_ok.mp hxs')), hmoved.cons hk hxx'⟩

end Demand

/-! ## Fields at their new positions -/

theorem Field.forwardDemands_mapNames {g : String → String} (f : Field) :
    (f.mapNames g).forwardDemands = f.forwardDemands := by
  obtain ⟨n, ty, u⟩ := f
  cases ty <;> rfl

theorem Cut.field_forwardDemands (c : Cut) (f : Field) :
    (c.field f).forwardDemands = f.forwardDemands := by
  obtain ⟨n, ty, u⟩ := f
  cases c <;> cases ty <;> rfl

namespace Slice

variable {g : String → String} {t : Trackers} {w : Slice g t} {p q : Nat} {f f' : Field}

theorem uid_at (hq : w.narrowed.column p = .ok q) (hf : w.old[p]? = some f)
    (hf' : w.new[q]? = some f') : f'.uid = f.uid := by
  simpa using congrArg Field.uid (type_at hq hf hf').1

theorem isMap_at (hq : w.narrowed.column p = .ok q) (hf : w.old[p]? = some f)
    (hf' : w.new[q]? = some f') : f'.type.isMap = f.type.isMap := by
  have h := congrArg (fun x : Field => x.type.isMap) (type_at hq hf hf').1
  simpa only [Field.mapNames_type, Cut.field_type, Cut.type_isMap, DataType.mapNames_isMap] using h

theorem forwardDemands_at (hq : w.narrowed.column p = .ok q) (hf : w.old[p]? = some f)
    (hf' : w.new[q]? = some f') : f'.forwardDemands = f.forwardDemands := by
  have h := congrArg Field.forwardDemands (type_at hq hf hf').1
  rwa [Cut.field_forwardDemands, Field.forwardDemands_mapNames,
    Field.forwardDemands_mapNames] at h

theorem wholeDemands_at (hq : w.narrowed.column p = .ok q) (hf : w.old[p]? = some f)
    (hf' : w.new[q]? = some f') (hw : t.ReadsWhole f) : f'.wholeDemands = f.wholeDemands := by
  obtain ⟨f₀, hf₀, heq⟩ := field_eq_of_whole hq hf hw
  rw [hf'] at hf₀
  cases hf₀
  rw [← Field.wholeDemands_mapNames (g := g) f', heq, Field.wholeDemands_mapNames]

theorem wholeDemands_row (hall : ∀ i < w.old.length, i ∈ w.kept)
    (hw : ∀ f ∈ w.old, t.ReadsWhole f) : Schema.wholeDemands w.new = Schema.wholeDemands w.old := by
  rw [← Schema.wholeDemands_mapNames (g := g) w.new, (new_eq_of_whole hall hw).2,
    Schema.wholeDemands_mapNames]

end Slice

namespace Demand

variable {g : String → String} {t : Trackers} {w : Slice g t}

theorem moves_readAll (hall : ∀ i < w.old.length, i ∈ w.kept)
    (hw : ∀ f ∈ w.old, t.ReadsWhole f) :
    Moves w.kept (.ok (readAll w.old)) (.ok (readAll w.new)) := by
  intro d hd
  cases hd
  exact ⟨_, rfl, .all, Slice.wholeDemands_row hall hw⟩

theorem moves_all (kept : List Nat) : Moves kept (.ok allPositions) (.ok allPositions) := by
  intro d hd
  cases hd
  exact ⟨_, rfl, .all, rfl⟩

theorem moves_onField {p q : Nat} (hq : w.narrowed.column p = .ok q)
    {parts parts' : Field → List PartDemand}
    (h : ∀ f f', w.old[p]? = some f → w.new[q]? = some f' → parts' f' = parts f) :
    Moves w.kept (onField w.old p parts) (onField w.new q parts') := by
  intro d hd
  obtain ⟨f, hf, hd⟩ := bind_ok hd
  cases hd
  have hf := field_eq_ok.mp hf
  obtain ⟨f₀, f', -, hf', -⟩ := Slice.field_at hq
  refine ⟨⟨.positions [q], parts' f'⟩, ?_, .positions (.cons ?_ .nil), h f f' hf hf'⟩
  · unfold onField
    rw [field_eq_ok.mpr hf']
    rfl
  · exact Slice.column_ok.mp hq

/-- The columns that a selection names now agree with those it named, one by
one. -/
theorem selected_fields {inner inner' : Schema} {cs cs' : List Nat} {hs : List Field}
    (h : Forall₂ (fun c c' => ∃ h h', inner[c]? = some h ∧ inner'[c']? = some h' ∧
      h'.mapNames g = h.mapNames g ∧ Schema.positionOf? inner' h.uid = some c') cs cs')
    (hhs : cs.mapM (field inner) = .ok hs) :
    ∃ hs', cs'.mapM (field inner') = .ok hs' ∧
      hs'.flatMap Field.wholeDemands = hs.flatMap Field.wholeDemands ∧
      hs'.map Field.uid = hs.map Field.uid := by
  induction h generalizing hs with
  | nil => cases hhs; exact ⟨[], rfl, rfl, rfl⟩
  | cons hc _ ih =>
    obtain ⟨x, xs, rfl, hx, hxs⟩ := mapM_cons_ok hhs
    obtain ⟨xs', hxs', h₁, h₂⟩ := ih hxs
    obtain ⟨y, y', hy, hy', hyy', -⟩ := hc
    obtain rfl : y = x := Option.some.inj (hy.symm.trans (field_eq_ok.mp hx))
    refine ⟨y' :: xs', mapM_ok.mpr (.cons (field_eq_ok.mpr hy') (mapM_ok.mp hxs')), ?_, ?_⟩
    · rw [List.flatMap_cons, List.flatMap_cons, h₁, ← Field.wholeDemands_mapNames (g := g) y',
        hyy', Field.wholeDemands_mapNames]
    · rw [List.map_cons, List.map_cons, h₂]
      exact congrArg (· :: _) (by simpa using congrArg Field.uid hyy')

theorem moves_access {x x' : Nat × Access} (h : Access.Moved w.narrowed.renumbering x x')
    (hm : ∀ f, w.old[x.1]? = some f → x.2.Met t f)
    (hs : ∀ cs q cs', x.2 = .columns cs → w.narrowed.column x.1 = .ok q →
      w.narrowed.inner x.1 cs = .ok cs' →
      ∃ f f', w.old[x.1]? = some f ∧ w.new[q]? = some f' ∧ Slice.Selection g f f' cs cs') :
    Moves w.kept (access w.old x.1 x.2) (access w.new x'.1 x'.2) := by
  cases h with
  | whole hq => exact moves_onField hq fun f f' hf hf' => Slice.wholeDemands_at hq hf hf' (hm f hf)
  | key k hq =>
    refine moves_onField hq fun f f' hf hf' => ?_
    rw [Slice.isMap_at hq hf hf']
    split
    · rw [Slice.uid_at hq hf hf']
    · rename_i hmap
      rcases hm f hf with hw | ⟨hmap', -⟩
      · exact Slice.wholeDemands_at hq hf hf' hw
      · exact absurd hmap' hmap
  | @columns p q cs cs' hq hcs =>
    obtain ⟨f, f', hf, hf', -, inner, inner', hi, hi', hall⟩ := hs cs q cs' rfl hq hcs
    intro d hd
    obtain ⟨f₀, hf₀, hd⟩ := bind_ok hd
    obtain ⟨parts, hparts, hd⟩ := bind_ok hd
    cases hd
    obtain rfl : f₀ = f := Option.some.inj ((field_eq_ok.mp hf₀).symm.trans hf)
    simp only [readColumns, hi] at hparts
    obtain ⟨hs, hhs, hparts⟩ := bind_ok hparts
    cases hparts
    obtain ⟨hs', hhs', hwhole, huids⟩ := selected_fields hall hhs
    refine ⟨⟨.positions [q], hs'.flatMap Field.wholeDemands ++ [.bagColumns f'.uid
      (hs'.map Field.uid)]⟩, ?_, .positions (.cons (Slice.column_ok.mp hq) .nil), ?_⟩
    · simp only [access, field_eq_ok.mpr hf', bind, Except.bind, readColumns, hi', hhs']
      rfl
    · show _ ++ [PartDemand.bagColumns _ _] = _ ++ [PartDemand.bagColumns _ _]
      rw [hwhole, huids, Slice.uid_at hq hf hf']

theorem moves_ofReads {a b : Reads} (h : Reads.Moved w.narrowed.renumbering a b)
    (hm : a.Met t w.old w.kept) (hs : a.Selects w) :
    Moves w.kept (ofReads w.old a) (ofReads w.new b) := by
  unfold ofReads
  rw [h.star]
  split
  · rename_i hstar
    obtain ⟨hall, hw⟩ := hm.star hstar
    exact moves_readAll hall hw
  · refine Moves.collect w.fits.ascending ?_
    refine forall₂_of_getElem? h.accesses.length_eq fun i x x' hx hx' => ?_
    obtain ⟨y, hy, hxy⟩ := getElem?_of_left h.accesses hx
    rw [hx'] at hy
    cases hy
    have hmem := List.mem_of_getElem? hx
    refine moves_access hxy (fun f hf => (hm.access x hmem f hf).2) fun cs q cs' hcols hq hcs => ?_
    exact hs x.1 cs (by rw [← hcols]; exact hmem) q cs' hq hcs

theorem moves_ofExpr {e e' : Expr} (h : Reading w e e') :
    Moves w.kept (ofExpr w.old e) (ofExpr w.new e') :=
  moves_ofReads h.expr.reads h.met h.selects

theorem selects_toWhole (r : Reads) : r.toWhole.Selects w := by
  intro p cs hx
  obtain ⟨y, -, hy⟩ := List.mem_map.mp hx
  cases hy

theorem moves_ofKeys {keys keys' : List Expr} (h : Forall₂ (KeyReading w) keys keys') :
    Moves w.kept (ofKeys w.old keys) (ofKeys w.new keys') :=
  Moves.collect w.fits.ascending (h.imp fun _ _ hk =>
    moves_ofReads hk.expr.reads.toWhole hk.whole (selects_toWhole _))

end Demand

/-! ## Ranges of positions -/

/-- The position `p` counts from `start`, and is now `q` and counts from
`start'`; or it lies before. -/
structure MovedFrom (start start' : Nat) (kept : List Nat) (p q : Nat) : Prop where
  from_iff : start ≤ p ↔ start' ≤ q
  moved : start ≤ p → MovedTo kept (p - start) (q - start')

theorem movedFrom_zero {kept : List Nat} {p q : Nat} (h : MovedTo kept p q) :
    MovedFrom 0 0 kept p q := ⟨by simp, fun _ => h⟩

/-- The first columns of several. -/
theorem MovedFrom.first {start start' width : Nat} {a b : List Nat} {p q : Nat}
    (h : MovedFrom start start' (a ++ b.map (· + width)) p q) (ha : ∀ x ∈ a, x < width) :
    (start ≤ p ∧ p < start + width ↔ start' ≤ q ∧ q < start' + a.length) ∧
      (start ≤ p → p < start + width → MovedTo a (p - start) (q - start')) := by
  have hfrom := h.from_iff
  by_cases hp : start ≤ p
  · have hm := h.moved hp
    unfold MovedTo at hm ⊢
    by_cases hq : q - start' < a.length
    · rw [List.getElem?_append_left hq] at hm
      have := ha _ (List.mem_of_getElem? hm)
      exact ⟨by omega, fun _ _ => hm⟩
    · rw [List.getElem?_append_right (by omega), List.getElem?_map] at hm
      obtain ⟨x, -, hx⟩ := Option.map_eq_some_iff.mp hm
      refine ⟨by omega, fun _ hlt => ?_⟩
      omega
  · exact ⟨by omega, fun hp' => absurd hp' hp⟩

/-- The columns behind the first ones. -/
theorem MovedFrom.rest {start start' width : Nat} {a b : List Nat} {p q : Nat}
    (h : MovedFrom start start' (a ++ b.map (· + width)) p q) (ha : ∀ x ∈ a, x < width) :
    MovedFrom (start + width) (start' + a.length) b p q := by
  have hfrom := h.from_iff
  obtain ⟨hiff, -⟩ := h.first ha
  refine ⟨by omega, fun hp => ?_⟩
  have hm := h.moved (by omega)
  unfold MovedTo at hm ⊢
  rw [List.getElem?_append_right (by omega), List.getElem?_map] at hm
  obtain ⟨x, hx, hxp⟩ := Option.map_eq_some_iff.mp hm
  rw [show q - (start' + a.length) = q - start' - a.length by omega, hx,
    show p - (start + width) = x by omega]

section Places

variable {g : String → String} {t : Trackers} {w : Slice g t}

/-- Where a required position stands among the columns of one input. -/
def Slice.Places (w : Slice g t) (start start' p q : Nat) : Prop :=
  (start ≤ p ∧ p < start + w.old.length ↔ start' ≤ q ∧ q < start' + w.new.length) ∧
    (start ≤ p → p < start + w.old.length → MovedTo w.kept (p - start) (q - start'))

theorem Slice.kept_length (w : Slice g t) : w.kept.length = w.new.length := by
  rw [Slice.kept, Slice.new_length, Columns.positions, List.length_map]

theorem Slice.places_self {p q : Nat} (h : MovedTo w.kept p q) : w.Places 0 0 p q := by
  have hp := w.kept_bounded p (List.mem_of_getElem? h)
  have hq := (List.getElem?_eq_some_iff.mp h).1
  rw [w.kept_length] at hq
  exact ⟨by omega, fun _ _ => h⟩

end Places

namespace Demand

variable {g : String → String} {t : Trackers} {w : Slice g t}

theorem moves_ofRange {start start' : Nat} {req req' : List Nat}
    (h : Forall₂ (w.Places start start') req req') :
    Moves w.kept (ofRange w.old req start) (ofRange w.new req' start') := by
  refine Moves.collect w.fits.ascending ?_
  induction h with
  | nil => exact .nil
  | @cons p q _ _ hpq _ ih =>
    obtain ⟨hiff, hmoved⟩ := hpq
    by_cases hp : start ≤ p ∧ p < start + w.old.length
    · rw [List.filter_cons_of_pos (by simpa using hp),
        List.filter_cons_of_pos (by simpa using hiff.mp hp)]
      exact .cons (moves_onField (Slice.column_ok.mpr (hmoved hp.1 hp.2)) fun _ _ _ _ => rfl) ih
    · rw [List.filter_cons_of_neg (by simpa using hp),
        List.filter_cons_of_neg (by simpa using fun h₁ h₂ => hp (hiff.mpr ⟨h₁, h₂⟩))]
      exact ih

/-- The inputs of a join and their first output positions, before and after. -/
theorem offsets_moved {req req' : List Nat} (ws : List (Slice g t)) {start start' : Nat}
    (h : Forall₂ (MovedFrom start start' (Slice.joined ws).positions) req req') :
    Along (fun x x' (w : Slice g t) => x.1 = w.old ∧ x'.1 = w.new ∧
        Forall₂ (w.Places x.2 x'.2) req req')
      (offsets start (ws.map Slice.old)) (offsets start' (ws.map Slice.new)) ws := by
  induction ws generalizing start start' with
  | nil => exact .nil
  | cons w ws ih =>
    rw [Slice.joined, Columns.positions_beside] at h
    refine .cons ⟨rfl, rfl, h.imp fun p q hpq => ?_⟩ (ih (h.imp fun p q hpq => ?_))
    · have := hpq.first w.kept_bounded
      rwa [show w.columns.positions.length = w.new.length from w.kept_length] at this
    · have := hpq.rest w.kept_bounded
      rwa [show w.columns.positions.length = w.new.length from w.kept_length] at this

/-! ## Bags and unions -/

theorem moves_ofBag {t' : Trackers} (hle : t'.Le t) {u : Uid} (hknown : Known t u w.old w.kept) :
    Moves w.kept (ofBag w.old (t'.bagColumns.get? u)) (ofBag w.new (t'.bagColumns.get? u)) := by
  cases hk : t'.bagColumns.get? u with
  | none => exact moves_all w.kept
  | some ks =>
    cases ks with
    | all => exact moves_all w.kept
    | only us =>
      obtain ⟨ks', hks', hle'⟩ := hle.bagColumns u _ hk
      refine Moves.collect w.fits.ascending (List.forall₂_same.mpr fun v hv => ?_)
      cases hpos : Schema.positionOf? w.old v with
      | none =>
        have hpos' : Schema.positionOf? w.new v = none := by
          cases hnew : Schema.positionOf? w.new v with
          | none => rfl
          | some j =>
            obtain ⟨i, f, -, hf, hu⟩ := Slice.positionOf?_old hnew
            obtain ⟨k, hk⟩ := Schema.positionOf?_isSome (List.mem_of_getElem? hf) hu
            rw [hpos] at hk
            cases hk
        rw [hpos']
        exact moves_all w.kept
      | some i =>
        have hi : i ∈ w.kept := by
          unfold Known at hknown
          rw [hks'] at hknown
          cases ks' with
          | all =>
            obtain ⟨f, hf, -⟩ := Schema.positionOf?_eq_some.mp hpos
            exact hknown i (List.getElem?_eq_some_iff.mp hf).1
          | only us' => exact hknown v (hle'.has v hv) i hpos
        obtain ⟨j, hj⟩ := Slice.exists_column hi
        rw [Slice.positionOf?_first hpos hj]
        exact moves_onField hj fun _ _ _ _ => rfl

theorem moves_ofGroup {name name' : String} {t' : Trackers} (hle : t'.Le t)
    {required req : List Nat}
    {c c' : CoGroup} {ws : List (Slice g t)} (h : c.Narrowed required c' ws)
    (hsub : ∀ p ∈ req, p ∈ required) {i : Nat} (hw : ws[i]? = some w) {keys keys' : List Expr}
    (hkeys : Forall₂ (KeyReading w) keys keys') :
    Moves w.kept (ofGroup name t' c req w.old keys i) (ofGroup name' t' c' req w.new keys' i) := by
  have hbags : c'.bags = c.bags := by rw [h.same]
  by_cases hreq : req.contains (CoGroup.bagPosition i) = true
  · cases hb : c.bags[i]? with
    | none =>
      intro d hd
      obtain ⟨ks, -, hd⟩ := bind_ok hd
      simp only [hreq, Bool.not_true, hb] at hd
      cases hd
    | some b =>
      have hknown := h.bags i w b hw hb (hsub _ (by simpa using hreq))
      have hmoves := (moves_ofKeys hkeys).append w.fits.ascending (moves_ofBag hle hknown)
      simp only [ofGroup, hreq, Bool.not_true, hb, hbags]
      exact hmoves
  · rw [Bool.not_eq_true] at hreq
    simp only [ofGroup, hreq, Bool.not_false]
    intro d hd
    obtain ⟨ks, hks, heq⟩ := bind_ok hd
    obtain rfl : ks = d := Except.ok.inj heq
    obtain ⟨ks', hks', hmoved⟩ := moves_ofKeys hkeys ks hks
    exact ⟨ks', by rw [hks']; rfl, hmoved⟩

theorem unionField_at {t' : Trackers} {p q : Nat} {f f' output : Field}
    (hq : w.narrowed.column p = .ok q) (hf : w.old[p]? = some f) (hf' : w.new[q]? = some f')
    (hknown : ∀ x ∈ ofUnionField t output f, t.Records x) :
    ofUnionField t' output f' = ofUnionField t' output f := by
  unfold ofUnionField at hknown ⊢
  rw [Slice.isMap_at hq hf hf', Slice.uid_at hq hf hf']
  split
  · rfl
  · rename_i hmap
    rw [if_neg hmap] at hknown
    exact Slice.wholeDemands_at hq hf hf' hknown

theorem moves_ofMapping {name name' : String} {t' : Trackers} {required req req' : List Nat}
    {u u' : Union} {m m' : List (Option Nat)}
    (hfields : Forall₂ (fun p f => u.fields[p]? = some f) required u'.fields)
    (h : Union.Side required u m m' w) (hreq : Forall₂ (MovedTo required) req req') :
    Moves w.kept (ofMapping name t' u req w.old m) (ofMapping name' t' u' req' w.new m') := by
  refine Moves.collect w.fits.ascending (hreq.imp fun p q hpq => ?_)
  obtain ⟨output, ho', ho⟩ := getElem?_of_left hfields hpq
  obtain ⟨q', hq', hmoved⟩ := getElem?_of_left h.moved hpq
  obtain ⟨hsome, hnone⟩ := h.known p (List.mem_of_getElem? hpq) output ho
  have hjoin : m'[q]?.join = q' := by rw [hq']; rfl
  simp only [ho, ho', hjoin]
  cases hm : m[p]?.join with
  | none =>
    rw [hm] at hmoved
    obtain rfl : q' = none := hmoved
    obtain ⟨hall, hw⟩ := hnone hm
    exact moves_readAll hall hw
  | some s =>
    rw [hm] at hmoved
    obtain ⟨r, hr, rfl⟩ := hmoved
    obtain ⟨f, hf, hknown⟩ := hsome s hm
    refine moves_onField hr fun f₀ f' hf₀ hf' => ?_
    rw [hf] at hf₀
    cases hf₀
    exact unionField_at hr hf hf' hknown

end Demand

end Dataflow
