import Dataflow.Expr.Typing
import Dataflow.Proofs.Expr.Renumbered
import Dataflow.Proofs.Narrowing.Slice
import Dataflow.Proofs.Traversal

/-!
# Reading a narrowed row

An expression may be evaluated on a narrowed row when what it reads has been
recorded: every field it reads is kept, and of a nested field the parts it reads
are known to be read (`Reads.Met`). Renumbered for the narrowed schema, it then
has the type it had before, up to names (`Renumbered.type_ok`), and names its
field as before (`Renumbered.name_ok`).
-/

namespace Dataflow

open Dataflow.Expr (Renumbered)

/-! ## What has to be known -/

/-- An access to a field that has been recorded. -/
def Access.Met (t : Trackers) (f : Field) : Access → Prop
  | .whole => t.ReadsWhole f
  | .key k => t.ReadsWhole f ∨ f.type.isMap = true ∧ t.Records (.mapKey f.uid k)
  | .columns cs => t.ReadsWhole f ∨ ∃ inner, f.type.inner? = some inner ∧
      ∀ c ∈ cs, ∃ h, inner[c]? = some h ∧ t.ReadsWhole h ∧ t.Records (.bagColumns f.uid [h.uid])

theorem Access.met_of_whole {t : Trackers} {f : Field} (h : t.ReadsWhole f) (a : Access) :
    a.Met t f := by
  cases a with
  | whole => exact h
  | key k => exact Or.inl h
  | columns cs => exact Or.inl h

/-- Reads that have been recorded, over a schema of which some positions are
kept. Positions outside the schema are not at issue here. -/
structure Reads.Met (t : Trackers) (s : Schema) (kept : List Nat) (r : Reads) : Prop where
  star : r.star = true → (∀ i < s.length, i ∈ kept) ∧ ∀ f ∈ s, t.ReadsWhole f
  access : ∀ x ∈ r.accesses, ∀ f, s[x.1]? = some f → x.1 ∈ kept ∧ x.2.Met t f

namespace Reads

variable {t : Trackers} {s : Schema} {kept : List Nat}

theorem met_append {a b : Reads} :
    (a ++ b).Met t s kept ↔ a.Met t s kept ∧ b.Met t s kept := by
  constructor
  · intro h
    exact ⟨⟨fun hs => h.star (star_append.mpr (Or.inl hs)),
        fun x hx => h.access x (mem_append.mpr (Or.inl hx))⟩,
      ⟨fun hs => h.star (star_append.mpr (Or.inr hs)),
        fun x hx => h.access x (mem_append.mpr (Or.inr hx))⟩⟩
  · rintro ⟨ha, hb⟩
    exact ⟨fun hs => (star_append.mp hs).elim ha.star hb.star,
      fun x hx => (mem_append.mp hx).elim (ha.access x) (hb.access x)⟩

theorem met_readsAll {args : List Expr} :
    (Expr.readsAll args).Met t s kept ↔ ∀ a ∈ args, a.reads.Met t s kept := by
  constructor
  · intro h a ha
    exact ⟨fun hs => h.star (Expr.star_readsAll.mpr ⟨a, ha, hs⟩),
      fun x hx => h.access x (Expr.mem_readsAll.mpr ⟨a, ha, hx⟩)⟩
  · intro h
    refine ⟨fun hs => ?_, fun x hx => ?_⟩
    · obtain ⟨a, ha, hs⟩ := Expr.star_readsAll.mp hs
      exact (h a ha).star hs
    · obtain ⟨a, ha, hx⟩ := Expr.mem_readsAll.mp hx
      exact (h a ha).access x hx

/-- A row of which everything is kept and read whole. -/
theorem met_of_whole (r : Reads) (hall : ∀ i < s.length, i ∈ kept)
    (hw : ∀ f ∈ s, t.ReadsWhole f) : r.Met t s kept :=
  ⟨fun _ => ⟨hall, hw⟩, fun x _ f hf =>
    ⟨hall _ (List.getElem?_eq_some_iff.mp hf).1,
      Access.met_of_whole (hw f (List.mem_of_getElem? hf)) x.2⟩⟩

theorem met_of_toWhole {r : Reads} (h : r.toWhole.Met t s kept) : r.Met t s kept :=
  ⟨h.star, fun x hx f hf => by
    obtain ⟨hk, hm⟩ := h.access (x.1, .whole) (List.mem_map.mpr ⟨x, hx, rfl⟩) f hf
    exact ⟨hk, Access.met_of_whole hm x.2⟩⟩

end Reads

namespace Slice

variable {g : String → String} {t : Trackers}

/-! ## Selected columns -/

/-- A selection of inner columns before and after: the field is nested on both
sides, and each selected column agrees with the one that now stands for it,
which is the first with its identity. -/
structure Selection (g : String → String) (f f' : Field) (cs cs' : List Nat) : Prop where
  same : f'.type.isBag = f.type.isBag
  columns : ∃ inner inner', f.type.inner? = some inner ∧ f'.type.inner? = some inner' ∧
    List.Forall₂ (fun c c' => ∃ h h', inner[c]? = some h ∧ inner'[c']? = some h' ∧
      h'.mapNames g = h.mapNames g ∧ Schema.positionOf? inner' h.uid = some c') cs cs'

theorem type_at {w : Slice g t} {p q : Nat} (hq : w.narrowed.column p = .ok q) {f f' : Field}
    (hf : w.old[p]? = some f) (hf' : w.new[q]? = some f') :
    f'.mapNames g = (w.cutAt p).field (f.mapNames g) ∧ (w.cutAt p).Fits t f := by
  obtain ⟨f₀, f₁, hf₀, hf₁, heq, hfits⟩ := field_at hq
  rw [hf] at hf₀
  rw [hf'] at hf₁
  cases hf₀
  cases hf₁
  exact ⟨heq, hfits⟩

theorem isBag_at {w : Slice g t} {p q : Nat} (hq : w.narrowed.column p = .ok q) {f f' : Field}
    (hf : w.old[p]? = some f) (hf' : w.new[q]? = some f') : f'.type.isBag = f.type.isBag := by
  have heq := congrArg Field.type (type_at hq hf hf').1
  rw [Field.mapNames_type, Cut.field_type, Field.mapNames_type] at heq
  have hbag := congrArg DataType.isBag heq
  rwa [Cut.type_isBag, DataType.mapNames_isBag, DataType.mapNames_isBag] at hbag

/-- The column that is found by an identity agrees with every old column that
has it and is read whole. -/
theorem found_by_uid {w : Slice g t} {h : Field} {j : Nat}
    (hj : Schema.positionOf? w.new h.uid = some j) (hw : t.ReadsWhole h)
    (hsame : ∀ x ∈ w.old, x.uid = h.uid → x.mapNames g = h.mapNames g) :
    ∃ h', w.new[j]? = some h' ∧ h'.mapNames g = h.mapNames g := by
  obtain ⟨i, x, hcol, hx, huid⟩ := positionOf?_old hj
  have hxh := hsame x (List.mem_of_getElem? hx) huid
  have hwx : t.ReadsWhole x := by
    rw [← Trackers.readsWhole_mapNames (g := g), hxh, Trackers.readsWhole_mapNames]
    exact hw
  obtain ⟨h', hh', heq⟩ := field_eq_of_whole hcol hx hwx
  exact ⟨h', hh', heq.trans hxh⟩

/-- A narrowed selection of inner columns that were recorded as read. -/
theorem selection {w : Slice g t} (hs : Schema.Coherent g w.old) {p q : Nat} {cs cs' : List Nat}
    (hq : w.narrowed.column p = .ok q) (hcs : w.narrowed.inner p cs = .ok cs')
    (hm : ∀ f, w.old[p]? = some f → (Access.columns cs).Met t f) :
    ∃ f f', w.old[p]? = some f ∧ w.new[q]? = some f' ∧ Selection g f f' cs cs' := by
  obtain ⟨f, f', hf, hf', -, -⟩ := field_at hq
  refine ⟨f, f', hf, hf', isBag_at hq hf hf', ?_⟩
  cases hi : f.type.inner? with
  | none =>
    have h₁ : Schema.fieldAt w.narrowed.old p = .ok f := Schema.fieldAt_ok.mpr hf
    have h₂ : Schema.fieldAt w.narrowed.new q = .ok f' := Schema.fieldAt_ok.mpr hf'
    simp [Narrowed.inner, h₁, hq, h₂, Except.mapError, bind, Except.bind, hi] at hcs
  | some inner =>
    obtain ⟨f₀, inner', hf₀, hi', hinner, hfit, -⟩ := inner_at hq hf hi
    rw [hf'] at hf₀
    cases hf₀
    rw [inner_eq hq hf hf' hi hi', mapM_ok] at hcs
    refine ⟨inner, inner', rfl, hi', forall₂_of_getElem? hcs.length_eq ?_⟩
    intro i c c' hc hc'
    obtain ⟨c₁, hc₁, hcc'⟩ := getElem?_of_left hcs hc
    rw [hc'] at hc₁
    cases hc₁
    obtain ⟨h, hh, hpos⟩ := innerPosition_ok.mp hcc'
    have hw : t.ReadsWhole h := by
      rcases hm f hf with hw | ⟨inner₀, hi₀, hall⟩
      · exact (hw.bag hi).2 h (List.mem_of_getElem? hh)
      · rw [hi] at hi₀
        cases hi₀
        obtain ⟨h₀, hh₀, hw, -⟩ := hall c (List.mem_of_getElem? hc)
        rw [hh] at hh₀
        cases hh₀
        exact hw
    have hsame := (hs.inner (List.mem_of_getElem? hf) hi).1
    obtain ⟨h', hh', heq⟩ := found_by_uid (w := ofInner hinner hfit) hpos hw fun x hx hu =>
      hsame x hx h (List.mem_of_getElem? hh) hu
    exact ⟨h, h', hh, hh', heq, hpos⟩

end Slice

/-- Reads whose selections of inner columns can be made of the narrowed row. -/
def Reads.Selects {g : String → String} {t : Trackers} (w : Slice g t) (r : Reads) : Prop :=
  ∀ p cs, (p, Access.columns cs) ∈ r.accesses → ∀ q cs', w.narrowed.column p = .ok q →
    w.narrowed.inner p cs = .ok cs' →
    ∃ f f', w.old[p]? = some f ∧ w.new[q]? = some f' ∧ Slice.Selection g f f' cs cs'

theorem Reads.Selects.mono {g : String → String} {t : Trackers} {w : Slice g t} {r r' : Reads}
    (h : r.Selects w) (hsub : ∀ x ∈ r'.accesses, x ∈ r.accesses) : r'.Selects w :=
  fun p cs hx => h p cs (hsub _ hx)

theorem Reads.selects_of_coherent {g : String → String} {t : Trackers} {w : Slice g t} {r : Reads}
    (hs : Schema.Coherent g w.old) (hm : r.Met t w.old w.kept) : r.Selects w :=
  fun _ _ hx _ _ hq hcs => Slice.selection hs hq hcs fun f hf => (hm.access _ hx f hf).2

/-! ## Types -/

theorem DataType.scalar_of_rank {t : DataType} {n : Nat} (h : t.rank = some n) :
    ∃ s, t = .scalar s := by
  cases t <;> first | exact ⟨_, rfl⟩ | cases h

/-- Only scalars take part in arithmetic. -/
theorem DataType.scalar_of_wider? {l r t : DataType} (h : l.wider? r = some t) :
    (∃ a, l = .scalar a) ∧ ∃ b, r = .scalar b := by
  have hnum : ∀ {x : DataType}, x.isNumeric = true → ∃ s, x = .scalar s := fun hx =>
    scalar_of_rank (Option.isSome_iff_exists.mp hx).choose_spec
  unfold wider? at h
  split at h
  · rename_i hc
    simp only [Bool.and_eq_true, decide_eq_true_eq] at hc
    exact ⟨⟨_, hc.1⟩, hnum hc.2⟩
  · split at h
    · rename_i hc
      simp only [Bool.and_eq_true, decide_eq_true_eq] at hc
      exact ⟨hnum hc.2, ⟨_, hc.1⟩⟩
    · obtain ⟨a, ha, h⟩ := Option.bind_eq_some_iff.mp h
      obtain ⟨b, hb, -⟩ := Option.bind_eq_some_iff.mp h
      exact ⟨scalar_of_rank ha, scalar_of_rank hb⟩

theorem DataType.eq_scalar_of_mapNames {g : String → String} {t t' : DataType} {s : Scalar}
    (h : t'.mapNames g = t.mapNames g) (ht : t = .scalar s) : t' = .scalar s := by
  rw [ht] at h
  exact DataType.mapNames_scalar.mp h

/-- Projecting a schema that agrees with another up to names. -/
theorem Schema.project_mapNames {g : String → String} {s s' : Schema} {cs : List Nat} {out : Schema}
    (hs : Schema.mapNames g s' = Schema.mapNames g s) (h : Schema.project s cs = .ok out) :
    ∃ out', Schema.project s' cs = .ok out' ∧
      Schema.mapNames g out' = Schema.mapNames g out := by
  induction cs generalizing out with
  | nil => cases h; exact ⟨[], rfl, rfl⟩
  | cons c cs ih =>
    obtain ⟨f, fs, rfl, hf, hfs⟩ := mapM_cons_ok h
    obtain ⟨fs', hfs', heq⟩ := ih hfs
    have hget : s'[c]?.map (Field.mapNames g) = some (f.mapNames g) := by
      rw [← Schema.mapNames_getElem?, hs, Schema.mapNames_getElem?, Schema.fieldAt_ok.mp hf]
      rfl
    obtain ⟨f', hf', hff'⟩ := Option.map_eq_some_iff.mp hget
    refine ⟨f' :: fs', ?_, by rw [Schema.mapNames, heq, hff', Schema.mapNames]⟩
    exact mapM_ok.mpr (.cons (Schema.fieldAt_ok.mpr hf') (mapM_ok.mp hfs'))

theorem Slice.Selection.project {g : String → String} {f f' : Field} {cs cs' : List Nat}
    (h : Selection g f f' cs cs') {inner inner' : Schema} (hi : f.type.inner? = some inner)
    (hi' : f'.type.inner? = some inner') {out : Schema}
    (hout : Schema.project inner cs = .ok out) :
    ∃ out', Schema.project inner' cs' = .ok out' ∧
      Schema.mapNames g out' = Schema.mapNames g out := by
  obtain ⟨-, inner₀, inner₀', h₀, h₀', hall⟩ := h
  rw [hi] at h₀
  rw [hi'] at h₀'
  cases h₀
  cases h₀'
  induction hall generalizing out with
  | nil => cases hout; exact ⟨[], rfl, rfl⟩
  | cons hc _ ih =>
    obtain ⟨x, x', hx, hx', hxx', -⟩ := hc
    obtain ⟨y, fs, rfl, hy, hfs⟩ := mapM_cons_ok hout
    rw [Schema.fieldAt_ok.mp hy] at hx
    cases hx
    obtain ⟨fs', hfs', heq⟩ := ih hfs
    refine ⟨x' :: fs', ?_, by rw [Schema.mapNames, heq, hxx', Schema.mapNames]⟩
    exact mapM_ok.mpr (.cons (Schema.fieldAt_ok.mpr hx') (mapM_ok.mp hfs'))

/-! ## Renumbered expressions -/

namespace Expr

variable {g : String → String} {t : Trackers} {w : Slice g t}

theorem type_unary_congr {op : Unary} {e e' : Expr} {s s' : Schema} {τ : DataType}
    (h : ∀ σ, e.type s = .ok σ → ∃ σ', e'.type s' = .ok σ' ∧ σ'.mapNames g = σ.mapNames g)
    (hτ : (Expr.unary op e).type s = .ok τ) :
    ∃ τ', (Expr.unary op e').type s' = .ok τ' ∧ τ'.mapNames g = τ.mapNames g := by
  cases op with
  | named name => exact h τ hτ
  | cast type => cases hτ; exact ⟨_, rfl, rfl⟩
  | isNull => cases hτ; exact ⟨_, rfl, rfl⟩
  | lookup k =>
    obtain ⟨σ, hσ, hτ⟩ := bind_ok hτ
    obtain ⟨σ', hσ', heq⟩ := h σ hσ
    cases σ with
    | map value =>
      cases hτ
      cases σ' <;> simp only [DataType.mapNames, reduceCtorEq, DataType.map.injEq] at heq
      exact ⟨_, by simp only [type, hσ']; rfl, heq⟩
    | _ => cases hτ
  | not =>
    obtain ⟨σ, hσ, hτ⟩ := bind_ok hτ
    obtain ⟨σ', hσ', heq⟩ := h σ hσ
    split at hτ
    · rename_i hb
      cases hτ
      have hb' := DataType.eq_scalar_of_mapNames heq hb
      exact ⟨σ', by simp only [type, hσ', hb']; rfl, heq⟩
    · cases hτ
  | select cs =>
    obtain ⟨σ, hσ, hτ⟩ := bind_ok hτ
    obtain ⟨σ', hσ', heq⟩ := h σ hσ
    cases σ with
    | bag inner =>
      obtain ⟨out, hout, hτ⟩ := bind_ok hτ
      cases hτ
      cases σ' <;> simp only [DataType.mapNames, reduceCtorEq, DataType.bag.injEq] at heq
      obtain ⟨out', hout', hout''⟩ := Schema.project_mapNames heq hout
      exact ⟨.bag out', by simp only [type, hσ', bind, Except.bind, hout']; rfl,
        congrArg DataType.bag hout''⟩
    | tuple inner =>
      obtain ⟨out, hout, hτ⟩ := bind_ok hτ
      cases hτ
      cases σ' <;> simp only [DataType.mapNames, reduceCtorEq, DataType.tuple.injEq] at heq
      obtain ⟨out', hout', hout''⟩ := Schema.project_mapNames heq hout
      exact ⟨.tuple out', by simp only [type, hσ', bind, Except.bind, hout']; rfl,
        congrArg DataType.tuple hout''⟩
    | _ => cases hτ

/-- A renumbered expression has the type it had, up to names. -/
theorem Renumbered.type_ok {e e' : Expr} (h : Renumbered w.narrowed.renumbering e e')
    (hm : e.reads.Met t w.old w.kept) (hs : e.reads.Selects w) {τ : DataType}
    (hτ : e.type w.old = .ok τ) :
    ∃ τ', e'.type w.new = .ok τ' ∧ τ'.mapNames g = τ.mapNames g := by
  induction h generalizing τ with
  | @column p q hq =>
    obtain ⟨f, hf, hτ⟩ : ∃ f, w.old[p]? = some f ∧ f.type = τ := by
      cases hf : w.old[p]? with
      | none => simp [type, Schema.fieldAt, hf, Except.map] at hτ
      | some f => exact ⟨f, rfl, by simpa [type, Schema.fieldAt, hf, Except.map] using hτ⟩
    obtain ⟨-, hw⟩ := hm.access (p, .whole) (List.mem_singleton.mpr rfl) f hf
    obtain ⟨f', hf', heq⟩ := Slice.field_eq_of_whole hq hf hw
    refine ⟨f'.type, by simp [type, Schema.fieldAt_ok.mpr hf', Except.map], ?_⟩
    rw [← hτ]
    simpa using congrArg Field.type heq
  | literal v => cases hτ; exact ⟨_, rfl, rfl⟩
  | star =>
    cases hτ
    obtain ⟨hall, hw⟩ := hm.star rfl
    exact ⟨_, rfl, congrArg DataType.tuple (Slice.new_eq_of_whole hall hw).2⟩
  | @lookup p q k hq =>
    obtain ⟨σ, hσ, hτ⟩ := bind_ok hτ
    obtain ⟨f, f', hf, hf', -, -⟩ := Slice.field_at hq
    simp only [type, Schema.fieldAt_ok.mpr hf, Except.map, Except.ok.injEq] at hσ
    obtain ⟨heq, hfits⟩ := Slice.type_at hq hf hf'
    cases σ with
    | map value =>
      cases hτ
      have hc := hfits.type_eq_of_not_bag (by rw [hσ]; rfl)
      have hty : f'.type.mapNames g = (DataType.map τ).mapNames g := by
        have := congrArg Field.type heq
        rwa [hc, Cut.field_whole, Field.mapNames_type, Field.mapNames_type, hσ] at this
      cases hty' : f'.type <;> rw [hty'] at hty <;>
        simp only [DataType.mapNames, reduceCtorEq, DataType.map.injEq] at hty
      exact ⟨_, by simp [type, Schema.fieldAt_ok.mpr hf', Except.map, hty', bind, Except.bind],
        hty⟩
    | _ => cases hτ
  | @select p q cs cs' hq hcs =>
    obtain ⟨f, f', hf, hf', hsel⟩ := hs p cs (List.mem_singleton.mpr rfl) q cs' hq hcs
    obtain ⟨σ, hσ, hτ⟩ := bind_ok hτ
    simp only [type, Schema.fieldAt_ok.mpr hf, Except.map, Except.ok.injEq] at hσ
    have hbag := hsel.same
    obtain ⟨inner, inner', hi, hi', -⟩ := hsel.columns
    cases σ with
    | bag inner₀ =>
      obtain ⟨out, hout, hτ⟩ := bind_ok hτ
      cases hτ
      rw [hσ] at hi hbag
      cases hi
      cases hty' : f'.type <;> rw [hty'] at hbag hi' <;> cases hbag
      cases hi'
      obtain ⟨out', hout', heq⟩ := hsel.project (by rw [hσ]; rfl) (by rw [hty']; rfl) hout
      exact ⟨.bag out', by
        simp [type, Schema.fieldAt_ok.mpr hf', Except.map, hty', bind, Except.bind, hout']; rfl,
        congrArg DataType.bag heq⟩
    | tuple inner₀ =>
      obtain ⟨out, hout, hτ⟩ := bind_ok hτ
      cases hτ
      rw [hσ] at hi hbag
      cases hi
      cases hty' : f'.type <;> rw [hty'] at hbag hi' <;> cases hbag <;> cases hi'
      obtain ⟨out', hout', heq⟩ := hsel.project (by rw [hσ]; rfl) (by rw [hty']; rfl) hout
      exact ⟨.tuple out', by
        simp [type, Schema.fieldAt_ok.mpr hf', Except.map, hty', bind, Except.bind, hout']; rfl,
        congrArg DataType.tuple heq⟩
    | _ => cases hτ
  | unary hop _ ih =>
    rw [reads_unary hop] at hm hs
    exact type_unary_congr (fun σ hσ => ih hm hs hσ) hτ
  | binary op _ _ ihx ihy =>
    obtain ⟨hmx, hmy⟩ := Reads.met_append.mp hm
    obtain ⟨σ, hσ, hτ⟩ := bind_ok hτ
    obtain ⟨ρ, hρ, hτ⟩ := bind_ok hτ
    obtain ⟨σ', hσ', heqσ⟩ := ihx hmx (hs.mono fun _ hx => Reads.mem_append.mpr (Or.inl hx)) hσ
    obtain ⟨ρ', hρ', heqρ⟩ := ihy hmy (hs.mono fun _ hx => Reads.mem_append.mpr (Or.inr hx)) hρ
    simp only [type, hσ', hρ', bind, Except.bind]
    split at hτ
    · rename_i hop
      cases hτ
      exact ⟨_, by rw [if_pos hop], rfl⟩
    · rename_i hop
      rw [if_neg hop]
      split at hτ
      · rename_i t₀ hwider
        cases hτ
        obtain ⟨⟨a, ha⟩, b, hb⟩ := DataType.scalar_of_wider? hwider
        rw [DataType.eq_scalar_of_mapNames heqσ ha, DataType.eq_scalar_of_mapNames heqρ hb, ← ha,
          ← hb, hwider]
        exact ⟨_, rfl, rfl⟩
      · cases hτ
  | ifElse _ _ _ iht _ _ =>
    refine iht (Reads.met_append.mp (Reads.met_append.mp hm).1).1 (hs.mono fun _ hx => ?_) hτ
    exact Reads.mem_append.mpr (Or.inl (Reads.mem_append.mpr (Or.inl hx)))
  | call f hlen h ih => cases hτ; exact ⟨_, rfl, rfl⟩

/-- A renumbered expression names its field as before, up to the function on
names. -/
theorem Renumbered.name_ok {e e' : Expr} (h : Renumbered w.narrowed.renumbering e e') {n : String}
    (hn : e.name w.old = .ok n) : ∃ n', e'.name w.new = .ok n' ∧ g n' = g n := by
  have hcolumn : ∀ {p q : Nat} {n : String}, w.narrowed.renumbering.column p = .ok q →
      (Expr.column p).name w.old = .ok n →
      ∃ n', (Expr.column q).name w.new = .ok n' ∧ g n' = g n := by
    intro p q n hq hn
    obtain ⟨f, f', hf, hf', heq, -⟩ := Slice.field_at hq
    simp only [name, Schema.fieldAt_ok.mpr hf, Except.map, Except.ok.injEq] at hn
    refine ⟨f'.name, by simp [name, Schema.fieldAt_ok.mpr hf', Except.map], ?_⟩
    rw [← hn]
    simpa using congrArg Field.name heq
  induction h generalizing n with
  | column hq => exact hcolumn hq hn
  | literal v => cases hn; exact ⟨_, rfl, rfl⟩
  | star => cases hn; exact ⟨_, rfl, rfl⟩
  | lookup k hq => exact hcolumn hq hn
  | select hq hcs => exact hcolumn hq hn
  | @unary op e e' hop _ ih =>
    cases op with
    | named name => cases hn; exact ⟨_, rfl, rfl⟩
    | _ => exact ih hn
  | binary op _ _ ihx _ => exact ihx hn
  | ifElse _ _ _ iht _ _ => exact iht hn
  | call f hlen h ih => cases hn; exact ⟨_, rfl, rfl⟩

/-- A column under names stays one, at its new position. -/
theorem Renumbered.forwards? {ε : Type} {r : Renumbering ε} {e e' : Expr} (h : Renumbered r e e') :
    (∀ p, e.forwards? = some p → ∃ q, r.column p = .ok q ∧ e'.forwards? = some q) ∧
      (e.forwards? = none → e'.forwards? = none) := by
  induction h with
  | column hq => exact ⟨fun p hp => by cases hp; exact ⟨_, hq, rfl⟩, nofun⟩
  | @unary op e e' hop _ ih =>
    cases op with
    | named name => exact ih
    | _ => exact ⟨nofun, fun _ => rfl⟩
  | _ => exact ⟨nofun, fun _ => rfl⟩

end Expr

end Dataflow
