import Dataflow.Proofs.Expr.Occurrences
import Dataflow.Proofs.Narrowing.Reading
import Dataflow.Requirement.Rules

/-!
# Demands that are held

A demand on an input is held when the positions it names are kept and the parts
it names are recorded (`Demand.Held`). For each rule of the analysis this module
says what a held demand of that rule guarantees, in the terms in which narrowed
rows are read. `Item.Met` collects the three ways in which an item of a
`forEach` can be demanded.
-/

namespace Dataflow

/-! ## Columns that are passed on -/

namespace Expr

theorem star_of_forwards? {e : Expr} {p : Nat} (h : e.forwards? = some p) :
    e.reads.star = false := by
  induction e using readingInduction with
  | column q => rfl
  | unary op e hop ih =>
    rw [reads_unary hop]
    cases op <;> first | exact ih h | cases h
  | _ => cases h

theorem accesses_of_forwards? {e : Expr} {p : Nat} (h : e.forwards? = some p) :
    e.reads.accesses = [(p, .whole)] := by
  induction e using readingInduction with
  | column q => cases h; rfl
  | unary op e hop ih =>
    rw [reads_unary hop]
    cases op <;> first | exact ih h | cases h
  | _ => cases h

end Expr

namespace Demand

/-- A demand whose positions are kept and whose parts are recorded. -/
structure Held (t : Trackers) (width : Nat) (kept : List Nat) (d : Demand) : Prop where
  fields : ∀ p < width, d.fields.contains p = true → p ∈ kept
  parts : ∀ x ∈ d.parts, t.Records x

variable {t : Trackers} {s : Schema} {kept : List Nat} {d : Demand}

theorem held_append {width : Nat} {a b : Demand} :
    (a ++ b).Held t width kept ↔ a.Held t width kept ∧ b.Held t width kept := by
  constructor
  · intro h
    exact ⟨⟨fun p hp hc => h.fields p hp (Required.contains_merge.mpr (Or.inl hc)),
        fun x hx => h.parts x (List.mem_append_left _ hx)⟩,
      ⟨fun p hp hc => h.fields p hp (Required.contains_merge.mpr (Or.inr hc)),
        fun x hx => h.parts x (List.mem_append_right _ hx)⟩⟩
  · rintro ⟨ha, hb⟩
    exact ⟨fun p hp hc => (Required.contains_merge.mp hc).elim (ha.fields p hp) (hb.fields p hp),
      fun x hx => (List.mem_append.mp hx).elim (ha.parts x) (hb.parts x)⟩

theorem held_foldl {width : Nat} {ds : List Demand} {a : Demand}
    (h : (ds.foldl append a).Held t width kept) :
    a.Held t width kept ∧ ∀ d ∈ ds, d.Held t width kept := by
  induction ds generalizing a with
  | nil => exact ⟨h, nofun⟩
  | cons d ds ih =>
    obtain ⟨h₁, h₂⟩ := ih h
    obtain ⟨ha, hd⟩ := held_append.mp h₁
    refine ⟨ha, fun x hx => ?_⟩
    rcases List.mem_cons.mp hx with rfl | hx
    · exact hd
    · exact h₂ x hx

theorem Held.collect {α : Type} {width : Nat} {causes : List α} {demand : α → Except Error Demand}
    (hd : Demand.collect causes demand = .ok d) (h : d.Held t width kept) :
    ∀ c ∈ causes, ∃ dc, demand c = .ok dc ∧ dc.Held t width kept := by
  intro c hc
  obtain ⟨ds, hds, hd⟩ := bind_ok hd
  cases hd
  obtain ⟨dc, hmem, hdc⟩ := mem_of_left (mapM_ok.mp hds) hc
  exact ⟨dc, hdc, (held_foldl h).2 dc hmem⟩

/-! ## Demands on one input -/

theorem Held.onField {p : Nat} {parts : Field → List PartDemand}
    (hd : Demand.onField s p parts = .ok d) (h : d.Held t s.length kept) :
    ∃ f, s[p]? = some f ∧ p ∈ kept ∧ ∀ x ∈ parts f, t.Records x := by
  obtain ⟨f, hf, hd⟩ := bind_ok hd
  cases hd
  have hf := field_eq_ok.mp hf
  exact ⟨f, hf, h.fields p (List.getElem?_eq_some_iff.mp hf).1 (by simp), h.parts⟩

theorem Held.all {width : Nat} (hd : d.fields = .all) (h : d.Held t width kept) :
    ∀ i < width, i ∈ kept := fun i hi => h.fields i hi (by rw [hd]; rfl)

theorem Held.readAll (h : (readAll s).Held t s.length kept) :
    (∀ i < s.length, i ∈ kept) ∧ ∀ f ∈ s, t.ReadsWhole f :=
  ⟨h.all rfl, fun f hf x hx => h.parts x (Schema.mem_wholeDemands.mpr ⟨f, hf, hx⟩)⟩

theorem Held.access {p : Nat} {a : Access} (hd : Demand.access s p a = .ok d)
    (h : d.Held t s.length kept) : ∃ f, s[p]? = some f ∧ p ∈ kept ∧ a.Met t f := by
  cases a with
  | whole => exact Held.onField hd h
  | key k =>
    obtain ⟨f, hf, hk, hparts⟩ := Held.onField hd h
    refine ⟨f, hf, hk, ?_⟩
    by_cases hmap : f.type.isMap = true
    · rw [if_pos hmap] at hparts
      exact Or.inr ⟨hmap, hparts _ (List.mem_singleton.mpr rfl)⟩
    · rw [if_neg hmap] at hparts
      exact Or.inl hparts
  | columns cs =>
    obtain ⟨f, hf, hd⟩ := bind_ok hd
    obtain ⟨parts, hparts, hd⟩ := bind_ok hd
    cases hd
    have hf := field_eq_ok.mp hf
    refine ⟨f, hf, h.fields p (List.getElem?_eq_some_iff.mp hf).1 (by simp), ?_⟩
    unfold readColumns at hparts
    cases hi : f.type.inner? with
    | none =>
      rw [hi] at hparts
      cases hparts
      exact Or.inl h.parts
    | some inner =>
      rw [hi] at hparts
      obtain ⟨fs, hfs, hparts⟩ := bind_ok hparts
      cases hparts
      refine Or.inr ⟨inner, hi, fun c hc => ?_⟩
      obtain ⟨x, hx, hcx⟩ := mem_of_left (mapM_ok.mp hfs) hc
      refine ⟨x, field_eq_ok.mp hcx, fun y hy => h.parts y ?_, ?_⟩
      · exact List.mem_append_left _ (List.mem_flatMap.mpr ⟨x, hx, hy⟩)
      · have hcols := h.parts (.bagColumns f.uid (fs.map Field.uid))
          (List.mem_append_right _ (List.mem_singleton.mpr rfl))
        rw [Trackers.records_bagColumns] at hcols ⊢
        obtain ⟨ks, hks, hhas⟩ := hcols
        exact ⟨ks, hks, fun u hu => hhas u (by
          rw [List.mem_singleton.mp hu]
          exact List.mem_map.mpr ⟨x, hx, rfl⟩)⟩

theorem Held.ofReads {r : Reads} (hd : Demand.ofReads s r = .ok d)
    (h : d.Held t s.length kept) : r.Met t s kept := by
  unfold Demand.ofReads at hd
  split at hd
  · cases hd
    obtain ⟨hall, hw⟩ := Held.readAll h
    exact r.met_of_whole hall hw
  · rename_i hstar
    refine ⟨fun hs => absurd hs hstar, fun x hx f hf => ?_⟩
    obtain ⟨dx, hdx, hheld⟩ := Held.collect hd h x hx
    obtain ⟨f', hf', hk, hm⟩ := Held.access hdx hheld
    rw [hf] at hf'
    cases hf'
    exact ⟨hk, hm⟩

/-- Keys are compared, so what they read is read whole. -/
theorem Held.ofKeys {keys : List Expr} (hd : Demand.ofKeys s keys = .ok d)
    (h : d.Held t s.length kept) : ∀ e ∈ keys, e.reads.toWhole.Met t s kept := by
  intro e he
  obtain ⟨de, hde, hheld⟩ := Held.collect hd h e he
  exact Held.ofReads hde hheld

theorem Held.ofRange {required : List Nat} {start : Nat}
    (hd : Demand.ofRange s required start = .ok d) (h : d.Held t s.length kept) :
    ∀ p ∈ required, start ≤ p → p < start + s.length → p - start ∈ kept := by
  intro p hp h₁ h₂
  obtain ⟨dp, hdp, hheld⟩ := Held.collect hd h p (List.mem_filter.mpr ⟨hp, by simp [h₁, h₂]⟩)
  obtain ⟨f, -, hk, -⟩ := Held.onField hdp hheld
  exact hk

/-! ## Operators -/

theorem Held.ofBag {u : Uid} (hd : Demand.ofBag s (t.bagColumns.get? u) = .ok d)
    (h : d.Held t s.length kept) : Known t u s kept := by
  unfold Known
  split
  · rename_i us hus
    rw [hus] at hd
    intro v hv i hi
    obtain ⟨dv, hdv, hheld⟩ := Held.collect hd h v hv
    rw [hi] at hdv
    obtain ⟨f, -, hk, -⟩ := Held.onField hdv hheld
    exact hk
  · rename_i hno
    have hd : d = allPositions := by
      unfold Demand.ofBag at hd
      split at hd
      · rename_i us hus
        exact absurd hus (hno us)
      · exact (Except.ok.inj hd).symm
    exact h.all (by rw [hd]; rfl)

theorem Held.ofGroup {name : String} {g : CoGroup} {required : List Nat} {keys : List Expr}
    {i : Nat} (hd : Demand.ofGroup name t g required s keys i = .ok d)
    (h : d.Held t s.length kept) :
    (∀ e ∈ keys, e.reads.toWhole.Met t s kept) ∧
      (CoGroup.bagPosition i ∈ required →
        ∃ b, g.bags[i]? = some b ∧ Known t b.2 s kept) := by
  obtain ⟨ks, hks, hd⟩ := bind_ok hd
  by_cases hreq : required.contains (CoGroup.bagPosition i) = true
  · simp only [hreq, Bool.not_true] at hd
    cases hb : g.bags[i]? with
    | none => rw [hb] at hd; cases hd
    | some b =>
      rw [hb] at hd
      obtain ⟨db, hdb, hd⟩ := bind_ok hd
      cases hd
      obtain ⟨h₁, h₂⟩ := held_append.mp h
      exact ⟨Held.ofKeys hks h₁, fun _ => ⟨b, rfl, Held.ofBag hdb h₂⟩⟩
  · rw [Bool.not_eq_true] at hreq
    simp only [hreq, Bool.not_false] at hd
    cases hd
    exact ⟨Held.ofKeys hks h, fun hmem => by simp [hmem] at hreq⟩

/-- What is known of the input field that feeds a required field of a union. -/
theorem Held.ofMapping {name : String} {u : Union} {required : List Nat}
    {mapping : List (Option Nat)}
    (hd : Demand.ofMapping name t u required s mapping = .ok d) (h : d.Held t s.length kept) :
    ∀ p ∈ required, ∃ output, u.fields[p]? = some output ∧
      (∀ q, mapping[p]?.join = some q → ∃ f, s[q]? = some f ∧ q ∈ kept ∧
        ∀ x ∈ ofUnionField t output f, t.Records x) ∧
      (mapping[p]?.join = none → (∀ i < s.length, i ∈ kept) ∧ ∀ f ∈ s, t.ReadsWhole f) := by
  intro p hp
  obtain ⟨dp, hdp, hheld⟩ := Held.collect hd h p hp
  cases ho : u.fields[p]? with
  | none => rw [ho] at hdp; cases hdp
  | some output =>
    rw [ho] at hdp
    refine ⟨output, rfl, fun q hq => ?_, fun hnone => ?_⟩
    · simp only [hq] at hdp
      exact Held.onField hdp hheld
    · simp only [hnone] at hdp
      cases hdp
      exact Held.readAll hheld

end Demand

/-! ## Items -/

/-- An item that has been demanded: as the whole row, as a field that is passed
on, or as a value that is computed. -/
inductive Item.Met (t : Trackers) (s : Schema) (kept : List Nat) (item : Item) : Prop
  | star (hstar : item.isStar = true) (hall : ∀ i < s.length, i ∈ kept)
  | forward {p : Nat} {f : Field} (hstar : item.isStar = false)
      (hp : item.expr.forwards? = some p) (hf : s[p]? = some f) (hk : p ∈ kept)
      (hflat : item.flatten = true → ∀ x ∈ f.forwardDemands, t.Records x)
  | compute (hstar : item.isStar = false) (hp : item.expr.forwards? = none)
      (hm : item.expr.reads.Met t s kept)
      (hflat : item.flatten = true → item.expr.reads.toWhole.Met t s kept)

theorem Demand.Held.ofItem {t : Trackers} {s : Schema} {kept required : List Nat} {d : Demand}
    {item : Item} {range : Nat × Nat} (hd : Demand.ofItem s required item range = .ok d)
    (h : d.Held t s.length kept)
    (hwanted : item.flatten = true ∨ ∃ p ∈ required, range.1 ≤ p ∧ p < range.2) :
    item.Met t s kept := by
  unfold Demand.ofItem at hd
  split at hd
  · rename_i hnot
    simp only [Bool.and_eq_true, Bool.not_eq_true', List.any_eq_false, decide_eq_true_eq,
      not_and] at hnot
    rcases hwanted with hflat | ⟨p, hp, h₁, h₂⟩
    · rw [hflat] at hnot; cases hnot.1
    · exact absurd h₂ (hnot.2 p hp h₁)
  · split at hd
    · rename_i hstar
      cases hd
      exact .star hstar (h.all rfl)
    · rename_i hstar
      rw [Bool.not_eq_true] at hstar
      split at hd
      · rename_i hhas
        cases hd
        obtain ⟨hall, hw⟩ := Held.readAll h
        refine .compute hstar ?_ (item.expr.reads.met_of_whole hall hw)
          fun _ => item.expr.reads.toWhole.met_of_whole hall hw
        rw [Expr.hasStar_eq] at hhas
        cases hf : item.expr.forwards? with
        | none => rfl
        | some p => rw [Expr.star_of_forwards? hf] at hhas; cases hhas
      · split at hd
        · rename_i p hp
          obtain ⟨f, hf, hk, hparts⟩ := Held.onField hd h
          exact .forward hstar hp hf hk fun hflat => by simpa only [hflat, if_true] using hparts
        · rename_i hp
          have hm := Held.ofReads hd h
          split at hm
          · exact .compute hstar hp (Reads.met_of_toWhole hm) fun _ => hm
          · rename_i hflat
            exact .compute hstar hp hm fun h => absurd h hflat

/-- The selections of an item that has been demanded can be made of the narrowed
row. -/
theorem Item.Met.selects {g : String → String} {t : Trackers} {w : Slice g t} {item : Item}
    (h : item.Met t w.old w.kept) (hs : Schema.Coherent g w.old) : item.expr.reads.Selects w := by
  cases h with
  | star hstar hall =>
    intro p cs hx
    have hexpr : item.expr = .star := by
      unfold Item.isStar at hstar
      split at hstar
      · assumption
      · cases hstar
    rw [hexpr] at hx
    cases hx
  | forward hstar hp hf hk hflat =>
    intro p cs hx
    rw [Expr.accesses_of_forwards? hp, List.mem_singleton] at hx
    cases hx
  | compute hstar hp hm _ => exact Reads.selects_of_coherent hs hm

end Dataflow
