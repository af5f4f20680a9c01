import Dataflow.Requirement.Room
import Dataflow.Requirement.Scope

/-!
# What a requirement already covers

A demand is absorbed by a state of knowledge when merging it changes nothing.
For required fields that is `Required.Covers`, for a finding about parts
`Trackers.Records`; both are said here without the merging, and both survive
every later merge. A merge of something that is covered gives back the very
same requirement, which needs positions to be listed in ascending order
(`Required.Proper`).
-/

namespace Dataflow

/-! ## Ascending positions -/

namespace Positions

theorem insert_ascending {p : Nat} {ps : List Nat} (h : ps.Pairwise (· < ·)) :
    (insert p ps).Pairwise (· < ·) := by
  induction ps with
  | nil => exact List.pairwise_singleton ..
  | cons q qs ih =>
    obtain ⟨hq, hqs⟩ := List.pairwise_cons.mp h
    unfold insert
    split
    · rename_i hlt
      refine List.pairwise_cons.mpr ⟨fun r hr => ?_, h⟩
      rcases List.mem_cons.mp hr with rfl | hr
      · exact hlt
      · exact Nat.lt_trans hlt (hq r hr)
    · split
      · exact h
      · refine List.pairwise_cons.mpr ⟨fun r hr => ?_, ih hqs⟩
        rcases mem_insert.mp hr with rfl | hr
        · omega
        · exact hq r hr

/-- A position that is already there changes nothing. -/
theorem insert_of_mem {p : Nat} {ps : List Nat} (h : ps.Pairwise (· < ·)) (hp : p ∈ ps) :
    insert p ps = ps := by
  induction ps with
  | nil => cases hp
  | cons q qs ih =>
    obtain ⟨hq, hqs⟩ := List.pairwise_cons.mp h
    unfold insert
    rcases List.mem_cons.mp hp with rfl | hp
    · simp
    · have := hq p hp
      rw [if_neg (by omega), if_neg (by omega), ih hqs hp]

theorem insert_ne_nil (p : Nat) (ps : List Nat) : insert p ps ≠ [] := by
  cases ps with
  | nil => simp [insert]
  | cons q qs =>
    unfold insert
    split
    · exact List.cons_ne_nil _ _
    · split <;> exact List.cons_ne_nil _ _

theorem foldl_insert_ascending {qs ps : List Nat} (h : ps.Pairwise (· < ·)) :
    (qs.foldl (fun acc p => insert p acc) ps).Pairwise (· < ·) := by
  induction qs generalizing ps with
  | nil => exact h
  | cons q qs ih => exact ih (insert_ascending h)

theorem mem_foldl_insert {p : Nat} {qs ps : List Nat} :
    p ∈ qs.foldl (fun acc p => insert p acc) ps ↔ p ∈ qs ∨ p ∈ ps := by
  induction qs generalizing ps with
  | nil => simp
  | cons q qs ih => simp [ih, or_left_comm, or_assoc]

theorem ofList_ascending (ps : List Nat) : (ofList ps).Pairwise (· < ·) :=
  foldl_insert_ascending List.Pairwise.nil

@[simp] theorem mem_ofList {p : Nat} {ps : List Nat} : p ∈ ofList ps ↔ p ∈ ps := by
  simp [ofList, mem_foldl_insert]

/-- An ascending list is determined by its members. -/
theorem ext_ascending {ps qs : List Nat} (hp : ps.Pairwise (· < ·)) (hq : qs.Pairwise (· < ·))
    (h : ∀ x, x ∈ ps ↔ x ∈ qs) : ps = qs := by
  induction ps generalizing qs with
  | nil =>
    cases qs with
    | nil => rfl
    | cons q qs => exact absurd ((h q).mpr (List.mem_cons_self ..)) List.not_mem_nil
  | cons p ps ih =>
    cases qs with
    | nil => exact absurd ((h p).mp (List.mem_cons_self ..)) List.not_mem_nil
    | cons q qs =>
      obtain ⟨hp₁, hp₂⟩ := List.pairwise_cons.mp hp
      obtain ⟨hq₁, hq₂⟩ := List.pairwise_cons.mp hq
      have hpq : p = q := by
        have h₁ := (h p).mp (List.mem_cons_self ..)
        have h₂ := (h q).mpr (List.mem_cons_self ..)
        rcases List.mem_cons.mp h₁ with rfl | h₁
        · rfl
        · rcases List.mem_cons.mp h₂ with rfl | h₂
          · rfl
          · have := hq₁ p h₁
            have := hp₁ q h₂
            omega
      subst hpq
      rw [ih hp₂ hq₂ fun x => ?_]
      constructor
      · intro hx
        have := hp₁ x hx
        rcases List.mem_cons.mp ((h x).mp (List.mem_cons_of_mem _ hx)) with rfl | hx
        · omega
        · exact hx
      · intro hx
        have := hq₁ x hx
        rcases List.mem_cons.mp ((h x).mpr (List.mem_cons_of_mem _ hx)) with rfl | hx
        · omega
        · exact hx

end Positions

/-! ## Required fields -/

namespace Required

/-- Everything that `d` requires is required by `r`. -/
structure Covers (r d : Required) : Prop where
  all : d = .all → r = .all
  contains : ∀ p, d.contains p = true → r.contains p = true

/-- The forms that operations produce: positions ascend, and there is at least
one of them. -/
def Proper : Required → Prop
  | .positions ps => ps.Pairwise (· < ·) ∧ ps ≠ []
  | _ => True

/-- A set of positions, listed in order. -/
def Ascending : Required → Prop
  | .positions ps => ps.Pairwise (· < ·)
  | _ => True

instance : DecidablePred Ascending
  | .none => isTrue trivial
  | .positions ps => inferInstanceAs (Decidable (ps.Pairwise (· < ·)))
  | .all => isTrue trivial

theorem Proper.ascending {r : Required} (h : r.Proper) : r.Ascending := by
  cases r with
  | positions ps => exact h.1
  | _ => trivial

theorem covers_refl (r : Required) : r.Covers r := ⟨id, fun _ => id⟩

theorem Covers.trans {a b c : Required} (h : a.Covers b) (h' : b.Covers c) : a.Covers c :=
  ⟨fun hc => h.all (h'.all hc), fun p hp => h.contains p (h'.contains p hp)⟩

theorem covers_none (r : Required) : r.Covers .none := ⟨nofun, nofun⟩

theorem eq_all_of_covers_all {r : Required} (h : r.Covers .all) : r = .all := h.all rfl

@[simp] theorem mem_of_contains {ps : List Nat} {p : Nat} :
    (positions ps).contains p = true ↔ p ∈ ps := by simp [Required.contains]

theorem insert_proper {r : Required} (h : r.Proper) (p : Nat) : (r.insert p).1.Proper := by
  cases r with
  | all => trivial
  | none => exact ⟨List.pairwise_singleton .., by simp⟩
  | positions ps => exact ⟨Positions.insert_ascending h.1, Positions.insert_ne_nil p ps⟩

theorem insertAll_proper {r : Required} (h : r.Proper) (ps : List Nat) :
    (r.insertAll ps).1.Proper := by
  induction ps generalizing r with
  | nil => exact h
  | cons p ps ih => exact ih (insert_proper h p)

theorem merge_proper {r : Required} (h : r.Proper) (d : Required) : (r.merge d).1.Proper := by
  cases d with
  | none => exact h
  | all => trivial
  | positions ps => exact insertAll_proper h ps

theorem contains_insertAll {r : Required} {ps : List Nat} {q : Nat} :
    (r.insertAll ps).1.contains q = true ↔ q ∈ ps ∨ r.contains q = true := by
  induction ps generalizing r with
  | nil => simp [insertAll]
  | cons p ps ih =>
    show ((r.insert p).1.insertAll ps).1.contains q = true ↔ _
    rw [ih, contains_insert]
    simp only [List.mem_cons]
    constructor
    · rintro (h | h | h)
      · exact Or.inl (Or.inr h)
      · exact Or.inl (Or.inl h)
      · exact Or.inr h
    · rintro ((h | h) | h)
      · exact Or.inr (Or.inl h)
      · exact Or.inl h
      · exact Or.inr (Or.inr h)

@[simp] theorem contains_merge {r d : Required} {q : Nat} :
    (r.merge d).1.contains q = true ↔ r.contains q = true ∨ d.contains q = true := by
  cases d with
  | none => simp [merge, Required.contains]
  | all => simp [merge, setAll, Required.contains]
  | positions ps =>
    rw [mem_of_contains, or_comm]
    exact contains_insertAll

theorem insertAll_all (ps : List Nat) : all.insertAll ps = (all, false) := by
  induction ps with
  | nil => rfl
  | cons p ps ih => simp [insertAll, insert, ih]

theorem merge_covers_left (r d : Required) : (r.merge d).1.Covers r where
  all h := by
    subst h
    cases d with
    | none => rfl
    | all => rfl
    | positions ps => simp [merge, insertAll_all]
  contains _ hp := contains_merge.mpr (Or.inl hp)

theorem merge_covers_right (r d : Required) : (r.merge d).1.Covers d where
  all h := by subst h; rfl
  contains _ hp := contains_merge.mpr (Or.inr hp)

theorem insertAll_eq_of_contains {r : Required} (hr : r.Proper) {ps : List Nat}
    (h : ∀ p ∈ ps, r.contains p = true) : r.insertAll ps = (r, false) := by
  induction ps with
  | nil => rfl
  | cons p ps ih =>
    have hp := h p (List.mem_cons_self ..)
    have hins : r.insert p = (r, false) := by
      cases r with
      | none => cases hp
      | all => rfl
      | positions qs =>
        have hp : p ∈ qs := mem_of_contains.mp hp
        simp [insert, Positions.insert_of_mem hr.1 hp, hp]
    simp [insertAll, hins, ih fun q hq => h q (List.mem_cons_of_mem _ hq)]

/-- Merging what is covered changes nothing, and says so. -/
theorem merge_eq_of_covers {r d : Required} (hr : r.Proper) (h : r.Covers d) :
    r.merge d = (r, false) := by
  cases d with
  | none => rfl
  | all => rw [eq_all_of_covers_all h]; rfl
  | positions ps =>
    exact insertAll_eq_of_contains hr fun p hp => h.contains p (mem_of_contains.mpr hp)

theorem contains_of_insertAll_false {r : Required} {ps : List Nat}
    (h : (r.insertAll ps).2 = false) : ∀ p ∈ ps, r.contains p = true := by
  induction ps generalizing r with
  | nil => nofun
  | cons p ps ih =>
    simp only [insertAll, Bool.or_eq_false_iff] at h
    have hp : r.contains p = true := by
      cases r with
      | all => rfl
      | none => simp [insert] at h
      | positions qs => simpa [insert, Required.contains] using h.1
    intro q hq
    rcases List.mem_cons.mp hq with rfl | hq
    · exact hp
    · rcases contains_insert.mp (ih h.2 q hq) with rfl | hq
      · exact hp
      · exact hq

/-- A merge that says it changed nothing was covered. -/
theorem covers_of_merge_false {r d : Required} (h : (r.merge d).2 = false) : r.Covers d := by
  cases d with
  | none => exact covers_none r
  | all =>
    cases r <;> simp [merge, setAll, isAll] at h
    exact covers_refl _
  | positions ps =>
    refine ⟨fun hall => Required.noConfusion hall, fun p hp => ?_⟩
    exact contains_of_insertAll_false h p (mem_of_contains.mp hp)

end Required

/-! ## Parts -/

namespace KeySet

variable {κ : Type}

/-- A part that is among those read. -/
def Has : KeySet κ → κ → Prop
  | .all, _ => True
  | .only ks, k => k ∈ ks

/-- Everything that is read in `s` is read in `s'`. -/
structure Le (s s' : KeySet κ) : Prop where
  all : s = .all → s' = .all
  has : ∀ k, s.Has k → s'.Has k

theorem le_refl (s : KeySet κ) : s.Le s := ⟨id, fun _ => id⟩

theorem Le.trans {a b c : KeySet κ} (h : a.Le b) (h' : b.Le c) : a.Le c :=
  ⟨fun ha => h'.all (h.all ha), fun k hk => h'.has k (h.has k hk)⟩

theorem le_all (s : KeySet κ) : s.Le .all := ⟨fun _ => rfl, fun _ _ => trivial⟩

variable [DecidableEq κ]

theorem has_insert {s : KeySet κ} {k x : κ} : (s.insert k).1.Has x ↔ x = k ∨ s.Has x := by
  cases s with
  | all => simp [insert, Has]
  | only ks =>
    by_cases h : k ∈ ks
    · simp only [insert, if_pos h, Has]
      exact ⟨Or.inr, fun hx => hx.elim (fun e => e ▸ h) id⟩
    · simp [insert, if_neg h, Has, or_comm]

theorem le_insert (s : KeySet κ) (k : κ) : s.Le (s.insert k).1 where
  all h := by subst h; rfl
  has _ hx := has_insert.mpr (Or.inr hx)

theorem le_insertAll (s : KeySet κ) (ks : List κ) : s.Le (s.insertAll ks).1 := by
  induction ks generalizing s with
  | nil => exact le_refl s
  | cons k ks ih => exact (le_insert s k).trans (ih _)

theorem has_insertAll {s : KeySet κ} {ks : List κ} {x : κ} :
    (s.insertAll ks).1.Has x ↔ x ∈ ks ∨ s.Has x := by
  induction ks generalizing s with
  | nil => simp [insertAll]
  | cons k ks ih =>
    show ((s.insert k).1.insertAll ks).1.Has x ↔ _
    rw [ih, has_insert, List.mem_cons]
    constructor
    · rintro (h | h | h)
      · exact Or.inl (Or.inr h)
      · exact Or.inl (Or.inl h)
      · exact Or.inr h
    · rintro ((h | h) | h)
      · exact Or.inr (Or.inl h)
      · exact Or.inl h
      · exact Or.inr (Or.inr h)

theorem has_ofList {ks : List κ} {x : κ} : (ofList ks).Has x ↔ x ∈ ks := by
  rw [ofList, has_insertAll]
  simp [Has]

theorem insertAll_only_isOnly (l ks : List κ) : ∃ l', ((only l).insertAll ks).1 = .only l' := by
  induction ks generalizing l with
  | nil => exact ⟨l, rfl⟩
  | cons k ks ih =>
    by_cases h : k ∈ l
    · simpa [insertAll, insert, h] using ih l
    · simpa [insertAll, insert, h] using ih (l ++ [k])

theorem ofList_isOnly (ks : List κ) : ∃ l, ofList ks = .only l := insertAll_only_isOnly [] ks

theorem le_merge (s other : KeySet κ) : s.Le (s.merge other).1 := by
  cases other with
  | all => cases s <;> exact le_all _
  | only ks => exact le_insertAll s ks

theorem has_of_insert_false {s : KeySet κ} {k : κ} (h : (s.insert k).2 = false) : s.Has k := by
  cases s with
  | all => trivial
  | only ks =>
    by_cases hk : k ∈ ks
    · exact hk
    · simp [insert, hk] at h

theorem insert_false_of_has {s : KeySet κ} {k : κ} (h : s.Has k) : s.insert k = (s, false) := by
  cases s with
  | all => rfl
  | only ks => simp [insert, show k ∈ ks from h]

theorem insertAll_false_of_has {s : KeySet κ} {ks : List κ} (h : ∀ k ∈ ks, s.Has k) :
    s.insertAll ks = (s, false) := by
  induction ks with
  | nil => rfl
  | cons k ks ih =>
    simp [insertAll, insert_false_of_has (h k (List.mem_cons_self ..)),
      ih fun x hx => h x (List.mem_cons_of_mem _ hx)]

theorem has_of_insertAll_false {s : KeySet κ} {ks : List κ} (h : (s.insertAll ks).2 = false) :
    ∀ k ∈ ks, s.Has k := by
  induction ks generalizing s with
  | nil => nofun
  | cons k ks ih =>
    simp only [insertAll, Bool.or_eq_false_iff] at h
    have hk := has_of_insert_false h.1
    have hrest := ih h.2
    intro x hx
    rcases List.mem_cons.mp hx with rfl | hx
    · exact hk
    · rcases has_insert.mp (hrest x hx) with rfl | hx
      · exact hk
      · exact hx

end KeySet

namespace Tracker

variable {κ : Type}

/-- Every entry of `t` has grown, or stayed, in `t'`. -/
def Le (t t' : Tracker κ) : Prop := ∀ u s, t.get? u = some s → ∃ s', t'.get? u = some s' ∧ s.Le s'

theorem le_refl (t : Tracker κ) : t.Le t := fun _ s h => ⟨s, h, s.le_refl⟩

theorem Le.trans {a b c : Tracker κ} (h : a.Le b) (h' : b.Le c) : a.Le c := by
  intro u s hs
  obtain ⟨s₁, hs₁, hle₁⟩ := h u s hs
  obtain ⟨s₂, hs₂, hle₂⟩ := h' u s₁ hs₁
  exact ⟨s₂, hs₂, hle₁.trans hle₂⟩

theorem le_update (t : Tracker κ) (u : Uid) (f : KeySet κ → KeySet κ × Bool)
    (first : KeySet κ) (hf : ∀ s : KeySet κ, s.Le (f s).1) : t.Le (t.update u f first).1 := by
  intro v s hs
  rw [get?_update]
  by_cases h : v = u
  · subst h
    rw [if_pos rfl, hs]
    exact ⟨_, rfl, hf s⟩
  · rw [if_neg h]
    exact ⟨s, hs, s.le_refl⟩

theorem update_snd_false {t : Tracker κ} {u : Uid} {f : KeySet κ → KeySet κ × Bool}
    {first : KeySet κ} :
    (t.update u f first).2 = false ↔ ∃ s, t.get? u = some s ∧ (f s).2 = false := by
  unfold update
  cases t.get? u with
  | none => simp
  | some s => simp

/-- What is read of a field in part is what is recorded of it. -/
theorem get?_of_narrowed {t : Tracker κ} {u : Uid} {ks : List κ} (h : t.narrowed? u = some ks) :
    t.get? u = some (.only ks) := by
  obtain ⟨s, hs, hks⟩ := Option.bind_eq_some_iff.mp h
  cases s with
  | all => cases hks
  | only ks' =>
    obtain ⟨hks, -⟩ := Option.filter_eq_some_iff.mp hks
    cases hks
    exact hs

theorem put_self {u : Uid} {s : KeySet κ} {es : List (Uid × KeySet κ)} (h : es.lookup u = some s) :
    put u s es = es := by
  induction es with
  | nil => cases h
  | cons e es ih =>
    obtain ⟨v, r⟩ := e
    rw [lookup_cons_if] at h
    by_cases hv : v = u
    · subst hv
      rw [if_pos rfl] at h
      cases h
      rw [put, if_pos rfl]
    · rw [if_neg (Ne.symm hv)] at h
      rw [put, if_neg hv, ih h]

/-- Putting an entry back as it was. -/
theorem update_self {t : Tracker κ} {u : Uid} {f : KeySet κ → KeySet κ × Bool} {first s : KeySet κ}
    (h : t.get? u = some s) (hf : f s = (s, false)) : t.update u f first = (t, false) := by
  unfold update
  simp only [h, hf]
  rw [put_self h]

end Tracker

namespace Trackers

/-- A finding that is known: recording it again changes nothing. -/
def Records (t : Trackers) (d : PartDemand) : Prop := (t.apply d).2 = false

/-- What is known has grown, or stayed. -/
structure Le (t t' : Trackers) : Prop where
  mapKeys : t.mapKeys.Le t'.mapKeys
  bagColumns : t.bagColumns.Le t'.bagColumns
  trackKeys : t'.trackKeys = t.trackKeys

theorem le_refl (t : Trackers) : t.Le t := ⟨t.mapKeys.le_refl, t.bagColumns.le_refl, rfl⟩

theorem Le.trans {a b c : Trackers} (h : a.Le b) (h' : b.Le c) : a.Le c :=
  ⟨h.mapKeys.trans h'.mapKeys, h.bagColumns.trans h'.bagColumns, h'.trackKeys.trans h.trackKeys⟩

theorem records_mapKey {t : Trackers} {u : Uid} {k : String} :
    t.Records (.mapKey u k) ↔
      (t.trackKeys = true → ∃ s, t.mapKeys.get? u = some s ∧ s.Has k) := by
  unfold Records apply
  cases t.trackKeys with
  | false => simp
  | true =>
    simp only [if_true, withMapKeys, Tracker.require, Tracker.update_snd_false, forall_const]
    exact exists_congr fun s => and_congr_right fun _ =>
      ⟨KeySet.has_of_insert_false, fun h => by rw [KeySet.insert_false_of_has h]⟩

theorem records_allKeys {t : Trackers} {u : Uid} :
    t.Records (.allKeys u) ↔ (t.trackKeys = true → t.mapKeys.get? u = some .all) := by
  unfold Records apply
  cases t.trackKeys with
  | false => simp
  | true =>
    simp only [if_true, withMapKeys, Tracker.requireAll, Tracker.update_snd_false, forall_const]
    constructor
    · rintro ⟨s, hs, h⟩
      cases s with
      | all => exact hs
      | only ks => simp [KeySet.setAll] at h
    · exact fun h => ⟨_, h, rfl⟩

theorem records_bagColumns {t : Trackers} {u : Uid} {cs : List Uid} :
    t.Records (.bagColumns u cs) ↔
      ∃ s, t.bagColumns.get? u = some s ∧ ∀ c ∈ cs, s.Has c := by
  unfold Records apply
  simp only [withBagColumns, Tracker.merge, Tracker.update_snd_false]
  refine exists_congr fun s => and_congr_right fun _ => ?_
  obtain ⟨l, hl⟩ := KeySet.ofList_isOnly cs
  have hmem : ∀ c, c ∈ l ↔ c ∈ cs := fun c => by
    have := @KeySet.has_ofList _ _ cs c
    rw [hl] at this
    exact this
  rw [hl]
  constructor
  · exact fun h c hc => KeySet.has_of_insertAll_false h c ((hmem c).mpr hc)
  · intro h
    show (s.insertAll l).2 = false
    rw [KeySet.insertAll_false_of_has fun c hc => h c ((hmem c).mp hc)]

theorem records_allColumns {t : Trackers} {u : Uid} :
    t.Records (.allColumns u) ↔ t.bagColumns.get? u = some .all := by
  unfold Records apply
  simp only [withBagColumns, Tracker.requireAll, Tracker.update_snd_false]
  constructor
  · rintro ⟨s, hs, h⟩
    cases s with
    | all => exact hs
    | only ks => simp [KeySet.setAll] at h
  · exact fun h => ⟨_, h, rfl⟩

/-- Recording what is known leaves everything as it is. -/
theorem apply_of_records {t : Trackers} {d : PartDemand} (h : t.Records d) :
    t.apply d = (t, false) := by
  cases d with
  | mapKey u k =>
    by_cases hk : t.trackKeys = true
    · obtain ⟨s, hs, hhas⟩ := records_mapKey.mp h hk
      have hself : t.mapKeys.require u k = (t.mapKeys, false) :=
        Tracker.update_self hs (KeySet.insert_false_of_has hhas)
      rw [apply, if_pos hk, hself]
      rfl
    · rw [apply, if_neg hk]
  | allKeys u =>
    by_cases hk : t.trackKeys = true
    · have hself : t.mapKeys.requireAll u = (t.mapKeys, false) :=
        Tracker.update_self (records_allKeys.mp h hk) rfl
      rw [apply, if_pos hk, hself]
      rfl
    · rw [apply, if_neg hk]
  | bagColumns u cs =>
    obtain ⟨s, hs, hhas⟩ := records_bagColumns.mp h
    obtain ⟨l, hl⟩ := KeySet.ofList_isOnly cs
    have hself : t.bagColumns.merge u (.ofList cs) = (t.bagColumns, false) := by
      refine Tracker.update_self hs ?_
      rw [hl]
      refine KeySet.insertAll_false_of_has fun c hc => hhas c (KeySet.has_ofList.mp ?_)
      rw [hl]
      exact hc
    rw [apply, hself]
    rfl
  | allColumns u =>
    have hself : t.bagColumns.requireAll u = (t.bagColumns, false) :=
      Tracker.update_self (records_allColumns.mp h) rfl
    rw [apply, hself]
    rfl

/-- What is known stays known. -/
theorem Records.mono {t t' : Trackers} (hle : t.Le t') {d : PartDemand} (h : t.Records d) :
    t'.Records d := by
  cases d with
  | mapKey u k =>
    rw [records_mapKey] at h ⊢
    intro hk
    obtain ⟨s, hs, hhas⟩ := h (hle.trackKeys ▸ hk)
    obtain ⟨s', hs', hss⟩ := hle.mapKeys u s hs
    exact ⟨s', hs', hss.has k hhas⟩
  | allKeys u =>
    rw [records_allKeys] at h ⊢
    intro hk
    obtain ⟨s', hs', hss⟩ := hle.mapKeys u .all (h (hle.trackKeys ▸ hk))
    rw [hs', hss.all rfl]
  | bagColumns u cs =>
    rw [records_bagColumns] at h ⊢
    obtain ⟨s, hs, hhas⟩ := h
    obtain ⟨s', hs', hss⟩ := hle.bagColumns u s hs
    exact ⟨s', hs', fun c hc => hss.has c (hhas c hc)⟩
  | allColumns u =>
    rw [records_allColumns] at h ⊢
    obtain ⟨s', hs', hss⟩ := hle.bagColumns u .all h
    rw [hs', hss.all rfl]

theorem le_apply (t : Trackers) (d : PartDemand) : t.Le (t.apply d).1 := by
  cases d with
  | mapKey u k =>
    by_cases hk : t.trackKeys = true
    · simp only [apply, hk, if_true]
      exact ⟨t.mapKeys.le_update u _ _ fun s => s.le_insert k, t.bagColumns.le_refl, rfl⟩
    · simpa only [apply, if_neg hk] using t.le_refl
  | allKeys u =>
    by_cases hk : t.trackKeys = true
    · simp only [apply, hk, if_true]
      exact ⟨t.mapKeys.le_update u _ _ fun s => by cases s <;> exact KeySet.le_all _,
        t.bagColumns.le_refl, rfl⟩
    · simpa only [apply, if_neg hk] using t.le_refl
  | bagColumns u cs =>
    exact ⟨t.mapKeys.le_refl, t.bagColumns.le_update u _ _ fun s => s.le_merge _, rfl⟩
  | allColumns u =>
    exact ⟨t.mapKeys.le_refl,
      t.bagColumns.le_update u _ _ fun s => by cases s <;> exact KeySet.le_all _, rfl⟩

/-- A finding that was recorded is known. -/
theorem records_apply (t : Trackers) (d : PartDemand) : (t.apply d).1.Records d := by
  cases d with
  | mapKey u k =>
    rw [records_mapKey]
    intro hk
    have hk' : t.trackKeys = true := (t.le_apply (.mapKey u k)).trackKeys ▸ hk
    simp only [apply, hk', if_true, withMapKeys, Tracker.require, Tracker.get?_update]
    refine ⟨_, rfl, ?_⟩
    cases t.mapKeys.get? u with
    | none => exact List.mem_singleton.mpr rfl
    | some s => exact KeySet.has_insert.mpr (Or.inl rfl)
  | allKeys u =>
    rw [records_allKeys]
    intro hk
    have hk' : t.trackKeys = true := (t.le_apply (.allKeys u)).trackKeys ▸ hk
    simp only [apply, hk', if_true, withMapKeys, Tracker.requireAll, Tracker.get?_update]
    cases t.mapKeys.get? u with
    | none => rfl
    | some s => cases s <;> rfl
  | bagColumns u cs =>
    rw [records_bagColumns]
    simp only [apply, withBagColumns, Tracker.merge, Tracker.get?_update, if_true]
    refine ⟨_, rfl, fun c hc => ?_⟩
    cases t.bagColumns.get? u with
    | none => exact KeySet.has_ofList.mpr hc
    | some s =>
      obtain ⟨l, hl⟩ := KeySet.ofList_isOnly cs
      have : c ∈ l := by
        have := KeySet.has_ofList.mpr hc
        rwa [hl] at this
      rw [hl]
      exact KeySet.has_insertAll.mpr (Or.inl this)
  | allColumns u =>
    rw [records_allColumns]
    simp only [apply, withBagColumns, Tracker.requireAll, Tracker.get?_update, if_true]
    cases t.bagColumns.get? u with
    | none => rfl
    | some s => cases s <;> rfl

/-- Two trackers that know the same about a field. -/
def SameAt (u : Uid) (t t' : Trackers) : Prop :=
  t'.mapKeys.get? u = t.mapKeys.get? u ∧ t'.bagColumns.get? u = t.bagColumns.get? u

/-- A finding is about one field and leaves the others as they were. -/
theorem sameAt_apply {t : Trackers} {d : PartDemand} {u : Uid} (h : u ≠ d.uid) :
    SameAt u t (t.apply d).1 := by
  cases d with
  | mapKey v k =>
    by_cases hk : t.trackKeys = true
    · simp only [apply, hk, if_true, withMapKeys, Tracker.require, SameAt, Tracker.get?_update,
        if_neg (show u ≠ v from h), and_self]
    · simp [apply, hk, SameAt]
  | allKeys v =>
    by_cases hk : t.trackKeys = true
    · simp only [apply, hk, if_true, withMapKeys, Tracker.requireAll, SameAt, Tracker.get?_update,
        if_neg (show u ≠ v from h), and_self]
    · simp [apply, hk, SameAt]
  | bagColumns v cs =>
    simp only [apply, withBagColumns, Tracker.merge, SameAt, Tracker.get?_update,
      if_neg (show u ≠ v from h), and_self]
  | allColumns v =>
    simp only [apply, withBagColumns, Tracker.requireAll, SameAt, Tracker.get?_update,
      if_neg (show u ≠ v from h), and_self]

theorem le_applyAll (t : Trackers) (ds : List PartDemand) : t.Le (t.applyAll ds) := by
  induction ds generalizing t with
  | nil => exact t.le_refl
  | cons d ds ih => exact (t.le_apply d).trans (ih _)

theorem records_applyAll {t : Trackers} {ds : List PartDemand} :
    ∀ d ∈ ds, (t.applyAll ds).Records d := by
  induction ds generalizing t with
  | nil => nofun
  | cons x xs ih =>
    intro d hd
    rcases List.mem_cons.mp hd with rfl | hd
    · exact (t.records_apply d).mono (Trackers.le_applyAll _ xs)
    · exact ih d hd

end Trackers

end Dataflow
