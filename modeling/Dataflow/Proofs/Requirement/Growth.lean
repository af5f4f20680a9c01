import Mathlib.Data.List.Nodup
import Dataflow.Proofs.Requirement.Absorption

/-!
# Growth of trackers

What a tracker knows of a field is its entry: missing, some parts, or all of
them. Entries only rise in this order (`Entry.Precedes`), and recording a finding
reports a change exactly when some entry is another one afterwards
(`Trackers.apply_changed_iff`).

A finding does to the entry of its own field what `Entry.ask` does, and leaves
all others alone. A run of findings therefore splits into one run for each field
(`Trackers.mapKeys_applyAll`, `Trackers.bagColumns_applyAll`), and what is said of
a run is said of one entry at a time: it is as high as the highest thing asked
(`Entry.askAll_eq_none`, `Entry.askAll_eq_all`), and while it lists parts, these
are the ones it began with and then the ones asked for, each at its first place
(`Entry.askAll_eq_only`, `KeySet.insertAll_only`). None of this, read as sets,
depends on the order (`Entry.askAll_perm`).
-/

namespace Dataflow

/-! ## Lists of parts -/

/-- Without repetitions there is nothing to erase. -/
theorem eraseDups_of_nodup {α : Type} [DecidableEq α] {l : List α} (h : l.Nodup) :
    l.eraseDups = l := by
  induction l with
  | nil => rfl
  | cons a l ih =>
    obtain ⟨ha, hl⟩ := List.nodup_cons.mp h
    have hfilter : (l.filter fun b => !b == a) = l :=
      List.filter_eq_self.mpr fun b hb => by
        simpa using fun hba : b = a => ha (hba ▸ hb)
    rw [List.eraseDups_cons, hfilter, ih hl]

namespace KeySet

variable {κ : Type} [DecidableEq κ]

theorem mem_of_insertAll {ks ls rs : List κ} (h : ((only ks).insertAll ls).1 = .only rs) {k : κ} :
    k ∈ rs ↔ k ∈ ls ∨ k ∈ ks := by
  have hhas : ((only ks).insertAll ls).1.Has k ↔ k ∈ ls ∨ k ∈ ks := has_insertAll
  rwa [h] at hhas

theorem all_insertAll (ls : List κ) : all.insertAll ls = (all, false) :=
  insertAll_false_of_has fun _ _ => trivial

/-- All parts are known once they were asked for. -/
theorem merge_eq_all {s r : KeySet κ} : (s.merge r).1 = .all ↔ s = .all ∨ r = .all := by
  cases r with
  | all => cases s <;> simp [merge, setAll]
  | only ls =>
    cases s with
    | all => simp [merge, all_insertAll]
    | only ks =>
      obtain ⟨rs, hrs⟩ := insertAll_only_isOnly ks ls
      simp [merge, hrs]

theorem insertAll_append (s : KeySet κ) (ks ls : List κ) :
    (s.insertAll (ks ++ ls)).1 = ((s.insertAll ks).1.insertAll ls).1 := by
  induction ks generalizing s with
  | nil => rfl
  | cons k ks ih => exact ih (s.insert k).1

/-- Parts that were first collected in a list are added as if one by one. -/
theorem insertAll_collected (s : KeySet κ) {ks ls rs : List κ}
    (h : ((only ks).insertAll ls).1 = .only rs) :
    (s.insertAll rs).1 = ((s.insertAll ks).1.insertAll ls).1 := by
  -- `ks` is what is collected so far; a part that it has is known to `s` with `ks` as well
  induction ls generalizing ks with
  | nil => cases h; rfl
  | cons l ls ih =>
    by_cases hl : l ∈ ks
    · have hrest : ((only ks).insertAll ls).1 = .only rs := by
        simpa [insertAll, insert, hl] using h
      have hknown : (s.insertAll ks).1.Has l := has_insertAll.mpr (.inl hl)
      show _ = (((s.insertAll ks).1.insert l).1.insertAll ls).1
      rw [insert_false_of_has hknown, ih hrest]
    · have hrest : ((only (ks ++ [l])).insertAll ls).1 = .only rs := by
        simpa [insertAll, insert, hl] using h
      rw [ih hrest, insertAll_append]
      rfl

theorem merge_ofList (s : KeySet κ) (ks : List κ) :
    (s.merge (ofList ks)).1 = (s.merge (.only ks)).1 := by
  obtain ⟨rs, hrs⟩ := ofList_isOnly ks
  rw [hrs]
  exact insertAll_collected s hrs

/-- Added parts stand behind those that were there, each at its first place. -/
theorem insertAll_only {ks : List κ} (h : ks.Nodup) (ls : List κ) :
    ((only ks).insertAll ls).1 = .only (ks ++ ls).eraseDups ∧ (ks ++ ls).eraseDups.Nodup := by
  induction ls generalizing ks with
  | nil =>
    rw [List.append_nil, eraseDups_of_nodup h]
    exact ⟨rfl, h⟩
  | cons l ls ih =>
    by_cases hl : l ∈ ks
    · have herase : (ks ++ l :: ls).eraseDups = (ks ++ ls).eraseDups := by
        rw [List.eraseDups_append, List.eraseDups_append]
        simp [List.removeAll, hl]
      rw [herase]
      simpa [insertAll, insert, hl] using ih h
    · have hnodup : (ks ++ [l]).Nodup := by
        rw [List.nodup_append_comm]
        exact List.nodup_cons.mpr ⟨hl, h⟩
      rw [List.append_cons]
      simpa [insertAll, insert, hl] using ih hnodup

end KeySet

/-! ## Entries -/

namespace Entry

variable {κ : Type}

/-- The order in which the entry of a field rises: a missing entry, some parts,
more parts, all of them. -/
inductive Precedes : Option (KeySet κ) → Option (KeySet κ) → Prop
  | missing (s : KeySet κ) : Precedes none (some s)
  | more {ks ls : List κ} (hsub : ks ⊆ ls) {l : κ} (hl : l ∈ ls) (hnew : l ∉ ks) :
    Precedes (some (.only ks)) (some (.only ls))
  | whole (ks : List κ) : Precedes (some (.only ks)) (some .all)

/-- An entry has risen, or is as it was. -/
def Grows (e e' : Option (KeySet κ)) : Prop := e' = e ∨ Precedes e e'

/-- Entries that know the same, in whatever order they list it. -/
inductive Alike : Option (KeySet κ) → Option (KeySet κ) → Prop
  | missing : Alike none none
  | only {ks ls : List κ} (h : ∀ k, k ∈ ks ↔ k ∈ ls) :
    Alike (some (.only ks)) (some (.only ls))
  | all : Alike (some .all) (some .all)

def listed : Option (KeySet κ) → List κ
  | some (.only ks) => ks
  | _ => []

theorem exists_only : ∀ {e : Option (KeySet κ)}, e ≠ none → e ≠ some .all →
    ∃ ks, e = some (.only ks)
  | none, hnone, _ => absurd rfl hnone
  | some .all, _, hall => absurd rfl hall
  | some (.only ks), _, _ => ⟨ks, rfl⟩

theorem Precedes.trans {a b c : Option (KeySet κ)} (h : Precedes a b) (h' : Precedes b c) :
    Precedes a c := by
  cases h with
  | missing s => cases h' <;> exact .missing _
  | more hsub hl hnew =>
    cases h' with
    | more hsub' _ _ => exact .more (List.Subset.trans hsub hsub') (hsub' hl) hnew
    | whole => exact .whole _
  | whole => nomatch h'

theorem Grows.trans {a b c : Option (KeySet κ)} (h : Grows a b) (h' : Grows b c) : Grows a c := by
  rcases h with rfl | h
  · exact h'
  · rcases h' with rfl | h'
    · exact .inr h
    · exact .inr (h.trans h')

variable [DecidableEq κ]

/-- An entry of which parts are asked. A missing one is made, even if no part is
listed. -/
def ask (e : Option (KeySet κ)) (s : KeySet κ) : Option (KeySet κ) :=
  some ((e.getD (.only [])).merge s).1

def askAll (e : Option (KeySet κ)) (ss : List (KeySet κ)) : Option (KeySet κ) := ss.foldl ask e

theorem askAll_append (e : Option (KeySet κ)) (ss ss' : List (KeySet κ)) :
    askAll e (ss ++ ss') = askAll (askAll e ss) ss' := List.foldl_append

theorem ask_grows (e : Option (KeySet κ)) (s : KeySet κ) : Grows e (ask e s) := by
  match e, s with
  | none, s => exact .inr (.missing _)
  | some .all, .all => exact .inl rfl
  | some .all, .only ls => exact .inl (by simp [ask, KeySet.merge, KeySet.all_insertAll])
  | some (.only ks), .all => exact .inr (.whole ks)
  | some (.only ks), .only ls =>
    obtain ⟨rs, hrs⟩ := KeySet.insertAll_only_isOnly ks ls
    have hmem (k : κ) : k ∈ rs ↔ k ∈ ls ∨ k ∈ ks := KeySet.mem_of_insertAll hrs
    by_cases hknown : ∀ l ∈ ls, l ∈ ks
    · have hsame : (KeySet.only ks).insertAll ls = (.only ks, false) :=
        KeySet.insertAll_false_of_has hknown
      exact .inl (by simp [ask, KeySet.merge, hsame])
    · obtain ⟨l, hl, hnew⟩ : ∃ l ∈ ls, l ∉ ks := by simpa using hknown
      have hask : ask (some (.only ks)) (.only ls) = some (.only rs) := congrArg some hrs
      rw [hask]
      exact .inr (.more (fun k hk => (hmem k).mpr (.inr hk)) ((hmem l).mpr (.inl hl)) hnew)

theorem askAll_grows (e : Option (KeySet κ)) (ss : List (KeySet κ)) : Grows e (askAll e ss) := by
  induction ss generalizing e with
  | nil => exact .inl rfl
  | cons s ss ih => exact (ask_grows e s).trans (ih _)

theorem ask_eq_all {e : Option (KeySet κ)} {s : KeySet κ} :
    ask e s = some .all ↔ e = some .all ∨ s = .all := by
  rw [ask, Option.some.injEq, KeySet.merge_eq_all]
  cases e <;> simp

theorem askAll_eq_all {e : Option (KeySet κ)} {ss : List (KeySet κ)} :
    askAll e ss = some .all ↔ e = some .all ∨ .all ∈ ss := by
  induction ss generalizing e with
  | nil => simp [askAll]
  | cons s ss ih =>
    show askAll (ask e s) ss = some .all ↔ _
    rw [ih, ask_eq_all, List.mem_cons, or_assoc, eq_comm (a := s)]

theorem askAll_eq_none {e : Option (KeySet κ)} {ss : List (KeySet κ)} :
    askAll e ss = none ↔ e = none ∧ ss = [] := by
  induction ss generalizing e with
  | nil => simp [askAll]
  | cons s ss ih =>
    show askAll (ask e s) ss = none ↔ _
    rw [ih]
    simp [ask]

def allListed (ss : List (KeySet κ)) : List κ := ss.flatMap fun s => listed (some s)

/-- While an entry lists parts, it is made by adding to the ones that it began
with all that were asked for. -/
theorem askAll_eq_only {e : Option (KeySet κ)} {ss : List (KeySet κ)} {rs : List κ}
    (h : askAll e ss = some (.only rs)) :
    ((KeySet.only (listed e)).insertAll (allListed ss)).1 = .only rs := by
  induction ss generalizing e with
  | nil =>
    cases (show e = some (.only rs) from h)
    rfl
  | cons s ss ih =>
    have hrest := ih h
    have hall : ¬(e = some .all ∨ .all ∈ s :: ss) := by
      rw [← askAll_eq_all, h]
      nofun
    cases s with
    | all => exact absurd (.inr (List.mem_cons_self ..)) hall
    | only ls =>
      have hstart : e.getD (.only []) = .only (listed e) := by
        match e with
        | none => rfl
        | some (.only _) => rfl
        | some .all => exact absurd (.inl rfl) hall
      obtain ⟨ks, hks⟩ := KeySet.insertAll_only_isOnly (listed e) ls
      have hask : ask e (.only ls) = some (.only ks) := by
        rw [ask, hstart]
        exact congrArg some hks
      rw [hask] at hrest
      show ((KeySet.only (listed e)).insertAll (ls ++ allListed ss)).1 = _
      rw [KeySet.insertAll_append, hks]
      exact hrest

theorem mem_of_askAll {e : Option (KeySet κ)} {ss : List (KeySet κ)} {rs : List κ}
    (h : askAll e ss = some (.only rs)) {k : κ} : k ∈ rs ↔ k ∈ allListed ss ∨ k ∈ listed e :=
  KeySet.mem_of_insertAll (askAll_eq_only h)

/-- In which order parts are asked matters only to the order in which they are
listed. -/
theorem askAll_perm {ss ss' : List (KeySet κ)} (h : ss'.Perm ss) (e : Option (KeySet κ)) :
    Alike (askAll e ss') (askAll e ss) := by
  have hnone : askAll e ss' = none ↔ askAll e ss = none := by
    rw [askAll_eq_none, askAll_eq_none, ← List.length_eq_zero_iff, h.length_eq,
      List.length_eq_zero_iff]
  have hall : askAll e ss' = some .all ↔ askAll e ss = some .all := by
    rw [askAll_eq_all, askAll_eq_all, h.mem_iff]
  cases hss : askAll e ss with
  | none => rw [hnone.mpr hss]; exact .missing
  | some s =>
    cases s with
    | all => rw [hall.mpr hss]; exact .all
    | only ls =>
      obtain ⟨ks, hss'⟩ : ∃ ks, askAll e ss' = some (.only ks) :=
        exists_only (mt hnone.mp (by simp [hss])) (mt hall.mp (by simp [hss]))
      rw [hss']
      refine .only fun k => ?_
      rw [mem_of_askAll hss', mem_of_askAll hss, allListed, allListed, (h.flatMap_right _).mem_iff]

/-- What becomes of an entry as parts are asked of it: it grows, up to the highest
thing asked. One that listed nothing twice still does not, and goes on with the
parts in the order in which they were first asked for. -/
structure Collected (e : Option (KeySet κ)) (ss : List (KeySet κ)) (e' : Option (KeySet κ)) :
    Prop where
  grows : Grows e e'
  missing : e' = none ↔ e = none ∧ ss = []
  whole : e' = some .all ↔ e = some .all ∨ .all ∈ ss
  only : ∀ rs, e' = some (.only rs) → (listed e).Nodup →
    rs.Nodup ∧ rs = (listed e ++ allListed ss).eraseDups

theorem collected (e : Option (KeySet κ)) (ss : List (KeySet κ)) :
    Collected e ss (askAll e ss) where
  grows := askAll_grows e ss
  missing := askAll_eq_none
  whole := askAll_eq_all
  only rs hrs hnodup := by
    obtain ⟨hadded, hadded'⟩ := KeySet.insertAll_only hnodup (allListed ss)
    obtain rfl : (listed e ++ allListed ss).eraseDups = rs := by
      simpa using hadded.symm.trans (askAll_eq_only hrs)
    exact ⟨hadded', rfl⟩

end Entry

/-! ## What findings ask of one field -/

/-- What a finding asks of the keys of a map; nothing if keys are not tracked. -/
def PartDemand.keysAsked (track : Bool) (u : Uid) : PartDemand → List (KeySet String)
  | .mapKey v k => if track ∧ v = u then [.only [k]] else []
  | .allKeys v => if track ∧ v = u then [.all] else []
  | .bagColumns .. | .allColumns _ => []

/-- What a finding asks of the columns of a bag. -/
def PartDemand.columnsAsked (u : Uid) : PartDemand → List (KeySet Uid)
  | .bagColumns v cs => if v = u then [.only cs] else []
  | .allColumns v => if v = u then [.all] else []
  | .mapKey .. | .allKeys _ => []

namespace Tracker

variable {κ : Type} [DecidableEq κ]

/-- An update that merges parts into the entry of a field asks them of this field. -/
theorem get?_update_asks (t : Tracker κ) {u : Uid} {f : KeySet κ → KeySet κ × Bool}
    {first : KeySet κ} (s : KeySet κ) (hf : ∀ r, (f r).1 = (r.merge s).1)
    (hfirst : first = ((KeySet.only []).merge s).1) (v : Uid) :
    (t.update u f first).1.get? v = Entry.askAll (t.get? v) (if u = v then [s] else []) := by
  rw [get?_update]
  by_cases h : u = v
  · subst h
    rw [if_pos rfl, if_pos rfl]
    cases hentry : t.get? u with
    | none => exact congrArg some hfirst
    | some r => exact congrArg some (hf r)
  · rw [if_neg (Ne.symm h), if_neg h]
    rfl

theorem get?_require (t : Tracker κ) (u v : Uid) (k : κ) :
    (t.require u k).1.get? v = Entry.askAll (t.get? v) (if u = v then [.only [k]] else []) :=
  t.get?_update_asks (.only [k]) (fun _ => by rfl) (by rfl) v

theorem get?_requireAll (t : Tracker κ) (u v : Uid) :
    (t.requireAll u).1.get? v = Entry.askAll (t.get? v) (if u = v then [.all] else []) :=
  t.get?_update_asks .all (fun _ => rfl) rfl v

theorem get?_merge_ofList (t : Tracker κ) (u v : Uid) (ks : List κ) :
    (t.merge u (.ofList ks)).1.get? v =
      Entry.askAll (t.get? v) (if u = v then [.only ks] else []) :=
  t.get?_update_asks (.only ks) (fun r => r.merge_ofList ks) rfl v

end Tracker

namespace Trackers

/-- Without tracking of keys, findings about maps are dropped. -/
theorem mapKeys_apply_untracked {t : Trackers} (h : t.trackKeys = false) (d : PartDemand) :
    (t.apply d).1.mapKeys = t.mapKeys := by
  cases d <;> simp [apply, h, withBagColumns]

theorem mapKeys_apply (t : Trackers) (d : PartDemand) (u : Uid) :
    (t.apply d).1.mapKeys.get? u =
      Entry.askAll (t.mapKeys.get? u) (d.keysAsked t.trackKeys u) := by
  cases htrack : t.trackKeys with
  | false =>
    have hnone : d.keysAsked false u = [] := by cases d <;> simp [PartDemand.keysAsked]
    rw [mapKeys_apply_untracked htrack, hnone]
    rfl
  | true =>
    cases d with
    | mapKey v k =>
      rw [apply, if_pos htrack]
      simpa [PartDemand.keysAsked, withMapKeys] using t.mapKeys.get?_require v u k
    | allKeys v =>
      rw [apply, if_pos htrack]
      simpa [PartDemand.keysAsked, withMapKeys] using t.mapKeys.get?_requireAll v u
    | bagColumns => rfl
    | allColumns => rfl

theorem bagColumns_apply (t : Trackers) (d : PartDemand) (u : Uid) :
    (t.apply d).1.bagColumns.get? u = Entry.askAll (t.bagColumns.get? u) (d.columnsAsked u) := by
  cases d with
  | mapKey => rw [apply]; split <;> rfl
  | allKeys => rw [apply]; split <;> rfl
  | bagColumns v cs => exact t.bagColumns.get?_merge_ofList v u cs
  | allColumns v => exact t.bagColumns.get?_requireAll v u

/-- An entry of which each finding asks something was asked all of it by a run. -/
theorem entry_applyAll {κ : Type} [DecidableEq κ] (entry : Trackers → Option (KeySet κ))
    (asked : Bool → PartDemand → List (KeySet κ))
    (hstep : ∀ t d, entry (t.apply d).1 = Entry.askAll (entry t) (asked t.trackKeys d))
    (t : Trackers) (ds : List PartDemand) :
    entry (t.applyAll ds) = Entry.askAll (entry t) (ds.flatMap (asked t.trackKeys)) := by
  induction ds generalizing t with
  | nil => rfl
  | cons d ds ih =>
    show entry ((t.apply d).1.applyAll ds) = _
    rw [ih, hstep, (t.le_apply d).trackKeys, List.flatMap_cons, Entry.askAll_append]

/-- The entry of a map after a run of findings. -/
theorem mapKeys_applyAll (t : Trackers) (ds : List PartDemand) (u : Uid) :
    (t.applyAll ds).mapKeys.get? u =
      Entry.askAll (t.mapKeys.get? u) (ds.flatMap (·.keysAsked t.trackKeys u)) :=
  entry_applyAll (·.mapKeys.get? u) (fun track d => d.keysAsked track u)
    (fun t d => t.mapKeys_apply d u) t ds

/-- The entry of a bag after a run of findings. -/
theorem bagColumns_applyAll (t : Trackers) (ds : List PartDemand) (u : Uid) :
    (t.applyAll ds).bagColumns.get? u =
      Entry.askAll (t.bagColumns.get? u) (ds.flatMap (·.columnsAsked u)) :=
  entry_applyAll (·.bagColumns.get? u) (fun _ d => d.columnsAsked u)
    (fun t d => t.bagColumns_apply d u) t ds

/-! ## Recording findings -/

/-- Trackers in which every entry is the same know the same. -/
theorem le_of_sameAt {t t' : Trackers} (h : ∀ u, SameAt u t t')
    (htrack : t'.trackKeys = t.trackKeys) : t'.Le t where
  mapKeys u s hs := ⟨s, (h u).1 ▸ hs, s.le_refl⟩
  bagColumns u s hs := ⟨s, (h u).2 ▸ hs, s.le_refl⟩
  trackKeys := htrack.symm

/-- A finding reports a change exactly when an entry is another one afterwards. -/
theorem apply_changed_iff (t : Trackers) (d : PartDemand) :
    (t.apply d).2 = true ↔ ∃ u, ¬SameAt u t (t.apply d).1 := by
  constructor
  · intro hchanged
    by_contra hsame
    push Not at hsame
    -- afterwards the finding is known, so with the same entries it was known before
    have hknown : t.Records d :=
      (t.records_apply d).mono (le_of_sameAt hsame (t.le_apply d).trackKeys)
    rw [Records, hchanged] at hknown
    cases hknown
  · rintro ⟨u, hu⟩
    by_contra hfalse
    rw [apply_of_records (Bool.eq_false_iff.mpr hfalse)] at hu
    exact hu ⟨rfl, rfl⟩

/-- What recording a finding does: it is reported whether an entry changed, entries
only grow, and those of other fields stay as they were. -/
structure Learns (t : Trackers) (d : PartDemand) (t' : Trackers) (changed : Bool) : Prop where
  changed_iff : changed = true ↔ ∃ u, ¬SameAt u t t'
  keys : ∀ u, Entry.Grows (t.mapKeys.get? u) (t'.mapKeys.get? u)
  columns : ∀ u, Entry.Grows (t.bagColumns.get? u) (t'.bagColumns.get? u)
  others : ∀ u, u ≠ d.uid → SameAt u t t'

theorem learns_apply (t : Trackers) (d : PartDemand) :
    t.Learns d (t.apply d).1 (t.apply d).2 where
  changed_iff := t.apply_changed_iff d
  keys u := by
    rw [mapKeys_apply]
    exact Entry.askAll_grows _ _
  columns u := by
    rw [bagColumns_apply]
    exact Entry.askAll_grows _ _
  others _ hu := sameAt_apply hu

theorem mapKeys_applyAll_untracked {t : Trackers} (h : t.trackKeys = false) (ds : List PartDemand) :
    (t.applyAll ds).mapKeys = t.mapKeys := by
  induction ds generalizing t with
  | nil => rfl
  | cons d ds ih =>
    show ((t.apply d).1.applyAll ds).mapKeys = _
    rw [ih ((t.le_apply d).trackKeys.trans h), mapKeys_apply_untracked h]

/-- Along a run of findings each one advances what is known, and says whether it
did. The entry of every field becomes what was asked of it, with its parts listed
once and in the order of the asking; those of maps stay as they are if keys are
not tracked. Another order of the findings leads to the same sets. -/
theorem applyAll_grows (t : Trackers) (ds : List PartDemand) :
    (∀ k d, ds[k]? = some d →
      t.applyAll (ds.take (k + 1)) = ((t.applyAll (ds.take k)).apply d).1 ∧
      (t.applyAll (ds.take k)).Learns d (t.applyAll (ds.take (k + 1)))
        ((t.applyAll (ds.take k)).apply d).2) ∧
    (∀ u, Entry.Collected (t.mapKeys.get? u) (ds.flatMap (·.keysAsked t.trackKeys u))
        ((t.applyAll ds).mapKeys.get? u) ∧
      Entry.Collected (t.bagColumns.get? u) (ds.flatMap (·.columnsAsked u))
        ((t.applyAll ds).bagColumns.get? u)) ∧
    (t.trackKeys = false → (t.applyAll ds).mapKeys = t.mapKeys) ∧
    (∀ ds', ds'.Perm ds → ∀ u,
      Entry.Alike ((t.applyAll ds').mapKeys.get? u) ((t.applyAll ds).mapKeys.get? u) ∧
      Entry.Alike ((t.applyAll ds').bagColumns.get? u)
        ((t.applyAll ds).bagColumns.get? u)) := by
  refine ⟨fun k d hd => ?_, fun u => ⟨?_, ?_⟩, fun h => mapKeys_applyAll_untracked h ds,
    fun ds' hperm u => ⟨?_, ?_⟩⟩
  · have hstep : t.applyAll (ds.take (k + 1)) = ((t.applyAll (ds.take k)).apply d).1 := by
      rw [applyAll, List.take_add_one, hd, Option.toList_some, List.foldl_concat]
      rfl
    rw [hstep]
    exact ⟨rfl, learns_apply _ d⟩
  · rw [mapKeys_applyAll]
    exact Entry.collected _ _
  · rw [bagColumns_applyAll]
    exact Entry.collected _ _
  · rw [mapKeys_applyAll, mapKeys_applyAll]
    exact Entry.askAll_perm (hperm.flatMap_right _) _
  · rw [bagColumns_applyAll, bagColumns_applyAll]
    exact Entry.askAll_perm (hperm.flatMap_right _) _

/-- Findings that ask for keys of one map, one of them twice, and for no column of
a bag. -/
def repeated : List PartDemand :=
  [.mapKey ⟨1⟩ "b", .mapKey ⟨1⟩ "a", .bagColumns ⟨2⟩ [], .mapKey ⟨1⟩ "a"]

/-- The key that is asked for again changes nothing, the keys are listed in the order
of the asking, and another order gives the same keys; without tracking there are
none. -/
theorem applyAll_grown :
    (repeated[3]? = some (.mapKey ⟨1⟩ "a") ∧
      ¬∃ u, ¬SameAt u ((empty true).applyAll (repeated.take 3))
        ((empty true).applyAll (repeated.take 4))) ∧
    (((empty true).applyAll repeated).mapKeys.get? ⟨1⟩ = some (.only ["b", "a"]) ∧
      ["b", "a"] = (Entry.allListed (repeated.flatMap (·.keysAsked true ⟨1⟩))).eraseDups) ∧
    ((empty false).trackKeys = false ∧ ((empty false).applyAll repeated).mapKeys = .empty) ∧
    (repeated.reverse.Perm repeated ∧
      Entry.Alike (((empty true).applyAll repeated.reverse).mapKeys.get? ⟨1⟩)
        (some (.only ["b", "a"]))) := by
  obtain ⟨hsteps, hentries, -, horder⟩ := applyAll_grows (empty true) repeated
  obtain ⟨-, -, huntracked, -⟩ := applyAll_grows (empty false) repeated
  have hkeys : ((empty true).applyAll repeated).mapKeys.get? ⟨1⟩ = some (.only ["b", "a"]) := by
    decide
  refine ⟨⟨rfl, ?_⟩, ⟨hkeys, ?_⟩, ⟨rfl, huntracked rfl⟩, ⟨List.reverse_perm _, ?_⟩⟩
  · rw [← (hsteps 3 _ rfl).2.changed_iff]
    decide
  · exact ((hentries ⟨1⟩).1.only _ hkeys .nil).2
  · rw [← hkeys]
    exact (horder _ (List.reverse_perm _) ⟨1⟩).1

end Trackers

end Dataflow
