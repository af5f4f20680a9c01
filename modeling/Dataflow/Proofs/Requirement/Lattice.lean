import Mathlib.Data.List.Basic
import Dataflow.Proofs.Requirement.Absorption

/-!
# Requirements as a lattice

The forms that operations produce (`Required.Proper`) are determined by what they
contain (`Required.Proper.ext`), since everything is more than any positions.
Under `merge` they form a join semilattice, and whether a merge says that it
changed something is exact (`Required.merge_changed_iff`).

All other operations are merges with what they add (`Required.apply_eq_merge`).
So a requirement that is collected by a sequence of operations is known from what
the operations add, in whatever order (`Required.applyAll_collects`).
-/

namespace Dataflow.Required

/-! ## Values -/

theorem ofPositions_proper (ps : List Nat) : (ofPositions ps).Proper := by
  unfold ofPositions
  split
  · trivial
  · rename_i hne
    exact ⟨Positions.ofList_ascending ps, hne⟩

theorem contains_ofPositions {ps : List Nat} {p : Nat} :
    (ofPositions ps).contains p = true ↔ p ∈ ps := by
  rw [← Positions.mem_ofList]
  unfold ofPositions
  split
  · rename_i h; rw [h]; simp [Required.contains]
  · exact mem_of_contains

/-- Some position is beyond all that are listed. -/
theorem exists_above (ps : List Nat) : ∃ n, ∀ p ∈ ps, p < n := by
  induction ps with
  | nil => exact ⟨0, nofun⟩
  | cons p ps ih =>
    obtain ⟨n, hn⟩ := ih
    refine ⟨max n (p + 1), fun q hq => ?_⟩
    rcases List.mem_cons.mp hq with rfl | hq
    · omega
    · have := hn q hq
      omega

theorem exists_not_mem (ps : List Nat) : ∃ p, p ∉ ps := by
  obtain ⟨n, hn⟩ := exists_above ps
  exact ⟨n, fun h => absurd (hn n h) (Nat.lt_irrefl n)⟩

/-- A requirement is known by what it contains. -/
theorem Proper.ext {r r' : Required} (h : r.Proper) (h' : r'.Proper)
    (hc : ∀ p, r.contains p = true ↔ r'.contains p = true) : r = r' := by
  cases r with
  | none =>
    cases r' with
    | none => rfl
    | all => cases (hc 0).mpr rfl
    | positions qs =>
      obtain ⟨q, hq⟩ := List.exists_mem_of_ne_nil qs h'.2
      cases (hc q).mpr (mem_of_contains.mpr hq)
  | positions ps =>
    cases r' with
    | none =>
      obtain ⟨p, hp⟩ := List.exists_mem_of_ne_nil ps h.2
      cases (hc p).mp (mem_of_contains.mpr hp)
    | all =>
      obtain ⟨p, hp⟩ := exists_not_mem ps
      exact absurd (mem_of_contains.mp ((hc p).mpr rfl)) hp
    | positions qs =>
      rw [Positions.ext_ascending h.1 h'.1 fun x => by simpa using hc x]
  | all =>
    cases r' with
    | none => cases (hc 0).mp rfl
    | all => rfl
    | positions qs =>
      obtain ⟨q, hq⟩ := exists_not_mem qs
      exact absurd (mem_of_contains.mp ((hc q).mp rfl)) hq

/-! ## Merging -/

theorem insertAll_eq_all {r : Required} {ps : List Nat} : (r.insertAll ps).1 = .all ↔ r = .all := by
  induction ps generalizing r with
  | nil => exact Iff.rfl
  | cons p ps ih =>
    refine Iff.trans (ih (r := (r.insert p).1)) ?_
    cases r <;> simp [insert]

theorem merge_eq_all {r d : Required} : (r.merge d).1 = .all ↔ r = .all ∨ d = .all := by
  cases d with
  | none => simp [merge]
  | all => simp [merge, setAll]
  | positions ps => simpa [merge] using insertAll_eq_all

theorem merge_self {r : Required} (h : r.Proper) : (r.merge r).1 = r :=
  congrArg Prod.fst (merge_eq_of_covers h (covers_refl r))

theorem merge_comm {a b : Required} (ha : a.Proper) (hb : b.Proper) :
    (a.merge b).1 = (b.merge a).1 :=
  (merge_proper ha b).ext (merge_proper hb a) fun p => by
    rw [contains_merge, contains_merge, or_comm]

theorem merge_assoc {a b c : Required} (ha : a.Proper) :
    ((a.merge b).1.merge c).1 = (a.merge (b.merge c).1).1 :=
  (merge_proper (merge_proper ha b) c).ext (merge_proper ha _) fun p => by
    rw [contains_merge, contains_merge, contains_merge, contains_merge, or_assoc]

/-- A merge says that it changed something exactly when it did. -/
theorem merge_changed_iff {r d : Required} (h : r.Proper) :
    (r.merge d).2 = true ↔ (r.merge d).1 ≠ r := by
  rw [← Bool.not_eq_false, not_iff_not]
  constructor
  · intro hfalse
    rw [merge_eq_of_covers h (covers_of_merge_false hfalse)]
  · intro hsame
    have hcovers := merge_covers_right r d
    rw [hsame] at hcovers
    rw [merge_eq_of_covers h hcovers]

/-! ## Resolving -/

theorem resolve_ok {r : Required} {n : Nat} {ps : List Nat} (hr : r.Ascending)
    (h : r.resolve n = .ok ps) :
    ps.Pairwise (· < ·) ∧ ∀ p, p ∈ ps ↔ p < n ∧ r.contains p = true := by
  cases r with
  | none => cases h; exact ⟨.nil, fun p => by simp [Required.contains]⟩
  | all => cases h; exact ⟨List.pairwise_lt_range, fun p => by simp [Required.contains]⟩
  | positions qs =>
    simp only [resolve] at h
    split at h
    · cases h
    · rename_i hnone
      cases h
      refine ⟨hr, fun p => ?_⟩
      rw [mem_of_contains]
      refine ⟨fun hp => ⟨?_, hp⟩, And.right⟩
      simpa using List.find?_eq_none.mp hnone p hp

theorem exists_resolve {r : Required} {n : Nat} (h : r.Below n) : ∃ ps, r.resolve n = .ok ps := by
  cases r with
  | none => exact ⟨_, rfl⟩
  | all => exact ⟨_, rfl⟩
  | positions ps =>
    refine ⟨ps, ?_⟩
    have hnone : (ps.find? fun p => n ≤ p) = Option.none :=
      List.find?_eq_none.mpr fun p hp => by simpa using h p hp
    simp only [resolve, hnone]

/-- Among fields that bound its positions a requirement stands for those that it
contains. -/
theorem resolve_eq_filter {r : Required} {n : Nat} (hr : r.Proper) (h : r.Below n) :
    r.resolve n = .ok ((List.range n).filter r.contains) := by
  obtain ⟨ps, hps⟩ := exists_resolve h
  obtain ⟨hasc, hmem⟩ := resolve_ok hr.ascending hps
  rw [hps, Positions.ext_ascending hasc (List.pairwise_lt_range.filter _) fun p => ?_]
  rw [hmem, List.mem_filter, List.mem_range]

theorem resolve_fails_iff {r : Required} {n : Nat} : (∃ e, r.resolve n = .error e) ↔
    ∃ ps p, r = .positions ps ∧ p ∈ ps ∧ n ≤ p := by
  cases r with
  | none => exact ⟨nofun, nofun⟩
  | all => exact ⟨nofun, nofun⟩
  | positions ps =>
    constructor
    · rintro ⟨e, he⟩
      simp only [resolve] at he
      split at he
      · rename_i p hp
        exact ⟨ps, p, rfl, List.mem_of_find?_eq_some hp, by simpa using List.find?_some hp⟩
      · cases he
    · rintro ⟨ps', p, hps, hp, hle⟩
      cases hps
      simp only [resolve]
      cases hfind : ps.find? fun p => n ≤ p with
      | none => exact absurd hle (by simpa using List.find?_eq_none.mp hfind p hp)
      | some q => exact ⟨_, rfl⟩

/-! ## Sequences of operations -/

/-- An operation that adds to a requirement. -/
inductive Update
  | insert (p : Nat)
  | setAll
  | merge (other : Required)

inductive Built : Required → Prop
  | none : Built .none
  | all : Built .all
  | ofPositions (ps : List Nat) : Built (ofPositions ps)
  | insert {r : Required} (h : Built r) (p : Nat) : Built (r.insert p).1
  | setAll {r : Required} (h : Built r) : Built r.setAll.1
  | merge {r other : Required} (h : Built r) (hother : Built other) : Built (r.merge other).1

/-- What is merged was built in the same way. -/
def Update.Built : Update → Prop
  | .merge other => other.Built
  | _ => True

def Update.added : Update → Required
  | .insert p => ofPositions [p]
  | .setAll => .all
  | .merge other => other

/-- The requirement after an operation, and whether that says that it changed
anything. -/
def apply (r : Required) : Update → Required × Bool
  | .insert p => r.insert p
  | .setAll => r.setAll
  | .merge other => r.merge other

def applyAll (r : Required) (us : List Update) : Required :=
  us.foldl (fun r u => (r.apply u).1) r

theorem Built.proper {r : Required} (h : r.Built) : r.Proper := by
  induction h with
  | none => trivial
  | all => trivial
  | ofPositions ps => exact ofPositions_proper ps
  | insert _ p ih => exact insert_proper ih p
  | setAll _ _ => trivial
  | merge _ _ ih _ => exact merge_proper ih _

/-- Every operation is a merge with what it adds. -/
theorem apply_eq_merge (r : Required) (u : Update) : r.apply u = r.merge u.added := by
  cases u with
  | insert p => exact Prod.ext rfl (Bool.or_false _).symm
  | setAll => rfl
  | merge other => rfl

theorem Built.apply {r : Required} (h : r.Built) {u : Update} (hu : u.Built) :
    (r.apply u).1.Built := by
  cases u with
  | insert p => exact h.insert p
  | setAll => exact h.setAll
  | merge other => exact h.merge hu

theorem Built.applyAll {r : Required} (h : r.Built) {us : List Update} (hus : ∀ u ∈ us, u.Built) :
    (r.applyAll us).Built := by
  induction us generalizing r with
  | nil => exact h
  | cons u us ih =>
    exact ih (h.apply (hus u (List.mem_cons_self ..))) fun v hv => hus v (List.mem_cons_of_mem _ hv)

theorem contains_applyAll {r : Required} {us : List Update} {p : Nat} :
    (r.applyAll us).contains p = true ↔
      r.contains p = true ∨ ∃ u ∈ us, u.added.contains p = true := by
  induction us generalizing r with
  | nil => simp [applyAll]
  | cons u us ih =>
    show ((r.apply u).1.applyAll us).contains p = true ↔ _
    rw [ih, apply_eq_merge, contains_merge, List.exists_mem_cons_iff, or_assoc]

theorem applyAll_eq_all {r : Required} {us : List Update} :
    r.applyAll us = .all ↔ r = .all ∨ ∃ u ∈ us, u.added = .all := by
  induction us generalizing r with
  | nil => simp [applyAll]
  | cons u us ih =>
    show (r.apply u).1.applyAll us = .all ↔ _
    rw [ih, apply_eq_merge, merge_eq_all, List.exists_mem_cons_iff, or_assoc]

/-- A requirement that is built up by operations never lists no positions, and
every operation says whether it changed it. What it contains and stands for is
what the operations added, in any order; it stands for nothing exactly among
fewer fields than it lists. Merging is idempotent, commutative and
associative. -/
theorem applyAll_collects {r : Required} (hr : r.Built) {us : List Update}
    (hus : ∀ u ∈ us, u.Built) :
    (∀ k, r.applyAll (us.take k) ≠ .positions [] ∧ ∀ u, us[k]? = some u →
      r.applyAll (us.take (k + 1)) = ((r.applyAll (us.take k)).apply u).1 ∧
      (((r.applyAll (us.take k)).apply u).2 = true ↔
        r.applyAll (us.take (k + 1)) ≠ r.applyAll (us.take k))) ∧
    (∀ p, (r.applyAll us).contains p = true ↔
      r.contains p = true ∨ ∃ u ∈ us, u.added.contains p = true) ∧
    (r.applyAll us = .all ↔ r = .all ∨ ∃ u ∈ us, u.added = .all) ∧
    (∀ n, (r.applyAll us).Below n → (r.applyAll us).resolve n =
      .ok ((List.range n).filter fun p => r.contains p || us.any fun u => u.added.contains p)) ∧
    (∀ n, (∃ e, (r.applyAll us).resolve n = .error e) ↔
      ∃ ps p, r.applyAll us = .positions ps ∧ p ∈ ps ∧ n ≤ p) ∧
    (∀ us', us'.Perm us → r.applyAll us' = r.applyAll us) ∧
    (∀ a b c : Required, a.Built → b.Built → c.Built → (a.merge a).1 = a ∧
      (a.merge b).1 = (b.merge a).1 ∧
      ((a.merge b).1.merge c).1 = (a.merge (b.merge c).1).1) := by
  have hproper := (hr.applyAll hus).proper
  have htake (k : Nat) : (r.applyAll (us.take k)).Proper :=
    (hr.applyAll fun u hu => hus u (List.mem_of_mem_take hu)).proper
  refine ⟨fun k => ⟨fun hnil => ?_, fun u hu => ?_⟩, fun p => contains_applyAll, applyAll_eq_all,
    fun n hn => ?_, fun n => resolve_fails_iff, fun us' hperm => ?_, fun a b c ha hb hc => ?_⟩
  · have hk := htake k
    rw [hnil] at hk
    exact hk.2 rfl
  · have hstep : r.applyAll (us.take (k + 1)) = ((r.applyAll (us.take k)).apply u).1 := by
      rw [applyAll, List.take_add_one, hu, Option.toList_some, List.foldl_concat]
      rfl
    rw [hstep, apply_eq_merge]
    exact ⟨rfl, merge_changed_iff (htake k)⟩
  · rw [resolve_eq_filter hproper hn]
    refine congrArg Except.ok (List.filter_congr fun p _ => ?_)
    rw [Bool.eq_iff_iff, contains_applyAll, Bool.or_eq_true, List.any_eq_true]
  · have hus' : ∀ u ∈ us', u.Built := fun u hu => hus u (hperm.mem_iff.mp hu)
    refine (hr.applyAll hus').proper.ext hproper fun p => ?_
    rw [contains_applyAll, contains_applyAll]
    simp only [hperm.mem_iff]
  · exact ⟨merge_self ha.proper, merge_comm ha.proper hb.proper, merge_assoc ha.proper⟩

/-- Listed positions to which a merged requirement, a position and nothing are added,
in any order. -/
theorem applyAll_collected :
    (Built (ofPositions [7, 2]) ∧ ∀ u ∈ [.merge ((ofPositions [2, 0]).merge .none).1, .insert 5,
      .merge (ofPositions [])], Update.Built u) ∧
    ∀ us', us'.Perm [.merge ((ofPositions [2, 0]).merge .none).1, .insert 5,
        .merge (ofPositions [])] →
      ((ofPositions [7, 2]).applyAll us').resolve 8 = .ok [0, 2, 5, 7] := by
  have hus : ∀ u ∈ [.merge ((ofPositions [2, 0]).merge .none).1, .insert 5,
      .merge (ofPositions [])], Update.Built u := by
    simp [Update.Built, Built.ofPositions, Built.merge, Built.none]
  refine ⟨⟨.ofPositions _, hus⟩, fun us' hperm => ?_⟩
  obtain ⟨-, -, -, -, -, horder, -⟩ := applyAll_collects (.ofPositions [7, 2]) hus
  rw [horder us' hperm]
  rfl

end Dataflow.Required
