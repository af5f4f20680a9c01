import Dataflow.Requirement.Room
import Dataflow.Requirement.Rules
import Dataflow.Traverse

/-!
# What demands are about

A demand on an input is about the fields of that input. The positions that it
needs are below its width, the identities that it names stand in its schema at
some depth, and a single key is only ever asked of a field that is a map. There
are two sources of keys: the expressions of the operator, and what is known about
the output of a union.

`Demand.About` says so of one demand, with the keys that may be asked as a
parameter; each rule has one lemma, and `Demand.ofOperator_about` puts them
together. What a larger scope contains and which fields have keys asked of them
both follow from it, without another look at the rules.
-/

namespace Dataflow

variable {keys : String → Prop}

def Expr.lookupKeys (e : Expr) : List String :=
  e.reads.accesses.filterMap fun
    | (_, .key k) => some k
    | _ => none

/-! ## Identities in a schema -/

theorem Schema.deepUids_of_mem {f : Field} {s : Schema} (hf : f ∈ s) {u : Uid}
    (hu : u ∈ f.deepUids) : u ∈ Schema.deepUids s := by
  induction s with
  | nil => cases hf
  | cons g gs ih =>
    simp only [Schema.deepUids, List.mem_append]
    rcases List.mem_cons.mp hf with rfl | hf'
    · exact Or.inl hu
    · exact Or.inr (ih hf')

theorem Field.uid_mem_deepUids (f : Field) : f.uid ∈ f.deepUids := by
  obtain ⟨_, t, u⟩ := f
  cases t <;> simp [Field.deepUids]

theorem Schema.uid_mem_deepUids {f : Field} {s : Schema} (hf : f ∈ s) :
    f.uid ∈ Schema.deepUids s :=
  Schema.deepUids_of_mem hf f.uid_mem_deepUids

theorem Field.inner_deepUids {f : Field} {inner : Schema} (h : f.type.inner? = some inner)
    {u : Uid} (hu : u ∈ Schema.deepUids inner) : u ∈ f.deepUids := by
  obtain ⟨_, t, _⟩ := f
  cases t <;> simp only [DataType.inner?, reduceCtorEq, Option.some.injEq] at h <;> subst h <;>
    simp [Field.deepUids, hu]

/-! ## Findings -/

/-- A finding about the fields of a schema, at every depth. A single key is one
of the given keys, and asked of a map among the fields. -/
def PartDemand.About (keys : String → Prop) (s : Schema) : PartDemand → Prop
  | .mapKey u k => (∃ f ∈ s, f.uid = u ∧ f.type.isMap = true) ∧ keys k
  | .allKeys u => u ∈ Schema.deepUids s
  | .bagColumns u cs => u ∈ Schema.deepUids s ∧ ∀ x ∈ cs, x ∈ Schema.deepUids s
  | .allColumns u => u ∈ Schema.deepUids s

mutual

theorem Field.wholeDemands_about {s : Schema} : ∀ f : Field,
    (∀ u ∈ f.deepUids, u ∈ Schema.deepUids s) → ∀ d ∈ f.wholeDemands, d.About keys s
  | ⟨_, .scalar _, _⟩, _ => fun _ hd => by simp [Field.wholeDemands] at hd
  | ⟨_, .map _, u⟩, h => fun d hd => by
    simp only [Field.wholeDemands, List.mem_singleton] at hd
    subst hd
    exact h u (by simp [Field.deepUids])
  | ⟨_, .bag inner, u⟩, h => fun d hd => by
    simp only [Field.wholeDemands, List.mem_cons] at hd
    rcases hd with rfl | hd
    · exact h u (by simp [Field.deepUids])
    · exact Schema.wholeDemands_about inner
        (fun v hv => h v (by simp [Field.deepUids, hv])) d hd
  | ⟨_, .tuple inner, u⟩, h => fun d hd => by
    simp only [Field.wholeDemands, List.mem_cons] at hd
    rcases hd with rfl | hd
    · exact h u (by simp [Field.deepUids])
    · exact Schema.wholeDemands_about inner
        (fun v hv => h v (by simp [Field.deepUids, hv])) d hd

theorem Schema.wholeDemands_about {s : Schema} : ∀ fs : List Field,
    (∀ u ∈ Schema.deepUids fs, u ∈ Schema.deepUids s) →
      ∀ d ∈ Schema.wholeDemands fs, d.About keys s
  | [], _ => fun _ hd => by simp [Schema.wholeDemands] at hd
  | f :: fs, h => fun d hd => by
    simp only [Schema.wholeDemands, List.mem_append] at hd
    rcases hd with hd | hd
    · exact Field.wholeDemands_about f (fun u hu => h u (by simp [Schema.deepUids, hu])) d hd
    · exact Schema.wholeDemands_about fs (fun u hu => h u (by simp [Schema.deepUids, hu])) d hd

end

theorem Field.whole_about {s : Schema} {f : Field} (hf : f ∈ s) :
    ∀ d ∈ f.wholeDemands, d.About keys s :=
  Field.wholeDemands_about f fun _ hu => Schema.deepUids_of_mem hf hu

theorem Field.forward_about {s : Schema} {f : Field} (hf : f ∈ s) :
    ∀ d ∈ f.forwardDemands, d.About keys s := by
  intro d hd
  unfold Field.forwardDemands at hd
  split at hd <;> simp only [List.not_mem_nil, List.mem_singleton] at hd <;> subst hd <;>
    exact Schema.uid_mem_deepUids hf

/-! ## Positions -/

namespace Required

theorem insert_below {r : Required} {p n : Nat} (hr : r.Below n) (hp : p < n) :
    (r.insert p).1.Below n := by
  cases r with
  | all => trivial
  | none => intro q hq; rwa [List.mem_singleton.mp hq]
  | positions ps =>
    intro q hq
    rcases Positions.mem_insert.mp hq with rfl | h
    · exact hp
    · exact hr q h

theorem insertAll_below {ps : List Nat} {n : Nat} (hps : ∀ p ∈ ps, p < n) {r : Required}
    (hr : r.Below n) : (r.insertAll ps).1.Below n := by
  induction ps generalizing r with
  | nil => exact hr
  | cons p ps ih =>
    exact ih (fun q hq => hps q (List.mem_cons_of_mem _ hq))
      (insert_below hr (hps p (List.mem_cons_self ..)))

theorem merge_below {r other : Required} {n : Nat} (hr : r.Below n) (ho : other.Below n) :
    (r.merge other).1.Below n := by
  cases other with
  | none => exact hr
  | all => trivial
  | positions ps => exact insertAll_below ho hr

end Required

/-! ## Rules -/

/-- The keys that are listed of some field are among the given keys. -/
def Trackers.Lists (keys : String → Prop) (t : Trackers) : Prop :=
  ∀ u ks, t.mapKeys.get? u = some (.only ks) → ∀ k ∈ ks, keys k

/-- A demand that is about the fields of a schema. -/
structure Demand.About (keys : String → Prop) (s : Schema) (d : Demand) : Prop where
  fields : d.fields.Below s.length
  parts : ∀ x ∈ d.parts, x.About keys s

namespace Demand

variable {s : Schema}

theorem about_empty : empty.About keys s := ⟨trivial, fun _ h => by cases h⟩

theorem about_allPositions : allPositions.About keys s := ⟨trivial, fun _ h => by cases h⟩

theorem about_readAll : (readAll s).About keys s :=
  ⟨trivial, Schema.wholeDemands_about s fun _ hu => hu⟩

theorem about_append {a b : Demand} (ha : a.About keys s) (hb : b.About keys s) :
    (a ++ b).About keys s where
  fields := Required.merge_below ha.fields hb.fields
  parts x hx := (List.mem_append.mp hx).elim (ha.parts x) (hb.parts x)

theorem about_foldl {ds : List Demand} (hds : ∀ d ∈ ds, d.About keys s) {a : Demand}
    (ha : a.About keys s) : (ds.foldl append a).About keys s := by
  induction ds generalizing a with
  | nil => exact ha
  | cons d ds ih =>
    exact ih (fun x hx => hds x (List.mem_cons_of_mem _ hx))
      (about_append ha (hds d (List.mem_cons_self ..)))

theorem about_collect {α : Type} {causes : List α} {demand : α → Except Error Demand}
    (h : ∀ x ∈ causes, ∀ d, demand x = .ok d → d.About keys s) {d : Demand}
    (hd : collect causes demand = .ok d) : d.About keys s := by
  obtain ⟨ds, hds, hd⟩ := bind_ok hd
  cases hd
  refine about_foldl (fun x hx => ?_) about_empty
  obtain ⟨a, ha, hx⟩ := mem_of_mapM_ok hds hx
  exact h a ha x hx

/-- Two demands on one input, one after the other. -/
theorem about_both {a b : Except Error Demand} {d : Demand}
    (hd : (do return (← a) ++ (← b) : Except Error Demand) = .ok d)
    (ha : ∀ x, a = .ok x → x.About keys s) (hb : ∀ x, b = .ok x → x.About keys s) :
    d.About keys s := by
  obtain ⟨x, hx, hd⟩ := bind_ok hd
  obtain ⟨y, hy, hd⟩ := bind_ok hd
  cases hd
  exact about_append (ha x hx) (hb y hy)

theorem field_ok {p : Nat} {f : Field} (h : field s p = .ok f) : p < s.length ∧ f ∈ s := by
  unfold field Schema.fieldAt at h
  cases hp : s[p]? with
  | none => rw [hp] at h; cases h
  | some g =>
    rw [hp] at h
    cases h
    exact ⟨(List.getElem?_eq_some_iff.mp hp).1, List.mem_of_getElem? hp⟩

theorem about_onField {p : Nat} {parts : Field → List PartDemand}
    (hparts : ∀ f ∈ s, ∀ x ∈ parts f, x.About keys s) {d : Demand}
    (hd : onField s p parts = .ok d) : d.About keys s := by
  obtain ⟨f, hf, hd⟩ := bind_ok hd
  cases hd
  obtain ⟨hp, hmem⟩ := field_ok hf
  exact ⟨fun q hq => by rwa [List.mem_singleton.mp hq], hparts f hmem⟩

theorem about_require {p : Nat} {d : Demand} (hd : require s p = .ok d) : d.About keys s :=
  about_onField (fun _ _ _ hx => by cases hx) hd

theorem readColumns_about {f : Field} (hf : f ∈ s) {columns : List Nat} {parts : List PartDemand}
    (h : readColumns f columns = .ok parts) : ∀ x ∈ parts, x.About keys s := by
  unfold readColumns at h
  split at h
  · cases h
    exact Field.whole_about hf
  · rename_i inner hinner
    obtain ⟨fs, hfs, h⟩ := bind_ok h
    cases h
    have hin : ∀ g ∈ fs, ∀ u ∈ g.deepUids, u ∈ Schema.deepUids s := fun g hg u hu => by
      obtain ⟨_, _, hp⟩ := mem_of_mapM_ok hfs hg
      exact Schema.deepUids_of_mem hf
        (Field.inner_deepUids hinner (Schema.deepUids_of_mem (field_ok hp).2 hu))
    intro x hx
    rcases List.mem_append.mp hx with hx | hx
    · obtain ⟨g, hg, hx⟩ := List.mem_flatMap.mp hx
      exact Field.wholeDemands_about g (hin g hg) x hx
    · rw [List.mem_singleton.mp hx]
      refine ⟨Schema.uid_mem_deepUids hf, fun u hu => ?_⟩
      obtain ⟨g, hg, rfl⟩ := List.mem_map.mp hu
      exact hin g hg _ g.uid_mem_deepUids

/-- A key is looked up in a map. -/
theorem about_access {p : Nat} {a : Access} (ha : ∀ k, a = .key k → keys k) {d : Demand}
    (hd : access s p a = .ok d) : d.About keys s := by
  cases a with
  | whole => exact about_onField (fun _ hf => Field.whole_about hf) hd
  | key k =>
    refine about_onField (fun f hf x hx => ?_) hd
    split at hx
    · rename_i hmap
      rw [List.mem_singleton.mp hx]
      exact ⟨⟨f, hf, rfl, hmap⟩, ha k rfl⟩
    · exact Field.whole_about hf x hx
  | columns cs =>
    obtain ⟨f, hf, hd⟩ := bind_ok hd
    obtain ⟨parts, hparts, hd⟩ := bind_ok hd
    cases hd
    obtain ⟨hp, hmem⟩ := field_ok hf
    exact ⟨fun q hq => by rwa [List.mem_singleton.mp hq], readColumns_about hmem hparts⟩

/-- Every key that is read is one of the given keys. -/
def KeysIn (keys : String → Prop) (r : Reads) : Prop :=
  ∀ p k, (p, Access.key k) ∈ r.accesses → keys k

theorem keysIn_toWhole (r : Reads) : KeysIn keys r.toWhole := by
  intro p k h
  obtain ⟨_, _, ha⟩ := List.mem_map.mp h
  cases ha

theorem keysIn_of_lookups {e : Expr} (h : ∀ k ∈ e.lookupKeys, keys k) : KeysIn keys e.reads :=
  fun _ k hk => h k (List.mem_filterMap.mpr ⟨_, hk, rfl⟩)

theorem about_ofReads {r : Reads} (hr : KeysIn keys r) {d : Demand} (hd : ofReads s r = .ok d) :
    d.About keys s := by
  unfold ofReads at hd
  split at hd
  · cases hd
    exact about_readAll
  · exact about_collect (fun a ha d hd =>
      about_access (fun k hk => hr a.1 k (by rw [← hk]; exact ha)) hd) hd

theorem about_ofKeys {es : List Expr} {d : Demand} (hd : ofKeys s es = .ok d) : d.About keys s :=
  about_collect (fun _ _ _ h => about_ofReads (keysIn_toWhole _) h) hd

theorem about_ofRange {required : List Nat} {start : Nat} {d : Demand}
    (hd : ofRange s required start = .ok d) : d.About keys s :=
  about_collect (fun _ _ _ h => about_require h) hd

theorem about_ofItem {required : List Nat} {item : Item} {range : Nat × Nat}
    (hkeys : ∀ k ∈ item.expr.lookupKeys, keys k) {d : Demand}
    (hd : ofItem s required item range = .ok d) : d.About keys s := by
  unfold ofItem at hd
  split at hd
  · cases hd; exact about_empty
  split at hd
  · cases hd; exact about_allPositions
  split at hd
  · cases hd; exact about_readAll
  split at hd
  · refine about_onField (fun f hf x hx => ?_) hd
    split at hx
    · exact Field.forward_about hf x hx
    · cases hx
  · refine about_ofReads ?_ hd
    split
    · exact keysIn_toWhole _
    · exact keysIn_of_lookups hkeys

theorem about_ofBag {entry : Option (KeySet Uid)} {d : Demand} (hd : ofBag s entry = .ok d) :
    d.About keys s := by
  unfold ofBag at hd
  split at hd
  · refine about_collect (fun u _ d hd => ?_) hd
    split at hd
    · exact about_require hd
    · cases hd; exact about_allPositions
  · cases hd; exact about_allPositions

theorem about_ofGroup {name : String} {trackers : Trackers} {g : CoGroup} {required : List Nat}
    {es : List Expr} {input : Nat} {d : Demand}
    (hd : ofGroup name trackers g required s es input = .ok d) : d.About keys s := by
  obtain ⟨ks, hks, hd⟩ := bind_ok hd
  have hw : ks.About keys s := about_ofKeys hks
  split at hd
  · cases hd; exact hw
  split at hd
  · cases hd
  · obtain ⟨b, hb, hd⟩ := bind_ok hd
    cases hd
    exact about_append hw (about_ofBag hb)

/-- A union passes keys on to maps, whatever its output is. -/
theorem unionField_about {trackers : Trackers} (ht : trackers.Lists keys) {output input : Field}
    (hf : input ∈ s) : ∀ x ∈ ofUnionField trackers output input, x.About keys s := by
  intro x hx
  unfold ofUnionField at hx
  split at hx
  · rename_i hmap
    split at hx
    · rename_i ks hget
      obtain ⟨k, hk, rfl⟩ := List.mem_map.mp hx
      exact ⟨⟨input, hf, rfl, hmap⟩, ht _ _ hget k hk⟩
    · rw [List.mem_singleton.mp hx]
      exact Schema.uid_mem_deepUids hf
  · exact Field.whole_about hf x hx

theorem about_ofMapping {name : String} {trackers : Trackers} (ht : trackers.Lists keys)
    {u : Union} {required : List Nat} {mapping : List (Option Nat)} {d : Demand}
    (hd : ofMapping name trackers u required s mapping = .ok d) : d.About keys s := by
  refine about_collect (fun p _ d hd => ?_) hd
  split at hd
  · cases hd
  split at hd
  · exact about_onField (fun f hf => unionField_about ht hf) hd
  · cases hd; exact about_readAll

/-! ## Operators -/

/-- Each demand is about the schema at its place. -/
def AllAbout (keys : String → Prop) (inputs : List Schema) (ds : List Demand) : Prop :=
  ∀ (i : Nat) (d : Demand), ds[i]? = some d → ∃ s, inputs[i]? = some s ∧ d.About keys s

theorem allAbout_map {inputs : List Schema} {f : Schema → Demand}
    (h : ∀ s, (f s).About keys s) : AllAbout keys inputs (inputs.map f) := by
  intro i d hd
  rw [List.getElem?_map] at hd
  obtain ⟨s, hs, rfl⟩ := Option.map_eq_some_iff.mp hd
  exact ⟨s, hs, h s⟩

theorem allAbout_onFirst {name : String} {inputs : List Schema}
    {demand : Schema → Except Error Demand} (h : ∀ s d, demand s = .ok d → d.About keys s)
    {ds : List Demand} (hds : onFirst name inputs demand = .ok ds) : AllAbout keys inputs ds := by
  unfold onFirst at hds
  split at hds
  · cases hds
  · obtain ⟨d, hd, hds⟩ := bind_ok hds
    cases hds
    intro i x hx
    cases i with
    | zero =>
      cases hx
      exact ⟨_, rfl, h _ _ hd⟩
    | succ i =>
      simp only [List.getElem?_cons_succ, List.getElem?_map] at hx
      obtain ⟨s, hs, rfl⟩ := Option.map_eq_some_iff.mp hx
      exact ⟨s, by simpa using hs, about_empty⟩

theorem offsets_getElem? {inputs : List Schema} {start i : Nat} {x : Schema × Nat}
    (h : (offsets start inputs)[i]? = some x) : inputs[i]? = some x.1 := by
  induction inputs generalizing start i with
  | nil => cases h
  | cons s rest ih =>
    cases i with
    | zero => cases h; rfl
    | succ i => exact ih h

theorem zipIdx_getElem? {α : Type} {xs : List α} {i : Nat} {x : α × Nat}
    (h : xs.zipIdx[i]? = some x) : xs[i]? = some x.1 ∧ x.2 = i := by
  rw [List.getElem?_zipIdx] at h
  obtain ⟨a, ha, rfl⟩ := Option.map_eq_some_iff.mp h
  exact ⟨ha, by simp⟩

/-- The demands of an operator are about its inputs, and ask for keys that its
expressions look up or that are listed already. -/
theorem ofOperator_about {name : String} {trackers : Trackers} {op : Operator}
    {inputs : List Schema} {required : List Nat} {ds : List Demand}
    (hkeys : ∀ e ∈ op.expressions, ∀ k ∈ e.2.lookupKeys, keys k) (ht : trackers.Lists keys)
    (hds : ofOperator name trackers op inputs required = .ok ds) : AllAbout keys inputs ds := by
  cases op with
  | load l => cases hds; exact allAbout_map fun _ => about_empty
  | store _ => cases hds; exact allAbout_map fun _ => about_readAll
  | distinct => cases hds; exact allAbout_map fun _ => about_readAll
  | stream _ _ => cases hds; exact allAbout_map fun _ => about_readAll
  | filter p =>
    refine allAbout_onFirst (fun s d hd =>
      about_both hd (fun _ => about_ofRange) fun _ hx => ?_) hds
    exact about_ofReads (keysIn_of_lookups (hkeys (0, p) (List.mem_singleton.mpr rfl))) hx
  | limit n => exact allAbout_onFirst (fun _ _ hd => about_ofRange hd) hds
  | orderBy o =>
    exact allAbout_onFirst (fun s d hd =>
      about_both hd (fun _ => about_ofRange) fun _ => about_ofKeys) hds
  | split ps =>
    refine allAbout_onFirst (fun s d hd => about_both hd (fun _ => about_ofRange)
      fun _ hx => about_collect (fun p hp d hd => ?_) hx) hds
    exact about_ofReads (keysIn_of_lookups (hkeys (0, p) (List.mem_map.mpr ⟨p, hp, rfl⟩))) hd
  | forEach items =>
    refine allAbout_onFirst (fun s d hd => ?_) hds
    obtain ⟨ranges, _, hd⟩ := bind_ok hd
    refine about_collect (fun x hx d hd => about_ofItem ?_ hd) hd
    exact hkeys (0, x.1.expr) (List.mem_map.mpr ⟨x.1, (List.of_mem_zip hx).1, rfl⟩)
  | cross =>
    intro i d hd
    obtain ⟨x, hx, hf⟩ := getElem?_of_mapM_ok hds hd
    exact ⟨x.1, offsets_getElem? hx, about_ofRange hf⟩
  | join j =>
    intro i d hd
    obtain ⟨x, hx, hf⟩ := getElem?_of_mapM_ok hds hd
    exact ⟨x.1.1, offsets_getElem? (zipIdx_getElem? hx).1,
      about_both hf (fun _ => about_ofRange) fun _ => about_ofKeys⟩
  | cogroup g =>
    intro i d hd
    obtain ⟨x, hx, hf⟩ := getElem?_of_mapM_ok hds hd
    refine ⟨x.1, (zipIdx_getElem? hx).1, ?_⟩
    simp only at hf
    split at hf
    · cases hf; exact about_empty
    · exact about_ofGroup hf
  | union u =>
    intro i d hd
    obtain ⟨x, hx, hf⟩ := getElem?_of_mapM_ok hds hd
    refine ⟨x.1, (zipIdx_getElem? hx).1, ?_⟩
    simp only at hf
    split at hf
    · cases hf; exact about_empty
    · exact about_ofMapping ht hf

end Demand

end Dataflow
