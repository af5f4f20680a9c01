import Dataflow.Proofs.Narrowing.Types

/-!
# Where identities come from

The identities in a natural output are of three kinds: those of the inputs, those
that the operator makes (`Operator.created`), and those that it was given with the
types and schemas it carries (`Operator.given`). There are no others
(`Operator.natural_identities`).

A type is searched at every depth, also where it is the type of a map's values: a
look-up makes a field of it, and whatever it holds comes to the surface.
-/

namespace Dataflow

open List (Forall₂)

/-! ## Identities in types -/

mutual

/-- The identities in a type, at every depth. -/
def DataType.identities : DataType → List Uid
  | .scalar _ => []
  | .map value => value.identities
  | .tuple inner => Schema.identities inner
  | .bag inner => Schema.identities inner

def Field.identities : Field → List Uid
  | ⟨_, type, u⟩ => u :: type.identities

def Schema.identities : List Field → List Uid
  | [] => []
  | f :: fs => f.identities ++ Schema.identities fs

end

theorem Field.mem_identities {f : Field} {u : Uid} :
    u ∈ f.identities ↔ u = f.uid ∨ u ∈ f.type.identities := by
  cases f
  rw [Field.identities]
  exact List.mem_cons

theorem Schema.mem_identities {s : List Field} {u : Uid} :
    u ∈ Schema.identities s ↔ ∃ f ∈ s, u ∈ f.identities := by
  induction s with
  | nil => simp [Schema.identities]
  | cons f fs ih => simp [Schema.identities, ih]

theorem Schema.identities_of_mem {s : Schema} {f : Field} (hf : f ∈ s) {u : Uid}
    (hu : u ∈ f.type.identities) : u ∈ Schema.identities s :=
  Schema.mem_identities.mpr ⟨f, hf, Field.mem_identities.mpr (Or.inr hu)⟩

theorem Schema.project_identities {s out : Schema} {cs : List Nat}
    (h : Schema.project s cs = .ok out) {u : Uid} (hu : u ∈ Schema.identities out) :
    u ∈ Schema.identities s := by
  obtain ⟨f, hf, hu⟩ := Schema.mem_identities.mp hu
  obtain ⟨c, -, hc⟩ := mem_of_right (Schema.project_ok.mp h) hf
  exact Schema.mem_identities.mpr ⟨f, List.mem_of_getElem? hc, hu⟩

theorem DataType.inner?_identities {t : DataType} {inner : Schema} (h : t.inner? = some inner) :
    t.identities = Schema.identities inner := by
  cases t with
  | tuple fs => cases h; rw [DataType.identities]
  | bag fs => cases h; rw [DataType.identities]
  | _ => cases h

theorem DataType.wider?_side {l r t : DataType} (h : l.wider? r = some t) : t = l ∨ t = r := by
  unfold wider? at h
  split at h
  · exact Or.inr (Option.some.inj h).symm
  · split at h
    · exact Or.inl (Option.some.inj h).symm
    · obtain ⟨a, -, h⟩ := Option.bind_eq_some_iff.mp h
      obtain ⟨b, -, h⟩ := Option.bind_eq_some_iff.mp h
      have ht := Option.some.inj h
      split at ht
      · exact Or.inl ht.symm
      · exact Or.inr ht.symm

/-! ## Expressions -/

/-- The identities in the type of a cast. -/
def Unary.written : Unary → List Uid
  | .cast type => type.identities
  | _ => []

mutual

/-- The identities in the types that an expression spells out: those of its casts
and those that its functions declare. -/
def Expr.written : Expr → List Uid
  | .column _ | .literal _ | .star => []
  | .unary op e => op.written ++ e.written
  | .binary _ l r => l.written ++ r.written
  | .ifElse t e p => t.written ++ e.written ++ p.written
  | .call f args => f.returns.identities ++ Expr.writtenAll args

def Expr.writtenAll : List Expr → List Uid
  | [] => []
  | e :: es => e.written ++ Expr.writtenAll es

end

/-- A type is made of the types of the row and of those that the expression spells
out. -/
theorem Expr.type_identities {s : Schema} {u : Uid} :
    ∀ (e : Expr) {t : DataType}, e.type s = .ok t → u ∈ t.identities →
      u ∈ Schema.identities s ∨ u ∈ e.written
  | .column p, t, h, hu => by
    obtain ⟨f, hf, rfl⟩ : ∃ f, s.fieldAt p = .ok f ∧ f.type = t := by
      unfold type at h
      cases hf : s.fieldAt p with
      | error c => rw [hf] at h; cases h
      | ok f => rw [hf] at h; exact ⟨f, rfl, Except.ok.inj h⟩
    exact Or.inl (Schema.identities_of_mem (List.mem_of_getElem? (Schema.fieldAt_ok.mp hf)) hu)
  | .literal v, t, h, hu => by
    cases h
    cases v <;> simp [Literal.type, DataType.identities] at hu
  | .star, t, h, hu => by
    cases h
    rw [DataType.identities] at hu
    exact Or.inl hu
  | .unary op e, t, h, hu => by
    rw [Expr.written]
    have ih : ∀ {σ : DataType}, e.type s = .ok σ → u ∈ σ.identities →
        u ∈ Schema.identities s ∨ u ∈ op.written ++ e.written := fun hσ hu =>
      (Expr.type_identities e hσ hu).imp_right (List.mem_append_right _)
    cases op with
    | named name => exact ih h hu
    | cast type =>
      cases h
      exact Or.inr (List.mem_append_left _ hu)
    | isNull =>
      cases h
      simp [DataType.identities] at hu
    | lookup key =>
      obtain ⟨σ, hσ, h⟩ := bind_ok h
      split at h
      · cases h
        exact ih hσ (by rw [DataType.identities]; exact hu)
      · cases h
    | not =>
      obtain ⟨σ, hσ, h⟩ := bind_ok h
      split at h
      · cases h
        exact ih hσ hu
      · cases h
    | select columns =>
      obtain ⟨σ, hσ, h⟩ := bind_ok h
      split at h
      · obtain ⟨out, hout, h⟩ := bind_ok h
        cases h
        rw [DataType.identities] at hu
        exact ih hσ (by rw [DataType.identities]; exact Schema.project_identities hout hu)
      · obtain ⟨out, hout, h⟩ := bind_ok h
        cases h
        rw [DataType.identities] at hu
        exact ih hσ (by rw [DataType.identities]; exact Schema.project_identities hout hu)
      · cases h
  | .binary op l r, t, h, hu => by
    rw [Expr.written]
    obtain ⟨lt, hl, h⟩ := bind_ok h
    obtain ⟨rt, hr, h⟩ := bind_ok h
    split at h
    · cases h
      simp [DataType.identities] at hu
    · split at h
      · rename_i hw
        cases h
        rcases DataType.wider?_side hw with rfl | rfl
        · exact (Expr.type_identities l hl hu).imp_right (List.mem_append_left _)
        · exact (Expr.type_identities r hr hu).imp_right (List.mem_append_right _)
      · cases h
  | .ifElse t' e p, t, h, hu => by
    rw [Expr.written]
    exact (Expr.type_identities t' h hu).imp_right fun hw =>
      List.mem_append_left _ (List.mem_append_left _ hw)
  | .call f args, t, h, hu => by
    cases h
    rw [Expr.written]
    exact Or.inr (List.mem_append_left _ hu)

/-! ## Operators -/

/-- Whether an item computes a value rather than pass on a column or the row. -/
def Item.computes (item : Item) : Bool := !item.isStar && item.expr.forwards?.isNone

/-- The identities of the parts of a group of the given type, which has parts when
there are several keys. -/
def CoGroup.components : List Expr → DataType → List Uid
  | _ :: _ :: _, .tuple inner => inner.map Field.uid
  | _, _ => []

namespace Operator

/-- The identities of the fields that an operator originates: the values that items
compute, the group with its parts and the bags of a cogroup, the output of a
union. -/
def created : Operator → List Uid
  | .forEach items => (items.filter Item.computes).map Item.uid
  | .cogroup g => CoGroup.components (g.keys.head?.getD []) g.group.type ++
    g.group.uid :: g.bags.map Prod.snd
  | .union u => u.fields.map Field.uid
  | _ => []

/-- The identities in the types and schemas that an operator carries. -/
def given : Operator → List Uid
  | .load l => Schema.identities l.source.schema
  | .stream _ schema => Schema.identities schema
  | .forEach items => items.flatMap fun item => item.expr.written
  | .cogroup g => g.group.type.identities
  | .union u => u.fields.flatMap fun f => f.type.identities
  | _ => []

end Operator

theorem Item.fields_identities {item : Item} {input fs : Schema} (h : item.fields input = .ok fs)
    {u : Uid} (hu : u ∈ Schema.identities fs) :
    (item.computes = true ∧ u = item.uid) ∨ u ∈ Schema.identities input ∨
      u ∈ item.expr.written := by
  unfold Item.fields at h
  split at h
  · cases h
    exact Or.inr (Or.inl hu)
  · rename_i hstar
    split at h
    · rename_i p hp
      obtain ⟨f, hf, h⟩ := bind_ok h
      have hmem : f ∈ input := List.mem_of_getElem? (Schema.fieldAt_ok.mp hf)
      split at h
      · rename_i inner hinner
        cases h
        split at hinner
        · exact Or.inr (Or.inl (Schema.identities_of_mem hmem
            (by rw [DataType.inner?_identities hinner]; exact hu)))
        · cases hinner
      · obtain ⟨name, -, h⟩ := bind_ok h
        cases h
        obtain ⟨g, hg, hu⟩ := Schema.mem_identities.mp hu
        cases List.mem_singleton.mp hg
        exact Or.inr (Or.inl (Schema.mem_identities.mpr ⟨f, hmem,
          Field.mem_identities.mpr ((Field.mem_identities (f := f.rename name)).mp hu)⟩))
    · rename_i hp
      obtain ⟨t, ht, h⟩ := bind_ok h
      split at h
      · rename_i inner hinner
        cases h
        split at hinner
        · exact Or.inr (item.expr.type_identities ht
            (by rw [DataType.inner?_identities hinner]; exact hu))
        · cases hinner
      · obtain ⟨name, -, h⟩ := bind_ok h
        cases h
        obtain ⟨g, hg, hu⟩ := Schema.mem_identities.mp hu
        cases List.mem_singleton.mp hg
        rcases Field.mem_identities.mp hu with rfl | hu
        · exact Or.inl ⟨by simp [Item.computes, hstar, hp], rfl⟩
        · exact Or.inr (item.expr.type_identities ht hu)

theorem Items.schema_identities {items : List Item} {input out : Schema}
    (h : Items.schema items input = .ok out) {u : Uid} (hu : u ∈ Schema.identities out) :
    u ∈ (Operator.forEach items).created ∨ u ∈ (Operator.forEach items).given ∨
      u ∈ Schema.identities input := by
  obtain ⟨fields, hfields, h⟩ := bind_ok h
  cases h
  obtain ⟨f, hf, hu⟩ := Schema.mem_identities.mp hu
  obtain ⟨fs, hfs, hf⟩ := List.mem_flatten.mp hf
  obtain ⟨item, hitem, hok⟩ := mem_of_right (mapM_ok.mp hfields) hfs
  rcases item.fields_identities hok (Schema.mem_identities.mpr ⟨f, hf, hu⟩) with
    ⟨hcomputes, rfl⟩ | hin | hw
  · exact Or.inl (List.mem_map.mpr ⟨item, List.mem_filter.mpr ⟨hitem, hcomputes⟩, rfl⟩)
  · exact Or.inr (Or.inr hin)
  · exact Or.inr (Or.inl (List.mem_flatMap.mpr ⟨item, hitem, hw⟩))

theorem CoGroup.schema_identities {g : CoGroup} {inputs : List Schema} {u : Uid}
    (hu : u ∈ Schema.identities (g.schema inputs)) :
    u ∈ (Operator.cogroup g).created ∨ u ∈ (Operator.cogroup g).given ∨
      ∃ s ∈ inputs, u ∈ Schema.identities s := by
  obtain ⟨f, hf, hu⟩ := Schema.mem_identities.mp hu
  rcases List.mem_cons.mp hf with rfl | hf
  · rcases Field.mem_identities.mp hu with rfl | hu
    · exact Or.inl (List.mem_append_right _ (List.mem_cons_self ..))
    · exact Or.inr (Or.inl hu)
  · obtain ⟨i, hi⟩ := List.mem_iff_getElem?.mp hf
    obtain ⟨bag, s, hbag, hs, rfl⟩ := List.getElem?_zipWith_eq_some.mp hi
    rcases Field.mem_identities.mp hu with rfl | hu
    · exact Or.inl (List.mem_append_right _ (List.mem_cons_of_mem _
        (List.mem_map.mpr ⟨bag, List.mem_of_getElem? hbag, rfl⟩)))
    · rw [DataType.identities] at hu
      exact Or.inr (Or.inr ⟨s, List.mem_of_getElem? hs, hu⟩)

/-- An identity in a natural output was made by the operator, given to it, or came
with an input. -/
theorem Operator.natural_identities {op : Operator} {inputs : List Schema} {out : Schema}
    (h : op.natural inputs = .ok out) {u : Uid} (hu : u ∈ Schema.identities out) :
    u ∈ op.created ∨ u ∈ op.given ∨ ∃ s ∈ inputs, u ∈ Schema.identities s := by
  cases op with
  | load l => cases h; exact Or.inr (Or.inl hu)
  | store location => cases h; cases hu
  | stream command schema => cases h; exact Or.inr (Or.inl hu)
  | cogroup g => cases h; exact g.schema_identities hu
  | union un =>
    cases h
    obtain ⟨f, hf, hu⟩ := Schema.mem_identities.mp hu
    rcases Field.mem_identities.mp hu with rfl | hu
    · exact Or.inl (List.mem_map.mpr ⟨f, hf, rfl⟩)
    · exact Or.inr (Or.inl (List.mem_flatMap.mpr ⟨f, hf, hu⟩))
  | join | cross =>
    cases h
    obtain ⟨f, hf, hu⟩ := Schema.mem_identities.mp hu
    obtain ⟨s, hs, hf⟩ := List.mem_flatten.mp hf
    exact Or.inr (Or.inr ⟨s, hs, Schema.mem_identities.mpr ⟨f, hf, hu⟩⟩)
  | forEach items =>
    cases inputs with
    | nil => cases h
    | cons s rest =>
      exact (Items.schema_identities h hu).imp_right
        (Or.imp_right fun hs => ⟨s, List.mem_cons_self .., hs⟩)
  | _ =>
    cases inputs with
    | nil => cases h
    | cons s rest => cases h; exact Or.inr (Or.inr ⟨_, List.mem_cons_self .., hu⟩)

end Dataflow
