import Dataflow.Codec.Schema
import Dataflow.Proofs.Codec.Lossless

/-!
# Schemas that survive their interchange form

Types and schemas nest in each other. A type is read back when its parts are
(`DataType.returns_map`, `DataType.returns_tuple`, `DataType.returns_bag`), with the parts
given less room than the whole. From these the two inductions follow: over the type, when
there is room for its form, and over the room, when the type was read.
-/

namespace Dataflow

open Coded (Returns Lossless)

/-! ## Identities -/

def Uid.fits (u : Uid) : Bool := u.number < UInt64.size

theorem Uid.returns_of_fits {u : Uid} (h : u.fits = true) (room : Nat) : Returns room u := by
  show (Json.word? (.ofNat u.number)).map Uid.mk = some u
  rw [Json.word?_ofNat (of_decide_eq_true h)]
  rfl

theorem Uid.fits_of_read {room : Nat} {j : Json} {u : Uid} (h : Coded.ofJson? room j = some u) :
    u.fits = true := by
  obtain ⟨n, hn, rfl⟩ := Option.map_eq_some_iff.mp h
  exact decide_eq_true (Json.lt_of_word? hn)

theorem Uid.lossless : Lossless Uid (fun u => u.fits = true) (fun _ => True) where
  plain _ := Json.plain_ofNat _
  returns hfits _ _ := Uid.returns_of_fits hfits _
  again hread _ := Uid.returns_of_fits (Uid.fits_of_read hread) _

/-! ## Types and fields -/

mutual

/-- Every identity in the type fits in a word. -/
def DataType.fits : DataType → Bool
  | .scalar _ => true
  | .map value => value.fits
  | .tuple inner | .bag inner => Schema.fit inner

def Field.fits : Field → Bool
  | ⟨_, type, uid⟩ => type.fits && uid.fits

def Schema.fit : List Field → Bool
  | [] => true
  | f :: fs => f.fits && Schema.fit fs

end

theorem Schema.toJsons_eq_map (fs : List Field) : Schema.toJsons fs = fs.map Coded.toJson := by
  induction fs with
  | nil => rfl
  | cons f fs ih => rw [Schema.toJsons, ih, List.map_cons]; rfl

namespace DataType

theorem returns_scalar (room : Nat) (s : Scalar) : Returns room (DataType.scalar s) := by
  cases s <;> cases room <;> rfl

theorem ofJson?_map (room : Nat) (j : Json) :
    DataType.ofJson? (room + 1) (.choice "Map" j) = (DataType.ofJson? room j).map .map := by
  rw [DataType.ofJson?.eq_def (room + 1), Coded.bareTag?_bind_ofTag?_choice rfl]
  rfl

/-- Inner fields are read with the room that is left for them. -/
theorem ofJson?_inner (room : Nat) (js : List Json) :
    DataType.ofJson? (room + 2) (.choice "Tuple" (.array js)) =
        (js.mapM (Coded.ofJson? room)).map .tuple ∧
      DataType.ofJson? (room + 2) (.choice "Bag" (.array js)) =
        (js.mapM (Coded.ofJson? room)).map .bag := by
  cases room with
  | zero => cases js <;> exact ⟨rfl, rfl⟩
  | succ room => cases js <;> exact ⟨rfl, rfl⟩

theorem returns_map {room : Nat} {t : DataType} (h : Returns room t) :
    Returns (room + 1) (DataType.map t) := by
  show DataType.ofJson? (room + 1) (.choice "Map" t.toJson) = _
  rw [ofJson?_map, show DataType.ofJson? room t.toJson = some t from h]
  rfl

theorem returns_inner {room : Nat} {fs : List Field} (h : ∀ f ∈ fs, Returns room f) :
    Returns (room + 2) (DataType.tuple fs) ∧ Returns (room + 2) (DataType.bag fs) := by
  have hmap : (Schema.toJsons fs).mapM (Coded.ofJson? room) = some fs := by
    rw [Schema.toJsons_eq_map]
    exact mapM_map_some h
  obtain ⟨htuple, hbag⟩ := ofJson?_inner room (Schema.toJsons fs)
  rw [hmap] at htuple hbag
  exact ⟨htuple, hbag⟩

/-- What a type was read from: nothing but a name, or its parts with less room. -/
theorem parts_of_read {room : Nat} {j : Json} {t : DataType}
    (h : DataType.ofJson? room j = some t) :
    (∃ s, t = .scalar s) ∨
    (∃ r value u, room = r + 1 ∧ DataType.ofJson? r value = some u ∧ t = .map u) ∨
    ∃ (r : Nat) (js : List Json) (fs : List Field), room = r + 2 ∧
      js.mapM (Coded.ofJson? r) = some fs ∧ (t = .tuple fs ∨ t = .bag fs) := by
  unfold DataType.ofJson? at h
  split at h
  · exact Or.inl ⟨_, (Option.some.inj h).symm⟩
  refine Or.inr ?_
  split at h
  · obtain ⟨u, hu, rfl⟩ := Option.map_eq_some_iff.mp h
    exact Or.inl ⟨_, _, u, rfl, hu, rfl⟩
  · cases h
    exact Or.inr ⟨0, [], [], rfl, rfl, Or.inl rfl⟩
  · cases h
    exact Or.inr ⟨0, [], [], rfl, rfl, Or.inr rfl⟩
  · obtain ⟨fs, hfs, rfl⟩ := Option.map_eq_some_iff.mp h
    exact Or.inr ⟨_ + 1, _, fs, rfl, hfs, Or.inl rfl⟩
  · obtain ⟨fs, hfs, rfl⟩ := Option.map_eq_some_iff.mp h
    exact Or.inr ⟨_ + 1, _, fs, rfl, hfs, Or.inr rfl⟩
  · cases h

end DataType

namespace Field

theorem returns_of_parts {room : Nat} {f : Field} (htype : Returns room f.type)
    (huid : f.uid.fits = true) : Returns (room + 1) f := by
  obtain ⟨name, type, uid⟩ := f
  have hword := Json.word?_ofNat (of_decide_eq_true huid)
  show (do return ⟨name, ← DataType.ofJson? room type.toJson,
    ⟨← (Json.ofNat uid.number).word?⟩⟩ : Option Field) = _
  rw [show DataType.ofJson? room type.toJson = some type from htype, hword]
  rfl

theorem parts_of_read {room : Nat} {j : Json} {f : Field} (h : Coded.ofJson? room j = some f) :
    ∃ r value, room = r + 1 ∧ DataType.ofJson? r value = some f.type ∧ f.uid.fits = true := by
  cases room with
  | zero => cases h
  | succ room =>
    obtain ⟨fields, -, h⟩ := Option.bind_eq_some_iff.mp h
    split at h
    · obtain ⟨name, -, h⟩ := Option.bind_eq_some_iff.mp h
      obtain ⟨type, htype, h⟩ := Option.bind_eq_some_iff.mp h
      obtain ⟨uid, huid, h⟩ := Option.bind_eq_some_iff.mp h
      cases h
      exact ⟨room, _, rfl, htype, decide_eq_true (Json.lt_of_word? huid)⟩
    · cases h

end Field

/-! ## Forms of types and fields -/

/-- Induction over a type and the types of the fields inside it. -/
@[elab_as_elim]
theorem DataType.nestedInduction {motive : DataType → Prop}
    (scalar : ∀ s, motive (.scalar s))
    (map : ∀ t, motive t → motive (.map t))
    (tuple : ∀ fs, (∀ f ∈ fs, motive f.type) → motive (.tuple fs))
    (bag : ∀ fs, (∀ f ∈ fs, motive f.type) → motive (.bag fs)) (t : DataType) : motive t := by
  refine @DataType.rec motive (fun f => motive f.type) (fun fs => ∀ f ∈ fs, motive f.type)
    scalar map tuple bag ?_ ?_ ?_ t
  · exact fun _ _ _ htype => htype
  · nofun
  · exact fun f fs hf hfs => List.forall_mem_cons.mpr ⟨hf, hfs⟩

theorem Field.fits_iff {f : Field} : f.fits = true ↔ f.type.fits = true ∧ f.uid.fits = true := by
  obtain ⟨name, type, uid⟩ := f
  exact Bool.and_eq_true_iff

theorem Schema.fit_iff {fs : List Field} : Schema.fit fs = true ↔ ∀ f ∈ fs, f.fits = true := by
  induction fs with
  | nil => simp [Schema.fit]
  | cons f fs ih => rw [Schema.fit, Bool.and_eq_true, ih, List.forall_mem_cons]

theorem Field.nesting_le {f : Field} {room : Nat} :
    f.toJson.nesting ≤ room ↔ ∃ r, room = r + 1 ∧ f.type.toJson.nesting ≤ r := by
  obtain ⟨name, type, uid⟩ := f
  rw [Field.toJson, Json.nesting_record_le]
  refine exists_congr fun r => and_congr_right fun _ => ?_
  simp [Json.nesting, Json.ofString, Coded.toJson, Json.ofNat]

theorem Field.plain_of_type {f : Field} (h : f.type.toJson.Plain) : f.toJson.Plain := by
  obtain ⟨name, type, uid⟩ := f
  refine .record fun m hm => ?_
  simp only [List.mem_cons, List.not_mem_nil, or_false] at hm
  rcases hm with rfl | rfl | rfl
  · exact .string name
  · exact h
  · exact Json.plain_ofNat uid.number

theorem Schema.plain_of_types {fs : List Field} (h : ∀ f ∈ fs, f.type.toJson.Plain) :
    (Json.array (Schema.toJsons fs)).Plain := by
  rw [Schema.toJsons_eq_map]
  refine .array fun j hj => ?_
  obtain ⟨f, hf, rfl⟩ := List.mem_map.mp hj
  exact Field.plain_of_type (h f hf)

theorem DataType.plain (t : DataType) : t.toJson.Plain := by
  induction t using DataType.nestedInduction with
  | scalar s => exact .string s.tag
  | map value ih => exact Json.plain_choice ih
  | tuple fs ih => exact Json.plain_choice (Schema.plain_of_types ih)
  | bag fs ih => exact Json.plain_choice (Schema.plain_of_types ih)

/-- The fields inside a type are read back when their types are. -/
theorem Schema.returns_of_types {fs : List Field} {room : Nat} (hfits : Schema.fit fs = true)
    (hdeep : (Json.array (Schema.toJsons fs)).nesting ≤ room)
    (h : ∀ f ∈ fs, ∀ r, f.type.fits = true → f.type.toJson.nesting ≤ r → Returns r f.type) :
    ∃ r, room = r + 1 ∧ ∀ f ∈ fs, Returns r f := by
  obtain ⟨r, rfl, hitems⟩ := Json.nesting_array_le.mp hdeep
  refine ⟨r, rfl, fun f hf => ?_⟩
  obtain ⟨htype, huid⟩ := Field.fits_iff.mp (Schema.fit_iff.mp hfits f hf)
  rw [Schema.toJsons_eq_map] at hitems
  obtain ⟨r', rfl, hr'⟩ := Field.nesting_le.mp (hitems _ (List.mem_map_of_mem hf))
  exact Field.returns_of_parts (h f hf r' htype hr') huid

theorem DataType.returns_of_fits {t : DataType} {room : Nat} (hfits : t.fits = true)
    (hdeep : t.toJson.nesting ≤ room) : Returns room t := by
  induction t using DataType.nestedInduction generalizing room with
  | scalar s => exact DataType.returns_scalar room s
  | map value ih =>
    obtain ⟨r, rfl, hvalue⟩ := Json.nesting_choice_le.mp hdeep
    exact DataType.returns_map (ih hfits hvalue)
  | tuple fs ih =>
    obtain ⟨r, rfl, hbody⟩ := Json.nesting_choice_le.mp hdeep
    obtain ⟨r, rfl, hfs⟩ := Schema.returns_of_types hfits hbody fun f hf _ => ih f hf
    exact (DataType.returns_inner hfs).1
  | bag fs ih =>
    obtain ⟨r, rfl, hbody⟩ := Json.nesting_choice_le.mp hdeep
    obtain ⟨r, rfl, hfs⟩ := Schema.returns_of_types hfits hbody fun f hf _ => ih f hf
    exact (DataType.returns_inner hfs).2

theorem DataType.returns_of_read {room : Nat} {j : Json} {t : DataType}
    (h : DataType.ofJson? room j = some t) : Returns room t := by
  induction room using Nat.strongRecOn generalizing j t with
  | ind room ih =>
    obtain ⟨s, rfl⟩ | ⟨r, value, u, rfl, hu, rfl⟩ | ⟨r, js, fs, rfl, hfs, ht⟩ :=
      DataType.parts_of_read h
    · exact DataType.returns_scalar room s
    · exact DataType.returns_map (ih r (by omega) hu)
    · have hinner : ∀ f ∈ fs, Returns r f := by
        intro f hf
        obtain ⟨b, -, hb⟩ := exists_of_mapM_some hfs f hf
        obtain ⟨r', value, rfl, hvalue, huid⟩ := Field.parts_of_read hb
        exact Field.returns_of_parts (ih r' (by omega) hvalue) huid
      obtain ⟨htuple, hbag⟩ := DataType.returns_inner hinner
      rcases ht with rfl | rfl
      · exact htuple
      · exact hbag

theorem DataType.lossless : Lossless DataType (fun t => t.fits = true) (fun _ => True) where
  plain _ := DataType.plain _
  returns hfits _ hdeep := DataType.returns_of_fits hfits hdeep
  again hread _ := DataType.returns_of_read hread

theorem Field.lossless : Lossless Field (fun f => f.fits = true) (fun _ => True) where
  plain _ := Field.plain_of_type (DataType.plain _)
  returns hfits _ hdeep := by
    obtain ⟨htype, huid⟩ := Field.fits_iff.mp hfits
    obtain ⟨r, rfl, hr⟩ := Field.nesting_le.mp hdeep
    exact Field.returns_of_parts (DataType.returns_of_fits htype hr) huid
  again hread _ := by
    obtain ⟨r, value, rfl, hvalue, huid⟩ := Field.parts_of_read hread
    exact Field.returns_of_parts (DataType.returns_of_read hvalue) huid

theorem Schema.lossless : Lossless Schema (fun s => Schema.fit s = true) (fun _ => True) :=
  Field.lossless.list.weaken (fun _ => Schema.fit_iff.mp) fun _ _ _ _ => trivial

end Dataflow
