import Dataflow.Codec.Plan
import Dataflow.Proofs.Codec.Expressions

/-!
# Writing and reading again

Every value that a plan exchanges with the outside survives being written and read
(`Coded.read_write`): expressions, types, fields, schemas, identities and functions, the
settings, and what is said between a plan and its sources. What is asked of a value is that
its numbers fit in a word and that its form is not too deep, and of an expression that it
holds no double; of a value that was itself read, only the last.
-/

namespace Dataflow

open Coded (Returns Lossless)

/-! ## Settings -/

theorem Config.returns (room : Nat) (c : Config) : Returns (room + 1) c := rfl

theorem Config.lossless : Lossless Config (fun _ => True) (fun _ => True) where
  plain _ := .record (by simp [Config.fieldNames, Json.Plain.bool])
  returns _ _ hdeep := by
    obtain ⟨r, rfl, -⟩ := Json.nesting_record_le.mp hdeep
    exact Config.returns r _
  again {room} _ c h _ := by
    cases room with
    | zero => cases h
    | succ room => exact Config.returns room c

/-! ## Sources -/

namespace PushdownStatus

theorem returns (room : Nat) (s : PushdownStatus) : Returns (room + 1) s := by
  cases s <;> rfl

theorem lossless : Lossless PushdownStatus (fun _ => True) (fun _ => True) where
  plain {s} _ := by
    cases s with
    | failed message => exact Json.plain_choice (.string message)
    | _ => exact .string _
  returns {room} {s} _ _ hdeep := by
    cases room with
    | succ room => exact returns room s
    | zero =>
      cases s with
      | failed message =>
        obtain ⟨r, hr, -⟩ := Json.nesting_choice_le.mp hdeep
        cases hr
      | _ => rfl
  again {_ _ s} h _ := by
    simp only [Coded.ofJson?] at h
    split at h
    · cases h
      rfl
    · cases h
      rfl
    · cases h
      rfl
    · exact returns _ s
    · cases h

end PushdownStatus

namespace RequiredField

def fits (f : RequiredField) : Bool := f.index < UInt64.size

/-- The keys, if there are any, are a list of texts. -/
theorem losslessKeys : Lossless (Option (List String)) (fun _ => True) (fun _ => True) :=
  Coded.lossless_string.list.optional.weaken (fun _ _ _ _ _ _ => trivial) fun _ _ _ _ _ _ => trivial

theorem returns_of_parts {room : Nat} {f : RequiredField} (hfits : f.fits = true)
    (hkeys : Returns room f.mapKeys) : Returns (room + 1) f := by
  show (do
    return ⟨← (Json.ofNat f.index).word?, f.label,
      ← Coded.ofJson? room (Coded.toJson f.mapKeys)⟩ : Option RequiredField) = _
  rw [Json.word?_ofNat (of_decide_eq_true hfits), hkeys.eq]
  rfl

theorem lossless : Lossless RequiredField (fun f => f.fits = true) (fun _ => True) where
  plain {f} _ := .record (by
    simp [Json.plain_ofNat, Json.plain_ofString, losslessKeys.plain (a := f.mapKeys) trivial])
  returns {_} {f} hfits _ hdeep := by
    obtain ⟨r, rfl, hparts⟩ := Json.nesting_record_le.mp hdeep
    refine returns_of_parts hfits (losslessKeys.returns trivial trivial ?_)
    exact hparts ("map_keys", Coded.toJson f.mapKeys) (by simp)
  again {room} _ f h _ := by
    cases room with
    | zero => cases h
    | succ room =>
      obtain ⟨fields, -, h⟩ := Option.bind_eq_some_iff.mp h
      split at h
      · obtain ⟨index, hindex, h⟩ := Option.bind_eq_some_iff.mp h
        obtain ⟨label, -, h⟩ := Option.bind_eq_some_iff.mp h
        obtain ⟨keys, hkeys, h⟩ := Option.bind_eq_some_iff.mp h
        cases h
        exact returns_of_parts (decide_eq_true (Json.lt_of_word? hindex))
          (losslessKeys.again hkeys trivial)
      · cases h

end RequiredField

namespace Projection

def fits (p : Projection) : Bool := p.fields.all RequiredField.fits

theorem returns_of_fields {room : Nat} {p : Projection} (h : Returns room p.fields) :
    Returns (room + 1) p := by
  show (do return ⟨← Coded.ofJson? room (Coded.toJson p.fields)⟩ : Option Projection) = _
  rw [h.eq]
  rfl

theorem lossless : Lossless Projection (fun p => p.fits = true) (fun _ => True) where
  plain {p} _ := .record (by
    simp [RequiredField.lossless.list.plain (a := p.fields) fun _ _ => trivial])
  returns {_} {p} hfits _ hdeep := by
    obtain ⟨r, rfl, hparts⟩ := Json.nesting_record_le.mp hdeep
    refine returns_of_fields (RequiredField.lossless.list.returns ?_ (fun _ _ => trivial) ?_)
    · exact List.all_eq_true.mp hfits
    · exact hparts ("fields", Coded.toJson p.fields) (by simp)
  again {room} _ p h _ := by
    cases room with
    | zero => cases h
    | succ room =>
      obtain ⟨fields, -, h⟩ := Option.bind_eq_some_iff.mp h
      split at h
      · obtain ⟨fields, hfields, h⟩ := Option.bind_eq_some_iff.mp h
        cases h
        exact returns_of_fields (RequiredField.lossless.list.again hfields fun _ _ => trivial)
      · cases h

end Projection

/-! ## All forms -/

/-- Every value survives being written and read, and what was read from some text survives
it whatever its numbers and its depth. -/
theorem Coded.read_write :
    RoundTrips Expr (fun e => e.fits = true) (fun e => e.exact = true) ∧
    RoundTrips DataType (fun t => t.fits = true) (fun _ => True) ∧
    RoundTrips Field (fun f => f.fits = true) (fun _ => True) ∧
    RoundTrips Schema (fun s => Schema.fit s = true) (fun _ => True) ∧
    RoundTrips Uid (fun u => u.fits = true) (fun _ => True) ∧
    RoundTrips Function (fun f => f.fits = true) (fun _ => True) ∧
    RoundTrips Config (fun _ => True) (fun _ => True) ∧
    RoundTrips RequiredField (fun f => f.fits = true) (fun _ => True) ∧
    RoundTrips Projection (fun p => p.fits = true) (fun _ => True) ∧
    RoundTrips PushdownStatus (fun _ => True) (fun _ => True) :=
  ⟨Expr.lossless.roundTrips, DataType.lossless.roundTrips, Field.lossless.roundTrips,
    Schema.lossless.roundTrips, Uid.lossless.roundTrips, Function.lossless.roundTrips,
    Config.lossless.roundTrips, RequiredField.lossless.roundTrips, Projection.lossless.roundTrips,
    PushdownStatus.lossless.roundTrips⟩

/-- A conditional with a text that needs escapes, the greatest identity and the least
integer in it. -/
def deepExpr : Expr :=
  .ifElse (.lookup (.column 1) "\"\n")
    (.call ⟨"f", .bag [⟨"a", .map (.scalar .long), ⟨18446744073709551615⟩⟩]⟩
      [.literal (.long Int64.minValue), .star])
    (.binary .and (.isNull (.select (.column 0) [1, 0]))
      (.not (.cast (.literal (.chararray "é")) (.tuple []))))

/-- The second text spells an operation without contents as an object, which is not how it
is written. -/
theorem Coded.read_write_deep :
    (deepExpr.fits = true ∧ deepExpr.exact = true ∧ (toJson deepExpr).nesting ≤ Json.depthLimit ∧
      read? (write deepExpr) = some deepExpr) ∧
    read? (Json.choice "Not" (.choice "Star" .null)).text = some (Expr.not .star) ∧
    read? (write (Expr.not .star)) = some (Expr.not .star) := by
  have hread : read? (Json.choice "Not" (.choice "Star" .null)).text = some (Expr.not .star) := by
    rw [read?, Json.parse?_text (Json.plain_choice (Json.plain_choice .null))]
    rfl
  refine ⟨⟨by decide, by decide, by decide, ?_⟩, hread, ?_⟩
  · exact read_write.1.1 deepExpr (by decide) (by decide) (by decide)
  · exact read_write.1.2 _ _ hread (by decide)

end Dataflow
