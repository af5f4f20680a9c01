import Dataflow.Codec.Expr
import Dataflow.Proofs.Codec.Schemas
import Dataflow.Proofs.Expr.Walked

/-!
# Expressions that survive their interchange form

An expression is read back when its operands are, one statement for each operation: what
the operation adds to the depth is the difference between the room of the whole and that of
the operands. As for types, the statements serve two inductions, over the expression when
there is room for its form, and over the room when the expression was read.

A double is written by its shortest digits, which are not considered here: expressions
that hold one are left out (`Expr.exact`).
-/

namespace Dataflow

open Coded (Returns Lossless)

/-! ## Conditions -/

/-- Whether a constant is no double. -/
def Literal.exact : Literal → Bool
  | .double _ => false
  | _ => true

def Unary.fits : Unary → Bool
  | .cast type => type.fits
  | .select columns => columns.all (· < UInt64.size)
  | _ => true

def Function.fits (f : Function) : Bool := f.returns.fits

namespace Expr

mutual

/-- Whether every number in the expression fits in a word. -/
def fits : Expr → Bool
  | .column p => p < UInt64.size
  | .literal _ | .star => true
  | .unary op e => op.fits && e.fits
  | .binary _ l r => l.fits && r.fits
  | .ifElse t e p => t.fits && e.fits && p.fits
  | .call f args => f.fits && allFit args

def allFit : List Expr → Bool
  | [] => true
  | e :: es => e.fits && allFit es

end

mutual

/-- Whether no double is in the expression. -/
def exact : Expr → Bool
  | .literal v => v.exact
  | .column _ | .star => true
  | .unary _ e => e.exact
  | .binary _ l r => l.exact && r.exact
  | .ifElse t e p => t.exact && e.exact && p.exact
  | .call _ args => allExact args

def allExact : List Expr → Bool
  | [] => true
  | e :: es => e.exact && allExact es

end

theorem allFit_iff {es : List Expr} : allFit es = true ↔ ∀ e ∈ es, e.fits = true := by
  induction es with
  | nil => simp [allFit]
  | cons e es ih => rw [allFit, Bool.and_eq_true, ih, List.forall_mem_cons]

theorem allExact_iff {es : List Expr} : allExact es = true ↔ ∀ e ∈ es, e.exact = true := by
  induction es with
  | nil => simp [allExact]
  | cons e es ih => rw [allExact, Bool.and_eq_true, ih, List.forall_mem_cons]

theorem toJsons_eq_map (es : List Expr) : toJsons es = es.map Coded.toJson := by
  induction es with
  | nil => rfl
  | cons e es ih => rw [toJsons, ih, List.map_cons]; rfl

end Expr

/-! ## Constants, operators and functions -/

namespace Literal

theorem returns_null (room : Nat) : Returns room Literal.null := rfl

theorem returns_of_exact {v : Literal} (h : v.exact = true) (room : Nat) :
    Returns (room + 1) v := by
  cases v with
  | null => exact returns_null (room + 1)
  | boolean b => rfl
  | int n =>
    show Option.map _ ((Json.ofInt n.toInt).intIn? _ _) = _
    rw [Json.intIn?_ofInt n.minValue_le_toInt n.toInt_le, Option.map_some, Int32.ofInt_toInt]
  | long n =>
    show Option.map _ ((Json.ofInt n.toInt).intIn? _ _) = _
    rw [Json.intIn?_ofInt n.minValue_le_toInt n.toInt_le, Option.map_some, Int64.ofInt_toInt]
  | double x => cases h
  | chararray s => rfl

/-- Only the absent value is read without opening an object. -/
theorem returns_of_read {room : Nat} {j : Json} {v : Literal} (h : Literal.ofJson? room j = some v)
    (hexact : v.exact = true) : Returns room v := by
  unfold Literal.ofJson? at h
  split at h
  · cases h
    exact returns_null room
  · split at h
    · exact returns_of_exact hexact _
    · cases h

theorem returns_of_nesting {room : Nat} {v : Literal} (hexact : v.exact = true)
    (hdeep : v.toJson.nesting ≤ room) : Returns room v := by
  cases room with
  | succ room => exact returns_of_exact hexact room
  | zero =>
    cases v with
    | null => exact returns_null 0
    | _ =>
      obtain ⟨r, hr, -⟩ := Json.nesting_choice_le.mp hdeep
      cases hr

theorem plain {v : Literal} (h : v.exact = true) : v.toJson.Plain := by
  cases v with
  | null => exact .string _
  | boolean b => exact Json.plain_choice (.bool b)
  | int n => exact Json.plain_choice (Json.plain_ofInt _)
  | long n => exact Json.plain_choice (Json.plain_ofInt _)
  | double x => cases h
  | chararray s => exact Json.plain_choice (.string s)

end Literal

theorem BinaryOp.returns (room : Nat) (op : BinaryOp) : Returns room op := by
  cases op <;> rfl

namespace Function

theorem returns_of_type {room : Nat} {f : Function} (h : Returns room f.returns) :
    Returns (room + 1) f := by
  show (do return ⟨f.name, ← DataType.ofJson? room f.returns.toJson⟩ : Option Function) = _
  rw [show DataType.ofJson? room f.returns.toJson = some f.returns from h]
  rfl

theorem nesting_le {f : Function} {room : Nat} :
    (Coded.toJson f).nesting ≤ room ↔ ∃ r, room = r + 1 ∧ f.returns.toJson.nesting ≤ r := by
  refine Json.nesting_record_le.trans (exists_congr fun r => and_congr_right fun _ => ?_)
  simp [Json.nesting, Json.ofString]

theorem lossless : Lossless Function (fun f => f.fits = true) (fun _ => True) where
  plain _ := by
    refine .record fun m hm => ?_
    simp only [List.mem_cons, List.not_mem_nil, or_false] at hm
    rcases hm with rfl | rfl
    · exact .string _
    · exact DataType.plain _
  returns hfits _ hdeep := by
    obtain ⟨r, rfl, htype⟩ := nesting_le.mp hdeep
    exact returns_of_type (DataType.returns_of_fits hfits htype)
  again {room} _ _ h _ := by
    cases room with
    | zero => cases h
    | succ room =>
      obtain ⟨fields, -, h⟩ := Option.bind_eq_some_iff.mp h
      split at h
      · obtain ⟨name, -, h⟩ := Option.bind_eq_some_iff.mp h
        obtain ⟨type, htype, h⟩ := Option.bind_eq_some_iff.mp h
        cases h
        exact returns_of_type (DataType.returns_of_read htype)
      · cases h

end Function

/-! ## Operations -/

namespace Expr

variable {room : Nat}

theorem returns_star : Returns room Expr.star := by
  cases room <;> rfl

/-- A choice with contents is not the whole row. -/
theorem ne_star {tag : String} (h : tag ≠ "Star") (body : Json) :
    ¬ Json.bareTag? room (.choice tag body) = some "Star" :=
  fun hstar => h (Json.eq_of_bareTag?_choice hstar)

theorem returns_column {p : Nat} (h : p < UInt64.size) : Returns (room + 1) (Expr.column p) := by
  have hread : Coded.ofJson? (room + 1) (Coded.toJson (Expr.column p)) =
      (Json.ofNat p).word?.map Expr.column := rfl
  rw [Returns, hread, Json.word?_ofNat h]
  rfl

theorem returns_literal {v : Literal} (h : Returns room v) :
    Returns (room + 1) (Expr.literal v) := by
  have hread : Coded.ofJson? (room + 1) (Coded.toJson (Expr.literal v)) =
      (Coded.ofJson? room (Coded.toJson v)).map Expr.literal :=
    if_neg (ne_star (by decide) _)
  rw [Returns, hread, h.eq]
  rfl

section Operand

variable {e : Expr}

theorem returns_isNull (h : Returns room e) : Returns (room + 1) (Expr.isNull e) := by
  have hread : Coded.ofJson? (room + 1) (Coded.toJson (Expr.isNull e)) =
      (Coded.ofJson? room (Coded.toJson e)).map Expr.isNull :=
    if_neg (ne_star (by decide) _)
  rw [Returns, hread, h.eq]
  rfl

theorem returns_not (h : Returns room e) : Returns (room + 1) (Expr.not e) := by
  have hread : Coded.ofJson? (room + 1) (Coded.toJson (Expr.not e)) =
      (Coded.ofJson? room (Coded.toJson e)).map Expr.not :=
    if_neg (ne_star (by decide) _)
  rw [Returns, hread, h.eq]
  rfl

theorem returns_named (h : Returns room e) (name : String) :
    Returns (room + 2) (Expr.named e name) := by
  have hread : Coded.ofJson? (room + 2) (Coded.toJson (Expr.named e name)) =
      (do return .named (← Coded.ofJson? room (Coded.toJson e)) name : Option Expr) := rfl
  rw [Returns, hread, h.eq]
  rfl

theorem returns_cast {t : DataType} (h : Returns room e) (ht : Returns room t) :
    Returns (room + 2) (Expr.cast e t) := by
  have hread : Coded.ofJson? (room + 2) (Coded.toJson (Expr.cast e t)) =
      (do
        return .cast (← Coded.ofJson? room (Coded.toJson e))
          (← Coded.ofJson? room (Coded.toJson t)) : Option Expr) := rfl
  rw [Returns, hread, h.eq, ht.eq]
  rfl

theorem returns_lookup (h : Returns room e) (key : String) :
    Returns (room + 2) (Expr.lookup e key) := by
  have hread : Coded.ofJson? (room + 2) (Coded.toJson (Expr.lookup e key)) =
      (do return .lookup (← Coded.ofJson? room (Coded.toJson e)) key : Option Expr) := rfl
  rw [Returns, hread, h.eq]
  rfl

theorem returns_select {columns : List Nat} (h : Returns (room + 1) e)
    (hcolumns : ∀ p ∈ columns, p < UInt64.size) : Returns (room + 3) (Expr.select e columns) := by
  have hpositions : (columns.map Json.ofNat).mapM Json.word? = some columns :=
    mapM_map_some fun p hp => Json.word?_ofNat (hcolumns p hp)
  have hread : Coded.ofJson? (room + 3) (Coded.toJson (Expr.select e columns)) =
      (do
        return .select (← Coded.ofJson? (room + 1) (Coded.toJson e))
          (← (columns.map Json.ofNat).mapM Json.word?) : Option Expr) := rfl
  rw [Returns, hread, h.eq, hpositions]
  rfl

end Operand

theorem returns_binary {l r : Expr} (op : BinaryOp) (hl : Returns room l) (hr : Returns room r) :
    Returns (room + 2) (Expr.binary op l r) := by
  have hread : Coded.ofJson? (room + 2) (Coded.toJson (Expr.binary op l r)) =
      (do
        return .binary (← Coded.ofJson? room (Coded.toJson op))
          (← Coded.ofJson? room (Coded.toJson l))
          (← Coded.ofJson? room (Coded.toJson r)) : Option Expr) := rfl
  rw [Returns, hread, (BinaryOp.returns room op).eq, hl.eq, hr.eq]
  rfl

theorem returns_ifElse {t e p : Expr} (ht : Returns room t) (he : Returns room e)
    (hp : Returns room p) : Returns (room + 2) (Expr.ifElse t e p) := by
  have hread : Coded.ofJson? (room + 2) (Coded.toJson (Expr.ifElse t e p)) =
      (do
        return .ifElse (← Coded.ofJson? room (Coded.toJson t))
          (← Coded.ofJson? room (Coded.toJson e))
          (← Coded.ofJson? room (Coded.toJson p)) : Option Expr) := rfl
  rw [Returns, hread, ht.eq, he.eq, hp.eq]
  rfl

theorem returns_call {f : Function} {args : List Expr} (hf : Returns (room + 1) f)
    (hargs : ∀ a ∈ args, Returns room a) : Returns (room + 3) (Expr.call f args) := by
  have hmap : (toJsons args).mapM (Coded.ofJson? room) = some args := by
    rw [toJsons_eq_map]
    exact mapM_map_some hargs
  have hread : Coded.ofJson? (room + 3) (Coded.toJson (Expr.call f args)) =
      (do
        return .call (← Coded.ofJson? (room + 1) (Coded.toJson f))
          (← (toJsons args).mapM (Coded.ofJson? room)) : Option Expr) := rfl
  rw [Returns, hread, hf.eq, hmap]
  rfl

/-- Positions that were read fit in a word each, and there was room for the array. -/
theorem words_of_positions? {j : Json} {columns : List Nat} (h : positions? room j = some columns) :
    ∃ r, room = r + 1 ∧ ∀ p ∈ columns, p < UInt64.size := by
  cases room with
  | zero => cases h
  | succ room =>
    obtain ⟨items, -, h⟩ := Option.bind_eq_some_iff.mp h
    refine ⟨room, rfl, fun p hp => ?_⟩
    obtain ⟨b, -, hb⟩ := exists_of_mapM_some h p hp
    exact Json.lt_of_word? hb

/-! ## Forms of expressions -/

theorem plain {e : Expr} (h : e.exact = true) : e.toJson.Plain := by
  induction e using nestedInduction with
  | column p => exact Json.plain_choice (Json.plain_ofNat p)
  | literal v => exact Json.plain_choice (Literal.plain h)
  | star => exact .string "Star"
  | unary op e ih =>
    have he := ih h
    cases op with
    | named name => exact Json.plain_choice (.array (by simp [he, Json.plain_ofString]))
    | cast type => exact Json.plain_choice (.array (by simp [he, DataType.plain]))
    | isNull => exact Json.plain_choice he
    | lookup key => exact Json.plain_choice (.record (by simp [he, Json.plain_ofString]))
    | not => exact Json.plain_choice he
    | select columns =>
      have hcolumns : (Json.array (columns.map .ofNat)).Plain := .array (by simp [Json.plain_ofNat])
      exact Json.plain_choice (.record (by simp [he, hcolumns]))
  | binary op l r ihl ihr =>
    obtain ⟨hl, hr⟩ := Bool.and_eq_true_iff.mp h
    have hop : (Coded.toJson op).Plain := .string op.tag
    exact Json.plain_choice (.record (by simp [hop, ihl hl, ihr hr]))
  | ifElse t e p iht ihe ihp =>
    obtain ⟨hte, hp⟩ := Bool.and_eq_true_iff.mp h
    obtain ⟨ht, he⟩ := Bool.and_eq_true_iff.mp hte
    exact Json.plain_choice (.record (by simp [iht ht, ihe he, ihp hp]))
  | call f args ih =>
    have hf : (Coded.toJson f).Plain := Function.lossless.plain trivial
    have hargs : (Json.array (toJsons args)).Plain := by
      rw [toJsons_eq_map]
      refine .array fun j hj => ?_
      obtain ⟨a, ha, rfl⟩ := List.mem_map.mp hj
      exact ih a ha (allExact_iff.mp h a ha)
    exact Json.plain_choice (.record (by simp [hf, hargs]))

theorem returns_of_fits {e : Expr} (hfits : e.fits = true) (hexact : e.exact = true)
    (hdeep : e.toJson.nesting ≤ room) : Returns room e := by
  induction e using nestedInduction generalizing room with
  | column p =>
    obtain ⟨r, rfl, -⟩ := Json.nesting_choice_le.mp hdeep
    exact returns_column (of_decide_eq_true hfits)
  | literal v =>
    obtain ⟨r, rfl, hv⟩ := Json.nesting_choice_le.mp hdeep
    exact returns_literal (Literal.returns_of_nesting hexact hv)
  | star => exact returns_star
  | unary op e ih =>
    obtain ⟨hop, he⟩ := Bool.and_eq_true_iff.mp hfits
    cases op with
    | named name =>
      obtain ⟨r, rfl, hbody⟩ := Json.nesting_choice_le.mp hdeep
      obtain ⟨r, rfl, hparts⟩ := Json.nesting_array_le.mp hbody
      exact returns_named (ih he hexact (hparts e.toJson (by simp))) name
    | cast type =>
      obtain ⟨r, rfl, hbody⟩ := Json.nesting_choice_le.mp hdeep
      obtain ⟨r, rfl, hparts⟩ := Json.nesting_array_le.mp hbody
      exact returns_cast (ih he hexact (hparts e.toJson (by simp)))
        (DataType.returns_of_fits hop (hparts type.toJson (by simp)))
    | isNull =>
      obtain ⟨r, rfl, hbody⟩ := Json.nesting_choice_le.mp hdeep
      exact returns_isNull (ih he hexact hbody)
    | lookup key =>
      obtain ⟨r, rfl, hbody⟩ := Json.nesting_choice_le.mp hdeep
      obtain ⟨r, rfl, hparts⟩ := Json.nesting_record_le.mp hbody
      exact returns_lookup (ih he hexact (hparts ("input", e.toJson) (by simp))) key
    | not =>
      obtain ⟨r, rfl, hbody⟩ := Json.nesting_choice_le.mp hdeep
      exact returns_not (ih he hexact hbody)
    | select columns =>
      obtain ⟨r, rfl, hbody⟩ := Json.nesting_choice_le.mp hdeep
      obtain ⟨r, rfl, hparts⟩ := Json.nesting_record_le.mp hbody
      obtain ⟨r, rfl, -⟩ := Json.nesting_array_le.mp
        (hparts ("columns", .array (columns.map .ofNat)) (by simp))
      refine returns_select (ih he hexact (hparts ("input", e.toJson) (by simp))) fun p hp => ?_
      exact of_decide_eq_true (List.all_eq_true.mp hop p hp)
  | binary op l r ihl ihr =>
    obtain ⟨hl, hr⟩ := Bool.and_eq_true_iff.mp hfits
    obtain ⟨hlx, hrx⟩ := Bool.and_eq_true_iff.mp hexact
    obtain ⟨k, rfl, hbody⟩ := Json.nesting_choice_le.mp hdeep
    obtain ⟨k, rfl, hparts⟩ := Json.nesting_record_le.mp hbody
    exact returns_binary op (ihl hl hlx (hparts ("left", l.toJson) (by simp)))
      (ihr hr hrx (hparts ("right", r.toJson) (by simp)))
  | ifElse t e p iht ihe ihp =>
    obtain ⟨hte, hp⟩ := Bool.and_eq_true_iff.mp hfits
    obtain ⟨ht, he⟩ := Bool.and_eq_true_iff.mp hte
    obtain ⟨htex, hpx⟩ := Bool.and_eq_true_iff.mp hexact
    obtain ⟨htx, hex⟩ := Bool.and_eq_true_iff.mp htex
    obtain ⟨k, rfl, hbody⟩ := Json.nesting_choice_le.mp hdeep
    obtain ⟨k, rfl, hparts⟩ := Json.nesting_record_le.mp hbody
    exact returns_ifElse (iht ht htx (hparts ("if_true", t.toJson) (by simp)))
      (ihe he hex (hparts ("if_false", e.toJson) (by simp)))
      (ihp hp hpx (hparts ("predicate", p.toJson) (by simp)))
  | call f args ih =>
    obtain ⟨hf, hargs⟩ := Bool.and_eq_true_iff.mp hfits
    obtain ⟨k, rfl, hbody⟩ := Json.nesting_choice_le.mp hdeep
    obtain ⟨k, rfl, hparts⟩ := Json.nesting_record_le.mp hbody
    have hdeepf := hparts ("func", Coded.toJson f) (by simp)
    obtain ⟨k, rfl, hitems⟩ := Json.nesting_array_le.mp
      (hparts ("inputs", .array (toJsons args)) (by simp))
    refine returns_call (Function.lossless.returns hf trivial hdeepf) fun a ha => ?_
    rw [toJsons_eq_map] at hitems
    exact ih a ha (allFit_iff.mp hargs a ha) (allExact_iff.mp hexact a ha)
      (hitems _ (List.mem_map_of_mem ha))

/-- An expression that was read is read back from its own form: its operands were read with
the room they have there. -/
theorem returns_of_read {j : Json} {e : Expr} (h : Expr.ofJson? room j = some e)
    (hexact : e.exact = true) : Returns room e := by
  induction room using Nat.strongRecOn generalizing j e with
  | ind room ih =>
    unfold Expr.ofJson? at h
    split at h
    · cases h
      exact returns_star
    split at h
    · split at h
      · obtain ⟨p, hp, rfl⟩ := Option.map_eq_some_iff.mp h
        exact returns_column (Json.lt_of_word? hp)
      · obtain ⟨v, hv, rfl⟩ := Option.map_eq_some_iff.mp h
        exact returns_literal (Literal.returns_of_read hv hexact)
      · obtain ⟨x, hx, rfl⟩ := Option.map_eq_some_iff.mp h
        exact returns_isNull (ih _ (by omega) hx hexact)
      · obtain ⟨x, hx, rfl⟩ := Option.map_eq_some_iff.mp h
        exact returns_not (ih _ (by omega) hx hexact)
      · -- A name.
        split at h
        · obtain ⟨x, hx, h⟩ := Option.bind_eq_some_iff.mp h
          obtain ⟨name, -, h⟩ := Option.bind_eq_some_iff.mp h
          cases h
          exact returns_named (ih _ (by omega) hx hexact) name
        · cases h
      · -- A cast.
        split at h
        · obtain ⟨x, hx, h⟩ := Option.bind_eq_some_iff.mp h
          obtain ⟨type, htype, h⟩ := Option.bind_eq_some_iff.mp h
          cases h
          exact returns_cast (ih _ (by omega) hx hexact) (DataType.returns_of_read htype)
        · cases h
      · -- The value of a key.
        split at h
        · obtain ⟨x, hx, h⟩ := Option.bind_eq_some_iff.mp h
          obtain ⟨key, -, h⟩ := Option.bind_eq_some_iff.mp h
          cases h
          exact returns_lookup (ih _ (by omega) hx hexact) key
        · cases h
      · -- Inner columns.
        split at h
        · obtain ⟨x, hx, h⟩ := Option.bind_eq_some_iff.mp h
          obtain ⟨columns, hcolumns, h⟩ := Option.bind_eq_some_iff.mp h
          cases h
          obtain ⟨r, rfl, hwords⟩ := words_of_positions? hcolumns
          exact returns_select (ih _ (by omega) hx hexact) hwords
        · cases h
      · -- Two operands.
        split at h
        · obtain ⟨op, -, h⟩ := Option.bind_eq_some_iff.mp h
          obtain ⟨l, hl, h⟩ := Option.bind_eq_some_iff.mp h
          obtain ⟨r, hr, h⟩ := Option.bind_eq_some_iff.mp h
          cases h
          obtain ⟨hlx, hrx⟩ := Bool.and_eq_true_iff.mp hexact
          exact returns_binary op (ih _ (by omega) hl hlx) (ih _ (by omega) hr hrx)
        · cases h
      · -- A conditional.
        split at h
        · obtain ⟨t, ht, h⟩ := Option.bind_eq_some_iff.mp h
          obtain ⟨x, hx, h⟩ := Option.bind_eq_some_iff.mp h
          obtain ⟨p, hp, h⟩ := Option.bind_eq_some_iff.mp h
          cases h
          obtain ⟨htx, hpx⟩ := Bool.and_eq_true_iff.mp hexact
          obtain ⟨htx, hxx⟩ := Bool.and_eq_true_iff.mp htx
          exact returns_ifElse (ih _ (by omega) ht htx) (ih _ (by omega) hx hxx)
            (ih _ (by omega) hp hpx)
        · cases h
      · -- A call.
        split at h
        · obtain ⟨f, hf, h⟩ := Option.bind_eq_some_iff.mp h
          obtain ⟨args, hargs, h⟩ := Option.bind_eq_some_iff.mp h
          cases h
          refine returns_call (Function.lossless.again hf trivial) fun a ha => ?_
          obtain ⟨b, -, hb⟩ := exists_of_mapM_some hargs a ha
          exact ih _ (by omega) hb (allExact_iff.mp hexact a ha)
        · cases h
      · cases h
    · cases h

theorem lossless : Lossless Expr (fun e => e.fits = true) (fun e => e.exact = true) where
  plain := plain
  returns := returns_of_fits
  again := returns_of_read

end Expr

end Dataflow
