import Dataflow.Codec.Basic
import Dataflow.Proofs.Json.Text

/-!
# Forms that lose nothing

When is the text of a value read back as the value? Three things have to come together,
and each has a place of its own (`Coded.Lossless`). The form of the value has to be a tree
that spells something, so that the text gives the tree. The tree has to be read as the
value, which needs as much room as the tree is deep (`Json.nesting`) and numbers that fit.
And whatever other form a value was read from, there has to be enough room for its own.

The last point has no condition on depth or on numbers: a value that was read has passed
both already. It is what makes writing and reading again stable (`Coded.RoundTrips`).
-/

namespace Dataflow

/-! ## Depth -/

namespace Json

mutual

/-- How many objects and arrays of a tree stand inside one another. -/
def nesting : Json → Nat
  | .array items => itemsNesting items + 1
  | .object members => membersNesting members + 1
  | _ => 0

def itemsNesting : List Json → Nat
  | [] => 0
  | j :: js => max j.nesting (itemsNesting js)

def membersNesting : List (Option String × Json) → Nat
  | [] => 0
  | (_, j) :: ms => max j.nesting (membersNesting ms)

end

theorem itemsNesting_le {js : List Json} {room : Nat} :
    itemsNesting js ≤ room ↔ ∀ j ∈ js, j.nesting ≤ room := by
  induction js with
  | nil => simp [itemsNesting]
  | cons j js ih => rw [itemsNesting, Nat.max_le, ih, List.forall_mem_cons]

theorem membersNesting_le {ms : List (String × Json)} {room : Nat} :
    membersNesting (ms.map fun m => (some m.1, m.2)) ≤ room ↔ ∀ m ∈ ms, m.2.nesting ≤ room := by
  induction ms with
  | nil => simp [membersNesting]
  | cons m ms ih => rw [List.map_cons, membersNesting, Nat.max_le, ih, List.forall_mem_cons]

/-- An array needs room for itself and for each item. -/
theorem nesting_array_le {js : List Json} {room : Nat} :
    (array js).nesting ≤ room ↔ ∃ r, room = r + 1 ∧ ∀ j ∈ js, j.nesting ≤ r := by
  rw [nesting]
  cases room with
  | zero => simp
  | succ room => simp [itemsNesting_le]

/-- A record needs room for itself and for each field. -/
theorem nesting_record_le {ms : List (String × Json)} {room : Nat} :
    (record ms).nesting ≤ room ↔ ∃ r, room = r + 1 ∧ ∀ m ∈ ms, m.2.nesting ≤ r := by
  rw [record, nesting]
  cases room with
  | zero => simp
  | succ room => simp [membersNesting_le]

/-- A choice needs room for itself and for its contents. -/
theorem nesting_choice_le {tag : String} {body : Json} {room : Nat} :
    (choice tag body).nesting ≤ room ↔ ∃ r, room = r + 1 ∧ body.nesting ≤ r := by
  rw [show choice tag body = record [(tag, body)] from rfl, nesting_record_le]
  simp

theorem plain_choice {tag : String} {body : Json} (h : Plain body) : Plain (choice tag body) :=
  show Plain (record [(tag, body)]) from .record (by simpa using h)

theorem plain_ofString (s : String) : Plain (ofString s) := .string s

/-- A choice with contents spells no other choice than its own. -/
theorem eq_of_bareTag?_choice {room : Nat} {tag name : String} {body : Json}
    (h : bareTag? room (choice tag body) = some name) : tag = name := by
  unfold bareTag? choice at h
  split at h
  · rename_i heq
    cases heq
  · rename_i heq
    cases heq
    split at h
    · cases h
    · exact Option.some.inj h
  · cases h

/-! ## Numbers -/

theorem plain_ofNat (n : Nat) : Plain (ofNat n) := .number (Numeral.proper_ofNat n)

theorem plain_ofInt (i : Int) : Plain (ofInt i) := .number (Numeral.proper_ofInt i)

theorem int?_ofInt (i : Int) : (Numeral.ofInt i).int? = some i := by
  unfold Numeral.int? Numeral.ofInt
  simp only [Option.isSome_none, Bool.or_self, Bool.false_eq_true, if_false,
    Decimal.digitsValue_digitChars, decide_eq_true_eq]
  split
  · rw [if_neg (by omega)]
    congr 1
    simp only [Int.ofNat_eq_natCast]
    omega
  · congr 1
    omega

theorem intIn?_ofInt {lo hi i : Int} (hlo : lo ≤ i) (hhi : i ≤ hi) :
    (ofInt i).intIn? lo hi = some i := by
  rw [ofInt, intIn?, int?_ofInt, Option.filter_some, if_pos (by simp [hlo, hhi])]

/-- A number is read back when it fits in a word. -/
theorem word?_ofNat {n : Nat} (h : n < UInt64.size) : (ofNat n).word? = some n := by
  have hint : ofNat n = ofInt n := by
    simp [ofNat, ofInt, Numeral.ofNat, Numeral.ofInt]
  rw [word?, hint, intIn?_ofInt (Int.natCast_nonneg n) (by omega)]
  rfl

/-- A number that was read fits in a word. -/
theorem lt_of_word? {j : Json} {n : Nat} (h : j.word? = some n) : n < UInt64.size := by
  obtain ⟨i, hi, rfl⟩ := Option.map_eq_some_iff.mp h
  cases j with
  | number m =>
    obtain ⟨_, hbounds⟩ := Option.filter_eq_some_iff.mp hi
    simp only [Bool.and_eq_true, decide_eq_true_eq] at hbounds
    have : 0 < UInt64.size := by decide
    omega
  | _ => cases hi

end Json

/-! ## Forms -/

section Sequences

variable {α β : Type} {f : β → Option α}

theorem mapM_map_some {as : List α} {g : α → β} (h : ∀ a ∈ as, f (g a) = some a) :
    (as.map g).mapM f = some as := by
  induction as with
  | nil => rfl
  | cons a as ih =>
    rw [List.map_cons, List.mapM_cons, h a (List.mem_cons_self ..),
      ih fun x hx => h x (List.mem_cons_of_mem _ hx)]
    rfl

theorem exists_of_mapM_some {bs : List β} {as : List α} (h : bs.mapM f = some as) :
    ∀ a ∈ as, ∃ b ∈ bs, f b = some a := by
  induction bs generalizing as with
  | nil =>
    cases h
    nofun
  | cons b bs ih =>
    rw [List.mapM_cons] at h
    obtain ⟨a, ha, h⟩ := Option.bind_eq_some_iff.mp h
    obtain ⟨as', has, h⟩ := Option.bind_eq_some_iff.mp h
    cases h
    intro x hx
    rcases List.mem_cons.mp hx with rfl | hx
    · exact ⟨b, List.mem_cons_self .., ha⟩
    · obtain ⟨b', hb', hx⟩ := ih has x hx
      exact ⟨b', List.mem_cons_of_mem _ hb', hx⟩

end Sequences

namespace Coded

section

variable {α : Type} [Coded α]

/-- With that room, the form of a value is read back as the value. -/
def Returns (room : Nat) (a : α) : Prop := ofJson? room (toJson a) = some a

theorem Returns.eq {room : Nat} {a : α} (h : Returns room a) : ofJson? room (toJson a) = some a := h

end

/-- Nothing is lost of the values that satisfy `Exact`, as long as their numbers fit
(`Fits`) and there is room. -/
structure Lossless (α : Type) [Coded α] (Fits Exact : α → Prop) : Prop where
  /-- The form spells something. -/
  plain : ∀ {a : α}, Exact a → (toJson a).Plain
  /-- The form is read back. -/
  returns : ∀ {room : Nat} {a : α}, Fits a → Exact a → (toJson a).nesting ≤ room → Returns room a
  /-- The form of a value that was read from any form is read back. -/
  again : ∀ {room : Nat} {j : Json} {a : α}, ofJson? room j = some a → Exact a → Returns room a

/-- Values survive being written and read: those whose form is not too deep, and those that
were read from some text. -/
def RoundTrips (α : Type) [Coded α] (Fits Exact : α → Prop) : Prop :=
  (∀ a : α, Fits a → Exact a → (toJson a).nesting ≤ Json.depthLimit →
    read? (write a) = some a) ∧
  ∀ (s : String) (a : α), read? s = some a → Exact a → read? (write a) = some a

variable {α : Type} [Coded α] {Fits Exact : α → Prop}

theorem read?_write {a : α} (hplain : (toJson a).Plain) (h : Returns Json.depthLimit a) :
    read? (write a) = some a := by
  rw [read?, write, Json.parse?_text hplain]
  exact h

theorem Lossless.roundTrips (h : Lossless α Fits Exact) : RoundTrips α Fits Exact := by
  refine ⟨fun a hfits hexact hdeep => ?_, fun s a hread hexact => ?_⟩
  · exact read?_write (h.plain hexact) (h.returns hfits hexact hdeep)
  · obtain ⟨j, -, hj⟩ := Option.bind_eq_some_iff.mp hread
    exact read?_write (h.plain hexact) (h.again hj hexact)

theorem Lossless.weaken {Fits' Exact' : α → Prop} (h : Lossless α Fits Exact)
    (hfits : ∀ a, Fits' a → Fits a) (hexact : ∀ a, Exact' a → Exact a) :
    Lossless α Fits' Exact' where
  plain h' := h.plain (hexact _ h')
  returns h' h'' := h.returns (hfits _ h') (hexact _ h'')
  again hread h' := h.again hread (hexact _ h')

/-- Among choices without contents, none is spelled by a choice that has another name. -/
theorem bareTag?_bind_ofTag?_choice {β : Type} {all : List β} {name : β → String} {tag : String}
    (h : ofTag? all name tag = none) (room : Nat) (body : Json) :
    (Json.bareTag? room (.choice tag body)).bind (ofTag? all name) = none := by
  cases hbare : Json.bareTag? room (.choice tag body) with
  | none => rfl
  | some s =>
    obtain rfl := Json.eq_of_bareTag?_choice hbare
    exact h

/-! ## Texts, lists and options -/

theorem lossless_string : Lossless String (fun _ => True) (fun _ => True) where
  plain _ := .string _
  returns _ _ _ := rfl
  again _ _ := rfl

theorem returns_list {room : Nat} {as : List α} (h : ∀ a ∈ as, Returns room a) :
    Returns (room + 1) as :=
  mapM_map_some h

theorem again_list {room : Nat} {j : Json} {as : List α} (h : ofJson? room j = some as) :
    ∃ r, room = r + 1 ∧ ∀ a ∈ as, ∃ b : Json, ofJson? r b = some a := by
  replace h : items? room j = some as := h
  unfold items? at h
  split at h
  · rename_i r js
    refine ⟨r, rfl, fun a ha => ?_⟩
    obtain ⟨b, -, hb⟩ := exists_of_mapM_some h a ha
    exact ⟨b, hb⟩
  · cases h

theorem Lossless.list (h : Lossless α Fits Exact) :
    Lossless (List α) (fun as => ∀ a ∈ as, Fits a) (fun as => ∀ a ∈ as, Exact a) where
  plain hexact := by
    refine .array fun j hj => ?_
    obtain ⟨a, ha, rfl⟩ := List.mem_map.mp hj
    exact h.plain (hexact a ha)
  returns hfits hexact hdeep := by
    obtain ⟨r, rfl, hitems⟩ := Json.nesting_array_le.mp hdeep
    refine returns_list fun a ha => h.returns (hfits a ha) (hexact a ha) ?_
    exact hitems _ (List.mem_map_of_mem ha)
  again hread hexact := by
    obtain ⟨r, rfl, hitems⟩ := again_list hread
    refine returns_list fun a ha => ?_
    obtain ⟨b, hb⟩ := hitems a ha
    exact h.again hb (hexact a ha)

/-- A list that may be left out: its form is never that of an absent one. -/
theorem Lossless.optional {Fits Exact : List α → Prop} (h : Lossless (List α) Fits Exact) :
    Lossless (Option (List α)) (fun o => ∀ as ∈ o, Fits as) (fun o => ∀ as ∈ o, Exact as) where
  plain {o} hexact := by
    cases o with
    | none => exact .null
    | some as => exact h.plain (hexact as rfl)
  returns {_ o} hfits hexact hdeep := by
    cases o with
    | none => rfl
    | some as =>
      exact congrArg (Option.map some) (h.returns (hfits as rfl) (hexact as rfl) hdeep).eq
  again {_ _ o} hread hexact := by
    cases o with
    | none => rfl
    | some as =>
      simp only [ofJson?] at hread
      split at hread
      · cases hread
      · obtain ⟨as', has, heq⟩ := Option.map_eq_some_iff.mp hread
        cases heq
        exact congrArg (Option.map some) (h.again has (hexact as rfl)).eq

end Coded

end Dataflow
