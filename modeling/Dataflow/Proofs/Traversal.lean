import Mathlib.Data.List.Forall2
import Dataflow.Traverse

/-!
# Lists related place by place

A map that may fail succeeds exactly when it relates the two lists place by
place (`mapM_ok`). Members of related lists are found by their place.
-/

namespace Dataflow

open List (Forall₂)

variable {ε α β γ : Type}

theorem mapM_ok {f : α → Except ε β} {xs : List α} {ys : List β} :
    xs.mapM f = .ok ys ↔ Forall₂ (fun x y => f x = .ok y) xs ys := by
  constructor
  · intro h
    induction xs generalizing ys with
    | nil => rw [List.mapM_nil] at h; cases h; exact .nil
    | cons x xs ih =>
      obtain ⟨y, ys', rfl, hy, hys⟩ := mapM_cons_ok h
      exact .cons hy (ih hys)
  · intro h
    induction h with
    | nil => rfl
    | cons hy _ ih => rw [List.mapM_cons, hy, ih]; rfl

theorem mapM_congr {f h : α → Except ε β} {xs : List α} (hf : ∀ x ∈ xs, f x = h x) :
    xs.mapM f = xs.mapM h := by
  induction xs with
  | nil => rfl
  | cons x xs ih =>
    rw [List.mapM_cons, List.mapM_cons, hf x (List.mem_cons_self ..),
      ih fun z hz => hf z (List.mem_cons_of_mem _ hz)]

/-- The part of a list from some place on. -/
theorem drop_eq_cons {xs rest : List α} {k : Nat} {x : α} :
    xs.drop k = x :: rest ↔ xs[k]? = some x ∧ xs.drop (k + 1) = rest := by
  constructor
  · intro h
    rw [← List.head?_drop, ← List.tail_drop, h]
    exact ⟨rfl, rfl⟩
  · rintro ⟨hx, rfl⟩
    obtain ⟨hlt, rfl⟩ := List.getElem?_eq_some_iff.mp hx
    exact List.drop_eq_getElem_cons hlt

section Related

variable {R : α → β → Prop} {xs : List α} {ys : List β}

theorem getElem?_of_left (h : Forall₂ R xs ys) {i : Nat} {x : α} (hx : xs[i]? = some x) :
    ∃ y, ys[i]? = some y ∧ R x y := by
  induction h generalizing i with
  | nil => cases hx
  | cons hR _ ih =>
    cases i with
    | zero => cases hx; exact ⟨_, rfl, hR⟩
    | succ i => exact ih hx

theorem getElem?_of_right (h : Forall₂ R xs ys) {i : Nat} {y : β} (hy : ys[i]? = some y) :
    ∃ x, xs[i]? = some x ∧ R x y := by
  induction h generalizing i with
  | nil => cases hy
  | cons hR _ ih =>
    cases i with
    | zero => cases hy; exact ⟨_, rfl, hR⟩
    | succ i => exact ih hy

theorem mem_of_left (h : Forall₂ R xs ys) {x : α} (hx : x ∈ xs) : ∃ y ∈ ys, R x y := by
  obtain ⟨i, hi⟩ := List.mem_iff_getElem?.mp hx
  obtain ⟨y, hy, hR⟩ := getElem?_of_left h hi
  exact ⟨y, List.mem_of_getElem? hy, hR⟩

theorem mem_of_right (h : Forall₂ R xs ys) {y : β} (hy : y ∈ ys) : ∃ x ∈ xs, R x y := by
  obtain ⟨i, hi⟩ := List.mem_iff_getElem?.mp hy
  obtain ⟨x, hx, hR⟩ := getElem?_of_right h hi
  exact ⟨x, List.mem_of_getElem? hx, hR⟩

theorem forall₂_of_getElem? (hlen : xs.length = ys.length)
    (h : ∀ (i : Nat) (x : α) (y : β), xs[i]? = some x → ys[i]? = some y → R x y) :
    Forall₂ R xs ys := by
  induction xs generalizing ys with
  | nil =>
    cases ys with
    | nil => exact .nil
    | cons y ys => cases hlen
  | cons x xs ih =>
    cases ys with
    | nil => cases hlen
    | cons y ys =>
      exact .cons (h 0 x y rfl rfl)
        (ih (Nat.succ.inj hlen) fun i a b ha hb => h (i + 1) a b ha hb)

/-- A partner for every member makes a related list. -/
theorem exists_forall₂ (h : ∀ x ∈ xs, ∃ y, R x y) : ∃ ys, Forall₂ R xs ys := by
  induction xs with
  | nil => exact ⟨[], .nil⟩
  | cons x xs ih =>
    obtain ⟨y, hy⟩ := h x (List.mem_cons_self ..)
    obtain ⟨ys, hys⟩ := ih fun z hz => h z (List.mem_cons_of_mem _ hz)
    exact ⟨y :: ys, .cons hy hys⟩

end Related

theorem exists_mapM_ok {f : α → Except ε β} {xs : List α} (h : ∀ x ∈ xs, ∃ y, f x = .ok y) :
    ∃ ys, xs.mapM f = .ok ys := (exists_forall₂ h).imp fun _ => mapM_ok.mpr

theorem exists_pure {x : Except ε α} {f : α → β} (h : ∃ a, x = .ok a) :
    ∃ b, (do return f (← x)) = Except.ok b := by
  obtain ⟨a, rfl⟩ := h
  exact ⟨_, rfl⟩

/-- Three lists related place by place. -/
inductive Along (R : α → β → γ → Prop) : List α → List β → List γ → Prop
  | nil : Along R [] [] []
  | cons {x : α} {y : β} {z : γ} {xs : List α} {ys : List β} {zs : List γ} (h : R x y z)
      (rest : Along R xs ys zs) : Along R (x :: xs) (y :: ys) (z :: zs)

namespace Along

variable {R S : α → β → γ → Prop} {xs : List α} {ys : List β} {zs : List γ}

theorem imp (h : Along R xs ys zs) (hRS : ∀ x y z, R x y z → S x y z) : Along S xs ys zs := by
  induction h with
  | nil => exact .nil
  | cons h _ ih => exact .cons (hRS _ _ _ h) ih

theorem of_zip (hlen : xs.length = zs.length)
    (h : Forall₂ (fun x y => R x.1 y x.2) (xs.zip zs) ys) : Along R xs ys zs := by
  induction xs generalizing ys zs with
  | nil =>
    cases zs with
    | nil => cases h; exact .nil
    | cons z zs => cases hlen
  | cons x xs ih =>
    cases zs with
    | nil => cases hlen
    | cons z zs =>
      cases h with
      | cons h rest => exact .cons h (ih (Nat.succ.inj hlen) rest)

theorem of_getElem? (hy : ys.length = xs.length) (hz : zs.length = xs.length)
    (h : ∀ (i : Nat) (x : α) (y : β) (z : γ), xs[i]? = some x → ys[i]? = some y →
      zs[i]? = some z → R x y z) : Along R xs ys zs := by
  induction xs generalizing ys zs with
  | nil =>
    rw [List.length_eq_zero_iff.mp hy, List.length_eq_zero_iff.mp hz]
    exact .nil
  | cons x xs ih =>
    obtain ⟨y, ys, rfl⟩ := List.exists_cons_of_length_eq_add_one hy
    obtain ⟨z, zs, rfl⟩ := List.exists_cons_of_length_eq_add_one hz
    exact .cons (h 0 x y z rfl rfl rfl) (ih (Nat.succ.inj hy) (Nat.succ.inj hz)
      fun i a b c ha hb hc => h (i + 1) a b c ha hb hc)

theorem length_eq (h : Along R xs ys zs) : ys.length = xs.length ∧ zs.length = xs.length := by
  induction h with
  | nil => exact ⟨rfl, rfl⟩
  | cons _ _ ih => exact ⟨congrArg Nat.succ ih.1, congrArg Nat.succ ih.2⟩

theorem getElem?_of_left (h : Along R xs ys zs) {i : Nat} {x : α} (hx : xs[i]? = some x) :
    ∃ y z, ys[i]? = some y ∧ zs[i]? = some z ∧ R x y z := by
  induction h generalizing i with
  | nil => cases hx
  | cons h _ ih =>
    cases i with
    | zero => cases hx; exact ⟨_, _, rfl, rfl, h⟩
    | succ i => exact ih hx

theorem getElem?_of_last (h : Along R xs ys zs) {i : Nat} {z : γ} (hz : zs[i]? = some z) :
    ∃ x y, xs[i]? = some x ∧ ys[i]? = some y ∧ R x y z := by
  have hi : i < xs.length := h.length_eq.2 ▸ (List.getElem?_eq_some_iff.mp hz).1
  have hx := List.getElem?_eq_getElem hi
  obtain ⟨y, z', hy, hz', hR⟩ := h.getElem?_of_left hx
  rw [hz] at hz'
  cases hz'
  exact ⟨_, y, hx, hy, hR⟩

end Along

end Dataflow
