/-!
# Mapping with failure

What a list is after each of its elements was mapped by a function that may
fail: element by element, the function succeeded with the element found there.
-/

namespace Dataflow

variable {ε α β : Type}

/-- A successful map has an outcome for the head and a successful map of the
tail. -/
theorem mapM_cons_ok {f : α → Except ε β} {x : α} {xs : List α} {ys : List β}
    (h : (x :: xs).mapM f = .ok ys) :
    ∃ y ys', ys = y :: ys' ∧ f x = .ok y ∧ xs.mapM f = .ok ys' := by
  rw [List.mapM_cons] at h
  cases hx : f x with
  | error e => rw [hx] at h; cases h
  | ok y =>
    rw [hx] at h
    cases hxs : xs.mapM f with
    | error e => rw [hxs] at h; cases h
    | ok ys' =>
      rw [hxs] at h
      cases h
      exact ⟨y, ys', rfl, rfl, rfl⟩

/-- Every outcome is the outcome of the element at the same place. -/
theorem getElem?_of_mapM_ok {f : α → Except ε β} {xs : List α} {ys : List β}
    (h : xs.mapM f = .ok ys) {i : Nat} {y : β} (hy : ys[i]? = some y) :
    ∃ x, xs[i]? = some x ∧ f x = .ok y := by
  induction xs generalizing ys i with
  | nil => rw [List.mapM_nil] at h; cases h; cases hy
  | cons x xs ih =>
    obtain ⟨z, ys', rfl, hz, hys⟩ := mapM_cons_ok h
    cases i with
    | zero => exact ⟨x, rfl, by simpa [← Option.some.inj hy] using hz⟩
    | succ i => exact ih hys hy

/-- Every outcome is the outcome of some element. -/
theorem mem_of_mapM_ok {f : α → Except ε β} {xs : List α} {ys : List β}
    (h : xs.mapM f = .ok ys) {y : β} (hy : y ∈ ys) : ∃ x ∈ xs, f x = .ok y := by
  obtain ⟨i, hi⟩ := List.mem_iff_getElem?.mp hy
  obtain ⟨x, hx, hf⟩ := getElem?_of_mapM_ok h hi
  exact ⟨x, List.mem_iff_getElem?.mpr ⟨i, hx⟩, hf⟩

/-- A successful computation that continues succeeded at first. -/
theorem bind_ok {a : Except ε α} {f : α → Except ε β} {b : β} (h : a >>= f = .ok b) :
    ∃ x, a = .ok x ∧ f x = .ok b := by
  cases a with
  | error e => cases h
  | ok x => exact ⟨x, rfl, h⟩

end Dataflow
