import Dataflow.Expr.Reads
import Dataflow.Expr.Renumber
import Dataflow.Proofs.Expr.Walked
import Dataflow.Traverse

/-!
# Renumbered expressions

`Renumbered r e e'` relates an expression to what renumbering makes of it, one
case for each way in which an expression reads its row. A key or some columns
taken directly of a column are cases of their own (`Direct`), because there
less than the whole field is read, and because inner columns have numbers too.

The facts about narrowed expressions are inductions over this relation; that it
holds of a successful renumbering is `renumbered_of_ok`. When renumbering
succeeds (`exists_renumber`) and when it changes nothing (`renumber_eq_self`)
depends only on the fields that the expression reads.
-/

namespace Dataflow.Expr

/-- The operation reads a part of a column. -/
def Direct : Unary → Expr → Prop
  | .lookup _, .column _ => True
  | .select _, .column _ => True
  | _, _ => False

theorem reads_unary {op : Unary} {e : Expr} (h : ¬ Direct op e) :
    (Expr.unary op e).reads = e.reads := by
  cases op <;> cases e <;> first | rfl | exact absurd trivial h

/-- Induction that keeps apart the operations that read a part of a column. -/
@[elab_as_elim]
theorem readingInduction {motive : Expr → Prop}
    (column : ∀ p, motive (.column p))
    (literal : ∀ v, motive (.literal v))
    (star : motive .star)
    (lookup : ∀ p k, motive (.lookup (.column p) k))
    (select : ∀ p cs, motive (.select (.column p) cs))
    (unary : ∀ op e, ¬ Direct op e → motive e → motive (.unary op e))
    (binary : ∀ op l r, motive l → motive r → motive (.binary op l r))
    (ifElse : ∀ t e p, motive t → motive e → motive p → motive (.ifElse t e p))
    (call : ∀ f args, (∀ a ∈ args, motive a) → motive (.call f args)) (e : Expr) : motive e := by
  induction e using nestedInduction with
  | column p => exact column p
  | literal v => exact literal v
  | star => exact star
  | unary op e ih =>
    by_cases h : Direct op e
    · unfold Direct at h
      split at h
      · exact lookup ..
      · exact select ..
      · exact h.elim
    · exact unary op e h ih
  | binary op l r ihl ihr => exact binary op l r ihl ihr
  | ifElse t e p iht ihe ihp => exact ifElse t e p iht ihe ihp
  | call f args ih => exact call f args ih

/-! ## Accesses -/

theorem mem_readsAll {args : List Expr} {x : Nat × Access} :
    x ∈ (readsAll args).accesses ↔ ∃ a ∈ args, x ∈ a.reads.accesses := by
  induction args with
  | nil => simp [readsAll, Reads.none]
  | cons a as ih =>
    show x ∈ a.reads.accesses ++ (readsAll as).accesses ↔ _
    simp [ih]

theorem star_readsAll {args : List Expr} :
    (readsAll args).star = true ↔ ∃ a ∈ args, a.reads.star = true := by
  induction args with
  | nil => simp [readsAll, Reads.none]
  | cons a as ih =>
    show (a.reads.star || (readsAll as).star) = true ↔ _
    simp [ih]

theorem reads_binary (op : BinaryOp) (l r : Expr) :
    (Expr.binary op l r).reads = l.reads ++ r.reads := rfl

theorem reads_ifElse (t e p : Expr) :
    (Expr.ifElse t e p).reads = t.reads ++ e.reads ++ p.reads := rfl

theorem reads_call (f : Function) (args : List Expr) :
    (Expr.call f args).reads = readsAll args := rfl

end Dataflow.Expr

namespace Dataflow

theorem Reads.mem_append {a b : Reads} {x : Nat × Access} :
    x ∈ (a ++ b).accesses ↔ x ∈ a.accesses ∨ x ∈ b.accesses := List.mem_append

theorem Reads.star_append {a b : Reads} :
    (a ++ b).star = true ↔ a.star = true ∨ b.star = true := Bool.or_eq_true_iff

namespace Expr

variable {ε : Type} {r : Renumbering ε}

/-! ## The relation -/

/-- An expression, and the same with new positions. -/
inductive Renumbered (r : Renumbering ε) : Expr → Expr → Prop
  | column {p q : Nat} (hq : r.column p = .ok q) : Renumbered r (.column p) (.column q)
  | literal (v : Literal) : Renumbered r (.literal v) (.literal v)
  | star : Renumbered r .star .star
  | lookup {p q : Nat} (k : String) (hq : r.column p = .ok q) :
      Renumbered r (.lookup (.column p) k) (.lookup (.column q) k)
  | select {p q : Nat} {cs cs' : List Nat} (hq : r.column p = .ok q)
      (hcs : r.inner p cs = .ok cs') :
      Renumbered r (.select (.column p) cs) (.select (.column q) cs')
  | unary {op : Unary} {e e' : Expr} (hop : ¬ Direct op e) (h : Renumbered r e e') :
      Renumbered r (.unary op e) (.unary op e')
  | binary (op : BinaryOp) {x x' y y' : Expr} (hx : Renumbered r x x') (hy : Renumbered r y y') :
      Renumbered r (.binary op x y) (.binary op x' y')
  | ifElse {t t' e e' p p' : Expr} (ht : Renumbered r t t') (he : Renumbered r e e')
      (hp : Renumbered r p p') : Renumbered r (.ifElse t e p) (.ifElse t' e' p')
  | call (f : Function) {args args' : List Expr} (hlen : args'.length = args.length)
      (h : ∀ (i : Nat) (a a' : Expr), args[i]? = some a → args'[i]? = some a' →
        Renumbered r a a') :
      Renumbered r (.call f args) (.call f args')

theorem renumber_unary {op : Unary} {e : Expr} (h : ¬ Direct op e) :
    (Expr.unary op e).renumber r = do
      let e' ← e.renumber r
      return ⟨.unary op e'.value, e'.changed, .proceed⟩ := by
  cases op <;> cases e <;> first | rfl | exact absurd trivial h

/-- Renumbering several expressions renumbers each of them. -/
theorem renumberAll_ok {args : List Expr} {out : Revised (List Expr)}
    (h : renumberAll r args = .ok out) :
    out.value.length = args.length ∧ ∀ (i : Nat) (a a' : Expr), args[i]? = some a →
      out.value[i]? = some a' → ∃ b, a.renumber r = .ok b ∧ b.value = a' := by
  induction args generalizing out with
  | nil => cases h; exact ⟨rfl, nofun⟩
  | cons x xs ih =>
    obtain ⟨x', hx, h⟩ := bind_ok h
    obtain ⟨xs', hxs, h⟩ := bind_ok h
    cases h
    obtain ⟨hlen, hall⟩ := ih hxs
    refine ⟨congrArg Nat.succ hlen, fun i a a' ha ha' => ?_⟩
    cases i with
    | zero =>
      cases ha
      cases ha'
      exact ⟨x', hx, rfl⟩
    | succ i => exact hall i a a' ha ha'

theorem renumbered_of_ok {e : Expr} {out : Revised Expr} (h : e.renumber r = .ok out) :
    Renumbered r e out.value := by
  induction e using readingInduction generalizing out with
  | column p =>
    obtain ⟨q, hq, h⟩ := bind_ok h
    cases h
    exact .column hq
  | literal v => cases h; exact .literal v
  | star => cases h; exact .star
  | lookup p k =>
    obtain ⟨e', he, h⟩ := bind_ok h
    obtain ⟨q, hq, he⟩ := bind_ok he
    cases he
    cases h
    exact .lookup k hq
  | select p cs =>
    obtain ⟨q, hq, h⟩ := bind_ok h
    obtain ⟨cs', hcs, h⟩ := bind_ok h
    cases h
    exact .select hq hcs
  | unary op e hop ih =>
    rw [renumber_unary hop] at h
    obtain ⟨e', he, h⟩ := bind_ok h
    cases h
    exact .unary hop (ih he)
  | binary op x y ihx ihy =>
    obtain ⟨x', hx, h⟩ := bind_ok h
    obtain ⟨y', hy, h⟩ := bind_ok h
    cases h
    exact .binary op (ihx hx) (ihy hy)
  | ifElse t e p iht ihe ihp =>
    obtain ⟨t', ht, h⟩ := bind_ok h
    obtain ⟨e', he, h⟩ := bind_ok h
    obtain ⟨p', hp, h⟩ := bind_ok h
    cases h
    exact .ifElse (iht ht) (ihe he) (ihp hp)
  | call f args ih =>
    obtain ⟨args', hargs, h⟩ := bind_ok h
    cases h
    obtain ⟨hlen, hall⟩ := renumberAll_ok hargs
    refine .call f hlen fun i a a' ha ha' => ?_
    obtain ⟨b, hb, rfl⟩ := hall i a a' ha ha'
    exact ih a (List.mem_of_getElem? ha) hb

/-! ## When renumbering succeeds -/

/-- New positions exist for what an access reads. -/
def Renumbers (r : Renumbering ε) (x : Nat × Access) : Prop :=
  (∃ q, r.column x.1 = .ok q) ∧ ∀ cs, x.2 = .columns cs → ∃ cs', r.inner x.1 cs = .ok cs'

theorem exists_renumberAll {args : List Expr}
    (h : ∀ a ∈ args, ∃ out, a.renumber r = .ok out) : ∃ out, renumberAll r args = .ok out := by
  induction args with
  | nil => exact ⟨_, rfl⟩
  | cons a as ih =>
    obtain ⟨a', ha⟩ := h a (List.mem_cons_self ..)
    obtain ⟨as', has⟩ := ih fun x hx => h x (List.mem_cons_of_mem _ hx)
    exact ⟨_, by simp only [renumberAll, ha, has]; rfl⟩

/-- Renumbering succeeds if there are new positions for everything that is
read. -/
theorem exists_renumber {e : Expr} (h : ∀ x ∈ e.reads.accesses, Renumbers r x) :
    ∃ out, e.renumber r = .ok out := by
  induction e using readingInduction with
  | column p =>
    obtain ⟨q, hq⟩ := (h (p, .whole) (List.mem_singleton.mpr rfl)).1
    exact ⟨_, by simp only [renumber, hq]; rfl⟩
  | literal v => exact ⟨_, rfl⟩
  | star => exact ⟨_, rfl⟩
  | lookup p k =>
    obtain ⟨q, hq⟩ := (h (p, .key k) (List.mem_singleton.mpr rfl)).1
    exact ⟨_, by simp only [renumber, hq]; rfl⟩
  | select p cs =>
    obtain ⟨⟨q, hq⟩, hin⟩ := h (p, .columns cs) (List.mem_singleton.mpr rfl)
    obtain ⟨cs', hcs⟩ := hin cs rfl
    exact ⟨_, by simp only [renumber, hq, hcs]; rfl⟩
  | unary op e hop ih =>
    rw [reads_unary hop] at h
    obtain ⟨e', he⟩ := ih h
    exact ⟨_, by rw [renumber_unary hop, he]; rfl⟩
  | binary op x y ihx ihy =>
    obtain ⟨x', hx⟩ := ihx fun a ha => h a (Reads.mem_append.mpr (Or.inl ha))
    obtain ⟨y', hy⟩ := ihy fun a ha => h a (Reads.mem_append.mpr (Or.inr ha))
    exact ⟨_, by simp only [renumber, hx, hy]; rfl⟩
  | ifElse t e p iht ihe ihp =>
    simp only [reads_ifElse, Reads.mem_append] at h
    obtain ⟨t', ht⟩ := iht fun a ha => h a (Or.inl (Or.inl ha))
    obtain ⟨e', he⟩ := ihe fun a ha => h a (Or.inl (Or.inr ha))
    obtain ⟨p', hp⟩ := ihp fun a ha => h a (Or.inr ha)
    exact ⟨_, by simp only [renumber, ht, he, hp]; rfl⟩
  | call f args ih =>
    obtain ⟨args', hargs⟩ := exists_renumberAll fun a ha =>
      ih a ha fun x hx => h x (mem_readsAll.mpr ⟨a, ha, hx⟩)
    exact ⟨_, by simp only [renumber, hargs]; rfl⟩

theorem renumberAll_unchanged {args : List Expr} {out : Revised (List Expr)}
    (h : renumberAll r args = .ok out) (hc : out.changed = false)
    (ih : ∀ a ∈ args, ∀ b : Revised Expr, a.renumber r = .ok b → b.changed = false →
      b.value = a) : out.value = args := by
  induction args generalizing out with
  | nil => cases h; rfl
  | cons x xs ihs =>
    obtain ⟨x', hx, h⟩ := bind_ok h
    obtain ⟨xs', hxs, h⟩ := bind_ok h
    cases h
    obtain ⟨hc₁, hc₂⟩ := Bool.or_eq_false_iff.mp hc
    show x'.value :: xs'.value = _
    rw [ih x (List.mem_cons_self ..) x' hx hc₁,
      ihs hxs hc₂ fun a ha => ih a (List.mem_cons_of_mem _ ha)]

/-- What renumbering reports as unchanged is the expression itself. -/
theorem eq_of_renumber_unchanged {e : Expr} {out : Revised Expr} (h : e.renumber r = .ok out)
    (hc : out.changed = false) : out.value = e := by
  induction e using readingInduction generalizing out with
  | column p =>
    obtain ⟨q, hq, h⟩ := bind_ok h
    cases h
    have : q = p := by simpa using hc
    rw [this]
  | literal v => cases h; rfl
  | star => cases h; rfl
  | lookup p k =>
    obtain ⟨e', he, h⟩ := bind_ok h
    obtain ⟨q, hq, he⟩ := bind_ok he
    cases he
    cases h
    have : q = p := by simpa using hc
    rw [this]
  | select p cs =>
    obtain ⟨q, hq, h⟩ := bind_ok h
    obtain ⟨cs', hcs, h⟩ := bind_ok h
    cases h
    obtain ⟨h₁, h₂⟩ := Bool.or_eq_false_iff.mp hc
    have hqp : q = p := by simpa using h₁
    have hcs : cs' = cs := by simpa using h₂
    rw [hqp, hcs]
  | unary op e hop ih =>
    rw [renumber_unary hop] at h
    obtain ⟨e', he, h⟩ := bind_ok h
    cases h
    exact congrArg (Expr.unary op) (ih he hc)
  | binary op x y ihx ihy =>
    obtain ⟨x', hx, h⟩ := bind_ok h
    obtain ⟨y', hy, h⟩ := bind_ok h
    cases h
    obtain ⟨h₁, h₂⟩ := Bool.or_eq_false_iff.mp hc
    show Expr.binary op x'.value y'.value = _
    rw [ihx hx h₁, ihy hy h₂]
  | ifElse t e p iht ihe ihp =>
    obtain ⟨t', ht, h⟩ := bind_ok h
    obtain ⟨e', he, h⟩ := bind_ok h
    obtain ⟨p', hp, h⟩ := bind_ok h
    cases h
    obtain ⟨h₁₂, h₃⟩ := Bool.or_eq_false_iff.mp hc
    obtain ⟨h₁, h₂⟩ := Bool.or_eq_false_iff.mp h₁₂
    show Expr.ifElse t'.value e'.value p'.value = _
    rw [iht ht h₁, ihe he h₂, ihp hp h₃]
  | call f args ih =>
    obtain ⟨args', hargs, h⟩ := bind_ok h
    cases h
    exact congrArg (Expr.call f) (renumberAll_unchanged hargs hc fun a ha _ hb => ih a ha hb)

/-- The new positions of what an access reads are the old ones. -/
def Keeps (r : Renumbering ε) (x : Nat × Access) : Prop :=
  r.column x.1 = .ok x.1 ∧ ∀ cs, x.2 = .columns cs → r.inner x.1 cs = .ok cs

theorem renumberAll_eq_self {args : List Expr}
    (h : ∀ a ∈ args, a.renumber r = .ok (.unchanged a)) :
    renumberAll r args = .ok (.unchanged args) := by
  induction args with
  | nil => rfl
  | cons a as ih =>
    simp only [renumberAll, h a (List.mem_cons_self ..),
      ih fun x hx => h x (List.mem_cons_of_mem _ hx)]
    rfl

/-- Renumbering changes nothing if everything that is read keeps its
positions. -/
theorem renumber_eq_self {e : Expr} (h : ∀ x ∈ e.reads.accesses, Keeps r x) :
    e.renumber r = .ok (.unchanged e) := by
  induction e using readingInduction with
  | column p =>
    have hq := (h (p, .whole) (List.mem_singleton.mpr rfl)).1
    simp [renumber, hq, Revised.unchanged, bind, Except.bind, pure, Except.pure]
  | literal v => rfl
  | star => rfl
  | lookup p k =>
    have hq := (h (p, .key k) (List.mem_singleton.mpr rfl)).1
    simp [renumber, hq, Revised.unchanged, bind, Except.bind, pure, Except.pure]
  | select p cs =>
    obtain ⟨hq, hin⟩ := h (p, .columns cs) (List.mem_singleton.mpr rfl)
    simp [renumber, show r.column p = _ from hq, hin cs rfl, Revised.unchanged, bind, Except.bind,
      pure, Except.pure]
  | unary op e hop ih =>
    rw [reads_unary hop] at h
    rw [renumber_unary hop, ih h]
    rfl
  | binary op x y ihx ihy =>
    rw [renumber, ihx fun a ha => h a (Reads.mem_append.mpr (Or.inl ha)),
      ihy fun a ha => h a (Reads.mem_append.mpr (Or.inr ha))]
    rfl
  | ifElse t e p iht ihe ihp =>
    simp only [reads_ifElse, Reads.mem_append] at h
    rw [renumber, iht fun a ha => h a (Or.inl (Or.inl ha)),
      ihe fun a ha => h a (Or.inl (Or.inr ha)), ihp fun a ha => h a (Or.inr ha)]
    rfl
  | call f args ih =>
    rw [renumber, renumberAll_eq_self fun a ha =>
      ih a ha fun x hx => h x (mem_readsAll.mpr ⟨a, ha, hx⟩)]
    rfl

end Expr

end Dataflow
