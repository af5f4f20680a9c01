import Dataflow.Proofs.Expr.Renumbered
import Dataflow.Proofs.Traversal

/-!
# Reads and renumbering as traversals

What an expression reads is what a walk gathers (`Expr.visit_gather`), and to
renumber an expression is to revise it from above, one reference at a time
(`Expr.reviseDown_renumberNode`): a column that is read whole or by a key is
renumbered where it stands, and columns that are selected from a column
together with it, whereupon its operand is passed over, which has its new number
already.

Renumbering therefore does to an expression what it does to its list of
accesses (`Expr.renumber_references`). It succeeds when it does on each of them,
the accesses of the result are the renumbered ones in the same order, and what
remains when positions are forgotten (`Expr.shape`) is as it was; no other
expression is like that. A change is reported exactly when there is one.
-/

namespace Dataflow

open List (Forall₂)

variable {ε : Type} {r : Renumbering ε}

theorem Reads.append_none (a : Reads) : a ++ Reads.none = a := by
  cases a
  exact congrArg₂ Reads.mk (List.append_nil _) (Bool.or_false _)

theorem Reads.append_assoc (a b c : Reads) : a ++ b ++ c = a ++ (b ++ c) :=
  congrArg₂ Reads.mk (List.append_assoc ..) (Bool.or_assoc ..)

/-- Computations go on alike if they do so after a success. -/
theorem bind_congr_ok {α β : Type} {x : Except ε α} {f g : α → Except ε β}
    (h : ∀ a, x = .ok a → f a = g a) : x >>= f = x >>= g := by
  cases x with
  | error c => rfl
  | ok a => exact h a rfl

namespace Expr

/-! ## Gathering reads -/

/-- Gathers what a node reads by itself, and passes over the column of which it
reads a part. -/
def gather : Expr → StateM Reads Signal
  | .column p => fun r => (.proceed, r ++ ⟨[(p, .whole)], false⟩)
  | .star => fun r => (.proceed, r ++ ⟨[], true⟩)
  | .lookup (.column p) k => fun r => (.skip, r ++ ⟨[(p, .key k)], false⟩)
  | .select (.column p) cs => fun r => (.skip, r ++ ⟨[(p, .columns cs)], false⟩)
  | _ => pure .proceed

theorem andThen_run {σ : Type} {a b : StateM σ Signal} {s s' : σ}
    (h : a.run s = (.proceed, s')) : (andThen a b).run s = b.run s' := by
  rw [andThen, StateT.run_bind, h]
  rfl

/-- Nodes that read nothing by themselves leave it to their operands. -/
theorem visit_of_gather {e : Expr} (h : gather e = pure .proceed) (r : Reads) :
    (visit gather e).run r = (visitOperands gather e).run r := by
  rw [visit_eq, h]
  rfl

theorem gather_unary {op : Unary} {e : Expr} (h : ¬ Direct op e) :
    gather (.unary op e) = pure .proceed := by
  cases op <;> cases e <;> first | rfl | exact absurd trivial h

/-- The reads of an expression are what a walk gathers. -/
theorem visit_gather (e : Expr) (r : Reads) :
    (visit gather e).run r = (.proceed, r ++ e.reads) := by
  induction e using readingInduction generalizing r with
  | column p => rw [visit]; rfl
  | literal v => rw [visit_of_gather rfl, reads, Reads.append_none]; rfl
  | star => rw [visit]; rfl
  | lookup p k => rw [visit]; rfl
  | select p cs => rw [visit]; rfl
  | unary op e hop ih => rw [visit_of_gather (gather_unary hop), reads_unary hop]; exact ih r
  | binary op x y ihx ihy =>
    rw [visit_of_gather rfl, visitOperands, andThen_run (ihx r), ihy, reads_binary,
      Reads.append_assoc]
  | ifElse t e p iht ihe ihp =>
    rw [visit_of_gather rfl, visitOperands, andThen_run ((andThen_run (iht r)).trans (ihe _)), ihp,
      reads_ifElse, Reads.append_assoc, Reads.append_assoc, Reads.append_assoc]
  | call f args ih =>
    rw [visit_of_gather rfl, visitOperands, reads_call]
    induction args generalizing r with
    | nil => rw [visitAll, readsAll, Reads.append_none]; rfl
    | cons a as ihas =>
      rw [visitAll, andThen_run (ih a (List.mem_cons_self ..) r),
        ihas (fun x hx => ih x (List.mem_cons_of_mem _ hx)), readsAll, Reads.append_assoc]

/-! ## Revising references from above -/

/-- The renumbered node, and whether to go on into its operands. -/
def renumberNode (r : Renumbering ε) : Expr → Except ε (Revised Expr)
  | .column p => do
    let q ← r.column p
    return ⟨.column q, q ≠ p, .proceed⟩
  | .select (.column p) columns => do
    let q ← r.column p
    let columns' ← r.inner p columns
    return ⟨.select (.column q) columns', q ≠ p || columns' ≠ columns, .skip⟩
  | e => .ok (.unchanged e)

theorem signal_of_renumber {e : Expr} {out : Revised Expr} (h : e.renumber r = .ok out) :
    out.signal = .proceed := by
  cases e using readingInduction with
  | column p => obtain ⟨q, -, h⟩ := bind_ok h; cases h; rfl
  | literal v => cases h; rfl
  | star => cases h; rfl
  | lookup p k => obtain ⟨e', -, h⟩ := bind_ok h; cases h; rfl
  | select p cs =>
    obtain ⟨q, -, h⟩ := bind_ok h
    obtain ⟨cs', -, h⟩ := bind_ok h
    cases h
    rfl
  | unary op e hop =>
    rw [renumber_unary hop] at h
    obtain ⟨e', -, h⟩ := bind_ok h
    cases h
    rfl
  | binary op x y =>
    obtain ⟨x', -, h⟩ := bind_ok h
    obtain ⟨y', -, h⟩ := bind_ok h
    cases h
    rfl
  | ifElse t e p =>
    obtain ⟨t', -, h⟩ := bind_ok h
    obtain ⟨e', -, h⟩ := bind_ok h
    obtain ⟨p', -, h⟩ := bind_ok h
    cases h
    rfl
  | call f args => obtain ⟨args', -, h⟩ := bind_ok h; cases h; rfl

/-- A revision that goes on keeps its operands' values. -/
theorem rebuild_eq {α : Type} {operands : Revised α} {node : Expr} {build : α → Expr}
    (hsignal : operands.signal = .proceed)
    (hsame : operands.changed = false → build operands.value = node) :
    operands.rebuild node build = ⟨build operands.value, operands.changed, .proceed⟩ := by
  unfold Revised.rebuild
  cases hc : operands.changed with
  | true => rw [hsignal]; rfl
  | false => rw [hsignal, hsame hc]; rfl

theorem followedBy_eq {m : Type → Type} [Monad m] {α β : Type} {a : Revised α}
    (h : a.signal = .proceed) (next : m (Revised β)) (old : β) :
    a.followedBy next old = (do
      let b ← next
      pure ⟨(a.value, b.value), a.changed || b.changed, b.signal⟩) := by
  rw [Revised.followedBy, h, if_neg nofun]

theorem reviseDown_of_unchanged {e : Expr} {d : Nat} (h : renumberNode r e = .ok (.unchanged e)) :
    reviseDown (renumberNode r) (d + 1) e =
      mapChildren (reviseDown (renumberNode r) d) e := by
  have hid : ∀ x : Except ε (Revised Expr), (do return (← x).orChanged false) = x := by
    rintro (c | ⟨v, b, s⟩)
    · rfl
    · exact congrArg (fun b => Except.ok (Revised.mk v b s)) (Bool.or_false b)
  rw [reviseDown, h]
  exact hid _

theorem signal_of_renumberAll {args : List Expr} {out : Revised (List Expr)}
    (h : renumberAll r args = .ok out) : out.signal = .proceed := by
  cases args with
  | nil => cases h; rfl
  | cons a as =>
    obtain ⟨a', -, h⟩ := bind_ok h
    obtain ⟨as', -, h⟩ := bind_ok h
    cases h
    rfl

theorem mapEach_renumber {f : Expr → Except ε (Revised Expr)} {args : List Expr}
    (h : ∀ a ∈ args, f a = a.renumber r) : mapEach f args = renumberAll r args := by
  induction args with
  | nil => rfl
  | cons a as ih =>
    rw [mapEach, renumberAll, h a (List.mem_cons_self ..),
      ih fun x hx => h x (List.mem_cons_of_mem _ hx)]
    refine bind_congr_ok fun a' ha => ?_
    rw [followedBy_eq (signal_of_renumber ha), bind_assoc]
    refine bind_congr_ok fun as' has => ?_
    rw [signal_of_renumberAll has]
    rfl

/-- The expression is a column, or some columns that are selected from one. -/
def IsReference : Expr → Prop
  | .column _ => True
  | .select (.column _) _ => True
  | _ => False

/-- A node that is no reference itself is renumbered by its operands. -/
theorem mapChildren_renumber {f : Expr → Except ε (Revised Expr)} {e : Expr}
    (he : ¬ IsReference e) (hf : ∀ c ∈ e.children, f c = c.renumber r) :
    mapChildren f e = e.renumber r := by
  cases e with
  | column p => exact absurd trivial he
  | literal v => rfl
  | star => rfl
  | unary op x =>
    have hrenumber : (Expr.unary op x).renumber r = (do
        let x' ← x.renumber r
        return ⟨.unary op x'.value, x'.changed, .proceed⟩) := by
      cases op <;> cases x <;> first | rfl | exact absurd trivial he
    rw [mapChildren, hrenumber, hf x (List.mem_singleton_self x)]
    refine bind_congr_ok fun x' hx => congrArg Except.ok (rebuild_eq (signal_of_renumber hx) ?_)
    intro hc
    rw [eq_of_renumber_unchanged hx hc]
  | binary op x y =>
    rw [mapChildren, renumber, hf x (by simp [children]), hf y (by simp [children])]
    refine bind_congr_ok fun x' hx => ?_
    rw [followedBy_eq (signal_of_renumber hx), bind_assoc]
    refine bind_congr_ok fun y' hy => congrArg Except.ok (rebuild_eq (signal_of_renumber hy) ?_)
    intro hc
    obtain ⟨hcx, hcy⟩ := Bool.or_eq_false_iff.mp hc
    show Expr.binary op x'.value y'.value = _
    rw [eq_of_renumber_unchanged hx hcx, eq_of_renumber_unchanged hy hcy]
  | ifElse t x p =>
    rw [mapChildren, renumber, hf t (by simp [children]), hf x (by simp [children]),
      hf p (by simp [children])]
    refine bind_congr_ok fun t' ht => ?_
    rw [followedBy_eq (signal_of_renumber ht), bind_assoc]
    refine bind_congr_ok fun x' hx => ?_
    have hsignal : (⟨(t'.value, x'.value), t'.changed || x'.changed, x'.signal⟩ :
        Revised (Expr × Expr)).signal = .proceed := signal_of_renumber hx
    rw [pure_bind, followedBy_eq hsignal, bind_assoc]
    refine bind_congr_ok fun p' hp => congrArg Except.ok (rebuild_eq (signal_of_renumber hp) ?_)
    intro hc
    obtain ⟨hctx, hcp⟩ := Bool.or_eq_false_iff.mp hc
    obtain ⟨hct, hcx⟩ := Bool.or_eq_false_iff.mp hctx
    show Expr.ifElse t'.value x'.value p'.value = _
    rw [eq_of_renumber_unchanged ht hct, eq_of_renumber_unchanged hx hcx,
      eq_of_renumber_unchanged hp hcp]
  | call g args =>
    rw [children] at hf
    rw [mapChildren, renumber, mapEach_renumber hf]
    refine bind_congr_ok fun args' hargs =>
      congrArg Except.ok (rebuild_eq (signal_of_renumberAll hargs) fun hc => ?_)
    rw [renumberAll_unchanged hargs hc fun a _ b hb hbc => eq_of_renumber_unchanged hb hbc]

theorem renumberNode_of_not_isReference {e : Expr} (he : ¬ IsReference e) :
    renumberNode r e = .ok (.unchanged e) := by
  unfold renumberNode
  split
  · exact absurd trivial he
  · exact absurd trivial he
  · rfl

theorem depth_le_depths {args : List Expr} {a : Expr} (h : a ∈ args) : a.depth ≤ depths args := by
  induction args with
  | nil => cases h
  | cons b bs ih =>
    rw [depths]
    rcases List.mem_cons.mp h with rfl | h
    · exact Nat.le_max_left ..
    · exact Nat.le_trans (ih h) (Nat.le_max_right ..)

/-- Operands are less deep. -/
theorem depth_lt_of_child {e c : Expr} (h : c ∈ e.children) : c.depth < e.depth := by
  cases e with
  | column p => cases h
  | literal v => cases h
  | star => cases h
  | unary op x =>
    rw [List.mem_singleton.mp h, depth]
    omega
  | binary op x y =>
    simp only [children, List.mem_cons, List.not_mem_nil, or_false] at h
    rw [depth]
    rcases h with rfl | rfl <;> omega
  | ifElse t x p =>
    simp only [children, List.mem_cons, List.not_mem_nil, or_false] at h
    rw [depth]
    rcases h with rfl | rfl | rfl <;> omega
  | call f args =>
    exact Nat.lt_succ_of_le (depth_le_depths h)

/-- To renumber an expression is to revise it from above, reference by
reference. -/
theorem reviseDown_renumberNode {e : Expr} {d : Nat} (h : e.depth ≤ d) :
    e.reviseDown (renumberNode r) d = e.renumber r := by
  induction e using childInduction generalizing d with
  | node e ih =>
    cases d with
    | zero => cases e <;> cases h
    | succ d =>
      have hbelow : ∀ c ∈ e.children, reviseDown (renumberNode r) d c = c.renumber r := by
        intro c hc
        have := depth_lt_of_child hc
        exact ih c hc (by omega)
      by_cases he : IsReference e
      · unfold IsReference at he
        split at he
        · rename_i p
          rw [reviseDown, renumberNode, renumber, bind_assoc]
          rfl
        · rename_i p cs
          rw [reviseDown, renumberNode, renumber, bind_assoc]
          refine bind_congr_ok fun q _ => ?_
          rw [bind_assoc]
          rfl
        · exact he.elim
      · rw [reviseDown_of_unchanged (renumberNode_of_not_isReference he)]
        exact mapChildren_renumber he hbelow

/-! ## What is left when positions are forgotten -/

mutual

/-- The expression with its references made alike. -/
def shape : Expr → Expr
  | .column _ => .column 0
  | .literal v => .literal v
  | .star => .star
  | .select (.column _) _ => .select (.column 0) []
  | .unary op e => .unary op e.shape
  | .binary op l r => .binary op l.shape r.shape
  | .ifElse t e p => .ifElse t.shape e.shape p.shape
  | .call f args => .call f (shapes args)

def shapes : List Expr → List Expr
  | [] => []
  | e :: es => e.shape :: shapes es

end

theorem shape_unary {op : Unary} {e : Expr} (h : ¬ Direct op e) :
    (Expr.unary op e).shape = .unary op e.shape := by
  cases op <;> cases e <;> first | rfl | exact absurd trivial h

theorem direct_shape {op : Unary} {e : Expr} : Direct op e.shape ↔ Direct op e := by
  cases e with
  | unary op' x =>
    by_cases h : Direct op' x
    · unfold Direct at h
      split at h
      · cases op <;> exact Iff.rfl
      · cases op <;> exact Iff.rfl
      · exact h.elim
    · rw [shape_unary h]
      cases op <;> exact Iff.rfl
  | _ => cases op <;> exact Iff.rfl

mutual

/-- Puts the first of some accesses into the places for them in a shape, and
gives back the rest. -/
def fill : Expr → List (Nat × Access) → Expr × List (Nat × Access)
  | .column _, (p, _) :: xs => (.column p, xs)
  | .select (.column _) _, (p, .columns cs) :: xs => (.select (.column p) cs, xs)
  | .unary op e, xs =>
    let (e, xs) := e.fill xs
    (.unary op e, xs)
  | .binary op l r, xs =>
    let (l, xs) := l.fill xs
    let (r, xs) := r.fill xs
    (.binary op l r, xs)
  | .ifElse t e p, xs =>
    let (t, xs) := t.fill xs
    let (e, xs) := e.fill xs
    let (p, xs) := p.fill xs
    (.ifElse t e p, xs)
  | .call f args, xs =>
    let (args, xs) := fillAll args xs
    (.call f args, xs)
  | e, xs => (e, xs)

def fillAll : List Expr → List (Nat × Access) → List Expr × List (Nat × Access)
  | [], xs => ([], xs)
  | e :: es, xs =>
    let (e, xs) := e.fill xs
    let (es, xs) := fillAll es xs
    (e :: es, xs)

end

theorem fill_unary {op : Unary} {e : Expr} (h : ¬ Direct op e) (xs : List (Nat × Access)) :
    (Expr.unary op e).fill xs = (.unary op (e.fill xs).1, (e.fill xs).2) := by
  cases op <;> cases e <;> first | rfl | exact absurd trivial h

/-- An expression is made of its shape and its accesses. -/
theorem fill_shape (e : Expr) (xs : List (Nat × Access)) :
    e.shape.fill (e.reads.accesses ++ xs) = (e, xs) := by
  induction e using readingInduction generalizing xs with
  | column p => rfl
  | literal v => rfl
  | star => rfl
  | lookup p k => rfl
  | select p cs => rfl
  | unary op e hop ih =>
    rw [shape_unary hop, reads_unary hop, fill_unary (mt direct_shape.mp hop), ih]
  | binary op x y ihx ihy =>
    show (Expr.binary op x.shape y.shape).fill ((x.reads.accesses ++ y.reads.accesses) ++ xs) = _
    rw [List.append_assoc, fill, ihx]
    dsimp only
    rw [ihy]
  | ifElse t e p iht ihe ihp =>
    show (Expr.ifElse t.shape e.shape p.shape).fill
      ((t.reads.accesses ++ e.reads.accesses ++ p.reads.accesses) ++ xs) = _
    rw [List.append_assoc, List.append_assoc, fill, iht]
    dsimp only
    rw [ihe]
    dsimp only
    rw [ihp]
  | call f args ih =>
    have hall : fillAll (shapes args) ((readsAll args).accesses ++ xs) = (args, xs) := by
      induction args generalizing xs with
      | nil => rfl
      | cons a as ihas =>
        show fillAll (a.shape :: shapes as) ((a.reads.accesses ++ (readsAll as).accesses) ++ xs) = _
        rw [List.append_assoc, fillAll, ih a (List.mem_cons_self ..)]
        dsimp only
        rw [ihas fun x hx => ih x (List.mem_cons_of_mem _ hx)]
    rw [shape, reads_call, fill, hall]

/-- An expression is known by its shape and its accesses. -/
theorem eq_of_shape {e e' : Expr} (h : e.shape = e'.shape)
    (hreads : e.reads.accesses = e'.reads.accesses) : e = e' := by
  have hfill := fill_shape e []
  rw [h, hreads, fill_shape] at hfill
  exact (congrArg Prod.fst hfill).symm

end Expr

/-! ## What renumbering keeps -/

/-- An access before, and the same after renumbering. -/
inductive Access.Moved {ε : Type} (r : Renumbering ε) : Nat × Access → Nat × Access → Prop
  | whole {p q : Nat} (hq : r.column p = .ok q) : Moved r (p, .whole) (q, .whole)
  | key {p q : Nat} (k : String) (hq : r.column p = .ok q) : Moved r (p, .key k) (q, .key k)
  | columns {p q : Nat} {cs cs' : List Nat} (hq : r.column p = .ok q)
      (hcs : r.inner p cs = .ok cs') : Moved r (p, .columns cs) (q, .columns cs')

structure Reads.Moved {ε : Type} (r : Renumbering ε) (a b : Reads) : Prop where
  star : b.star = a.star
  accesses : Forall₂ (Access.Moved r) a.accesses b.accesses

theorem Reads.Moved.append {ε : Type} {r : Renumbering ε} {a b a' b' : Reads}
    (h : Reads.Moved r a b) (h' : Reads.Moved r a' b') : Reads.Moved r (a ++ a') (b ++ b') :=
  ⟨congrArg₂ or h.star h'.star, List.rel_append h.accesses h'.accesses⟩

theorem Reads.Moved.toWhole {ε : Type} {r : Renumbering ε} {a b : Reads}
    (h : Reads.Moved r a b) : Reads.Moved r a.toWhole b.toWhole := by
  refine ⟨h.star, List.forall₂_map_left_iff.mpr (List.forall₂_map_right_iff.mpr ?_)⟩
  refine h.accesses.imp fun x y hxy => ?_
  cases hxy with
  | whole hq => exact .whole hq
  | key k hq => exact .whole hq
  | columns hq hcs => exact .whole hq

theorem Expr.Renumbered.direct_iff {ε : Type} {r : Renumbering ε} {op : Unary} {e e' : Expr}
    (h : Renumbered r e e') (hop : ¬ Direct op e) : ¬ Direct op e' := by
  cases h <;> cases op <;> exact hop

/-- A renumbered expression reads the same, at the new positions. -/
theorem Expr.Renumbered.reads {ε : Type} {r : Renumbering ε} {e e' : Expr}
    (h : Renumbered r e e') : Reads.Moved r e.reads e'.reads := by
  induction h with
  | column hq => exact ⟨rfl, .cons (.whole hq) .nil⟩
  | literal v => exact ⟨rfl, .nil⟩
  | star => exact ⟨rfl, .nil⟩
  | lookup k hq => exact ⟨rfl, .cons (.key k hq) .nil⟩
  | select hq hcs => exact ⟨rfl, .cons (.columns hq hcs) .nil⟩
  | unary hop h ih =>
    rw [reads_unary hop, reads_unary (h.direct_iff hop)]
    exact ih
  | binary op _ _ ihx ihy => exact ihx.append ihy
  | ifElse _ _ _ iht ihe ihp => exact (iht.append ihe).append ihp
  | @call f args args' hlen h ih =>
    show Reads.Moved r (readsAll args) (readsAll args')
    clear h
    induction args generalizing args' with
    | nil =>
      rw [List.length_eq_zero_iff.mp hlen]
      exact ⟨rfl, .nil⟩
    | cons a args ihs =>
      obtain ⟨a', args', rfl⟩ := List.exists_cons_of_length_eq_add_one hlen
      exact (ih 0 a a' rfl rfl).append
        (ihs (Nat.succ.inj hlen) fun i x x' hx hx' => ih (i + 1) x x' hx hx')

/-- What becomes of an access is decided by the renumbering. -/
theorem Access.Moved.unique {x y z : Nat × Access} (hy : Access.Moved r x y)
    (hz : Access.Moved r x z) : y = z := by
  cases hy with
  | whole hq => cases hz with
    | whole hq' => rw [Except.ok.inj (hq.symm.trans hq')]
  | key k hq => cases hz with
    | key _ hq' => rw [Except.ok.inj (hq.symm.trans hq')]
  | columns hq hcs => cases hz with
    | columns hq' hcs' =>
      rw [Except.ok.inj (hq.symm.trans hq'), Except.ok.inj (hcs.symm.trans hcs')]

theorem Access.Moved.renumbers {x y : Nat × Access} (h : Access.Moved r x y) :
    Expr.Renumbers r x := by
  cases h with
  | whole hq => exact ⟨⟨_, hq⟩, nofun⟩
  | key k hq => exact ⟨⟨_, hq⟩, nofun⟩
  | columns hq hcs => exact ⟨⟨_, hq⟩, fun cs h => by cases h; exact ⟨_, hcs⟩⟩

theorem Access.Moved.keeps {x : Nat × Access} (h : Access.Moved r x x) : Expr.Keeps r x := by
  cases h with
  | whole hq => exact ⟨hq, nofun⟩
  | key k hq => exact ⟨hq, nofun⟩
  | columns hq hcs => exact ⟨hq, fun cs h => by cases h; exact hcs⟩

theorem Reads.Moved.unique {a b c : Reads} (hb : Reads.Moved r a b) (hc : Reads.Moved r a c) :
    b.accesses = c.accesses := by
  obtain ⟨-, hb⟩ := hb
  obtain ⟨-, hc⟩ := hc
  generalize a.accesses = xs at hb hc
  generalize b.accesses = ys at hb
  generalize c.accesses = zs at hc
  induction hb generalizing zs with
  | nil => cases hc; rfl
  | cons h _ ih => cases hc with
    | cons h' hrest => rw [h.unique h', ih _ hrest]

namespace Expr

variable {e e' : Expr}

theorem Renumbered.shape_eq (h : Renumbered r e e') : e'.shape = e.shape := by
  induction h with
  | column => rfl
  | literal => rfl
  | star => rfl
  | lookup => rfl
  | select => rfl
  | unary hop h ih => rw [shape_unary hop, shape_unary (h.direct_iff hop), ih]
  | binary op _ _ ihx ihy => rw [shape, shape, ihx, ihy]
  | ifElse _ _ _ iht ihe ihp => rw [shape, shape, iht, ihe, ihp]
  | @call f args args' hlen h ih =>
    have hargs := forall₂_of_getElem? hlen.symm ih
    have hall : shapes args' = shapes args := by
      clear ih h hlen
      induction hargs with
      | nil => rfl
      | cons ha _ ih => rw [shapes, shapes, ha, ih]
    rw [shape, shape, hall]

/-- A change is reported exactly when there is one. -/
theorem unchanged_iff {out : Revised Expr} (h : e.renumber r = .ok out) :
    out.changed = false ↔ out.value = e := by
  refine ⟨eq_of_renumber_unchanged h, fun hsame => ?_⟩
  -- Every access was moved to itself.
  have hmoved := (renumbered_of_ok h).reads.accesses
  rw [hsame, List.forall₂_same] at hmoved
  have hself := renumber_eq_self fun x hx => (hmoved x hx).keeps
  rw [h] at hself
  rw [Except.ok.inj hself]
  rfl

/-- A change among several expressions is reported exactly when there is one. -/
theorem all_unchanged_iff {es : List Expr} {outs : List (Revised Expr)}
    (h : Forall₂ (fun e out => ∃ r : Renumbering ε, e.renumber r = .ok out) es outs) :
    outs.any Revised.changed = false ↔ outs.map Revised.value = es := by
  induction h with
  | nil => exact ⟨fun _ => rfl, fun _ => rfl⟩
  | cons hout _ ih =>
    obtain ⟨r, hout⟩ := hout
    rw [List.any_cons, Bool.or_eq_false_iff, unchanged_iff hout, ih, List.map_cons, List.cons.injEq]

/-- Renumbering, which revises an expression from above, moves the accesses of
the expression and keeps everything else. It fails only for an access that has no
new position, and reports a change if and only if there is one. -/
theorem renumber_references (r : Renumbering ε) (e : Expr) :
    (∀ d, e.depth ≤ d → e.reviseDown (renumberNode r) d = e.renumber r) ∧
    ((∃ out, e.renumber r = .ok out) ↔ ∀ x ∈ e.reads.accesses, Renumbers r x) ∧
    ∀ out, e.renumber r = .ok out →
      Reads.Moved r e.reads out.value.reads ∧
      out.value.shape = e.shape ∧
      (∀ e', e'.shape = e.shape → Reads.Moved r e.reads e'.reads → e' = out.value) ∧
      out.signal = .proceed ∧
      (out.changed = false ↔ out.value = e) := by
  refine ⟨fun d hd => reviseDown_renumberNode hd, ⟨fun ⟨out, h⟩ x hx => ?_, exists_renumber⟩,
    fun out h => ?_⟩
  · obtain ⟨y, -, hxy⟩ := mem_of_left (renumbered_of_ok h).reads.accesses hx
    exact hxy.renumbers
  · have hren := renumbered_of_ok h
    refine ⟨hren.reads, hren.shape_eq, fun e' hshape hmoved => ?_, signal_of_renumber h,
      unchanged_iff h⟩
    exact eq_of_shape (hshape.trans hren.shape_eq.symm) (hmoved.unique hren.reads)

/-- A key, a column and an inner column of a bag. -/
def referring : Expr :=
  .binary .and (.binary .eq (.lookup (.column 1) "k") (.literal (.chararray "v")))
    (.binary .gt (.column 3) (.call ⟨"COUNT", .scalar .long⟩ [.select (.column 4) [2, 0]]))

/-- New positions for what `referring` reads and for nothing else. -/
def referredOnly : Renumbering Nat where
  column p := if p = 1 then .ok 0 else if p = 3 then .ok 1 else if p = 4 then .ok 2 else .error p
  inner p cs := if p = 4 ∧ cs = [2, 0] then .ok [1, 0] else .error p

def referred : Expr :=
  .binary .and (.binary .eq (.lookup (.column 0) "k") (.literal (.chararray "v")))
    (.binary .gt (.column 1) (.call ⟨"COUNT", .scalar .long⟩ [.select (.column 2) [1, 0]]))

theorem renumber_referring : referring.renumber referredOnly = .ok ⟨referred, true, .proceed⟩ ∧
    Reads.Moved referredOnly referring.reads referred.reads ∧ referred.shape = referring.shape ∧
    (∀ e', e'.shape = referring.shape → Reads.Moved referredOnly referring.reads e'.reads →
      e' = referred) ∧ referred ≠ referring := by
  have h : referring.renumber referredOnly = .ok ⟨referred, true, .proceed⟩ := rfl
  obtain ⟨hmoved, hshape, hunique, -, hchanged⟩ :=
    (renumber_references referredOnly referring).2.2 _ h
  exact ⟨h, hmoved, hshape, hunique, fun hsame => nomatch hchanged.mpr hsame⟩

end Expr

end Dataflow
