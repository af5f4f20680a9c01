import Mathlib.Data.List.Basic
import Dataflow.Expr.Walk

/-!
# What a walk shows

The nodes of an expression are listed each before its operands (`Expr.nodes`),
so the nodes below a node stand right after it (`Expr.nodes_prefix`). To visit an
expression is to go along this list: `skip` passes over as many nodes as stand
below, `stop` ends it (`Expr.visit_along`). This holds for visitors in any monad,
whatever they remember and however they fail.

For a visitor that fails or answers, and may count the nodes it was shown, it
comes to this (`Expr.visit_shown`). It is shown the nodes in the order of the
list, except those below a node that it passed over and those after the node at
which it ended the walk or failed; the outcome is the answer that ended the
walk, and `proceed` if none did. A search is shown the nodes up to the first
that satisfies the test.
-/

namespace Dataflow

variable {ε : Type}

namespace Expr

/-! ## The nodes of an expression -/

/-- Induction over an expression and the arguments of the calls inside it. -/
@[elab_as_elim]
theorem nestedInduction {motive : Expr → Prop}
    (column : ∀ p, motive (.column p))
    (literal : ∀ v, motive (.literal v))
    (star : motive .star)
    (unary : ∀ op e, motive e → motive (.unary op e))
    (binary : ∀ op l r, motive l → motive r → motive (.binary op l r))
    (ifElse : ∀ t e p, motive t → motive e → motive p → motive (.ifElse t e p))
    (call : ∀ f args, (∀ a ∈ args, motive a) → motive (.call f args)) (e : Expr) : motive e := by
  refine @Expr.rec motive (fun es => ∀ e ∈ es, motive e)
    column literal star unary binary ifElse call ?_ ?_ e
  · nofun
  · exact fun e es he hes => List.forall_mem_cons.mpr ⟨he, hes⟩

/-- Induction that treats all kinds of nodes alike. -/
@[elab_as_elim]
theorem childInduction {motive : Expr → Prop}
    (node : ∀ e : Expr, (∀ c ∈ e.children, motive c) → motive e) (e : Expr) : motive e := by
  induction e using nestedInduction with
  | column p => exact node _ nofun
  | literal v => exact node _ nofun
  | star => exact node _ nofun
  | unary op e ih => exact node _ (by simpa [children] using ih)
  | binary op l r ihl ihr => exact node _ (by simpa [children] using ⟨ihl, ihr⟩)
  | ifElse t e p iht ihe ihp => exact node _ (by simpa [children] using ⟨iht, ihe, ihp⟩)
  | call f args ih => exact node _ ih

mutual

/-- The nodes of an expression, each before its operands. -/
def nodes : Expr → List Expr
  | .column p => [.column p]
  | .literal v => [.literal v]
  | .star => [.star]
  | .unary op e => .unary op e :: e.nodes
  | .binary op l r => .binary op l r :: (l.nodes ++ r.nodes)
  | .ifElse t e p => .ifElse t e p :: (t.nodes ++ e.nodes ++ p.nodes)
  | .call f args => .call f args :: nodesAll args

def nodesAll : List Expr → List Expr
  | [] => []
  | e :: es => e.nodes ++ nodesAll es

end

theorem nodes_eq (e : Expr) : e.nodes = e :: nodesAll e.children := by
  cases e <;> simp [nodes, nodesAll, children]

/-- The nodes of a node stand together, from where it stands itself. -/
theorem nodes_prefix {e n : Expr} {i : Nat} (h : e.nodes[i]? = some n) :
    n.nodes <+: e.nodes.drop i := by
  induction e using childInduction generalizing i with
  | node e ih =>
    have hall : ∀ (es : List Expr) (i : Nat),
        (∀ c ∈ es, ∀ i, c.nodes[i]? = some n → n.nodes <+: c.nodes.drop i) →
        (nodesAll es)[i]? = some n → n.nodes <+: (nodesAll es).drop i := by
      intro es
      induction es with
      | nil => nofun
      | cons c es ihes =>
        intro i hc hi
        rw [nodesAll, List.getElem?_append] at hi
        rw [nodesAll, List.drop_append]
        split at hi
        · exact (hc c (List.mem_cons_self ..) i hi).trans (List.prefix_append ..)
        · rename_i hle
          rw [List.drop_eq_nil_of_le (by omega), List.nil_append]
          exact ihes _ (fun d hd => hc d (List.mem_cons_of_mem _ hd)) hi
    cases i with
    | zero =>
      rw [nodes_eq] at h
      cases h
      exact List.prefix_refl _
    | succ i =>
      rw [nodes_eq] at h
      rw [nodes_eq e]
      exact hall _ i (fun c hc i hi => ih c hc hi) h

/-! ## Along the list -/

section Along

variable {m : Type → Type} [Monad m]

/-- Shows the nodes of a list to `f` in turn. After `skip` the nodes below are
passed over, which come next. -/
def along (f : Expr → m Signal) : List Expr → m Signal
  | [] => pure .proceed
  | n :: rest => do
    match ← f n with
    | .proceed => along f rest
    | .skip => along f (rest.drop (n.nodes.length - 1))
    | .stop => pure .stop
termination_by ns => ns.length
decreasing_by all_goals grind

variable [LawfulMonad m] {f : Expr → m Signal}

theorem andThen_assoc (a b c : m Signal) :
    andThen (andThen a b) c = andThen a (andThen b c) := by
  simp only [andThen, bind_assoc]
  refine bind_congr fun s => ?_
  cases s <;> simp

theorem proceed_andThen (a : m Signal) : andThen (pure .proceed) a = a := by
  rw [andThen, pure_bind]

theorem stop_andThen (a : m Signal) : andThen (pure .stop) a = pure .stop := by
  rw [andThen, pure_bind]

def visitOperands (f : Expr → m Signal) : Expr → m Signal
  | .column _ | .literal _ | .star => pure .proceed
  | .unary _ x => visit f x
  | .binary _ l r => andThen (visit f l) (visit f r)
  | .ifElse t x p => andThen (andThen (visit f t) (visit f x)) (visit f p)
  | .call _ args => visitAll f args

omit [LawfulMonad m] in
theorem visit_eq (f : Expr → m Signal) (e : Expr) :
    visit f e = (do
      match ← f e with
      | .proceed => visitOperands f e
      | .skip => pure .proceed
      | .stop => pure .stop) := by
  rw [visit.eq_def]
  refine congrArg (f e >>= ·) (funext fun s => ?_)
  cases s with
  | proceed => cases e <;> rfl
  | skip => rfl
  | stop => rfl

theorem visitOperands_andThen (f : Expr → m Signal) (e : Expr) (next : m Signal) :
    andThen (visitOperands f e) next = andThen (visitAll f e.children) next := by
  cases e <;> simp only [visitOperands, children, visitAll, andThen_assoc, proceed_andThen]

/-- To visit an expression and go on is to go along its nodes and what follows
them. -/
theorem andThen_visit_along (f : Expr → m Signal) (e : Expr) (rest : List Expr) :
    andThen (visit f e) (along f rest) = along f (e.nodes ++ rest) := by
  induction e using childInduction generalizing rest with
  | node e ih =>
    have hall : ∀ es ⊆ e.children, ∀ rest,
        andThen (visitAll f es) (along f rest) = along f (nodesAll es ++ rest) := by
      intro es hes
      induction es with
      | nil => exact fun rest => proceed_andThen _
      | cons c es ihes =>
        intro rest
        obtain ⟨hc, hes⟩ := List.cons_subset.mp hes
        rw [visitAll, andThen_assoc, ihes hes, ih c hc, nodesAll, List.append_assoc]
    have hbelow : (nodesAll e.children ++ rest).drop (e.nodes.length - 1) = rest := by
      rw [nodes_eq, List.length_cons, Nat.add_sub_cancel, List.drop_left]
    rw [visit_eq, andThen, bind_assoc, nodes_eq, List.cons_append, along]
    refine bind_congr fun s => ?_
    cases s with
    | proceed =>
      rw [← hall e.children (List.Subset.refl _) rest, ← visitOperands_andThen]
      rfl
    | skip => rw [hbelow]; exact proceed_andThen _
    | stop => exact stop_andThen _

/-- To visit an expression is to go along its nodes. -/
theorem visit_along (f : Expr → m Signal) (e : Expr) : visit f e = along f e.nodes := by
  induction e using childInduction with
  | node e ih =>
    have hall : ∀ es ⊆ e.children, visitAll f es = along f (nodesAll es) := by
      intro es hes
      induction es with
      | nil => rw [visitAll, nodesAll, along]
      | cons c es ihes =>
        rw [visitAll, ihes (List.cons_subset.mp hes).2, andThen_visit_along, nodesAll]
    have hoperands : visitOperands f e = along f (nodesAll e.children) := by
      cases e with
      | column p => rw [visitOperands, children, nodesAll, along]
      | literal v => rw [visitOperands, children, nodesAll, along]
      | star => rw [visitOperands, children, nodesAll, along]
      | unary op x =>
        rw [visitOperands, ih x (List.mem_singleton_self x), children, nodesAll, nodesAll,
          List.append_nil]
      | binary op l r =>
        rw [visitOperands, ih r (by simp [children]), andThen_visit_along]
        simp [children, nodesAll]
      | ifElse t x p =>
        rw [visitOperands, ih p (by simp [children]), andThen_assoc, andThen_visit_along,
          andThen_visit_along]
        simp [children, nodesAll]
      | call g args => exact hall args (List.Subset.refl _)
    rw [visit_eq, nodes_eq, along]
    refine bind_congr fun s => ?_
    cases s with
    | proceed => exact hoperands
    | skip =>
      rw [nodes_eq, List.length_cons, Nat.add_sub_cancel, List.drop_length, along]
    | stop => rfl

end Along

/-! ## Visitors that note what they are shown -/

/-- Computations that may fail and keep a list of nodes even so. -/
abbrev Noting (ε : Type) := ExceptT ε (StateM (List Expr))

/-- Notes a node and answers. The answer may depend on how many nodes were
noted before, so that equal nodes in different places may be told apart. -/
def noting {α : Type} (answer : Nat → Expr → Except ε α) (n : Expr) : Noting ε α :=
  fun seen => (answer seen.length n, seen ++ [n])

/-- The outcome of a computation, and the nodes noted in the end when `seen`
were noted before. -/
def noted {α : Type} (x : Noting ε α) (seen : List Expr := []) : Except ε α × List Expr :=
  x.run.run seen

/-- An answer after which a walk does not go on. -/
def endsWalk : Except ε Signal → Bool
  | .ok .stop | .error _ => true
  | _ => false

/-- The outcome of a walk whose visitor gave these answers: the one that ended
it. -/
def walkOutcome (answers : List (Except ε Signal)) : Except ε Signal :=
  (answers.find? endsWalk).getD (.ok .proceed)

/-- The places in a list of nodes at which a visitor is shown the node, when it
answers the `k`-th node it is shown by `answer k`. These are, in order, all
places but those after one at which the walk ended, and those of nodes below one
that was passed over. -/
structure Shown (answer : Nat → Expr → Except ε Signal) (ns : List Expr) (places : List Nat) :
    Prop where
  ascending : places.Pairwise (· < ·)
  mem_iff (j : Nat) : j ∈ places ↔ j < ns.length ∧ ∀ (k i : Nat) (n : Expr),
    places[k]? = some i → ns[i]? = some n → i < j →
      endsWalk (answer k n) = false ∧ (answer k n = .ok .skip → i + n.nodes.length ≤ j)

variable {answer : Nat → Expr → Except ε Signal} {n : Expr} {ns : List Expr} {places : List Nat}

theorem shown_nil : Shown answer [] [] where
  ascending := .nil
  mem_iff j := by simp

/-- The first node is the last if it ends the walk. -/
theorem shown_ended (h : endsWalk (answer 0 n) = true) : Shown answer (n :: ns) [0] where
  ascending := List.pairwise_singleton ..
  mem_iff j := by
    constructor
    · intro hj
      rw [List.mem_singleton.mp hj]
      exact ⟨Nat.succ_pos _, fun _ _ _ _ _ hlt => absurd hlt (Nat.not_lt_zero _)⟩
    · rintro ⟨-, hall⟩
      cases j with
      | zero => exact List.mem_singleton.mpr rfl
      | succ j =>
        have := (hall 0 0 n rfl rfl (Nat.succ_pos j)).1
        rw [h] at this
        cases this

/-- After the first node the walk goes on at some place, with one more node
shown. -/
theorem Shown.cons {s : Nat} (h : Shown (fun k => answer (k + 1)) (ns.drop s) places)
    (hgoes : endsWalk (answer 0 n) = false)
    (hs : ∀ j, (answer 0 n = .ok .skip → n.nodes.length ≤ j + 1) ↔ s ≤ j) :
    Shown answer (n :: ns) (0 :: places.map (· + (s + 1))) where
  ascending := by
    refine List.pairwise_cons.mpr ⟨fun j hj => ?_, ?_⟩
    · obtain ⟨i, -, rfl⟩ := List.mem_map.mp hj
      omega
    · exact (List.pairwise_map).mpr (h.ascending.imp fun hlt => by omega)
  mem_iff j := by
    cases j with
    | zero =>
      exact ⟨fun _ => ⟨Nat.succ_pos _, fun _ _ _ _ _ hlt => absurd hlt (Nat.not_lt_zero _)⟩,
        fun _ => List.mem_cons_self ..⟩
    | succ j =>
      have hplaces : j + 1 ∈ 0 :: places.map (· + (s + 1)) ↔ s ≤ j ∧ j - s ∈ places := by
        rw [List.mem_cons, List.mem_map]
        constructor
        · rintro (hj | ⟨i, hi, hj⟩)
          · cases hj
          · obtain rfl : i = j - s := by omega
            exact ⟨by omega, hi⟩
        · rintro ⟨hle, hj⟩
          exact Or.inr ⟨j - s, hj, by omega⟩
      have hnode : ∀ i, (n :: ns)[i + (s + 1)]? = (ns.drop s)[i]? := fun i => by
        rw [← Nat.add_assoc, List.getElem?_cons_succ, List.getElem?_drop, Nat.add_comm]
      rw [hplaces, h.mem_iff, List.length_drop, List.length_cons]
      constructor
      · rintro ⟨hle, hlt, hall⟩
        refine ⟨by omega, fun k i x hk hx hi => ?_⟩
        cases k with
        | zero =>
          cases hk
          cases hx
          exact ⟨hgoes, fun hskip => by have := (hs j).mpr hle hskip; omega⟩
        | succ k =>
          rw [List.getElem?_cons_succ, List.getElem?_map] at hk
          obtain ⟨i', hk', rfl⟩ := Option.map_eq_some_iff.mp hk
          rw [hnode] at hx
          obtain ⟨hend, hskip⟩ := hall k i' x hk' hx (by omega)
          exact ⟨hend, fun hsk => by have := hskip hsk; omega⟩
      · rintro ⟨hlt, hall⟩
        have hle : s ≤ j := (hs j).mp fun hskip => by
          have := (hall 0 0 n rfl rfl (Nat.succ_pos j)).2 hskip
          omega
        refine ⟨hle, by omega, fun k i x hk hx hi => ?_⟩
        obtain ⟨hend, hskip⟩ := hall (k + 1) (i + (s + 1)) x
          (by rw [List.getElem?_cons_succ, List.getElem?_map, hk]; rfl) (by rw [hnode, hx])
          (by omega)
        exact ⟨hend, fun hsk => by have := hskip hsk; omega⟩

theorem noted_bind {α β : Type} (f : Nat → Expr → Except ε α) (n : Expr) (g : α → Noting ε β)
    (seen : List Expr) : noted (noting f n >>= g) seen =
      match f seen.length n with
      | .ok a => noted (g a) (seen ++ [n])
      | .error c => (.error c, seen ++ [n]) := by
  have hrun : noted (noting f n >>= g) seen =
      (ExceptT.bindCont g (f seen.length n)).run (seen ++ [n]) := rfl
  rw [hrun]
  cases f seen.length n <;> rfl

/-- Along a list, after some nodes were shown, the visitor is shown the nodes at
the places where it should be. -/
def ShownAlong (answer : Nat → Expr → Except ε Signal) (ns seen : List Expr) : Prop :=
  ∃ places, Shown (fun k => answer (seen.length + k)) ns places ∧
    noted (along (noting answer) ns) seen =
      (walkOutcome ((places.filterMap (ns[·]?)).mapIdx fun k => answer (seen.length + k)),
        seen ++ places.filterMap (ns[·]?))

variable {seen : List Expr}

theorem shownAlong_nil : ShownAlong answer [] seen := by
  refine ⟨[], shown_nil, ?_⟩
  rw [along, List.filterMap_nil, List.append_nil]
  rfl

theorem shownAlong_ended (h : endsWalk (answer seen.length n) = true) :
    ShownAlong answer (n :: ns) seen := by
  refine ⟨[0], shown_ended h, ?_⟩
  rw [along, noted_bind]
  cases ha : answer seen.length n with
  | error c => simp [walkOutcome, ha, endsWalk]
  | ok s =>
    rw [ha] at h
    cases s with
    | proceed => cases h
    | skip => cases h
    | stop => simp [walkOutcome, ha, endsWalk]; rfl

/-- If the walk goes on after the first node, `d` nodes further on. -/
theorem ShownAlong.cons {d : Nat} (h : ShownAlong answer (ns.drop d) (seen ++ [n]))
    (hgoes : endsWalk (answer seen.length n) = false)
    (hrun : noted (along (noting answer) (n :: ns)) seen =
      noted (along (noting answer) (ns.drop d)) (seen ++ [n]))
    (hd : ∀ j, (answer seen.length n = .ok .skip → n.nodes.length ≤ j + 1) ↔ d ≤ j) :
    ShownAlong answer (n :: ns) seen := by
  obtain ⟨places, hshown, hplaces⟩ := h
  have hcount : ∀ k, (seen ++ [n]).length + k = seen.length + (k + 1) := fun k => by
    rw [List.length_append, List.length_singleton]
    omega
  simp only [hcount] at hshown hplaces
  refine ⟨_, hshown.cons hgoes hd, ?_⟩
  have hnodes : (0 :: places.map (· + (d + 1))).filterMap ((n :: ns)[·]?) =
      n :: places.filterMap ((ns.drop d)[·]?) := by
    rw [List.filterMap_cons, List.getElem?_cons_zero, List.filterMap_map]
    refine congrArg (n :: ·) (List.filterMap_congr fun i _ => ?_)
    rw [Function.comp_apply, ← Nat.add_assoc, List.getElem?_cons_succ, List.getElem?_drop,
      Nat.add_comm]
  rw [hrun, hplaces, hnodes, List.mapIdx_cons, walkOutcome, walkOutcome, List.find?_cons_of_neg,
    List.append_assoc]
  · rfl
  · rw [Nat.add_zero, hgoes]
    exact Bool.false_ne_true

theorem shownAlong (answer : Nat → Expr → Except ε Signal) (ns seen : List Expr) :
    ShownAlong answer ns seen := by
  cases ns with
  | nil => exact shownAlong_nil
  | cons n ns =>
    have hrun := noted_bind answer n (fun s => match s with
      | .proceed => along (noting answer) ns
      | .skip => along (noting answer) (ns.drop (n.nodes.length - 1))
      | .stop => pure .stop) seen
    rw [← along] at hrun
    cases ha : answer seen.length n with
    | error c => exact shownAlong_ended (by rw [ha]; rfl)
    | ok s =>
      rw [ha] at hrun
      cases s with
      | proceed =>
        refine (shownAlong answer (ns.drop 0) (seen ++ [n])).cons ?_ hrun ?_
        · rw [ha]; rfl
        · rw [ha]; simp
      | skip =>
        refine (shownAlong answer (ns.drop (n.nodes.length - 1)) (seen ++ [n])).cons ?_ hrun ?_
        · rw [ha]; rfl
        · rw [ha]; simp
      | stop => exact shownAlong_ended (by rw [ha]; rfl)
termination_by ns.length

/-! ## Searches -/

/-- An answer to a test after which a search does not go on. -/
def endsSearch : Except ε Bool → Bool
  | .ok false => false
  | _ => true

/-- The signal that a search gives for the answer to its test. -/
def searchSignal (found : Bool) : Signal := if found then .stop else .proceed

/-- A visitor that passes nothing over is shown the nodes up to the first at
which it ends the walk. -/
theorem noted_along_search (test : Nat → Expr → Except ε Bool) (ns seen : List Expr) :
    noted (along (noting fun k n => (test k n).map searchSignal) ns) seen =
      ((((ns.mapIdx fun k => test (seen.length + k)).find? endsSearch).getD (.ok false)).map
        searchSignal,
        seen ++ ns.take ((ns.mapIdx fun k => test (seen.length + k)).findIdx endsSearch + 1)) := by
  induction ns generalizing seen with
  | nil =>
    rw [along]
    simp [noted, searchSignal, Except.map]
    rfl
  | cons n ns ih =>
    have hcount : ∀ k, (seen ++ [n]).length + k = seen.length + (k + 1) := fun k => by
      rw [List.length_append, List.length_singleton]
      omega
    have ih := ih (seen ++ [n])
    simp only [hcount] at ih
    rw [along, noted_bind, List.mapIdx_cons, Nat.add_zero, List.findIdx_cons]
    rcases ha : test seen.length n with c | b
    · rw [List.find?_cons_of_pos rfl]
      rfl
    · cases b with
      | true =>
        rw [List.find?_cons_of_pos rfl]
        rfl
      | false =>
        rw [List.find?_cons_of_neg Bool.false_ne_true]
        refine ih.trans ?_
        rw [List.append_assoc]
        rfl

theorem noted_map {α β : Type} (x : Noting ε α) (g : α → β) (seen : List Expr) :
    noted (do return g (← x)) seen = ((noted x seen).1.map g, (noted x seen).2) := by
  have hrun : noted (do return g (← x)) seen =
      (ExceptT.bindCont (m := StateM (List Expr)) (fun a => pure (g a)) (noted x seen).1).run
        (noted x seen).2 := rfl
  rw [hrun]
  cases (noted x seen).1 <;> rfl

/-- What a search shows and finds. -/
theorem noted_existsNode (test : Nat → Expr → Except ε Bool) (e : Expr) :
    noted (existsNode (noting test) e) =
      (((e.nodes.mapIdx test).find? endsSearch).getD (.ok false),
        e.nodes.take ((e.nodes.mapIdx test).findIdx endsSearch + 1)) := by
  have hvisitor : (fun n => do return if ← noting test n then .stop else .proceed) =
      noting fun k n => (test k n).map searchSignal := by
    funext n seen
    exact noted_map (noting test n) searchSignal seen
  have hwalk := noted_along_search test e.nodes []
  rw [← visit_along, ← hvisitor] at hwalk
  have hstop : ∀ a : Except ε Bool,
      (a.map searchSignal).map (fun s => decide (s = .stop)) = a := by
    rintro (c | b)
    · rfl
    · cases b <;> rfl
  rw [existsNode, noted_map, hwalk, hstop]
  simp

/-- A search whose test cannot fail finds something if and only if something is
there. -/
theorem existsNode_iff (e : Expr) (test : Nat → Expr → Bool) :
    (noted (existsNode (noting fun k n => (.ok (test k n) : Except ε Bool)) e)).1 = .ok true ↔
      ∃ k n, e.nodes[k]? = some n ∧ test k n = true := by
  rw [noted_existsNode]
  have hanswer : ∀ b : Except ε Bool, b ∈ e.nodes.mapIdx (fun k n => .ok (test k n)) ↔
      ∃ k n, e.nodes[k]? = some n ∧ b = .ok (test k n) := fun b => by
    rw [List.mem_mapIdx]
    constructor
    · rintro ⟨k, hk, rfl⟩
      exact ⟨k, e.nodes[k], List.getElem?_eq_getElem hk, rfl⟩
    · rintro ⟨k, n, hn, rfl⟩
      obtain ⟨hk, rfl⟩ := List.getElem?_eq_some_iff.mp hn
      exact ⟨k, hk, rfl⟩
  cases hfind : (e.nodes.mapIdx fun k n => (.ok (test k n) : Except ε Bool)).find? endsSearch with
  | none =>
    refine ⟨nofun, fun ⟨k, n, hn, htest⟩ => ?_⟩
    have hnot := List.find?_eq_none.mp hfind _ ((hanswer _).mpr ⟨k, n, hn, rfl⟩)
    rw [htest] at hnot
    exact absurd rfl hnot
  | some b =>
    obtain ⟨k, n, hn, rfl⟩ := (hanswer b).mp (List.mem_of_find?_eq_some hfind)
    have hends := List.find?_some hfind
    cases htest : test k n with
    | false => rw [htest] at hends; cases hends
    | true => exact ⟨fun _ => ⟨k, n, hn, htest⟩, fun _ => rfl⟩

/-- A visitor is shown the nodes that it should be, where the nodes below a node
stand right after it, and a search is shown the nodes up to the first that
settles it. -/
theorem visit_shown (answer : Nat → Expr → Except ε Signal) (e : Expr) :
    (∀ (i : Nat) (n : Expr), e.nodes[i]? = some n → n.nodes <+: e.nodes.drop i) ∧
    (∃ places, Shown answer e.nodes places ∧
      noted (visit (noting answer) e) =
        (walkOutcome ((places.filterMap (e.nodes[·]?)).mapIdx answer),
          places.filterMap (e.nodes[·]?))) ∧
    (∀ test : Nat → Expr → Except ε Bool, noted (existsNode (noting test) e) =
      (((e.nodes.mapIdx test).find? endsSearch).getD (.ok false),
        e.nodes.take ((e.nodes.mapIdx test).findIdx endsSearch + 1))) ∧
    ∀ test : Nat → Expr → Bool,
      (noted (existsNode (noting fun k n => (.ok (test k n) : Except ε Bool)) e)).1 = .ok true ↔
        ∃ k n, e.nodes[k]? = some n ∧ test k n = true := by
  refine ⟨fun _ _ => nodes_prefix, ?_, fun test => noted_existsNode test e, existsNode_iff e⟩
  obtain ⟨places, hshown, hnoted⟩ := shownAlong answer e.nodes []
  simp only [List.length_nil, Nat.zero_add, List.nil_append] at hshown hnoted
  refine ⟨places, hshown, ?_⟩
  rw [visit_along]
  exact hnoted

end Expr

end Dataflow
