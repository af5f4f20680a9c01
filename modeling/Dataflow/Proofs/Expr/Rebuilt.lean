import Dataflow.Proofs.Expr.Walked

/-!
# Revising from below

To revise an expression from below is to go through its nodes, operands before
the node that has them (`Expr.postorder`), and to give each to a visitor that
may replace it. The visitor is not given the node as it was, but with what
became of its operands; and when it ends the walk early, the nodes above must
still take up what was replaced below, though they are not given to it.

Both are instances of one notion: what an expression is after the first of its
nodes were replaced (`Expr.refit`). The nodes that a visitor is given follow from
its answers (`Expr.Called`), and so does the outcome (`Expr.RevisesBy`).

A node is rebuilt only where a change below it was reported. All this therefore
holds of visitors that report every change (`Expr.reviseUp_called`); the
replacements of others may get lost. What the siblings of a node and the node
above them have in common, that a failure and the end of the walk are passed on
and that otherwise the walk goes on where it was, is `Expr.RevisesFrom.followed`.
-/

namespace Dataflow

variable {ε : Type}

namespace Expr

/-! ## Operands before nodes -/

mutual

/-- The nodes of an expression, each after its operands. -/
def postorder : Expr → List Expr
  | .column p => [.column p]
  | .literal v => [.literal v]
  | .star => [.star]
  | .unary op e => e.postorder ++ [.unary op e]
  | .binary op l r => l.postorder ++ r.postorder ++ [.binary op l r]
  | .ifElse t e p => t.postorder ++ e.postorder ++ p.postorder ++ [.ifElse t e p]
  | .call f args => postorderAll args ++ [.call f args]

def postorderAll : List Expr → List Expr
  | [] => []
  | e :: es => e.postorder ++ postorderAll es

end

theorem postorder_eq (e : Expr) : e.postorder = postorderAll e.children ++ [e] := by
  cases e <;> simp [postorder, postorderAll, children]

theorem length_postorder (e : Expr) :
    e.postorder.length = (postorderAll e.children).length + 1 := by
  rw [postorder_eq, List.length_append, List.length_singleton]

/-- The nodes of a node stand together, up to where it stands itself. -/
theorem postorderAll_suffix {es : List Expr} {n : Expr} {i : Nat}
    (h : ∀ e ∈ es, ∀ i, e.postorder[i]? = some n → n.postorder <:+ e.postorder.take (i + 1))
    (hi : (postorderAll es)[i]? = some n) : n.postorder <:+ (postorderAll es).take (i + 1) := by
  induction es generalizing i with
  | nil => cases hi
  | cons e es ih =>
    rw [postorderAll, List.getElem?_append] at hi
    rw [postorderAll]
    split at hi
    · rw [List.take_append_of_le_length (by omega)]
      exact h e (List.mem_cons_self ..) i hi
    · rename_i hge
      obtain ⟨i, rfl⟩ := Nat.exists_eq_add_of_le (Nat.le_of_not_lt hge)
      rw [Nat.add_sub_cancel_left] at hi
      rw [Nat.add_assoc, List.take_length_add_append]
      exact (ih (fun x hx => h x (List.mem_cons_of_mem _ hx)) hi).trans (List.suffix_append ..)

@[inherit_doc postorderAll_suffix]
theorem postorder_suffix {e n : Expr} {i : Nat} (h : e.postorder[i]? = some n) :
    n.postorder <:+ e.postorder.take (i + 1) := by
  induction e using childInduction generalizing i with
  | node e ih =>
    rw [postorder_eq, List.getElem?_append] at h
    rw [postorder_eq e]
    split at h
    · rw [List.take_append_of_le_length (by omega)]
      exact postorderAll_suffix (fun c hc i hi => ih c hc hi) h
    · obtain ⟨hlt, rfl⟩ := List.getElem?_eq_some_iff.mp h
      rw [List.length_singleton] at hlt
      have hlen : (postorderAll e.children ++ [e]).length ≤ i + 1 := by
        rw [List.length_append, List.length_singleton]
        omega
      rw [List.getElem_singleton, List.take_of_length_le hlen]
      exact postorder_eq e ▸ List.suffix_refl _

theorem length_le_of_place {es : List Expr} {n : Expr} {i : Nat}
    (h : (postorderAll es)[i]? = some n) : n.postorder.length ≤ i + 1 := by
  have hle := (postorderAll_suffix (fun _ _ _ => postorder_suffix) h).length_le
  rw [List.length_take] at hle
  omega

mutual

/-- An expression after the first of its nodes, operands before nodes, were
replaced by some results: a node with a result is that result, any other node
has what became of its operands. -/
def refit (results : List Expr) : Expr → Expr
  | .column p => (results[0]?).getD (.column p)
  | .literal v => (results[0]?).getD (.literal v)
  | .star => (results[0]?).getD .star
  | .unary op e => (results[e.postorder.length]?).getD (.unary op (e.refit results))
  | .binary op l r =>
    (results[l.postorder.length + r.postorder.length]?).getD
      (.binary op (l.refit results) (r.refit (results.drop l.postorder.length)))
  | .ifElse t e p =>
    (results[t.postorder.length + e.postorder.length + p.postorder.length]?).getD
      (.ifElse (t.refit results) (e.refit (results.drop t.postorder.length))
        (p.refit (results.drop (t.postorder.length + e.postorder.length))))
  | .call f args =>
    (results[(postorderAll args).length]?).getD (.call f (refitAll results args))

def refitAll (results : List Expr) : List Expr → List Expr
  | [] => []
  | e :: es => e.refit results :: refitAll (results.drop e.postorder.length) es

end

theorem refit_of_getElem? {e v : Expr} {results : List Expr}
    (h : results[(postorderAll e.children).length]? = some v) : e.refit results = v := by
  cases e <;> simp_all [refit, children, postorderAll, Nat.add_assoc]

theorem withChildren?_refitAll {e : Expr} {results : List Expr}
    (h : results.length < e.postorder.length) :
    e.withChildren? (refitAll results e.children) = some (e.refit results) := by
  rw [length_postorder, Nat.lt_succ_iff] at h
  have hnone := List.getElem?_eq_none h
  cases e <;> simp_all [refit, refitAll, children, postorderAll, withChildren?, Nat.add_assoc]

mutual

theorem refit_nil : ∀ e : Expr, e.refit [] = e
  | .column _ | .literal _ | .star => rfl
  | .unary op e => by simp [refit, refit_nil e]
  | .binary op l r => by simp [refit, refit_nil l, refit_nil r]
  | .ifElse t e p => by simp [refit, refit_nil t, refit_nil e, refit_nil p]
  | .call f args => by simp [refit, refitAll_nil args]

theorem refitAll_nil : ∀ es : List Expr, refitAll [] es = es
  | [] => rfl
  | e :: es => by simp [refitAll, refit_nil e, refitAll_nil es]

end

section Revising

variable {m : Type → Type} [Monad m] {f : Expr → m (Revised Expr)}

theorem proceed_ne_stop : Signal.proceed ≠ .stop := by decide

/-- Whether a node is given to `f` depends on whether the walk over its operands
was ended, and on nothing else of its signal. -/
theorem settle_congr {a b : Revised Expr} (hvalue : a.value = b.value)
    (hchanged : a.changed = b.changed) (hsignal : a.signal = .stop ↔ b.signal = .stop) :
    settle f a = settle f b := by
  obtain ⟨v, c, s⟩ := a
  obtain ⟨v', c', s'⟩ := b
  obtain rfl : v = v' := hvalue
  obtain rfl : c = c' := hchanged
  by_cases hs : s = .stop
  · obtain rfl : s' = .stop := hsignal.mp hs
    rw [hs]
  · rw [settle, settle, if_neg hs, if_neg (mt hsignal.mpr hs)]

theorem settle_rebuild {α β : Type} {a : Revised α} {b : Revised β} {e : Expr}
    {build : α → Expr} {build' : β → Expr} (hvalue : build a.value = build' b.value)
    (hchanged : a.changed = b.changed) (hsignal : a.signal = .stop ↔ b.signal = .stop) :
    settle f (a.rebuild e build) = settle f (b.rebuild e build') :=
  settle_congr (by rw [Revised.rebuild, Revised.rebuild, hvalue, hchanged]) hchanged hsignal

variable [LawfulMonad m]

theorem reviseUpAll_cons (e : Expr) (es : List Expr) :
    reviseUpAll f (e :: es) = (do
      let e' ← reviseUp f e
      if e'.signal = .stop then pure ⟨e'.value :: es, e'.changed, .stop⟩
      else do
        let es' ← reviseUpAll f es
        pure ⟨e'.value :: es'.value, e'.changed || es'.changed, es'.signal⟩) := by
  rw [reviseUpAll]
  refine bind_congr fun e' => ?_
  unfold Revised.followedBy
  split
  · rw [pure_bind]; rfl
  · rw [bind_assoc]
    refine bind_congr fun es' => ?_
    rw [pure_bind]; rfl

/-- To revise an expression is to revise its operands and then the node that has
them. -/
theorem reviseUp_eq (e : Expr) : reviseUp f e = (do
    let operands ← reviseUpAll f e.children
    settle f (operands.rebuild e fun es => (e.withChildren? es).getD e)) := by
  cases e with
  | column p => rw [children, reviseUpAll, pure_bind]; rfl
  | literal v => rw [children, reviseUpAll, pure_bind]; rfl
  | star => rw [children, reviseUpAll, pure_bind]; rfl
  | call g args => rfl
  | unary op x =>
    simp only [reviseUp, children, reviseUpAll_cons, reviseUpAll, bind_assoc]
    refine bind_congr fun x' => ?_
    by_cases hx : x'.signal = .stop
    · simp only [hx, if_true, pure_bind]
      exact settle_rebuild rfl rfl (iff_of_true hx rfl)
    · simp only [hx, if_false, pure_bind]
      exact settle_rebuild rfl (Bool.or_false _).symm (iff_of_false hx proceed_ne_stop)
  | binary op l r =>
    simp only [reviseUp, children, reviseUpAll_cons, reviseUpAll, Revised.followedBy, bind_assoc]
    refine bind_congr fun l' => ?_
    by_cases hl : l'.signal = .stop
    · simp only [hl, if_true, pure_bind]
      exact settle_rebuild rfl rfl Iff.rfl
    · simp only [hl, if_false, bind_assoc]
      refine bind_congr fun r' => ?_
      by_cases hr : r'.signal = .stop
      · simp only [hr, if_true, pure_bind]
        exact settle_rebuild rfl rfl Iff.rfl
      · simp only [hr, if_false, pure_bind]
        exact settle_rebuild rfl (congrArg (l'.changed || ·) (Bool.or_false r'.changed).symm)
          (iff_of_false hr proceed_ne_stop)
  | ifElse t x p =>
    simp only [reviseUp, children, reviseUpAll_cons, reviseUpAll, Revised.followedBy, bind_assoc]
    refine bind_congr fun t' => ?_
    by_cases ht : t'.signal = .stop
    · simp only [ht, if_true, pure_bind]
      exact settle_rebuild rfl rfl Iff.rfl
    · simp only [ht, if_false, bind_assoc]
      refine bind_congr fun x' => ?_
      by_cases hx : x'.signal = .stop
      · simp only [hx, if_true, pure_bind]
        exact settle_rebuild rfl rfl Iff.rfl
      · simp only [hx, if_false, pure_bind, bind_assoc]
        refine bind_congr fun p' => ?_
        by_cases hp : p'.signal = .stop
        · simp only [hp, if_true, pure_bind]
          exact settle_rebuild rfl (Bool.or_assoc ..) Iff.rfl
        · simp only [hp, if_false, pure_bind]
          refine settle_rebuild rfl ((Bool.or_assoc ..).trans ?_) (iff_of_false hp proceed_ne_stop)
          exact congrArg (fun c => t'.changed || (x'.changed || c)) (Bool.or_false p'.changed).symm

end Revising

/-! ## Visitors that note what they are given -/

/-- What an answer puts in place of a node. -/
def given : Except ε (Revised Expr) → Option Expr
  | .ok r => some r.value
  | .error _ => none

/-- What was put in place of some nodes, when the `k`-th is answered by
`answer k`. -/
def givenFor (answer : Nat → Expr → Except ε (Revised Expr)) (calls : List Expr) : List Expr :=
  (calls.mapIdx answer).filterMap given

/-- An answer after which no node is given to the visitor any more. -/
def endsRevision : Except ε (Revised Expr) → Bool
  | .ok r => r.signal = .stop
  | .error _ => true

/-- The nodes that a visitor is given, when it answers the `k`-th by `answer k`
and `ns` lists the nodes, operands before nodes. It is given one for each node
of the list in turn, up to the one after which it ends the walk: the node with
what became of its operands, which stand right before it. -/
structure Called (answer : Nat → Expr → Except ε (Revised Expr)) (ns calls : List Expr) :
    Prop where
  lt_iff (k : Nat) : k < calls.length ↔ k < ns.length ∧
    ∀ j n, calls[j]? = some n → j < k → endsRevision (answer j n) = false
  rebuilt (k : Nat) (n old : Expr) : calls[k]? = some n → ns[k]? = some old →
    old.withChildren? (refitAll
      ((givenFor answer (calls.take k)).drop (k + 1 - old.postorder.length)) old.children) = some n

variable {answer : Nat → Expr → Except ε (Revised Expr)} {ns ns' calls calls' : List Expr}

theorem answers_append (answer : Nat → Expr → Except ε (Revised Expr)) (calls calls' : List Expr) :
    (calls ++ calls').mapIdx answer =
      calls.mapIdx answer ++ calls'.mapIdx fun k => answer (calls.length + k) := by
  simp only [List.mapIdx_append, Nat.add_comm]

theorem givenFor_append (answer : Nat → Expr → Except ε (Revised Expr)) (calls calls' : List Expr) :
    givenFor answer (calls ++ calls') =
      givenFor answer calls ++ givenFor (fun k => answer (calls.length + k)) calls' := by
  rw [givenFor, answers_append, List.filterMap_append]
  rfl

theorem length_givenFor (hgo : ∀ j n, calls[j]? = some n → endsRevision (answer j n) = false) :
    (givenFor answer calls).length = calls.length := by
  induction calls generalizing answer with
  | nil => rfl
  | cons n calls ih =>
    have hn := hgo 0 n rfl
    have ih := @ih (fun k => answer (k + 1)) fun j x hj => hgo (j + 1) x hj
    rw [givenFor, List.mapIdx_cons, List.filterMap_cons]
    cases ha : answer 0 n with
    | error c => rw [ha] at hn; cases hn
    | ok r => exact congrArg Nat.succ ih

theorem Called.length_le (h : Called answer ns calls) : calls.length ≤ ns.length := by
  by_contra hlt
  have := ((h.lt_iff ns.length).mp (by omega)).1
  omega

/-- A walk that was not ended goes through the whole list. -/
theorem Called.length_eq (h : Called answer ns calls)
    (hgo : ∀ j n, calls[j]? = some n → endsRevision (answer j n) = false) :
    calls.length = ns.length := by
  refine Nat.le_antisymm h.length_le (Nat.le_of_not_lt fun hlt => ?_)
  have := (h.lt_iff calls.length).mpr ⟨hlt, fun j n hj _ => hgo j n hj⟩
  omega

theorem called_nil : Called answer [] [] where
  lt_iff k := by simp
  rebuilt k n old hn := by cases hn

/-- A walk that was ended goes no further. -/
theorem Called.ended (h : Called answer ns calls) {j : Nat} {n : Expr} (hj : calls[j]? = some n)
    (hends : endsRevision (answer j n) = true) (ns' : List Expr) :
    Called answer (ns ++ ns') calls where
  lt_iff k := by
    constructor
    · intro hk
      obtain ⟨hlt, hall⟩ := (h.lt_iff k).mp hk
      exact ⟨by rw [List.length_append]; omega, hall⟩
    · rintro ⟨-, hall⟩
      by_contra hk
      have hjlt := (List.getElem?_eq_some_iff.mp hj).1
      rw [hall j n hj (by omega)] at hends
      cases hends
  rebuilt k n old hn hold := by
    have hlt := (List.getElem?_eq_some_iff.mp hn).1
    rw [List.getElem?_append_left (Nat.lt_of_lt_of_le hlt h.length_le)] at hold
    exact h.rebuilt k n old hn hold

/-- A walk that was not ended goes on. -/
theorem Called.extend (h : Called answer ns calls)
    (hgo : ∀ j n, calls[j]? = some n → endsRevision (answer j n) = false)
    (hlt : ∀ k, k < calls'.length ↔ k < ns'.length ∧
      ∀ j n, calls'[j]? = some n → j < k → endsRevision (answer (calls.length + j) n) = false)
    (hrebuilt : ∀ (k : Nat) (n old : Expr), calls'[k]? = some n → ns'[k]? = some old →
      old.withChildren? (refitAll ((givenFor answer (calls ++ calls'.take k)).drop
        (calls.length + k + 1 - old.postorder.length)) old.children) = some n) :
    Called answer (ns ++ ns') (calls ++ calls') where
  lt_iff k := by
    have hlen := h.length_eq hgo
    rw [List.length_append, List.length_append]
    constructor
    · intro hk
      refine ⟨?_, fun j n hj hjk => ?_⟩
      · by_cases hks : k < calls.length
        · omega
        · have := ((hlt (k - calls.length)).mp (by omega)).1
          omega
      · rw [List.getElem?_append] at hj
        split at hj
        · exact hgo j n hj
        · have := ((hlt (k - calls.length)).mp (by omega)).2 _ n hj (by omega)
          rwa [Nat.add_sub_cancel' (by omega)] at this
    · rintro ⟨hk, hall⟩
      by_contra hge
      have := (hlt (k - calls.length)).mpr ⟨by omega, fun j n hj hjk => ?_⟩
      · omega
      · refine hall _ n ?_ (by omega)
        rw [List.getElem?_append_right (by omega), Nat.add_sub_cancel_left, hj]
  rebuilt k n old hn hold := by
    have hlen := h.length_eq hgo
    by_cases hk : k < calls.length
    · rw [List.getElem?_append_left hk] at hn
      rw [List.getElem?_append_left (by omega)] at hold
      rw [List.take_append_of_le_length (by omega)]
      exact h.rebuilt k n old hn hold
    · obtain ⟨k, rfl⟩ := Nat.exists_eq_add_of_le (Nat.le_of_not_lt hk)
      rw [List.getElem?_append_right (by omega), Nat.add_sub_cancel_left] at hn
      rw [List.getElem?_append_right (by omega), ← hlen, Nat.add_sub_cancel_left] at hold
      rw [List.take_length_add_append]
      exact hrebuilt k n old hn hold

/-- A walk that was not ended goes on with other expressions. -/
theorem Called.append (h : Called answer ns calls)
    (hgo : ∀ j n, calls[j]? = some n → endsRevision (answer j n) = false)
    (h' : Called (fun k => answer (calls.length + k)) ns' calls')
    (hfits : ∀ (k : Nat) (old : Expr), ns'[k]? = some old → old.postorder.length ≤ k + 1) :
    Called answer (ns ++ ns') (calls ++ calls') := by
  refine h.extend hgo h'.lt_iff fun k n old hn hold => ?_
  have hdrop : (givenFor answer calls ++ givenFor (fun k => answer (calls.length + k))
      (calls'.take k)).drop (calls.length + k + 1 - old.postorder.length) =
      (givenFor (fun k => answer (calls.length + k)) (calls'.take k)).drop
        (k + 1 - old.postorder.length) := by
    rw [Nat.add_assoc, Nat.add_sub_assoc (hfits k old hold), ← length_givenFor hgo,
      List.drop_length_add_append]
  rw [givenFor_append, hdrop]
  exact h'.rebuilt k n old hn hold

/-- A walk that was not ended goes on with the node that has the operands. -/
theorem Called.node (h : Called answer ns calls)
    (hgo : ∀ j n, calls[j]? = some n → endsRevision (answer j n) = false) {e n : Expr}
    (hn : e.withChildren? (refitAll ((givenFor answer calls).drop
      (calls.length + 1 - e.postorder.length)) e.children) = some n) :
    Called answer (ns ++ [e]) (calls ++ [n]) := by
  refine h.extend hgo (fun k => ?_) fun k x old hx hold => ?_
  · rw [List.length_singleton, List.length_singleton]
    refine ⟨fun hk => ⟨hk, fun j _ _ hj => ?_⟩, And.left⟩
    omega
  · cases k with
    | zero =>
      cases hx
      cases hold
      rw [List.take_zero, List.append_nil, Nat.add_zero]
      exact hn
    | succ k => cases hx

/-! ## What a revision does -/

/-- How a revision ends by the answers of its visitor, where `build` makes the
value out of what the nodes were replaced by. -/
inductive RevisesBy {α : Type} (build : List Expr → α) (answers : List (Except ε (Revised Expr))) :
    Except ε (Revised α) → Prop
  /-- The last answer is a failure. -/
  | failed (rs : List (Revised Expr)) (c : ε) (hanswers : answers = rs.map .ok ++ [.error c]) :
      RevisesBy build answers (.error c)
  /-- No answer is a failure. -/
  | done (rs : List (Revised Expr)) (s : Signal) (hanswers : answers = rs.map .ok)
      (hstop : s = .stop ↔ ∃ r ∈ rs, r.signal = .stop)
      (hsame : (∀ r ∈ rs, r.changed = false) → build (rs.map Revised.value) = build []) :
      RevisesBy build answers (.ok ⟨build (rs.map Revised.value), rs.any Revised.changed, s⟩)

/-- A revision gives the visitor the nodes that it should, after some nodes were
given to it, and ends by its answers. -/
def RevisesFrom {α : Type} (x : Noting ε (Revised α))
    (answer : Nat → Expr → Except ε (Revised Expr)) (ns : List Expr) (build : List Expr → α)
    (seen : List Expr) : Prop :=
  ∃ calls out, Called (fun k => answer (seen.length + k)) ns calls ∧
    noted x seen = (out, seen ++ calls) ∧
    RevisesBy build (calls.mapIdx fun k => answer (seen.length + k)) out

theorem noted_then {α β : Type} (x : Noting ε α) (g : α → Noting ε β) (seen : List Expr) :
    noted (x >>= g) seen =
      match noted x seen with
      | (.ok a, s) => noted (g a) s
      | (.error c, s) => (.error c, s) := by
  have hrun : noted (x >>= g) seen =
      (ExceptT.bindCont (m := StateM (List Expr)) g (noted x seen).1).run (noted x seen).2 := rfl
  rw [hrun]
  rcases noted x seen with ⟨c | a, s⟩ <;> rfl

theorem exists_call {a : Except ε (Revised Expr)} (h : a ∈ calls.mapIdx answer) :
    ∃ j n, calls[j]? = some n ∧ answer j n = a := by
  obtain ⟨j, hj, rfl⟩ := List.mem_mapIdx.mp h
  exact ⟨j, calls[j], List.getElem?_eq_getElem hj, rfl⟩

variable {rs : List (Revised Expr)}

theorem mem_of_call (hanswers : calls.mapIdx answer = rs.map .ok) {j : Nat} {n : Expr}
    (hj : calls[j]? = some n) : ∃ r ∈ rs, answer j n = .ok r := by
  have hmem : answer j n ∈ calls.mapIdx answer := by
    obtain ⟨hlt, rfl⟩ := List.getElem?_eq_some_iff.mp hj
    exact List.mem_mapIdx.mpr ⟨j, hlt, rfl⟩
  rw [hanswers] at hmem
  obtain ⟨r, hr, hrj⟩ := List.mem_map.mp hmem
  exact ⟨r, hr, hrj.symm⟩

theorem call_of_mem (hanswers : calls.mapIdx answer = rs.map .ok) {r : Revised Expr}
    (hr : r ∈ rs) : ∃ j n, calls[j]? = some n ∧ answer j n = .ok r :=
  exists_call (hanswers ▸ List.mem_map.mpr ⟨r, hr, rfl⟩)

theorem length_of_map (hanswers : calls.mapIdx answer = rs.map .ok) :
    (rs.map Revised.value).length = calls.length := by
  have hlen := congrArg List.length hanswers
  rw [List.length_mapIdx, List.length_map] at hlen
  rw [List.length_map, hlen]

theorem unchanged_of_any (h : rs.any Revised.changed = false) : ∀ r ∈ rs, r.changed = false :=
  fun r hr => Bool.eq_false_iff.mpr (List.any_eq_false.mp h r hr)

theorem changed_iff (hanswers : calls.mapIdx answer = rs.map .ok) :
    rs.any Revised.changed = true ↔
      ∃ k n r, calls[k]? = some n ∧ answer k n = .ok r ∧ r.changed = true := by
  rw [List.any_eq_true]
  constructor
  · rintro ⟨r, hr, hchanged⟩
    obtain ⟨k, n, hk, hn⟩ := call_of_mem hanswers hr
    exact ⟨k, n, r, hk, hn, hchanged⟩
  · rintro ⟨k, n, r, hk, hn, hchanged⟩
    obtain ⟨r', hr', hn'⟩ := mem_of_call hanswers hk
    exact ⟨r', hr', Except.ok.inj (hn.symm.trans hn') ▸ hchanged⟩

/-- After answers that do not end the walk it is for the later ones to end it. -/
theorem stops_append (hgo : ∀ r ∈ rs, r.signal ≠ .stop) (rs' : List (Revised Expr)) :
    (∃ r ∈ rs ++ rs', r.signal = .stop) ↔ ∃ r ∈ rs', r.signal = .stop := by
  constructor
  · rintro ⟨r, hr, hrs⟩
    rcases List.mem_append.mp hr with hr | hr
    · exact absurd hrs (hgo r hr)
    · exact ⟨r, hr, hrs⟩
  · rintro ⟨r, hr, hrs⟩
    exact ⟨r, List.mem_append_right _ hr, hrs⟩

/-- If no answer is a failure or ends the walk, then the walk goes on. -/
theorem goesOn_of_map (hanswers : calls.mapIdx answer = rs.map .ok)
    (hgo : ∀ r ∈ rs, r.signal ≠ .stop) {j : Nat} {n : Expr} (hj : calls[j]? = some n) :
    endsRevision (answer j n) = false := by
  obtain ⟨r, hr, hrj⟩ := mem_of_call hanswers hj
  rw [hrj]
  exact decide_eq_false (hgo r hr)

theorem givenFor_of_map (hanswers : calls.mapIdx answer = rs.map .ok) :
    givenFor answer calls = rs.map Revised.value := by
  rw [givenFor, hanswers, List.filterMap_map]
  exact congrFun List.filterMap_eq_map rs

theorem refitAll_of_length_le {e : Expr} {es results : List Expr}
    (h : results.length ≤ e.postorder.length) :
    refitAll results (e :: es) = e.refit results :: es := by
  rw [refitAll, List.drop_of_length_le h, refitAll_nil]

/-- A node that has a result hides what follows it. -/
theorem refitAll_append {e : Expr} {es results rest : List Expr}
    (h : results.length = e.postorder.length) :
    refitAll (results ++ rest) (e :: es) = e.refit results :: refitAll rest es := by
  have hlast : (postorderAll e.children).length < results.length := by
    rw [h, length_postorder]
    exact Nat.lt_succ_self _
  have hresult := List.getElem?_eq_getElem hlast
  have hresult' : (results ++ rest)[(postorderAll e.children).length]? = some _ :=
    (List.getElem?_append_left hlast).trans hresult
  rw [refitAll, ← h, List.drop_left, refit_of_getElem? hresult, refit_of_getElem? hresult']

/-- A revision that is followed by more. A failure and the end of the walk are
passed on; otherwise the rest goes on where the first part was. -/
theorem RevisesFrom.followed {α β : Type} {x : Noting ε (Revised α)}
    {g : Revised α → Noting ε (Revised β)} {build : List Expr → α} {build' : List Expr → β}
    {seen : List Expr} (h : RevisesFrom x answer ns build seen)
    (hstop : ∀ results changed, results.length ≤ ns.length →
      (changed = false → build results = build []) →
        g ⟨build results, changed, .stop⟩ = pure ⟨build' results, changed, .stop⟩)
    (hsame : ∀ results, results.length ≤ ns.length → build results = build [] →
      build' results = build' [])
    (hgo : ∀ (calls : List Expr) (rs : List (Revised Expr)) (s : Signal),
      Called (fun k => answer (seen.length + k)) ns calls →
      (∀ j n, calls[j]? = some n → endsRevision (answer (seen.length + j) n) = false) →
      (calls.mapIdx fun k => answer (seen.length + k)) = rs.map .ok →
      (∀ r ∈ rs, r.signal ≠ .stop) → s ≠ .stop →
      ((∀ r ∈ rs, r.changed = false) → build (rs.map Revised.value) = build []) →
      ∃ calls' out, Called (fun k => answer (seen.length + k)) (ns ++ ns') (calls ++ calls') ∧
        noted (g ⟨build (rs.map Revised.value), rs.any Revised.changed, s⟩) (seen ++ calls) =
          (out, seen ++ (calls ++ calls')) ∧
        RevisesBy build' ((calls ++ calls').mapIdx fun k => answer (seen.length + k)) out) :
    RevisesFrom (x >>= g) answer (ns ++ ns') build' seen := by
  obtain ⟨calls, out, hcalled, hnoted, hby⟩ := h
  unfold RevisesFrom
  rw [noted_then, hnoted]
  cases hby with
  | failed rs c hanswers =>
    have hmem : .error c ∈ calls.mapIdx fun k => answer (seen.length + k) := by
      rw [hanswers]
      exact List.mem_append_right _ (List.mem_singleton_self _)
    obtain ⟨j, n, hj, hn⟩ := exists_call hmem
    exact ⟨calls, _, hcalled.ended hj (by rw [hn]; rfl) _, rfl, .failed rs c hanswers⟩
  | done rs s hanswers hends hsame' =>
    -- Whether more nodes are given to the visitor depends on this alone.
    by_cases hs : s = .stop
    · obtain ⟨r, hr, hrs⟩ := hends.mp hs
      obtain ⟨j, n, hj, hn⟩ := call_of_mem hanswers hr
      have hlen : (rs.map Revised.value).length ≤ ns.length := by
        rw [length_of_map hanswers]
        exact hcalled.length_le
      refine ⟨calls, _, hcalled.ended hj (by rw [hn]; exact decide_eq_true hrs) _, ?_,
        .done rs .stop hanswers (iff_of_true rfl ⟨r, hr, hrs⟩) fun hall =>
          hsame _ hlen (hsame' hall)⟩
      have hpure := hstop _ _ hlen fun hany => hsame' (unchanged_of_any hany)
      rw [hs]
      exact congrArg (fun y => noted y (seen ++ calls)) hpure
    · have hnone : ∀ r ∈ rs, r.signal ≠ .stop := fun r hr hrs => hs (hends.mpr ⟨r, hr, hrs⟩)
      obtain ⟨calls', out, hcalled', hnoted', hby'⟩ := hgo calls rs s hcalled
        (fun j n hj => goesOn_of_map hanswers hnone hj) hanswers hnone hs hsame'
      exact ⟨calls ++ calls', out, hcalled', hnoted', hby'⟩

/-- Siblings are revised in turn. -/
theorem revisesFrom_all {es : List Expr}
    (h : ∀ e ∈ es, ∀ seen,
      RevisesFrom (reviseUp (noting answer) e) answer e.postorder e.refit seen) (seen : List Expr) :
    RevisesFrom (reviseUpAll (noting answer) es) answer (postorderAll es) (refitAll · es) seen := by
  induction es generalizing seen with
  | nil =>
    refine ⟨[], _, called_nil, ?_, .done [] .proceed rfl (by simp) fun _ => rfl⟩
    rw [List.append_nil]
    rfl
  | cons e es ih =>
    rw [reviseUpAll_cons, postorderAll]
    refine RevisesFrom.followed (h e (List.mem_cons_self ..) seen) ?_ ?_ ?_
    · intro results changed hlen _
      rw [if_pos rfl, refitAll_of_length_le hlen]
    · intro results hlen hsame
      rw [refitAll_of_length_le hlen, hsame, refit_nil, refitAll_nil]
    · intro calls rs s hcalled hgo hanswers hnone hs hsame
      obtain ⟨calls', out', hcalled', hnoted', hby'⟩ :=
        ih (fun x hx => h x (List.mem_cons_of_mem _ hx)) (seen ++ calls)
      have hcount : ∀ k, (seen ++ calls).length + k = seen.length + (calls.length + k) :=
        fun k => by rw [List.length_append, Nat.add_assoc]
      simp only [hcount] at hcalled' hby'
      have hlen : (rs.map Revised.value).length = e.postorder.length :=
        (length_of_map hanswers).trans (hcalled.length_eq hgo)
      refine ⟨calls', ?_⟩
      rw [if_neg hs, noted_then, hnoted', ← List.append_assoc, answers_append, hanswers]
      have hall := hcalled.append hgo hcalled' fun k old hold => length_le_of_place hold
      cases hby' with
      | failed rs' c hrest =>
        rw [hrest, ← List.append_assoc, ← List.map_append]
        exact ⟨_, hall, rfl, .failed _ c rfl⟩
      | done rs' s' hrest hstop' hsame' =>
        have hvalue : refitAll ((rs ++ rs').map Revised.value) (e :: es) =
            e.refit (rs.map Revised.value) :: refitAll (rs'.map Revised.value) es := by
          rw [List.map_append, refitAll_append hlen]
        rw [hrest, ← List.map_append]
        refine ⟨_, hall, ?_, .done (rs ++ rs') s' rfl (hstop'.trans (stops_append hnone rs').symm)
          fun hsames => ?_⟩
        · rw [hvalue, List.any_append]
          rfl
        · rw [hvalue, hsame fun r hr => hsames r (List.mem_append_left _ hr),
            hsame' fun r hr => hsames r (List.mem_append_right _ hr)]
          simp only [refitAll_nil, refit_nil]

theorem withChildren?_children (e : Expr) : e.withChildren? e.children = some e := by
  cases e <;> rfl

/-- The node with its operands replaced, as it is settled. -/
theorem rebuild_refit {e : Expr} {results : List Expr} {changed : Bool} {s : Signal}
    (hlen : results.length ≤ (postorderAll e.children).length)
    (hsame : changed = false → refitAll results e.children = refitAll [] e.children) :
    (⟨refitAll results e.children, changed, s⟩ : Revised (List Expr)).rebuild e
      (fun es => (e.withChildren? es).getD e) = ⟨e.refit results, changed, s⟩ := by
  have hrefit : e.withChildren? (refitAll results e.children) = some (e.refit results) :=
    withChildren?_refitAll (by rw [length_postorder]; omega)
  unfold Revised.rebuild
  cases changed with
  | true => simp only [if_true, hrefit, Option.getD_some]
  | false =>
    rw [hsame rfl, refitAll_nil, withChildren?_children] at hrefit
    rw [if_neg Bool.false_ne_true, ← Option.some.inj hrefit]

theorem refit_eq_of_refitAll {e : Expr} {results : List Expr}
    (hlen : results.length ≤ (postorderAll e.children).length)
    (hsame : refitAll results e.children = refitAll [] e.children) :
    e.refit results = e.refit [] := by
  have hrefit : e.withChildren? (refitAll results e.children) = some (e.refit results) :=
    withChildren?_refitAll (by rw [length_postorder]; omega)
  rw [hsame, refitAll_nil, withChildren?_children] at hrefit
  rw [refit_nil, ← Option.some.inj hrefit]

/-- This is what a visitor that reports every change does to an expression. -/
theorem revisesFrom (honest : ∀ k n r, answer k n = .ok r → r.changed = false → r.value = n)
    (e : Expr) (seen : List Expr) :
    RevisesFrom (reviseUp (noting answer) e) answer e.postorder e.refit seen := by
  induction e using childInduction generalizing seen with
  | node e ih =>
    rw [reviseUp_eq, postorder_eq]
    refine RevisesFrom.followed (revisesFrom_all ih seen) ?_ ?_ ?_
    · intro results changed hlen hsame
      rw [rebuild_refit hlen hsame, settle, if_pos rfl]
    · exact fun results hlen hsame => refit_eq_of_refitAll hlen hsame
    · intro calls rs s hcalled hgo hanswers hnone hs hsame
      have hlen : (rs.map Revised.value).length = (postorderAll e.children).length :=
        (length_of_map hanswers).trans (hcalled.length_eq hgo)
      -- The node itself is shown with the results of its operands, which are all there.
      have hnode := Called.node hcalled hgo (e := e) (n := e.refit (rs.map Revised.value)) (by
        rw [givenFor_of_map hanswers, length_postorder, ← hcalled.length_eq hgo, Nat.sub_self,
          List.drop_zero]
        exact withChildren?_refitAll (by rw [length_postorder]; omega))
      refine ⟨[e.refit (rs.map Revised.value)], ?_⟩
      rw [rebuild_refit (Nat.le_of_eq hlen) fun hany => hsame (unchanged_of_any hany), settle,
        if_neg hs, noted_bind,
        answers_append, hanswers]
      simp only [List.mapIdx_cons, List.mapIdx_nil, Nat.add_zero, List.length_append]
      cases ha : answer (seen.length + calls.length) (e.refit (rs.map Revised.value)) with
      | error c =>
        refine ⟨_, hnode, ?_, .failed rs c rfl⟩
        rw [List.append_assoc]
      | ok r =>
        have hvalue : e.refit ((rs ++ [r]).map Revised.value) = r.value := by
          refine refit_of_getElem? ?_
          rw [List.map_append, ← hlen, List.getElem?_append_right (Nat.le_refl _), Nat.sub_self]
          rfl
        refine ⟨_, hnode, ?_, .done (rs ++ [r]) r.signal (by rw [List.map_append]; rfl) ?_
          fun hall => ?_⟩
        · rw [hvalue, List.any_append, ← List.append_assoc, Bool.or_comm]
          simp only [List.any_cons, List.any_nil, Bool.or_false]
          rfl
        · rw [stops_append hnone]
          simp
        · rw [hvalue, honest _ _ r ha (hall r (by simp))]
          exact refit_eq_of_refitAll (Nat.le_of_eq hlen)
            (hsame fun x hx => hall x (List.mem_append_left _ hx))

/-- A visitor that reports every change is given the nodes of the expression in
turn, operands before the node that has them, each with what became of its
operands, until it ends the walk or fails. Then the nodes above are given new
operands and the others stay. A change is reported if the visitor reported one,
and without a change the expression is as it was. -/
theorem reviseUp_called (answer : Nat → Expr → Except ε (Revised Expr))
    (honest : ∀ k n r, answer k n = .ok r → r.changed = false → r.value = n) (e : Expr) :
    (∀ (i : Nat) (n : Expr), e.postorder[i]? = some n → n.postorder <:+ e.postorder.take (i + 1)) ∧
    (∀ (x v : Expr) (results : List Expr),
      results[(postorderAll x.children).length]? = some v → x.refit results = v) ∧
    (∀ (x : Expr) (results : List Expr), results.length < x.postorder.length →
      x.withChildren? (refitAll results x.children) = some (x.refit results)) ∧
    (∀ x : Expr, x.refit [] = x) ∧
    ∃ calls, Called answer e.postorder calls ∧
      (noted (reviseUp (noting answer) e)).2 = calls ∧
      RevisesBy e.refit (calls.mapIdx answer) (noted (reviseUp (noting answer) e)).1 ∧
      ∀ out, (noted (reviseUp (noting answer) e)).1 = .ok out →
        (out.changed = true ↔
          ∃ k n r, calls[k]? = some n ∧ answer k n = .ok r ∧ r.changed = true) ∧
        (out.changed = false → out.value = e) := by
  refine ⟨fun _ _ => postorder_suffix, fun _ _ _ => refit_of_getElem?,
    fun _ _ => withChildren?_refitAll, refit_nil, ?_⟩
  obtain ⟨calls, out, hcalled, hnoted, hby⟩ := revisesFrom honest e []
  simp only [List.length_nil, Nat.zero_add, List.nil_append] at hcalled hnoted hby
  rw [hnoted]
  refine ⟨calls, hcalled, rfl, hby, fun out' hout => ?_⟩
  cases hby with
  | failed rs c hanswers => cases hout
  | done rs s hanswers hstop hsame =>
    cases hout
    exact ⟨changed_iff hanswers, fun hany => (hsame (unchanged_of_any hany)).trans (refit_nil e)⟩

/-- A name, a call with three arguments and a test. -/
def revisable : Expr :=
  .ifElse (.named (.column 0) "a")
    (.call ⟨"CONCAT", .scalar .chararray⟩ [.column 1, .column 2, .column 3]) (.isNull (.column 4))

/-- Replaces two columns, and ends the walk at the second. -/
def replacing : Nat → Expr → Except Nat (Revised Expr)
  | _, .column 0 => .ok (.replaced (.column 7))
  | _, .column 1 => .ok ⟨.column 1, false, .skip⟩
  | _, .column 2 => .ok ⟨.column 8, true, .stop⟩
  | _, n => .ok (.unchanged n)

theorem reviseUp_replacing :
    (∀ k n r, replacing k n = .ok r → r.changed = false → r.value = n) ∧
    noted (reviseUp (noting replacing) revisable) =
      (.ok ⟨.ifElse (.named (.column 7) "a")
        (.call ⟨"CONCAT", .scalar .chararray⟩ [.column 1, .column 8, .column 3])
        (.isNull (.column 4)), true, .stop⟩,
        [.column 0, .named (.column 7) "a", .column 1, .column 2]) ∧
    Called replacing revisable.postorder
      [.column 0, .named (.column 7) "a", .column 1, .column 2] := by
  have honest : ∀ k n r, replacing k n = .ok r → r.changed = false → r.value = n := by
    intro k n r h hr
    unfold replacing at h
    split at h
    · cases h; cases hr
    · cases h; rfl
    · cases h; cases hr
    · cases h; rfl
  obtain ⟨-, -, -, -, calls, hcalled, hcalls, -, -⟩ := reviseUp_called replacing honest revisable
  refine ⟨honest, rfl, ?_⟩
  rw [← hcalls] at hcalled
  exact hcalled

end Expr

end Dataflow
