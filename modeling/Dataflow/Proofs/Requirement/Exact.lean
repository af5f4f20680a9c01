import Dataflow.Proofs.Prune.Total
import Dataflow.Proofs.Requirement.Lattice

/-!
# Exact requirements

The rules of the analysis are not monotone: a bag or a union that nothing is
known about is read in full, one that is known to be read in part asks for
less. What the analysis finds is therefore exact only if every node is visited
after all that its rule looks at is final. In a consistent plan that holds as
soon as the identities that cogroups and unions look up do not occur in earlier
schemas: the nodes are then visited once each, from the last to the first, and
in the end a node is required exactly what its consumers ask of it
(`Plan.solve_exact`).
-/

namespace Dataflow

/-! ## Sums of requirements -/

namespace Required

/-- A requirement that requires what some requirements do, and nothing else. -/
structure Sums (asks : Required → Prop) (r : Required) : Prop where
  proper : r.Proper
  all : r = .all ↔ asks .all
  contains : ∀ q, r.contains q = true ↔ ∃ d, asks d ∧ d.contains q = true

theorem sums_none : none.Sums fun _ => False where
  proper := trivial
  all := by simp
  contains q := by simp [Required.contains]

theorem Sums.congr {asks asks' : Required → Prop} {r : Required} (h : r.Sums asks)
    (hiff : ∀ d, asks d ↔ asks' d) : r.Sums asks' := by
  obtain rfl : asks = asks' := funext fun d => propext (hiff d)
  exact h

theorem Sums.merge {asks : Required → Prop} {r : Required} (h : r.Sums asks) (d : Required) :
    (r.merge d).1.Sums fun x => asks x ∨ x = d where
  proper := merge_proper h.proper d
  all := by rw [merge_eq_all, h.all, eq_comm (a := d)]
  contains q := by
    rw [contains_merge, h.contains]
    constructor
    · rintro (⟨x, hx, hq⟩ | hq)
      · exact ⟨x, Or.inl hx, hq⟩
      · exact ⟨d, Or.inr rfl, hq⟩
    · rintro ⟨x, hx | rfl, hq⟩
      · exact Or.inl ⟨x, hx, hq⟩
      · exact Or.inr hq

/-- There is one sum. -/
theorem Sums.unique {asks : Required → Prop} {r r' : Required} (h : r.Sums asks)
    (h' : r'.Sums asks) : r = r' :=
  h.proper.ext h'.proper fun q => (h.contains q).trans (h'.contains q).symm

end Required

/-- The fields of demands that are collected. -/
theorem Demand.sums_collect {α : Type} {causes : List α} {demand : α → Except Error Demand}
    {d : Demand} (h : Demand.collect causes demand = .ok d) :
    d.fields.Sums fun x => ∃ c ∈ causes, ∃ d, demand c = .ok d ∧ d.fields = x := by
  obtain ⟨ds, hds, h⟩ := bind_ok h
  cases h
  have hfold : ∀ (ds : List Demand) (asks : Required → Prop) (a : Demand), a.fields.Sums asks →
      (ds.foldl Demand.append a).fields.Sums fun x => asks x ∨ ∃ d ∈ ds, d.fields = x := by
    intro ds
    induction ds with
    | nil => exact fun asks a ha => ha.congr fun x => by simp
    | cons d ds ih =>
      intro asks a ha
      refine (ih _ (a.append d) (ha.merge d.fields)).congr fun x => ?_
      rw [or_assoc, List.exists_mem_cons_iff, eq_comm (a := d.fields)]
  refine (hfold ds _ .empty Required.sums_none).congr fun x => ?_
  have hall := mapM_ok.mp hds
  constructor
  · rintro (hx | ⟨d, hd, rfl⟩)
    · exact hx.elim
    · obtain ⟨c, hc, hcd⟩ := mem_of_right hall hd
      exact ⟨c, hc, d, hcd, rfl⟩
  · rintro ⟨c, hc, d, hcd, rfl⟩
    obtain ⟨d', hd', hcd'⟩ := mem_of_left hall hc
    rw [hcd] at hcd'
    cases hcd'
    exact Or.inr ⟨d, hd', rfl⟩

/-! ## Worklists that hold what is put back -/

theorem Worklist.insert_of_mem {x : Nat} {ns : List Nat} (h : ns.Pairwise (· > ·)) (hx : x ∈ ns) :
    insert x ns = ns := by
  induction ns with
  | nil => cases hx
  | cons n ns ih =>
    obtain ⟨hn, hns⟩ := List.pairwise_cons.mp h
    unfold insert
    rcases List.mem_cons.mp hx with rfl | hx
    · simp
    · have := hn x hx
      rw [if_neg (by omega), if_neg (by omega), ih hns hx]

theorem Worklist.insertAll_of_mem {ids ns : List Nat} (h : ns.Pairwise (· > ·))
    (hids : ∀ x ∈ ids, x ∈ ns) : insertAll ns ids = ns := by
  unfold insertAll
  induction ids with
  | nil => rfl
  | cons x ids ih =>
    rw [List.foldl_cons, insert_of_mem h (hids x (List.mem_cons_self ..))]
    exact ih fun y hy => hids y (List.mem_cons_of_mem _ hy)

namespace Solver

variable {p : Plan} {retain : Bool}

/-- A demand that puts back only nodes which wait anyway. -/
def State.Awaits (p : Plan) (s : State) (input : Nat) (d : Demand) : Prop :=
  input ∈ s.pending ∧ ∀ x ∈ d.parts, ∀ id ∈ originators p x.uid, id ∈ s.pending

theorem absorbParts_pending {ds : List PartDemand} {s : State} (hs : s.pending.Pairwise (· > ·))
    (h : ∀ x ∈ ds, ∀ id ∈ originators p x.uid, id ∈ s.pending) :
    (absorbParts p s ds).1.pending = s.pending ∧ (absorbParts p s ds).1.visits = s.visits := by
  induction ds generalizing s with
  | nil => exact ⟨rfl, rfl⟩
  | cons d ds ih =>
    have hd := Worklist.insertAll_of_mem hs (h d (List.mem_cons_self ..))
    have hds := fun x hx => h x (List.mem_cons_of_mem d hx)
    simp only [absorbParts]
    split
    · obtain ⟨h₁, h₂⟩ := ih (s := { s with
        trackers := (s.trackers.apply d).1
        pending := Worklist.insertAll s.pending (originators p d.uid) })
        (by simpa only [hd] using hs) (by simpa only [hd] using hds)
      exact ⟨h₁.trans hd, h₂⟩
    · exact ih hs hds

theorem absorb_pending {s : State} (hs : s.pending.Pairwise (· > ·)) {input : Nat} {d : Demand}
    (h : s.Awaits p input d) :
    (absorb p s input d).pending = s.pending ∧ (absorb p s input d).visits = s.visits := by
  obtain ⟨h₁, h₂⟩ := absorbParts_pending (p := p)
    (s := { s with required := s.required.set input ((s.requiredOf input).merge d.fields).1 })
    hs h.2
  unfold absorb
  simp only
  split
  · refine ⟨?_, h₂⟩
    show Worklist.insert input (absorbParts _ _ _).1.pending = _
    rw [h₁]
    exact Worklist.insert_of_mem hs h.1
  · exact ⟨h₁, h₂⟩

/-- Demands that put back only nodes which wait anyway leave the worklist as it
is. -/
theorem absorbAll_pending {pairs : List (Edge × Demand)} {s : State}
    (hs : s.pending.Pairwise (· > ·)) (h : ∀ x ∈ pairs, s.Awaits p x.1.node x.2) :
    (pairs.foldl (fun s (e, d) => absorb p s e.node d) s).pending = s.pending ∧
      (pairs.foldl (fun s (e, d) => absorb p s e.node d) s).visits = s.visits := by
  induction pairs generalizing s with
  | nil => exact ⟨rfl, rfl⟩
  | cons x pairs ih =>
    obtain ⟨h₁, h₂⟩ := absorb_pending hs (h x (List.mem_cons_self ..))
    obtain ⟨h₃, h₄⟩ := ih (s := absorb p s x.1.node x.2) (by rw [h₁]; exact hs) fun y hy => by
      have := h y (List.mem_cons_of_mem x hy)
      unfold State.Awaits at this ⊢
      rw [h₁]
      exact this
    exact ⟨h₃.trans h₁, h₄.trans h₂⟩

/-- What is required of a node after demands were taken in. -/
theorem absorbAll_sums {pairs : List (Edge × Demand)} {s : State} {id : Nat}
    (hid : id < s.required.length) {asks : Required → Prop} (h : (s.requiredOf id).Sums asks) :
    ((pairs.foldl (fun s (e, d) => absorb p s e.node d) s).requiredOf id).Sums fun x =>
      asks x ∨ ∃ y ∈ pairs, y.1.node = id ∧ y.2.fields = x := by
  induction pairs generalizing s asks with
  | nil => exact h.congr fun x => by simp
  | cons y pairs ih =>
    have hone : ((absorb p s y.1.node y.2).requiredOf id).Sums fun x =>
        asks x ∨ y.1.node = id ∧ y.2.fields = x := by
      rw [State.requiredOf, absorb_required]
      by_cases hy : y.1.node = id
      · subst hy
        rw [requiredOf_set hid, if_pos rfl]
        exact (h.merge y.2.fields).congr fun x => by simp [eq_comm]
      · rw [List.getD_eq_getElem?_getD, List.getElem?_set_ne hy, ← List.getD_eq_getElem?_getD]
        exact h.congr fun x => by simp [hy]
    have hlen : id < (absorb p s y.1.node y.2).required.length := by
      rw [absorb_required, List.length_set]
      exact hid
    refine (ih hlen hone).congr fun x => ?_
    rw [or_assoc, List.exists_mem_cons_iff]

/-! ## The sweep -/

/-- The solver goes from one state to another, where it stops, and visits some
nodes in this order. -/
inductive Visits (p : Plan) (retain : Bool) : State → List Nat → State → Prop
  | done {s : State} (h : s.pending = []) : Visits p retain s [] s
  | visit {s s₁ s₂ : State} {id : Nat} {rest ids : List Nat} (hp : s.pending = id :: rest)
      (h : visit p retain { s with pending := rest } id = .ok s₁)
      (next : Visits p retain s₁ ids s₂) : Visits p retain s (id :: ids) s₂

/-- What a node from `k` on asks of node `id`. -/
def State.Asks (p : Plan) (k : Nat) (s : State) (id : Nat) (r : Required) : Prop :=
  ∃ m n ds, k ≤ m ∧ p.nodes[m]? = some n ∧
    p.inputDemands m (s.requiredOf m) s.trackers = .ok ds ∧
    ∃ y ∈ n.inputs.zip ds, y.1.node = id ∧ y.2.fields = r

/-- What a node keeps of which something is required. -/
def kept (retain : Bool) (n : Node) (r : Required) : Required :=
  if r = .none ∧ retain = true ∧ n.schema ≠ [] then .positions [0] else r

theorem retaining_kept {s : State} (hs : s.Sound p) {id : Nat} {n : Node}
    (hn : p.nodes[id]? = some n) (retain : Bool) (x : Nat) :
    (retaining retain n id s).requiredOf x =
      if x = id then kept retain n (s.requiredOf id) else s.requiredOf x := by
  rw [retaining_requiredOf hs hn, kept]
  by_cases hx : x = id
  · subst hx
    rw [if_pos rfl]
    exact if_congr (by tauto) rfl rfl
  · rw [if_neg hx, if_neg fun h => hx h.1]

/-- The nodes from `k` on have been visited: the others wait, and each node is
required what the visited ones ask of it. -/
structure State.Swept (p : Plan) (retain : Bool) (k : Nat) (s : State) : Prop where
  invariant : s.Invariant p retain
  pending : s.pending = (List.range k).reverse
  visits : s.visits + k = p.nodes.length
  asked : ∀ id n, p.nodes[id]? = some n → id ∉ p.sinks →
    ∃ r, r.Sums (s.Asks p k id) ∧ s.requiredOf id = if k ≤ id then kept retain n r else r

end Solver

/-- The identities that cogroups and unions look up do not occur in schemas of
earlier nodes. -/
def Plan.OriginatesFresh (p : Plan) : Prop :=
  p.nodes.Pairwise fun earlier n => ∀ u ∈ Solver.originated n.op, u ∉ Schema.deepUids earlier.schema

instance (p : Plan) : Decidable p.OriginatesFresh :=
  inferInstanceAs (Decidable (p.nodes.Pairwise _))

/-- What a node finds out about parts is about fields of its inputs. -/
theorem Plan.inputDemands_uids {p : Plan} {id : Nat} {n : Node} {r : Required} {t : Trackers}
    {ds : List Demand} (hn : p.nodes[id]? = some n) (hds : p.inputDemands id r t = .ok ds) :
    ∀ d ∈ ds, ∀ x ∈ d.parts, ∃ e ∈ n.inputs, ∃ m, p.nodes[e.node]? = some m ∧
      x.uid ∈ Schema.deepUids m.schema := by
  have hnode : p.node id = .ok n := node_ok.mpr hn
  obtain ⟨n', hn', hds⟩ := bind_ok hds
  obtain rfl : n = n' := by rw [hnode] at hn'; cases hn'; rfl
  obtain ⟨inputs, hinputs, hds⟩ := bind_ok hds
  obtain ⟨natural, -, hds⟩ := bind_ok hds
  obtain ⟨r', -, hds⟩ := bind_ok hds
  obtain ⟨required, -, hds⟩ := bind_ok hds
  obtain ⟨n', hn', hinputs⟩ := bind_ok hinputs
  obtain rfl : n = n' := by rw [hnode] at hn'; cases hn'; rfl
  -- The scope that has the identities of this node's inputs, and no others.
  let c : Scope := ⟨inputs.flatMap Schema.deepUids, (p.scope t).keys⟩
  have hscope : ∀ s ∈ inputs, Schema.InScope c s := fun s hs u hu =>
    List.mem_flatMap.mpr ⟨s, hs, hu⟩
  have hwithin := Demand.ofOperator_within hscope
    ((p.scope_covers t).lookups n (List.mem_of_getElem? hn)) (p.among_scope t) hds
  intro d hd x hx
  obtain ⟨i, hi⟩ := List.mem_iff_getElem?.mp hd
  obtain ⟨s, -, hw⟩ := hwithin i d hi
  have hu : x.uid ∈ c.uids := by
    have := hw.parts x hx
    cases x with
    | mapKey | bagColumns => exact this.1
    | allKeys | allColumns => exact this
  obtain ⟨s, hs, hu⟩ := List.mem_flatMap.mp hu
  obtain ⟨e, he, hschema⟩ := mem_of_mapM_ok hinputs hs
  obtain ⟨m, hm, rfl⟩ := schemaOf_ok.mp hschema
  exact ⟨e, he, m, hm, hu⟩

namespace Solver

variable {p : Plan} {retain : Bool}

theorem range_succ_reverse (k : Nat) :
    (List.range (k + 1)).reverse = k :: (List.range k).reverse := by
  rw [List.range_succ, List.reverse_append]
  rfl

theorem pairwise_getElem? {α : Type} {R : α → α → Prop} {xs : List α} (h : xs.Pairwise R)
    {i j : Nat} {x y : α} (hx : xs[i]? = some x) (hy : xs[j]? = some y) (hlt : i < j) : R x y := by
  obtain ⟨hi, rfl⟩ := List.getElem?_eq_some_iff.mp hx
  obtain ⟨hj, rfl⟩ := List.getElem?_eq_some_iff.mp hy
  exact List.pairwise_iff_getElem.mp h i j hi hj hlt

/-- The demands of a visited node put back nodes before it only. -/
theorem awaits_of_fresh (hcheck : p.check = .ok ()) (hfresh : p.OriginatesFresh) {k : Nat}
    {n : Node} {r : Required} {t : Trackers} {ds : List Demand} (hn : p.nodes[k]? = some n)
    (hds : p.inputDemands k r t = .ok ds) {s : State} (hs : s.pending = (List.range k).reverse) :
    ∀ x ∈ n.inputs.zip ds, s.Awaits p x.1.node x.2 := by
  obtain ⟨inputs, natural, hc⟩ := Plan.check_ok.mp hcheck k n hn
  rintro ⟨e, d⟩ hx
  obtain ⟨he, hd⟩ := List.of_mem_zip hx
  refine ⟨by simpa [hs] using (hc.earlier e he).1, fun x hx id hid => ?_⟩
  obtain ⟨e', he', m, hm, hu⟩ := Plan.inputDemands_uids hn hds d hd x hx
  have hlt := (hc.earlier e' he').1
  -- The field is one of an input, so the node that looks it up is no later than that.
  obtain ⟨o, ho, hid⟩ := List.mem_filterMap.mp hid
  obtain ⟨i, hi⟩ := List.mem_iff_getElem?.mp ho
  split at hid
  · rename_i hmem
    cases hid
    rw [Plan.inPlace_of_check hcheck i o hi, hs]
    have hle : ¬ e'.node < i := fun hlt =>
      pairwise_getElem? hfresh hm hi hlt x.uid (List.contains_iff_mem.mp hmem) hu
    simp only [List.mem_reverse, List.mem_range]
    omega
  · cases hid

theorem asks_congr {k id : Nat} {r : Required} {s s' : State}
    (h : ∀ (m : Nat) (n : Node), k ≤ m → p.nodes[m]? = some n →
      p.inputDemands m (s'.requiredOf m) s'.trackers =
        p.inputDemands m (s.requiredOf m) s.trackers) :
    s'.Asks p k id r ↔ s.Asks p k id r := by
  constructor
  · rintro ⟨m, n, ds, hm, hn, hds, hy⟩
    exact ⟨m, n, ds, hm, hn, (h m n hm hn).symm.trans hds, hy⟩
  · rintro ⟨m, n, ds, hm, hn, hds, hy⟩
    exact ⟨m, n, ds, hm, hn, (h m n hm hn).trans hds, hy⟩

theorem asks_visited {k id : Nat} {r : Required} {s : State} {n : Node} {ds : List Demand}
    (hn : p.nodes[k]? = some n)
    (hds : p.inputDemands k (s.requiredOf k) s.trackers = .ok ds) :
    s.Asks p k id r ↔
      s.Asks p (k + 1) id r ∨ ∃ y ∈ n.inputs.zip ds, y.1.node = id ∧ y.2.fields = r := by
  constructor
  · rintro ⟨m, n', ds', hm, hn', hds', hy⟩
    by_cases hmk : m = k
    · subst hmk
      rw [hn] at hn'
      cases hn'
      rw [hds] at hds'
      cases hds'
      exact Or.inr hy
    · exact Or.inl ⟨m, n', ds', by omega, hn', hds', hy⟩
  · rintro (⟨m, n', ds', hm, hn', hds', hy⟩ | hy)
    · exact ⟨m, n', ds', by omega, hn', hds', hy⟩
    · exact ⟨k, n, ds, Nat.le_refl k, hn, hds, hy⟩

/-- The next visit: it leaves what earlier visits asked as it is, and adds what
its node asks. -/
theorem swept_visit (hcheck : p.check = .ok ()) (hfresh : p.OriginatesFresh) {k : Nat}
    {s s' : State} (hs : s.Swept p retain (k + 1))
    (h : visit p retain { s with pending := (List.range k).reverse } k = .ok s') :
    s'.Swept p retain k := by
  have hplace := Plan.inPlace_of_check hcheck
  have hpend := hs.pending.trans (range_succ_reverse k)
  obtain ⟨hinv', -, -⟩ := invariant_visit hplace hs.invariant hpend h
  obtain ⟨n, ds, hn, hds, hs'⟩ := visit_ok.mp h
  have hsound : State.Sound p { s with pending := (List.range k).reverse } :=
    ⟨hs.invariant.sound.1, hs.invariant.sound.2, hs.invariant.sound.3⟩
  obtain ⟨hadv, -, -⟩ := advances_visit hplace hsound hn hds
  obtain ⟨hp₀, ht₀⟩ := retaining_pending retain n k { s with pending := (List.range k).reverse }
  have hr₀ := retaining_kept hsound hn retain
  have hlen₀ := (hsound.retaining hn retain).length
  -- The state after a field of the node was kept, if need be.
  generalize retaining retain n k { s with pending := (List.range k).reverse } = s₀
    at hs' hadv hds hp₀ ht₀ hr₀ hlen₀
  simp only at hp₀ ht₀
  have hds₀ : p.inputDemands k (s₀.requiredOf k) s₀.trackers = .ok ds := by rw [ht₀]; exact hds
  have hawaits :=
    awaits_of_fresh (s := { s₀ with visits := s.visits + 1 }) hcheck hfresh hn hds₀ hp₀
  obtain ⟨hpending, hvisits⟩ := absorbAll_pending (s := { s₀ with visits := s.visits + 1 })
    (by rw [hp₀]; exact range_descending k) hawaits
  change s' = List.foldl _ { s₀ with visits := s.visits + 1 } _ at hs'
  rw [← hs'] at hadv hpending hvisits
  have hpending : s'.pending = (List.range k).reverse := hpending.trans hp₀
  -- Nodes from `k` on are asked nothing new, and ask what they asked.
  have hstay : ∀ (m : Nat) (o : Node), k ≤ m → p.nodes[m]? = some o →
      s'.requiredOf m = s₀.requiredOf m ∧ p.inputDemands m (s'.requiredOf m) s'.trackers =
        p.inputDemands m (s₀.requiredOf m) s₀.trackers := by
    intro m o hm ho
    obtain ⟨hr, ht⟩ := hadv.untouched m o ho (by rw [hpending]; simpa using hm)
    exact ⟨hr, by rw [hr]; exact Plan.inputDemands_congr ho ht⟩
  have hasks : ∀ id r, s'.Asks p k id r ↔
      s.Asks p (k + 1) id r ∨ ∃ y ∈ n.inputs.zip ds, y.1.node = id ∧ y.2.fields = r := by
    intro id r
    rw [asks_congr fun m o hm ho => (hstay m o hm ho).2, asks_visited hn hds₀]
    refine or_congr_left (asks_congr fun m o hm _ => ?_)
    rw [ht₀, hr₀, if_neg (by omega)]
    rfl
  have hbefore : ∀ y ∈ n.inputs.zip ds, y.1.node < k := fun y hy => by
    simpa [hp₀] using (hawaits y hy).1
  refine ⟨hinv', hpending, ?_, fun id m hm hsink => ?_⟩
  · have := hs.visits
    rw [hvisits]
    show s.visits + 1 + k = _
    omega
  obtain ⟨r, hr, hreq⟩ := hs.asked id m hm hsink
  by_cases hk : k ≤ id
  · -- Nothing before `k` asks anything of it.
    have hnone : ∀ x, (∃ y ∈ n.inputs.zip ds, y.1.node = id ∧ y.2.fields = x) → False := by
      rintro x ⟨y, hy, rfl, -⟩
      exact absurd (hbefore y hy) (by omega)
    refine ⟨r, hr.congr fun x => ?_, ?_⟩
    · rw [hasks]
      exact (or_iff_left (hnone x)).symm
    · rw [(hstay id m hk hm).1, hr₀, if_pos hk]
      by_cases hid : id = k
      · subst hid
        rw [hn] at hm
        cases hm
        rw [if_neg (by omega)] at hreq
        rw [if_pos rfl, ← hreq]
        rfl
      · rw [if_neg hid]
        rw [if_pos (by omega)] at hreq
        exact hreq
  · have hr' : (s₀.requiredOf id).Sums (s.Asks p (k + 1) id) := by
      rw [if_neg (by omega)] at hreq
      rw [hr₀, if_neg (by omega)]
      change (s.requiredOf id).Sums _
      rw [hreq]
      exact hr
    refine ⟨s'.requiredOf id, ?_, (if_neg hk).symm⟩
    rw [hs']
    refine (absorbAll_sums (s := { s₀ with visits := s.visits + 1 }) ?_ hr').congr fun x => ?_
    · rw [hlen₀]
      exact (List.getElem?_eq_some_iff.mp hm).1
    · rw [← hs']
      exact (hasks id x).symm

/-- A run that starts with all nodes waiting visits them once each, from the
last to the first. -/
theorem visits_of_reaches (hcheck : p.check = .ok ()) (hfresh : p.OriginatesFresh) {k : Nat}
    {s s' : State} (h : Reaches p retain s s') (hs : s.Swept p retain k) :
    Visits p retain s (List.range k).reverse s' ∧ s'.Swept p retain 0 := by
  induction h generalizing k with
  | done hdone =>
    cases k with
    | zero => exact ⟨.done hdone, hs⟩
    | succ k =>
      rw [hs.pending, range_succ_reverse] at hdone
      cases hdone
  | visit hpending hv _ ih =>
    cases k with
    | zero =>
      rw [hs.pending] at hpending
      cases hpending
    | succ k =>
      have hp := hs.pending.trans (range_succ_reverse k)
      rw [hpending] at hp
      cases hp
      obtain ⟨hvisits, hend⟩ := ih (swept_visit hcheck hfresh hs hv)
      rw [range_succ_reverse]
      exact ⟨.visit hpending hv hvisits, hend⟩

theorem swept_start (p : Plan) (t : Trackers) (retain : Bool) :
    (start p t).Swept p retain p.nodes.length where
  invariant := invariant_start p t retain
  pending := rfl
  visits := Nat.zero_add _
  asked id n hn hsink := by
    have hlt := (List.getElem?_eq_some_iff.mp hn).1
    refine ⟨.none, Required.sums_none.congr fun r => ⟨False.elim, ?_⟩, ?_⟩
    · rintro ⟨m, o, ds, hm, ho, -⟩
      exact absurd (List.getElem?_eq_some_iff.mp ho).1 (by omega)
    · rw [start_requiredOf, if_neg hsink, if_neg (by omega)]

end Solver

/-! ## What consumers ask -/

namespace Plan

variable {p : Plan}

/-- What a consumer needs of the node that it reads. -/
def demandAlong (p : Plan) (required : List Required) (t : Trackers) (c : Consumer) :
    Except Error Demand := do
  let ds ← p.inputDemands c.node (required.getD c.node .none) t
  match ds[c.input]? with
  | some d => .ok d
  | none => .error (.internal (.missingInput (toString c.node)))

theorem mem_consumersOf (hp : p.InPlace) {id : Nat} {c : Consumer} :
    c ∈ p.consumersOf id ↔ ∃ n e, p.nodes[c.node]? = some n ∧ n.inputs[c.input]? = some e ∧
      e.node = id := by
  unfold consumersOf
  simp only [List.mem_flatMap, List.mem_filterMap]
  constructor
  · rintro ⟨n, hn, ⟨e, i⟩, he, hc⟩
    obtain ⟨id', hid⟩ := List.mem_iff_getElem?.mp hn
    split at hc
    · rename_i hnode
      cases hc
      rw [← hp id' n hid] at hid
      exact ⟨n, e, hid, List.mem_zipIdx_iff_getElem?.mp he, hnode⟩
    · cases hc
  · rintro ⟨n, e, hn, he, rfl⟩
    refine ⟨n, List.mem_of_getElem? hn, (e, c.input), List.mem_zipIdx_iff_getElem?.mpr he, ?_⟩
    rw [if_pos rfl, hp _ n hn]

theorem demandAlong_ok {required : List Required} {t : Trackers} {c : Consumer} {d : Demand} :
    p.demandAlong required t c = .ok d ↔
      ∃ ds, p.inputDemands c.node (required.getD c.node .none) t = .ok ds ∧
        ds[c.input]? = some d := by
  unfold demandAlong
  cases p.inputDemands c.node (required.getD c.node .none) t with
  | error e => simp [bind, Except.bind]
  | ok ds =>
    simp only [bind, Except.bind, Except.ok.injEq, exists_eq_left']
    cases ds[c.input]? <;> simp

/-- What is asked of a node when all nodes have been visited is what its
consumers ask. -/
theorem asks_iff_consumer (hcheck : p.check = .ok ()) {s : Solver.State} {id : Nat}
    {r : Required} :
    s.Asks p 0 id r ↔
      ∃ c ∈ p.consumersOf id, ∃ d,
        p.demandAlong s.required s.trackers c = .ok d ∧ d.fields = r := by
  have hplace := inPlace_of_check hcheck
  constructor
  · rintro ⟨m, n, ds, -, hn, hds, ⟨e, d⟩, hy, rfl, rfl⟩
    obtain ⟨i, hi⟩ := List.mem_iff_getElem?.mp hy
    obtain ⟨he, hd⟩ := List.getElem?_zip_eq_some.mp hi
    exact ⟨⟨m, i⟩, (mem_consumersOf hplace).mpr ⟨n, e, hn, he, rfl⟩, d,
      demandAlong_ok.mpr ⟨ds, hds, hd⟩, rfl⟩
  · rintro ⟨⟨m, i⟩, hc, d, hd, rfl⟩
    obtain ⟨n, e, hn, he, rfl⟩ := (mem_consumersOf hplace).mp hc
    obtain ⟨ds, hds, hd⟩ := demandAlong_ok.mp hd
    exact ⟨m, n, ds, Nat.zero_le m, hn, hds, (e, d),
      List.mem_of_getElem? (List.getElem?_zip_eq_some.mpr ⟨he, hd⟩), rfl, rfl⟩

/-- The demands of all consumers of a node, when all nodes are settled. -/
theorem exists_collect_consumers (hcheck : p.check = .ok ()) {retain : Bool} {s : Solver.State}
    (hs : s.Swept p retain 0) (id : Nat) :
    ∃ d, Demand.collect (p.consumersOf id) (p.demandAlong s.required s.trackers) = .ok d := by
  refine Demand.exists_collect fun c hc => ?_
  obtain ⟨n, e, hn, he, -⟩ := (mem_consumersOf (inPlace_of_check hcheck)).mp hc
  obtain ⟨ds, hds, -⟩ := hs.invariant.settled c.node n hn (by rw [hs.pending]; simp)
  have hlt : c.input < ds.length := by
    rw [inputDemands_length hn hds]
    exact (List.getElem?_eq_some_iff.mp he).1
  exact ⟨_, demandAlong_ok.mpr ⟨ds, hds, List.getElem?_eq_getElem hlt⟩⟩

/-- The analysis of a consistent plan whose cogroups and unions look up fresh
identities is exact: it visits every node once, from the last to the first,
requires all of every sink, and of any other node what its consumers ask in the
end, or its first field if that is nothing and a field is to be kept. -/
theorem solve_exact (hcheck : p.check = .ok ()) (hfresh : p.OriginatesFresh) (t : Trackers)
    (retain : Bool) {r : Requirements} (h : p.solve t retain = .ok r) :
    (∃ s, Solver.Visits p retain (Solver.start p t) (List.range p.nodes.length).reverse s ∧
        r = ⟨s.required, s.trackers, s.visits⟩) ∧
      r.visits = p.nodes.length ∧
      (∀ id ∈ p.sinks, r.required[id]? = some .all) ∧
      ∀ (id : Nat) (n : Node), p.nodes[id]? = some n → id ∉ p.sinks →
        ∃ d, Demand.collect (p.consumersOf id) (p.demandAlong r.required r.trackers) = .ok d ∧
          r.required[id]? = some (if d.fields = .none ∧ retain = true ∧ n.schema ≠ [] then
            .positions [0] else d.fields) ∧
          ∀ q, d.fields.contains q = true ↔ ∃ c ∈ p.consumersOf id, ∃ d',
            p.demandAlong r.required r.trackers c = .ok d' ∧ d'.fields.contains q = true := by
  have hplace := inPlace_of_check hcheck
  have hclosed := closed_of_solve hplace h
  obtain ⟨s, hreach, rfl⟩ := reaches_of_solve h
  obtain ⟨hvisits, hs⟩ := Solver.visits_of_reaches hcheck hfresh hreach
    (Solver.swept_start p t retain)
  have hget : ∀ {id : Nat}, id < p.nodes.length → s.required[id]? = some (s.requiredOf id) := by
    intro id hid
    have hlt : id < s.required.length := by rw [hclosed.length]; exact hid
    simp [Solver.State.requiredOf, hlt]
  refine ⟨⟨s, hvisits, rfl⟩, hs.visits, fun id hid => ?_, fun id n hn hsink => ?_⟩
  · exact (hget (List.mem_range.mp (List.mem_filter.mp hid).1)).trans
      (congrArg some (hclosed.sinks id hid))
  obtain ⟨d, hd⟩ := exists_collect_consumers hcheck hs id
  obtain ⟨r, hr, hreq⟩ := hs.asked id n hn hsink
  have hsums := Demand.sums_collect hd
  obtain rfl : r = d.fields := hr.unique (hsums.congr fun x => (asks_iff_consumer hcheck).symm)
  refine ⟨d, hd, ?_, fun q => ?_⟩
  · rw [hget (List.getElem?_eq_some_iff.mp hn).1, hreq, if_pos (Nat.zero_le id)]
    rfl
  · rw [hsums.contains]
    constructor
    · rintro ⟨-, ⟨c, hc, d', hd', rfl⟩, hq⟩
      exact ⟨c, hc, d', hd', hq⟩
    · rintro ⟨c, hc, d', hd', hq⟩
      exact ⟨_, ⟨c, hc, d', hd', rfl⟩, hq⟩

theorem solve_exact_visits : Builder.visits.plan.check = .ok () ∧
    Builder.visits.plan.OriginatesFresh ∧
    ∃ r, Builder.visits.plan.solve (.empty true) true = .ok r ∧ r.visits = 6 ∧
      r.required[3]? = some .all ∧ r.required[5]? = some .all := by
  have hcheck := Builder.visits_made.check
  obtain ⟨r, hr⟩ := exists_solve hcheck (by decide) (.empty true) true
  obtain ⟨-, hvisits, hsinks, -⟩ := solve_exact hcheck (by decide) (.empty true) true hr
  exact ⟨hcheck, by decide, r, hr, hvisits, hsinks 3 (by decide), hsinks 5 (by decide)⟩

end Plan

end Dataflow
