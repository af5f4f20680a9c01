import Mathlib.Data.List.Perm.Subperm
import Dataflow.Proofs.Narrowing.Plans

/-!
# The analysis converges

Two facts about the solver that hold of every plan, consistent or not: edges may
point forwards or run in circles, and identities may be shared.

It ends (`Plan.solve_halts`). A visit takes one node off the worklist and may put
several back, also nodes above it, so the worklist alone says nothing. But a node
is put back only when something was added to a requirement or a tracker, and what
can be added is bounded: the positions by the schemas, the identities and keys by
the scope of the plan. Each visit descends in the order (room, worklist), and as
the worklist holds every number at most once, that gives a number of visits after
which the analysis has ended, whatever it finds.

And where it ends, nothing is left to do (`Plan.solve_closed`): all demands of all
nodes have been taken in.
-/

namespace Dataflow

/-- The numbers under which nodes are stored, and those that they carry. -/
def Plan.numbers (p : Plan) : List Nat := List.range p.nodes.length ++ p.nodes.map Node.id

theorem Plan.length_numbers (p : Plan) : p.numbers.length = 2 * p.nodes.length := by
  rw [numbers, List.length_append, List.length_range, List.length_map]
  omega

namespace Solver

variable {p : Plan} {retain : Bool}

/-! ## What a visit puts back -/

/-- What a part of a visit does to the worklist: it stays descending, and only
numbers of nodes are put on it. -/
structure State.PutsBack (p : Plan) (s s' : State) : Prop where
  descending : s.pending.Pairwise (· > ·) → s'.pending.Pairwise (· > ·)
  mem : ∀ id ∈ s'.pending, id ∈ s.pending ∨ id ∈ p.numbers
  visits : s'.visits = s.visits

theorem State.putsBack_refl (p : Plan) (s : State) : s.PutsBack p s :=
  ⟨id, fun _ => Or.inl, rfl⟩

theorem State.PutsBack.trans {s₁ s₂ s₃ : State} (h : s₁.PutsBack p s₂) (h' : s₂.PutsBack p s₃) :
    s₁.PutsBack p s₃ where
  descending hs := h'.descending (h.descending hs)
  mem id hid := (h'.mem id hid).elim (h.mem id) Or.inr
  visits := h'.visits.trans h.visits

theorem mem_numbers_of_originators {u : Uid} {id : Nat} (h : id ∈ originators p u) :
    id ∈ p.numbers := by
  obtain ⟨n, hn, heq⟩ := List.mem_filterMap.mp h
  split at heq
  · cases heq
    exact List.mem_append_right _ (List.mem_map.mpr ⟨n, hn, rfl⟩)
  · cases heq

theorem putsBack_absorbParts (ds : List PartDemand) (s : State) :
    s.PutsBack p (absorbParts p s ds).1 := by
  induction ds generalizing s with
  | nil => exact s.putsBack_refl p
  | cons d ds ih =>
    simp only [absorbParts]
    refine State.PutsBack.trans ?_ (ih _)
    split
    · refine ⟨Worklist.insertAll_descending, ?_, rfl⟩
      intro id hid
      rcases Worklist.mem_insertAll.mp hid with hid | hid
      · exact Or.inr (mem_numbers_of_originators hid)
      · exact Or.inl hid
    · exact s.putsBack_refl p

theorem putsBack_absorb {input : Nat} (hinput : input < p.nodes.length) (d : Demand) (s : State) :
    s.PutsBack p (absorb p s input d) := by
  have hparts : s.PutsBack p (mergeDemand p s input d).1 := by
    obtain ⟨h₁, h₂, h₃⟩ := putsBack_absorbParts (p := p) d.parts
      { s with required := s.required.set input ((s.requiredOf input).merge d.fields).1 }
    exact ⟨h₁, h₂, h₃⟩
  unfold absorb
  simp only
  split
  · refine hparts.trans ⟨Worklist.insert_descending, ?_, rfl⟩
    intro id hid
    rcases Worklist.mem_insert.mp hid with rfl | hid
    · exact Or.inr (List.mem_append_left _ (List.mem_range.mpr hinput))
    · exact Or.inl hid
  · exact hparts

theorem putsBack_absorbAll {pairs : List (Edge × Demand)}
    (h : ∀ x ∈ pairs, x.1.node < p.nodes.length) (s : State) :
    s.PutsBack p (pairs.foldl (fun s (e, d) => absorb p s e.node d) s) := by
  induction pairs generalizing s with
  | nil => exact s.putsBack_refl p
  | cons x pairs ih =>
    exact (putsBack_absorb (h x (List.mem_cons_self ..)) x.2 s).trans
      (ih (fun y hy => h y (List.mem_cons_of_mem _ hy)) _)

/-- A visit puts back numbers of nodes only, and is counted. -/
theorem putsBack_visit {s s' : State} {id : Nat} (h : visit p retain s id = .ok s') :
    State.PutsBack p { s with visits := s.visits + 1 } s' := by
  obtain ⟨n, ds, hn, hds, rfl⟩ := visit_ok.mp h
  have hnode : p.node id = .ok n := by simp [Plan.node, hn]
  have hedges : ∀ x ∈ n.inputs.zip ds, x.1.node < p.nodes.length := by
    rintro ⟨e, d⟩ hx
    obtain ⟨m, hm, -⟩ := Plan.inputDemands_within (p.scope_covers s.trackers)
      (p.among_scope s.trackers) hnode hds hx
    exact (List.getElem?_eq_some_iff.mp hm).1
  obtain ⟨hdown, hmem, hvisits⟩ := putsBack_absorbAll hedges
    { retaining retain n id s with visits := s.visits + 1 }
  have hpending := (retaining_pending retain n id s).1
  refine ⟨?_, ?_, hvisits⟩
  · intro hs
    exact hdown (hpending.symm ▸ hs)
  · intro x hx
    exact hpending ▸ hmem x hx

/-! ## The bound -/

/-- A worklist of numbers of nodes, each of them once. -/
structure State.Queued (p : Plan) (s : State) : Prop where
  descending : s.pending.Pairwise (· > ·)
  mem : ∀ id ∈ s.pending, id ∈ p.numbers

theorem State.Queued.length_le {s : State} (h : s.Queued p) :
    s.pending.length ≤ 2 * p.nodes.length := by
  have hnodup : s.pending.Nodup := h.descending.imp fun hlt => Nat.ne_of_gt hlt
  rw [← p.length_numbers]
  exact (List.subperm_of_subset hnodup h.mem).length_le

theorem queued_start (p : Plan) (t : Trackers) : (start p t).Queued p where
  descending := range_descending p.nodes.length
  mem _ hid := List.mem_append_left _ (List.mem_reverse.mp hid)

theorem State.Queued.visit {s s' : State} {id : Nat} {rest : List Nat} (hs : s.Queued p)
    (hp : s.pending = id :: rest) (h : visit p retain { s with pending := rest } id = .ok s') :
    s'.Queued p := by
  obtain ⟨hdown, hmem, -⟩ := putsBack_visit h
  have hs' := hs.descending
  rw [hp] at hs'
  refine ⟨hdown hs'.of_cons, ?_⟩
  intro x hx
  rcases hmem x hx with hx | hx
  · exact hs.mem x (by rw [hp]; exact List.mem_cons_of_mem _ hx)
  · exact hx

/-- How many visits there can still be: each time the room shrinks, the worklist
may fill up again. -/
def State.potential (p : Plan) (c : Scope) (s : State) : Nat :=
  s.room p c * (2 * p.nodes.length) + s.pending.length

/-- A visit uses up potential. -/
theorem potential_visit {c : Scope} (hc : c.Covers p) {s s' : State} {id : Nat} {rest : List Nat}
    (hs : s.Fits p c) (hq : s.Queued p) (hp : s.pending = id :: rest)
    (h : visit p retain { s with pending := rest } id = .ok s') :
    s'.potential p c < s.potential p c := by
  have hlen := (hq.visit hp h).length_le
  have hpos : 0 < s.pending.length := by rw [hp]; exact Nat.succ_pos _
  unfold State.potential
  rcases (closer_of_visit hc hs hp h).1 with hroom | ⟨hroom, hshorter⟩
  · have hle := Nat.mul_le_mul_right (2 * p.nodes.length) (Nat.succ_le_of_lt hroom)
    rw [Nat.succ_mul] at hle
    omega
  · have hle := Nat.mul_le_mul_right (2 * p.nodes.length) hroom
    omega

/-- An analysis has ended: no node waits, or there was an error. -/
def Ended : Except Error State → Prop
  | .ok s => s.pending = []
  | .error _ => True

/-- Visits after which an analysis has ended are the whole run. -/
theorem run_of_steps {c : Scope} {hc : c.Covers p} {count : Nat} {s : State} (hs : s.Fits p c)
    (h : Ended (steps p retain count s)) : run p retain c hc s hs = steps p retain count s := by
  induction count generalizing s with
  | zero => exact run_of_reaches hs (.done h)
  | succ count ih =>
    rcases steps_succ p retain count s with
      ⟨hp, heq⟩ | ⟨id, rest, hp, ⟨e, hv, heq⟩ | ⟨s', hv, heq⟩⟩
    · rw [heq, run_done hs hp]
    · rw [heq, run_failed hs hp hv]
    · rw [heq] at h ⊢
      rw [run_visited hs hp hv]
      exact ih _ h

theorem fits_steps {c : Scope} (hc : c.Covers p) {count : Nat} {s s' : State} (hs : s.Fits p c)
    (h : steps p retain count s = .ok s') : s'.Fits p c := by
  induction count generalizing s with
  | zero =>
    cases h
    exact hs
  | succ count ih =>
    rcases steps_succ p retain count s with
      ⟨-, heq⟩ | ⟨id, rest, hp, ⟨e, -, heq⟩ | ⟨s₁, hv, heq⟩⟩
    · rw [heq] at h
      cases h
      exact hs
    · rw [heq] at h
      cases h
    · rw [heq] at h
      exact ih (closer_of_visit hc hs hp hv).2 h

/-- There are no more visits than the potential allows. -/
theorem ended_of_potential {c : Scope} (hc : c.Covers p) {count : Nat} {s : State}
    (hs : s.Fits p c) (hq : s.Queued p) (hcount : s.potential p c ≤ count) :
    Ended (steps p retain count s) ∧
      ∀ s', steps p retain count s = .ok s' → s'.visits ≤ s.visits + s.potential p c := by
  induction count generalizing s with
  | zero =>
    constructor
    · have hlen : s.pending.length ≤ 0 := Nat.le_trans (Nat.le_add_left _ _) hcount
      exact List.length_eq_zero_iff.mp (Nat.le_zero.mp hlen)
    · intro s' h
      cases h
      exact Nat.le_add_right _ _
  | succ count ih =>
    rcases steps_succ p retain count s with
      ⟨hp, heq⟩ | ⟨id, rest, hp, ⟨e, -, heq⟩ | ⟨s₁, hv, heq⟩⟩
    · rw [heq]
      refine ⟨hp, ?_⟩
      intro s' h
      cases h
      exact Nat.le_add_right _ _
    · rw [heq]
      exact ⟨trivial, nofun⟩
    · rw [heq]
      have hless := potential_visit hc hs hq hp hv
      have hcounted : s₁.visits = s.visits + 1 := (putsBack_visit hv).visits
      obtain ⟨hend, hvisits⟩ := ih (closer_of_visit hc hs hp hv).2 (hq.visit hp hv) (by omega)
      refine ⟨hend, ?_⟩
      intro s' h
      have hle := hvisits s' h
      omega

end Solver

namespace Plan

open Solver

variable {p : Plan}

/-- A number of visits that no analysis of the plan exceeds: every node once, and
all that may wait once more for everything that can still be added. -/
def visitBound (p : Plan) (t : Trackers) : Nat :=
  (start p t).room p (p.scope (start p t).trackers) * (2 * p.nodes.length) + p.nodes.length

theorem potential_start (p : Plan) (t : Trackers) :
    (start p t).potential p (p.scope (start p t).trackers) = p.visitBound t := by
  simp [State.potential, visitBound, start]

/-- The analysis of every plan ends. On the way every visit leads down in the
well-founded order of (room, length of the worklist), and after `visitBound`
visits no node waits or there was an error; that is what `solve` returns. -/
theorem solve_halts (p : Plan) (t : Trackers) (retain : Bool) :
    (∀ (count : Nat) (s : State) (id : Nat) (rest : List Nat) (s' : State),
      steps p retain count (start p t) = .ok s → s.pending = id :: rest →
      visit p retain { s with pending := rest } id = .ok s' →
      Prod.Lex (· < ·) (· < ·)
        (s'.room p (p.scope (start p t).trackers), s'.pending.length)
        (s.room p (p.scope (start p t).trackers), s.pending.length)) ∧
      ∀ count, p.visitBound t ≤ count →
        (∃ s, steps p retain count (start p t) = .ok s ∧ s.pending = [] ∧
            s.visits ≤ p.visitBound t ∧
            p.solve t retain = .ok ⟨s.required, s.trackers, s.visits⟩) ∨
          ∃ e, steps p retain count (start p t) = .error e ∧ p.solve t retain = .error e := by
  have hc := p.scope_covers (start p t).trackers
  have hfits := p.start_fits t
  constructor
  · intro count s id rest s' hsteps hp hv
    exact (closer_of_visit hc (fits_steps hc hfits hsteps) hp hv).1.lex
  · intro count hcount
    rw [← potential_start] at hcount ⊢
    obtain ⟨hend, hvisits⟩ : Ended (steps p retain count (start p t)) ∧ _ :=
      ended_of_potential hc hfits (queued_start p t) hcount
    unfold solve
    rw [run_of_steps hfits hend]
    cases hsteps : steps p retain count (start p t) with
    | error e => exact Or.inr ⟨e, rfl, rfl⟩
    | ok s =>
      have hle := hvisits s hsteps
      rw [hsteps] at hend
      rw [show (start p t).visits = 0 from rfl, Nat.zero_add] at hle
      exact Or.inl ⟨s, rfl, hend, hle, rfl⟩

/-! ## Where it ends -/

/-- What the analysis of a plan returns is closed, however the edges run and
identities are shared: every sink is required in full, a node that has fields
keeps one of them if it is to, and the demands of every node add nothing, neither
to what is required of its inputs nor to what is known about parts. -/
theorem solve_closed (hp : p.InPlace) (t : Trackers) (retain : Bool) {r : Requirements}
    (h : p.solve t retain = .ok r) :
    (∀ id ∈ p.sinks, r.required[id]? = some .all) ∧
      (retain = true → ∀ (id : Nat) (n : Node), p.nodes[id]? = some n → n.schema ≠ [] →
        ∃ q, r.required[id]? = some q ∧ q.isEmpty = false ∧
          ∃ k, k < n.schema.length ∧ q.contains k = true) ∧
      ∀ (id : Nat) (n : Node), p.nodes[id]? = some n →
        ∃ q ds, r.required[id]? = some q ∧ p.inputDemands id q r.trackers = .ok ds ∧
          ds.length = n.inputs.length ∧
          ∀ (i : Nat) (e : Edge) (d : Demand), n.inputs[i]? = some e → ds[i]? = some d →
            (∃ q', r.required[e.node]? = some q' ∧ q'.merge d.fields = (q', false)) ∧
              ∀ x ∈ d.parts, r.trackers.apply x = (r.trackers, false) := by
  have hclosed := closed_of_solve hp h
  have hget : ∀ {id : Nat} {n : Node}, p.nodes[id]? = some n →
      r.required[id]? = some (r.required.getD id .none) := by
    intro id n hn
    have hlt : id < r.required.length := by
      rw [hclosed.length]
      exact (List.getElem?_eq_some_iff.mp hn).1
    simp [hlt]
  refine ⟨?_, ?_, ?_⟩
  · intro id hid
    have hlt : id < p.nodes.length := List.mem_range.mp (List.mem_filter.mp hid).1
    rw [hget (List.getElem?_eq_getElem hlt), hclosed.sinks id hid]
  · rintro rfl id n hn hfields
    have hsome := retained_of_solve hp h hn hfields
    have hproper := hclosed.proper id
    have hbelow := hclosed.below id n hn
    refine ⟨_, hget hn, ?_⟩
    cases hq : r.required.getD id .none with
    | none => exact absurd hq hsome
    | all => exact ⟨rfl, 0, List.length_pos_iff.mpr hfields, rfl⟩
    | positions ps =>
      rw [hq] at hproper hbelow
      obtain ⟨k, ks, rfl⟩ := List.exists_cons_of_ne_nil hproper.2
      exact ⟨rfl, k, hbelow k (List.mem_cons_self ..), Required.mem_of_contains.mpr
        (List.mem_cons_self ..)⟩
  · intro id n hn
    obtain ⟨ds, hds, habs⟩ := hclosed.settled id n hn
    refine ⟨_, ds, hget hn, hds, inputDemands_length hn hds, ?_⟩
    intro i e d he hd
    have hx : (e, d) ∈ n.inputs.zip ds :=
      List.mem_of_getElem? (List.getElem?_zip_eq_some.mpr ⟨he, hd⟩)
    have hnode : p.node id = .ok n := node_ok.mpr hn
    obtain ⟨m, hm, -⟩ := inputDemands_within (p.scope_covers r.trackers)
      (p.among_scope r.trackers) hnode hds hx
    obtain ⟨hfields, hparts⟩ := habs e d hx
    constructor
    · exact ⟨_, hget hm, Required.merge_eq_of_covers (hclosed.proper e.node) hfields⟩
    · intro x hx
      exact Trackers.apply_of_records (hparts x hx)

/-! ## A plan that runs in a circle -/

/-- Facts about visits, and such of them as a filter lets through, which reads the
union that it feeds. -/
def looped : Plan := ⟨[
  ⟨0, some "A", .load ⟨⟨"visits", [⟨"facts", .map (.scalar .int), ⟨0⟩⟩], none⟩, none, none⟩, [],
    [⟨"facts", .map (.scalar .int), ⟨0⟩⟩], none⟩,
  ⟨1, some "B", .filter (.not (.isNull (.lookup (.column 0) "lang"))), [⟨2, none⟩],
    [⟨"facts", .map (.scalar .int), ⟨1⟩⟩], none⟩,
  ⟨2, some "U", .union ⟨[⟨"facts", .map (.scalar .int), ⟨1⟩⟩], [[some 0], [some 0]]⟩,
    [⟨0, none⟩, ⟨1, none⟩], [⟨"facts", .map (.scalar .int), ⟨1⟩⟩], none⟩,
  ⟨3, some "F", .forEach [⟨.lookup (.column 0) "page", false, ⟨2⟩⟩], [⟨2, none⟩],
    [⟨"facts", .scalar .int, ⟨2⟩⟩], none⟩]⟩

theorem looped_inPlace : looped.InPlace := by
  intro id n hn
  match id with
  | 0 | 1 | 2 | 3 => cases hn; rfl
  | _ + 4 => cases hn

/-- The filter finds a key after the union was visited, so that the union is
visited twice. -/
theorem solve_looped : ∃ r, looped.solve (.empty true) true = .ok r ∧ r.visits = 5 := by
  have hsteps : (steps looped true 5 (start looped (.empty true))).toOption.map
      (fun s => (s.pending, s.visits)) = some ([], 5) := by decide +kernel
  cases h : steps looped true 5 (start looped (.empty true)) with
  | error e => rw [h] at hsteps; cases hsteps
  | ok s =>
    rw [h] at hsteps
    obtain ⟨hdone, hvisits⟩ := Prod.mk.inj (Option.some.inj hsteps)
    exact ⟨_, solve_of_reaches (reaches_of_steps h hdone), hvisits⟩

theorem solve_closed_looped : looped.InPlace ∧ ∃ r, looped.solve (.empty true) true = .ok r ∧
    r.required[3]? = some .all ∧
    ∃ q ds, r.required[2]? = some q ∧ looped.inputDemands 2 q r.trackers = .ok ds ∧
      ds.length = 2 := by
  obtain ⟨r, hr, -⟩ := solve_looped
  obtain ⟨hsinks, -, hnodes⟩ := solve_closed looped_inPlace (.empty true) true hr
  obtain ⟨q, ds, hq, hds, hlen, -⟩ := hnodes 2 _ rfl
  exact ⟨looped_inPlace, r, hr, hsinks 3 (by decide), q, ds, hq, hds, hlen⟩

theorem solve_halts_looped :
    (∃ s', visit looped true { start looped (.empty true) with pending := [2, 1, 0] } 3 = .ok s' ∧
      Prod.Lex (· < ·) (· < ·)
        (s'.room looped (looped.scope (start looped (.empty true)).trackers), s'.pending.length)
        ((start looped (.empty true)).room looped
          (looped.scope (start looped (.empty true)).trackers), 4)) ∧
      ∃ r, looped.solve (.empty true) true = .ok r ∧
        r.visits ≤ looped.visitBound (.empty true) := by
  obtain ⟨hdown, hend⟩ := solve_halts looped (.empty true) true
  constructor
  · have hvisit : (visit looped true { start looped (.empty true) with pending := [2, 1, 0] }
        3).isOk = true := by decide +kernel
    cases h : visit looped true { start looped (.empty true) with pending := [2, 1, 0] } 3 with
    | error e => rw [h] at hvisit; cases hvisit
    | ok s' => exact ⟨s', rfl, hdown 0 _ 3 [2, 1, 0] s' rfl rfl h⟩
  · obtain ⟨r, hr, -⟩ := solve_looped
    rcases hend _ (Nat.le_refl _) with ⟨s, -, -, hvisits, hs⟩ | ⟨e, -, he⟩
    · rw [hr] at hs
      cases hs
      exact ⟨_, hr, hvisits⟩
    · rw [hr] at he
      cases he

end Plan

end Dataflow
