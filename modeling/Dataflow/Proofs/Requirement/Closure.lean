import Dataflow.Proofs.Requirement.Absorption
import Dataflow.Requirement.Solver

/-!
# The solved requirement is closed

When the worklist is empty, every node's demands have been taken in: merging
them again would change nothing. The argument is one invariant of the solver:
*a node that is not waiting is settled*. It is local. A visit settles the node
it visits, because the demands it computes are absorbed one after the other and
absorbing never loses anything; and it unsettles no other node without putting
it back, because a node's demands depend only on what is required of it and on
what is known about the fields it originates, and a change of either puts the
node on the worklist (`State.Advances`).

Nothing here asks for a sound plan: edges may point anywhere and identities may
be shared. Only `Plan.InPlace` is needed, since the worklist holds the numbers
that nodes carry.
-/

namespace Dataflow

/-- Every node is stored under its own number. -/
def Plan.InPlace (p : Plan) : Prop :=
  ∀ (id : Nat) (n : Node), p.nodes[id]? = some n → n.id = id

/-- A demand on a node that a requirement has absorbed. -/
structure Absorbed (required : List Required) (t : Trackers) (id : Nat) (d : Demand) : Prop where
  fields : (required.getD id .none).Covers d.fields
  parts : ∀ x ∈ d.parts, t.Records x

/-! ## Demands look up only what the operator originates -/

namespace Demand

theorem ofGroup_congr {name : String} {t t' : Trackers} {g : CoGroup} {required : List Nat}
    {s : Schema} {keys : List Expr} {i : Nat}
    (h : ∀ u ∈ Solver.originated (.cogroup g), Trackers.SameAt u t t') :
    ofGroup name t' g required s keys i = ofGroup name t g required s keys i := by
  unfold ofGroup
  cases hb : g.bags[i]? with
  | none => rfl
  | some b =>
    obtain ⟨bag, u⟩ := b
    have hu : u ∈ Solver.originated (.cogroup g) :=
      List.mem_map.mpr ⟨(bag, u), List.mem_of_getElem? hb, rfl⟩
    simp only [(h u hu).2]

theorem ofMapping_congr {name : String} {t t' : Trackers} {u : Union} {required : List Nat}
    {s : Schema} {mapping : List (Option Nat)}
    (h : ∀ v ∈ Solver.originated (.union u), Trackers.SameAt v t t') :
    ofMapping name t' u required s mapping = ofMapping name t u required s mapping := by
  unfold ofMapping
  congr 1
  funext p
  cases hf : u.fields[p]? with
  | none => rfl
  | some output =>
    have hu : output.uid ∈ Solver.originated (.union u) :=
      List.mem_map.mpr ⟨output, List.mem_of_getElem? hf, rfl⟩
    have hfield : ofUnionField t' output = ofUnionField t output := by
      funext input
      simp only [ofUnionField, (h output.uid hu).1]
    simp only [hfield]

/-- An operator asks the trackers only about the fields it originates. -/
theorem ofOperator_congr {name : String} {t t' : Trackers} {op : Operator}
    {inputs : List Schema} {required : List Nat}
    (h : ∀ u ∈ Solver.originated op, Trackers.SameAt u t t') :
    ofOperator name t' op inputs required = ofOperator name t op inputs required := by
  cases op with
  | cogroup g => simp only [ofOperator, ofGroup_congr h]
  | union u => simp only [ofOperator, ofMapping_congr h]
  | _ => rfl

end Demand

theorem Plan.inputDemands_congr {p : Plan} {id : Nat} {n : Node} {r : Required}
    {t t' : Trackers} (hn : p.nodes[id]? = some n)
    (h : ∀ u ∈ Solver.originated n.op, Trackers.SameAt u t t') :
    p.inputDemands id r t' = p.inputDemands id r t := by
  have hnode : p.node id = .ok n := by simp [Plan.node, hn]
  unfold Plan.inputDemands
  rw [hnode]
  show (do
    let inputs ← p.inputSchemas id
    let natural ← p.natural id
    let required ← (← n.naturalRequired r).resolve natural.length
    Demand.ofOperator n.displayName t' n.op inputs required) = _
  simp only [Demand.ofOperator_congr h]
  rfl

namespace Worklist

theorem mem_insert {id x : Nat} {ns : List Nat} : x ∈ insert id ns ↔ x = id ∨ x ∈ ns := by
  induction ns with
  | nil => simp [insert]
  | cons n ns ih =>
    unfold insert
    split
    · simp
    · split
      · rename_i h; subst h; simp
      · simp [ih, or_left_comm]

theorem mem_insertAll {x : Nat} {ids ns : List Nat} :
    x ∈ insertAll ns ids ↔ x ∈ ids ∨ x ∈ ns := by
  unfold insertAll
  induction ids generalizing ns with
  | nil => simp
  | cons id ids ih => simp [ih, mem_insert, or_left_comm, or_assoc]

theorem insert_descending {id : Nat} {ns : List Nat} (h : ns.Pairwise (· > ·)) :
    (insert id ns).Pairwise (· > ·) := by
  induction ns with
  | nil => exact List.pairwise_singleton ..
  | cons n ns ih =>
    obtain ⟨hn, hns⟩ := List.pairwise_cons.mp h
    unfold insert
    split
    · refine List.pairwise_cons.mpr ⟨fun x hx => ?_, h⟩
      rcases List.mem_cons.mp hx with rfl | hx
      · assumption
      · have := hn x hx
        omega
    · split
      · exact h
      · refine List.pairwise_cons.mpr ⟨fun x hx => ?_, ih hns⟩
        rcases mem_insert.mp hx with rfl | hx
        · omega
        · exact hn x hx

theorem insertAll_descending {ids ns : List Nat} (h : ns.Pairwise (· > ·)) :
    (insertAll ns ids).Pairwise (· > ·) := by
  unfold insertAll
  induction ids generalizing ns with
  | nil => exact h
  | cons id ids ih => exact ih (insert_descending h)

end Worklist

namespace Solver

/-! ## Runs -/

/-- From one state the solver comes to another and stops there. -/
inductive Reaches (p : Plan) (retain : Bool) : State → State → Prop
  | done {s : State} (h : s.pending = []) : Reaches p retain s s
  | visit {s s₁ s₂ : State} {id : Nat} {rest : List Nat} (hp : s.pending = id :: rest)
      (h : visit p retain { s with pending := rest } id = .ok s₁) (next : Reaches p retain s₁ s₂) :
      Reaches p retain s s₂

section Run

variable {p : Plan} {retain : Bool} {c : Scope} {hc : c.Covers p} {s s' : State} {id : Nat}
  {rest : List Nat}

theorem run_done (hs : s.Fits p c) (hp : s.pending = []) : run p retain c hc s hs = .ok s := by
  unfold run
  split
  · rfl
  · rename_i hp'
    rw [hp] at hp'
    cases hp'

theorem run_failed (hs : s.Fits p c) (hp : s.pending = id :: rest) {e : Error}
    (hv : visit p retain { s with pending := rest } id = .error e) :
    run p retain c hc s hs = .error e := by
  unfold run
  split
  · rename_i hp'
    rw [hp] at hp'
    cases hp'
  · rename_i hp'
    rw [hp] at hp'
    cases hp'
    split
    · rename_i hv'
      rw [hv] at hv'
      cases hv'
      rfl
    · rename_i hv'
      rw [hv] at hv'
      cases hv'

theorem run_visited (hs : s.Fits p c) (hp : s.pending = id :: rest)
    (hv : visit p retain { s with pending := rest } id = .ok s') :
    run p retain c hc s hs = run p retain c hc s' (closer_of_visit hc hs hp hv).2 := by
  rw [run]
  split
  · rename_i hp'
    rw [hp] at hp'
    cases hp'
  · rename_i hp'
    rw [hp] at hp'
    cases hp'
    split
    · rename_i hv'
      rw [hv] at hv'
      cases hv'
    · rename_i hv'
      rw [hv] at hv'
      cases hv'
      rfl

theorem reaches_of_run {hs : s.Fits p c} (h : run p retain c hc s hs = .ok s') :
    Reaches p retain s s' := by
  induction s, hs using run.induct p retain c hc with
  | case1 s hs hp =>
    rw [run_done hs hp] at h
    cases h
    exact .done hp
  | case2 s hs id rest hp e hv =>
    rw [run_failed hs hp hv] at h
    cases h
  | case3 s hs id rest hp s₁ hv ih =>
    rw [run_visited hs hp hv] at h
    exact .visit hp hv (ih h)

theorem run_of_reaches (hs : s.Fits p c) (h : Reaches p retain s s') :
    run p retain c hc s hs = .ok s' := by
  induction h with
  | done h => exact run_done hs h
  | visit hp hv _ ih =>
    rw [run_visited hs hp hv]
    exact ih _

end Run

/-! ## What a part of a visit does -/

/-- At most `count` visits, for plans whose analysis is to be evaluated. -/
def steps (p : Plan) (retain : Bool) : (count : Nat) → State → Except Error State
  | 0, s => .ok s
  | count + 1, s =>
    match s.pending with
    | [] => .ok s
    | id :: rest =>
      match visit p retain { s with pending := rest } id with
      | .error e => .error e
      | .ok s' => steps p retain count s'

/-- What the first of several visits can do. -/
theorem steps_succ (p : Plan) (retain : Bool) (count : Nat) (s : State) :
    s.pending = [] ∧ steps p retain (count + 1) s = .ok s ∨
      ∃ id rest, s.pending = id :: rest ∧
        ((∃ e, visit p retain { s with pending := rest } id = .error e ∧
            steps p retain (count + 1) s = .error e) ∨
          ∃ s', visit p retain { s with pending := rest } id = .ok s' ∧
            steps p retain (count + 1) s = steps p retain count s') := by
  cases hp : s.pending with
  | nil => exact Or.inl ⟨rfl, by simp only [steps, hp]⟩
  | cons id rest =>
    refine Or.inr ⟨id, rest, rfl, ?_⟩
    cases hv : visit p retain { s with pending := rest } id with
    | error e => exact Or.inl ⟨e, rfl, by simp only [steps, hp, hv]⟩
    | ok s' => exact Or.inr ⟨s', rfl, by simp only [steps, hp, hv]⟩

/-- Visits after which no node waits are a run. -/
theorem reaches_of_steps {p : Plan} {retain : Bool} {count : Nat} {s s' : State}
    (h : steps p retain count s = .ok s') (hdone : s'.pending = []) : Reaches p retain s s' := by
  induction count generalizing s with
  | zero =>
    cases h
    exact .done hdone
  | succ count ih =>
    rcases steps_succ p retain count s with ⟨hp, hs⟩ | ⟨id, rest, hp, ⟨e, -, hs⟩ | ⟨s₁, hv, hs⟩⟩
    · rw [hs] at h
      cases h
      exact .done hp
    · rw [hs] at h
      cases h
    · rw [hs] at h
      exact .visit hp hv (ih h)

/-- A later state of a visit: requirements and knowledge have grown, nobody was
taken off the worklist, and a node that is not on it has what it had. -/
structure State.Advances (p : Plan) (s s' : State) : Prop where
  length : s'.required.length = s.required.length
  required : ∀ id, (s'.requiredOf id).Covers (s.requiredOf id)
  trackers : s.trackers.Le s'.trackers
  pending : ∀ id ∈ s.pending, id ∈ s'.pending
  untouched : ∀ id n, p.nodes[id]? = some n → id ∉ s'.pending →
    s'.requiredOf id = s.requiredOf id ∧
      ∀ u ∈ originated n.op, Trackers.SameAt u s.trackers s'.trackers

theorem State.advances_refl (p : Plan) (s : State) : s.Advances p s where
  length := rfl
  required _ := Required.covers_refl _
  trackers := s.trackers.le_refl
  pending _ h := h
  untouched _ _ _ _ := ⟨rfl, fun _ _ => ⟨rfl, rfl⟩⟩

theorem State.Advances.trans {p : Plan} {s₁ s₂ s₃ : State} (h : s₁.Advances p s₂)
    (h' : s₂.Advances p s₃) : s₁.Advances p s₃ where
  length := h'.length.trans h.length
  required id := (h'.required id).trans (h.required id)
  trackers := h.trackers.trans h'.trackers
  pending id hid := h'.pending id (h.pending id hid)
  untouched id n hn hid := by
    obtain ⟨hr', ht'⟩ := h'.untouched id n hn hid
    obtain ⟨hr, ht⟩ := h.untouched id n hn fun hid' => hid (h'.pending id hid')
    exact ⟨hr'.trans hr, fun u hu =>
      ⟨(ht' u hu).1.trans (ht u hu).1, (ht' u hu).2.trans (ht u hu).2⟩⟩

/-- What was absorbed stays absorbed. -/
theorem State.Advances.absorbed {p : Plan} {s s' : State} (h : s.Advances p s') {id : Nat}
    {d : Demand} (hd : Absorbed s.required s.trackers id d) :
    Absorbed s'.required s'.trackers id d :=
  ⟨(h.required id).trans hd.fields, fun x hx => (hd.parts x hx).mono h.trackers⟩

/-- The nodes that look up the part a finding is about are put back. -/
theorem advances_record {p : Plan} (hp : p.InPlace) (s : State) (d : PartDemand) :
    s.Advances p { s with
      trackers := (s.trackers.apply d).1
      pending := Worklist.insertAll s.pending (originators p d.uid) } where
  length := rfl
  required _ := Required.covers_refl _
  trackers := s.trackers.le_apply d
  pending _ h := Worklist.mem_insertAll.mpr (Or.inr h)
  untouched id n hn hid := by
    refine ⟨rfl, fun u hu => Trackers.sameAt_apply fun hd => hid ?_⟩
    subst hd
    refine Worklist.mem_insertAll.mpr (Or.inl (List.mem_filterMap.mpr ⟨n, ?_, ?_⟩))
    · exact List.mem_of_getElem? hn
    · rw [if_pos (List.contains_iff_mem.mpr hu), hp id n hn]

theorem advances_absorbParts {p : Plan} (hp : p.InPlace) (ds : List PartDemand) (s : State) :
    s.Advances p (absorbParts p s ds).1 ∧
      ∀ d ∈ ds, (absorbParts p s ds).1.trackers.Records d := by
  induction ds generalizing s with
  | nil => exact ⟨s.advances_refl p, nofun⟩
  | cons d ds ih =>
    simp only [absorbParts]
    cases hc : (s.trackers.apply d).2 with
    | false =>
      obtain ⟨h₁, h₂⟩ := ih s
      refine ⟨h₁, fun x hx => ?_⟩
      rcases List.mem_cons.mp hx with rfl | hx
      · exact Trackers.Records.mono h₁.trackers hc
      · exact h₂ x hx
    | true =>
      obtain ⟨h₁, h₂⟩ := ih { s with
        trackers := (s.trackers.apply d).1
        pending := Worklist.insertAll s.pending (originators p d.uid) }
      refine ⟨(advances_record hp s d).trans h₁, fun x hx => ?_⟩
      rcases List.mem_cons.mp hx with rfl | hx
      · exact (s.trackers.records_apply x).mono h₁.trackers
      · exact h₂ x hx

theorem absorbParts_required (p : Plan) (ds : List PartDemand) (s : State) :
    (absorbParts p s ds).1.required = s.required := by
  induction ds generalizing s with
  | nil => rfl
  | cons d ds ih =>
    simp only [absorbParts]
    rw [ih]
    split <;> rfl

theorem requiredOf_set {s : State} {input id : Nat} (h : input < s.required.length)
    (r : Required) :
    (s.required.set input r).getD id .none = if id = input then r else s.requiredOf id := by
  unfold State.requiredOf
  by_cases hid : id = input
  · subst hid; simp [h]
  · rw [if_neg hid]
    simp [List.getElem?_set_ne (Ne.symm hid)]

theorem absorb_required (p : Plan) (s : State) (input : Nat) (d : Demand) :
    (absorb p s input d).required =
      s.required.set input ((s.requiredOf input).merge d.fields).1 := by
  unfold absorb
  simp only
  split <;> exact absorbParts_required p d.parts _

/-- Absorbing a demand. -/
theorem advances_absorb {p : Plan} (hp : p.InPlace) {s : State} {input : Nat} (d : Demand)
    (hlen : input < s.required.length) (hproper : (s.requiredOf input).Proper) :
    s.Advances p (absorb p s input d) ∧
      Absorbed (absorb p s input d).required (absorb p s input d).trackers input d := by
  obtain ⟨hparts, hrecords⟩ := advances_absorbParts hp d.parts
    { s with required := s.required.set input ((s.requiredOf input).merge d.fields).1 }
  have hreq : ∀ id, (absorb p s input d).requiredOf id =
      if id = input then ((s.requiredOf input).merge d.fields).1 else s.requiredOf id := by
    intro id
    unfold State.requiredOf
    rw [absorb_required]
    exact requiredOf_set hlen _
  have hpending : ∀ id ∈ (mergeDemand p s input d).1.pending,
      id ∈ (absorb p s input d).pending := by
    intro id hid
    unfold absorb
    simp only
    split
    · exact Worklist.mem_insert.mpr (Or.inr hid)
    · exact hid
  have htrackers : (absorb p s input d).trackers = (mergeDemand p s input d).1.trackers := by
    unfold absorb
    simp only
    split <;> rfl
  refine ⟨⟨?_, fun id => ?_, ?_, fun id hid => ?_, fun id n hn hid => ?_⟩, ?_, ?_⟩
  · rw [absorb_required, List.length_set]
  · rw [hreq]
    split
    · rename_i h; subst h; exact Required.merge_covers_left _ _
    · exact Required.covers_refl _
  · rw [htrackers]; exact hparts.trackers
  · exact hpending id (hparts.pending id hid)
  · refine ⟨?_, fun u hu => ?_⟩
    · rw [hreq]
      split
      · rename_i h
        subst h
        -- Had the merge changed anything, the input would wait again.
        have hsame : ((s.requiredOf id).merge d.fields).2 = false := by
          cases hc : ((s.requiredOf id).merge d.fields).2 with
          | false => rfl
          | true =>
            refine absurd ?_ hid
            unfold absorb
            simp only [hc, Bool.true_or, if_true]
            exact Worklist.mem_insert.mpr (Or.inl rfl)
        rw [Required.merge_eq_of_covers hproper (Required.covers_of_merge_false hsame)]
      · rfl
    · rw [htrackers]
      exact (hparts.untouched id n hn fun h => hid (hpending id h)).2 u hu
  · show ((absorb p s input d).requiredOf input).Covers d.fields
    rw [hreq, if_pos rfl]
    exact Required.merge_covers_right _ _
  · intro x hx
    rw [htrackers]
    exact hrecords x hx

/-! ## The invariant -/

/-- A state whose requirements are well formed and lie within the plan. -/
structure State.Sound (p : Plan) (s : State) : Prop where
  length : s.required.length = p.nodes.length
  proper : ∀ id, (s.requiredOf id).Proper
  below : ∀ id n, p.nodes[id]? = some n → (s.requiredOf id).Below n.schema.length

theorem State.Sound.absorb {p : Plan} {s : State} (hs : s.Sound p) {input : Nat} {m : Node}
    (hm : p.nodes[input]? = some m) {d : Demand} (hd : d.fields.Below m.schema.length) :
    (absorb p s input d).Sound p := by
  have hlt : input < s.required.length := by
    rw [hs.length]; exact (List.getElem?_eq_some_iff.mp hm).1
  have hreq : ∀ id, (Solver.absorb p s input d).requiredOf id =
      if id = input then ((s.requiredOf input).merge d.fields).1 else s.requiredOf id := by
    intro id
    unfold State.requiredOf
    rw [absorb_required]
    exact requiredOf_set hlt _
  refine ⟨?_, fun id => ?_, fun id n hn => ?_⟩
  · rw [absorb_required, List.length_set]; exact hs.length
  · rw [hreq]
    split
    · exact Required.merge_proper (hs.proper input) _
    · exact hs.proper id
  · rw [hreq]
    split
    · rename_i h
      subst h
      rw [hm] at hn
      cases hn
      exact Required.merge_below (hs.below id m hm) hd
    · exact hs.below id n hn

/-- Absorbing the demands of a node one after the other. -/
theorem advances_absorbAll {p : Plan} (hp : p.InPlace) (pairs : List (Edge × Demand))
    (h : ∀ e d, (e, d) ∈ pairs →
      ∃ m, p.nodes[e.node]? = some m ∧ d.fields.Below m.schema.length)
    {s : State} (hs : s.Sound p) :
    let s' := pairs.foldl (fun s (e, d) => absorb p s e.node d) s
    s.Advances p s' ∧ s'.Sound p ∧
      ∀ e d, (e, d) ∈ pairs → Absorbed s'.required s'.trackers e.node d := by
  induction pairs generalizing s with
  | nil => exact ⟨s.advances_refl p, hs, nofun⟩
  | cons x xs ih =>
    obtain ⟨e, d⟩ := x
    obtain ⟨m, hm, hd⟩ := h e d (List.mem_cons_self ..)
    have hlt : e.node < s.required.length := by
      rw [hs.length]; exact (List.getElem?_eq_some_iff.mp hm).1
    obtain ⟨hadv, habs⟩ := advances_absorb hp d hlt (hs.proper e.node)
    obtain ⟨h₁, h₂, h₃⟩ := ih (fun e d hx => h e d (List.mem_cons_of_mem _ hx))
      (hs.absorb hm hd)
    refine ⟨hadv.trans h₁, h₂, fun e' d' hx => ?_⟩
    rcases List.mem_cons.mp hx with heq | hx
    · cases heq
      exact h₁.absorbed habs
    · exact h₃ e' d' hx

/-- A node whose demands have been taken in. -/
def State.Settled (p : Plan) (s : State) (id : Nat) (n : Node) : Prop :=
  ∃ ds, p.inputDemands id (s.requiredOf id) s.trackers = .ok ds ∧
    ∀ e d, (e, d) ∈ n.inputs.zip ds → Absorbed s.required s.trackers e.node d

/-- The invariant of the solver: a node that is not waiting is settled, and has
a field if it is to keep one. -/
structure State.Invariant (p : Plan) (retain : Bool) (s : State) : Prop where
  sound : s.Sound p
  settled : ∀ id n, p.nodes[id]? = some n → id ∉ s.pending → s.Settled p id n
  retained : retain = true → ∀ id n, p.nodes[id]? = some n → id ∉ s.pending →
    n.schema ≠ [] → s.requiredOf id ≠ .none

/-- A settled node stays settled as long as it is not put back. -/
theorem State.Settled.advances {p : Plan} {s s' : State} {id : Nat} {n : Node}
    (h : s.Settled p id n) (hadv : s.Advances p s') (hn : p.nodes[id]? = some n)
    (hid : id ∉ s'.pending) : s'.Settled p id n := by
  obtain ⟨ds, hds, habs⟩ := h
  obtain ⟨hr, ht⟩ := hadv.untouched id n hn hid
  refine ⟨ds, ?_, fun e d hx => hadv.absorbed (habs e d hx)⟩
  rw [hr, Plan.inputDemands_congr hn ht, hds]

/-- Keeping a field of the visited node. -/
def retaining (retain : Bool) (n : Node) (id : Nat) (s : State) : State :=
  if retain then retainOne n id s else s

theorem retaining_pending (retain : Bool) (n : Node) (id : Nat) (s : State) :
    (retaining retain n id s).pending = s.pending ∧
      (retaining retain n id s).trackers = s.trackers := by
  unfold retaining retainOne
  split
  · split <;> exact ⟨rfl, rfl⟩
  · exact ⟨rfl, rfl⟩

theorem retaining_requiredOf {p : Plan} {s : State} (hs : s.Sound p) {id : Nat} {n : Node}
    (hn : p.nodes[id]? = some n) (retain : Bool) (x : Nat) :
    (retaining retain n id s).requiredOf x =
      if x = id ∧ retain = true ∧ s.requiredOf id = .none ∧ n.schema ≠ [] then .positions [0]
      else s.requiredOf x := by
  have hlt : id < s.required.length := by
    rw [hs.length]; exact (List.getElem?_eq_some_iff.mp hn).1
  have hempty : (s.requiredOf id).isEmpty = true ↔ s.requiredOf id = .none := by
    cases s.requiredOf id <;> simp [Required.isEmpty]
  unfold retaining retainOne
  cases retain with
  | false => simp
  | true =>
    by_cases h : s.requiredOf id = .none ∧ n.schema ≠ []
    · have hcond : ((s.requiredOf id).isEmpty && !n.schema.isEmpty) = true := by
        simp [hempty.mpr h.1, h.2]
      rw [if_pos rfl, if_pos hcond]
      show (s.required.set id _).getD x .none = _
      rw [requiredOf_set hlt]
      by_cases hx : x = id
      · simp [hx, h.1, h.2]
      · simp [hx]
    · have hcond : ¬ ((s.requiredOf id).isEmpty && !n.schema.isEmpty) = true := by
        intro hc
        simp only [Bool.and_eq_true, Bool.not_eq_true', List.isEmpty_eq_false_iff] at hc
        exact h ⟨hempty.mp hc.1, hc.2⟩
      rw [if_pos rfl, if_neg hcond, if_neg fun hx => h hx.2.2]

theorem retaining_covers {p : Plan} {s : State} (hs : s.Sound p) {id : Nat} {n : Node}
    (hn : p.nodes[id]? = some n) (retain : Bool) (x : Nat) :
    ((retaining retain n id s).requiredOf x).Covers (s.requiredOf x) := by
  rw [retaining_requiredOf hs hn]
  split
  · rename_i h; rw [h.1, h.2.2.1]; exact Required.covers_none _
  · exact Required.covers_refl _

theorem State.Sound.retaining {p : Plan} {s : State} (hs : s.Sound p) {id : Nat} {n : Node}
    (hn : p.nodes[id]? = some n) (retain : Bool) : (retaining retain n id s).Sound p where
  length := by
    unfold Solver.retaining retainOne
    split
    · split <;> simp [hs.length]
    · exact hs.length
  proper x := by
    rw [retaining_requiredOf hs hn]
    split
    · exact ⟨List.pairwise_singleton .., by simp⟩
    · exact hs.proper x
  below x m hm := by
    rw [retaining_requiredOf hs hn]
    split
    · rename_i h
      rw [h.1, hn] at hm
      cases hm
      intro q hq
      rw [List.mem_singleton.mp hq]
      exact List.length_pos_iff.mpr h.2.2.2
    · exact hs.below x m hm

theorem retainOne_visits (n : Node) (id : Nat) (s : State) (v : Nat) :
    retainOne n id { s with visits := v } = { retainOne n id s with visits := v } := by
  have hreq : State.requiredOf { s with visits := v } id = s.requiredOf id := rfl
  unfold retainOne
  rw [hreq]
  split <;> rfl

theorem retaining_visits (retain : Bool) (n : Node) (id : Nat) (s : State) :
    (if retain = true then retainOne n id { s with visits := s.visits + 1 }
      else { s with visits := s.visits + 1 }) =
      { retaining retain n id s with visits := s.visits + 1 } := by
  cases retain with
  | false => rfl
  | true => exact retainOne_visits n id s _

/-- What a visit does: it computes the demands of the node, of which a field is
kept if need be, and absorbs them. -/
theorem visit_ok {p : Plan} {retain : Bool} {s s' : State} {id : Nat} :
    visit p retain s id = .ok s' ↔ ∃ n ds, p.nodes[id]? = some n ∧
      p.inputDemands id ((retaining retain n id s).requiredOf id) s.trackers = .ok ds ∧
      s' = (n.inputs.zip ds).foldl (fun s (e, d) => absorb p s e.node d)
        { retaining retain n id s with visits := s.visits + 1 } := by
  constructor
  · intro h
    obtain ⟨n, hn, h⟩ := bind_ok h
    obtain ⟨ds, hds, h⟩ := bind_ok h
    cases h
    rw [retaining_visits] at hds
    refine ⟨n, ds, Plan.node_ok.mp hn, ?_, by rw [retaining_visits]⟩
    rw [← (retaining_pending retain n id s).2]
    exact hds
  · rintro ⟨n, ds, hn, hds, rfl⟩
    have hnode : p.node id = .ok n := by simp [Plan.node, hn]
    rw [← (retaining_pending retain n id s).2] at hds
    unfold visit
    simp only [hnode, bind, Except.bind, retaining_visits]
    rw [show State.requiredOf { retaining retain n id s with visits := s.visits + 1 } id =
      (retaining retain n id s).requiredOf id from rfl, hds]
    rfl

/-- Taking in the demands of a visited node. -/
theorem advances_visit {p : Plan} (hp : p.InPlace) {retain : Bool} {id : Nat} {s : State}
    (hs : s.Sound p) {n : Node} {ds : List Demand} (hn : p.nodes[id]? = some n)
    (hds : p.inputDemands id ((retaining retain n id s).requiredOf id) s.trackers = .ok ds) :
    let s₀ := { retaining retain n id s with visits := s.visits + 1 }
    let s' := (n.inputs.zip ds).foldl (fun s (e, d) => absorb p s e.node d) s₀
    s₀.Advances p s' ∧ s'.Sound p ∧
      ∀ e d, (e, d) ∈ n.inputs.zip ds → Absorbed s'.required s'.trackers e.node d := by
  have hsound : State.Sound p { retaining retain n id s with visits := s.visits + 1 } :=
    let h := hs.retaining hn retain
    ⟨h.1, h.2, h.3⟩
  have hnode : p.node id = .ok n := by simp [Plan.node, hn]
  refine advances_absorbAll hp (n.inputs.zip ds) (fun e d hx => ?_) hsound
  obtain ⟨m, hm, hwithin⟩ := Plan.inputDemands_within (p.scope_covers s.trackers)
    (p.among_scope s.trackers) hnode hds hx
  exact ⟨m, hm, hwithin.fields⟩

theorem invariant_visit {p : Plan} (hp : p.InPlace) {retain : Bool} {id : Nat} {rest : List Nat}
    {s s' : State} (hs : s.Invariant p retain) (hpending : s.pending = id :: rest)
    (h : visit p retain { s with pending := rest } id = .ok s') :
    s'.Invariant p retain ∧ s.trackers.Le s'.trackers ∧
      ∀ x, (s'.requiredOf x).Covers (s.requiredOf x) := by
  obtain ⟨n, ds, hn, hds, rfl⟩ := visit_ok.mp h
  have hsound₀ : State.Sound p { s with pending := rest } := ⟨hs.sound.1, hs.sound.2, hs.sound.3⟩
  obtain ⟨hadv, hsound', habs⟩ := advances_visit hp hsound₀ hn hds
  have hcovers := retaining_covers hsound₀ hn retain
  obtain ⟨hpend, htrack⟩ := retaining_pending retain n id { s with pending := rest }
  refine ⟨⟨hsound', fun x m hm hx => ?_, fun hr x m hm hx hne => ?_⟩, ?_, fun x => ?_⟩
  · by_cases hxid : x = id
    · subst hxid
      rw [hn] at hm
      cases hm
      obtain ⟨hr, ht⟩ := hadv.untouched x n hn hx
      refine ⟨ds, ?_, habs⟩
      rw [hr, Plan.inputDemands_congr hn ht]
      show p.inputDemands x ((retaining retain n x { s with pending := rest }).requiredOf x)
        (retaining retain n x { s with pending := rest }).trackers = _
      rw [htrack]
      exact hds
    · -- Another node was settled before, and retaining left it alone.
      have hrest : x ∉ rest := fun hmem => hx (hadv.pending x (by simpa [hpend] using hmem))
      obtain ⟨ds', hds', habs'⟩ := hs.settled x m hm (by
        rw [hpending]
        exact fun hmem => (List.mem_cons.mp hmem).elim hxid hrest)
      refine State.Settled.advances (s := { retaining retain n id { s with pending := rest } with
        visits := s.visits + 1 }) ⟨ds', ?_, fun e d hed => ?_⟩ hadv hm hx
      · show p.inputDemands x ((retaining retain n id { s with pending := rest }).requiredOf x)
          (retaining retain n id { s with pending := rest }).trackers = _
        rw [retaining_requiredOf hsound₀ hn, if_neg fun h => hxid h.1, htrack]
        exact hds'
      · obtain ⟨hf, hparts⟩ := habs' e d hed
        refine ⟨(hcovers e.node).trans hf, ?_⟩
        rw [htrack]
        exact hparts
  · intro hnone
    have hc := hadv.required x
    rw [hnone] at hc
    by_cases hxid : x = id
    · subst hxid
      have hreq := retaining_requiredOf hsound₀ hn retain x
      rw [hn] at hm
      cases hm
      by_cases h0 : State.requiredOf { s with pending := rest } x = .none
      · rw [if_pos ⟨rfl, hr, h0, hne⟩] at hreq
        have := hc.contains 0 (by
          show ((retaining retain n x { s with pending := rest }).requiredOf x).contains 0 = true
          rw [hreq]; rfl)
        cases this
      · have hcov : Required.none.Covers (State.requiredOf { s with pending := rest } x) :=
          hc.trans (hcovers x)
        have hprop := hsound₀.proper x
        cases hv : State.requiredOf { s with pending := rest } x with
        | none => exact h0 hv
        | all => rw [hv] at hcov; cases hcov.all rfl
        | positions ps =>
          rw [hv] at hcov hprop
          obtain ⟨q, qs, rfl⟩ := List.exists_cons_of_ne_nil hprop.2
          have := hcov.contains q (by simp)
          cases this
    · have hrest : x ∉ rest := fun hmem => hx (hadv.pending x (by simpa [hpend] using hmem))
      have hold := hs.retained hr x m hm (by
        rw [hpending]
        exact fun hmem => (List.mem_cons.mp hmem).elim hxid hrest) hne
      obtain ⟨hsame, -⟩ := hadv.untouched x m hm hx
      rw [hsame] at hnone
      change (retaining retain n id { s with pending := rest }).requiredOf x = _ at hnone
      rw [retaining_requiredOf hsound₀ hn, if_neg fun h => hxid h.1] at hnone
      exact hold hnone
  · have := hadv.trackers
    rw [show State.trackers { retaining retain n id { s with pending := rest } with
      visits := s.visits + 1 } = s.trackers from htrack] at this
    exact this
  · exact (hadv.required x).trans (hcovers x)

/-- A whole run keeps the invariant, and loses nothing. -/
theorem invariant_reaches {p : Plan} (hp : p.InPlace) {retain : Bool} {s s' : State}
    (h : Reaches p retain s s') (hs : s.Invariant p retain) :
    s'.Invariant p retain ∧ s'.pending = [] ∧ s.trackers.Le s'.trackers ∧
      ∀ x, (s'.requiredOf x).Covers (s.requiredOf x) := by
  induction h with
  | done h => exact ⟨hs, h, Trackers.le_refl _, fun _ => Required.covers_refl _⟩
  | visit hpending hv _ ih =>
    obtain ⟨h₁, h₂, h₃⟩ := invariant_visit hp hs hpending hv
    obtain ⟨h₁', h₂', h₃', h₄'⟩ := ih h₁
    exact ⟨h₁', h₂', h₂.trans h₃', fun x => (h₄' x).trans (h₃ x)⟩

/-! ## The start -/

theorem start_requiredOf (p : Plan) (t : Trackers) (id : Nat) :
    (start p t).requiredOf id = if id ∈ p.sinks then .all else .none := by
  have hsinks : id ∈ p.sinks → id < p.nodes.length := fun h =>
    List.mem_range.mp (List.mem_filter.mp h).1
  unfold State.requiredOf start
  by_cases hlt : id < p.nodes.length
  · simp [hlt]
  · have : id ∉ p.sinks := fun h => hlt (hsinks h)
    simp [hlt, this]

theorem range_descending (k : Nat) : (List.range k).reverse.Pairwise (· > ·) :=
  List.pairwise_reverse.mpr List.pairwise_lt_range

theorem invariant_start (p : Plan) (t : Trackers) (retain : Bool) :
    (start p t).Invariant p retain where
  sound := by
    refine ⟨by simp [start], fun id => ?_, fun id n _ => ?_⟩
    · rw [start_requiredOf]; split <;> trivial
    · rw [start_requiredOf]; split <;> trivial
  settled id n hn hid := by
    refine absurd ?_ hid
    simp [start, (List.getElem?_eq_some_iff.mp hn).1]
  retained _ id n hn hid := by
    refine absurd ?_ hid
    simp [start, (List.getElem?_eq_some_iff.mp hn).1]

theorem le_wholeDemands (p : Plan) (ids : List Nat) (t : Trackers) :
    t.Le (ids.foldl (fun t id => t.applyAll
      (((p.nodes[id]?).map fun n => Schema.wholeDemands n.schema).getD [])) t) := by
  induction ids generalizing t with
  | nil => exact t.le_refl
  | cons x xs ih => exact (t.le_applyAll _).trans (ih _)

theorem le_start (p : Plan) (t : Trackers) : t.Le (start p t).trackers :=
  le_wholeDemands p p.sinks t

/-- What the sinks' fields hold is known from the start. -/
theorem start_records {p : Plan} {t : Trackers} {id : Nat} {n : Node} (hid : id ∈ p.sinks)
    (hn : p.nodes[id]? = some n) :
    ∀ d ∈ Schema.wholeDemands n.schema, (start p t).trackers.Records d := by
  have hmain : ∀ (ids : List Nat) (t : Trackers), id ∈ ids →
      ∀ d ∈ Schema.wholeDemands n.schema,
        (ids.foldl (fun t id => t.applyAll
          (((p.nodes[id]?).map fun n => Schema.wholeDemands n.schema).getD [])) t).Records d := by
    intro ids
    induction ids with
    | nil => nofun
    | cons x xs ih =>
      intro t hx d hd
      rcases List.mem_cons.mp hx with rfl | hx
      · refine Trackers.Records.mono (le_wholeDemands p xs _) (Trackers.records_applyAll d ?_)
        simpa [hn] using hd
      · exact ih _ hx d hd
  exact hmain p.sinks t hid

end Solver

/-! ## Closed requirements -/

/-- A requirement that is closed: every sink is required with all its parts, and
whatever a node then needs of its inputs is required of them. -/
structure Plan.Closed (p : Plan) (required : List Required) (t : Trackers) : Prop where
  length : required.length = p.nodes.length
  proper : ∀ id, (required.getD id .none).Proper
  below : ∀ id n, p.nodes[id]? = some n → (required.getD id .none).Below n.schema.length
  sinks : ∀ id ∈ p.sinks, required.getD id .none = .all
  sinkParts : ∀ id ∈ p.sinks, ∀ n, p.nodes[id]? = some n →
    ∀ d ∈ Schema.wholeDemands n.schema, t.Records d
  settled : ∀ id n, p.nodes[id]? = some n →
    ∃ ds, p.inputDemands id (required.getD id .none) t = .ok ds ∧
      ∀ e d, (e, d) ∈ n.inputs.zip ds → Absorbed required t e.node d

theorem Plan.reaches_of_solve {p : Plan} {t : Trackers} {retain : Bool} {r : Requirements}
    (h : p.solve t retain = .ok r) :
    ∃ s, Solver.Reaches p retain (Solver.start p t) s ∧
      r = ⟨s.required, s.trackers, s.visits⟩ := by
  obtain ⟨s, hs, h⟩ := bind_ok h
  cases h
  exact ⟨s, Solver.reaches_of_run hs, rfl⟩

theorem Plan.solve_of_reaches {p : Plan} {t : Trackers} {retain : Bool} {s : Solver.State}
    (h : Solver.Reaches p retain (Solver.start p t) s) :
    p.solve t retain = .ok ⟨s.required, s.trackers, s.visits⟩ := by
  unfold Plan.solve
  rw [Solver.run_of_reaches _ h]
  rfl

/-- What the solver returns is a state in which no node waits. -/
theorem Plan.invariant_of_solve {p : Plan} (hp : p.InPlace) {t : Trackers} {retain : Bool}
    {r : Requirements} (h : p.solve t retain = .ok r) :
    ∃ s : Solver.State, r = ⟨s.required, s.trackers, s.visits⟩ ∧ s.Invariant p retain ∧
      s.pending = [] ∧ (Solver.start p t).trackers.Le s.trackers ∧
      ∀ id, (s.requiredOf id).Covers ((Solver.start p t).requiredOf id) := by
  obtain ⟨s, hreach, rfl⟩ := reaches_of_solve h
  exact ⟨s, rfl, Solver.invariant_reaches hp hreach (Solver.invariant_start p t retain)⟩

/-- What the solver returns is closed. -/
theorem Plan.closed_of_solve {p : Plan} (hp : p.InPlace) {t : Trackers} {retain : Bool}
    {r : Requirements} (h : p.solve t retain = .ok r) : p.Closed r.required r.trackers := by
  obtain ⟨s, rfl, hinv, hpending, hle, hcov⟩ := invariant_of_solve hp h
  refine ⟨hinv.sound.length, hinv.sound.proper, hinv.sound.below, fun id hid => ?_,
    fun id hid n hn d hd => ?_, fun id n hn => ?_⟩
  · have := hcov id
    rw [Solver.start_requiredOf, if_pos hid] at this
    exact Required.eq_all_of_covers_all this
  · exact (Solver.start_records hid hn d hd).mono hle
  · exact hinv.settled id n hn (by rw [hpending]; exact List.not_mem_nil)

/-- Whether keys are tracked stays as it was at the start. -/
theorem Plan.trackKeys_of_solve {p : Plan} (hp : p.InPlace) {t : Trackers} {retain : Bool}
    {r : Requirements} (h : p.solve t retain = .ok r) : r.trackers.trackKeys = t.trackKeys := by
  obtain ⟨s, rfl, -, -, hle, -⟩ := invariant_of_solve hp h
  exact hle.trackKeys.trans (Solver.le_start p t).trackKeys

/-- With `retain`, a node that has fields is required one of them. -/
theorem Plan.retained_of_solve {p : Plan} (hp : p.InPlace) {t : Trackers} {r : Requirements}
    (h : p.solve t true = .ok r) {id : Nat} {n : Node} (hn : p.nodes[id]? = some n)
    (hfields : n.schema ≠ []) : r.required.getD id .none ≠ .none := by
  obtain ⟨s, rfl, hinv, hpending, -, -⟩ := invariant_of_solve hp h
  exact hinv.retained rfl id n hn (by rw [hpending]; exact List.not_mem_nil) hfields

end Dataflow
