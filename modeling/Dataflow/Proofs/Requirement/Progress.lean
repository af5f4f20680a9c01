import Dataflow.Proofs.Requirement.Convergence

/-!
# The analysis does not fail

The rules of the analysis fail only on positions that do not exist. In a
consistent plan whose expressions are in range there are none: every rule gives
a demand (`Demand.exists_ofOperator`), hence every visit succeeds, and since the
worklist runs empty so does the analysis (`Plan.exists_solve`).
-/

namespace Dataflow

open List (Forall₂)

namespace Demand

variable {s : Schema}

theorem exists_collect {α : Type} {causes : List α} {demand : α → Except Error Demand}
    (h : ∀ c ∈ causes, ∃ d, demand c = .ok d) : ∃ d, collect causes demand = .ok d := by
  obtain ⟨ds, hds⟩ := exists_mapM_ok h
  exact ⟨_, by simp only [collect, hds]; rfl⟩

/-! ## Demands on one input -/

theorem exists_onField {p : Nat} (h : p < s.length) (parts : Field → List PartDemand) :
    ∃ d, onField s p parts = .ok d := by
  have hf := field_eq_ok.mpr (List.getElem?_eq_getElem h)
  exact ⟨_, by simp only [onField, hf]; rfl⟩

theorem exists_access {x : Nat × Access} (h : Expr.AccessInRange s x) :
    ∃ d, access s x.1 x.2 = .ok d := by
  obtain ⟨p, a⟩ := x
  cases a with
  | whole => exact exists_onField h.1 _
  | key k => exact exists_onField h.1 _
  | columns cs =>
    obtain ⟨f, inner, hf, hi, hcs⟩ := h.2 cs rfl
    have hf' := field_eq_ok.mpr hf
    obtain ⟨fs, hfs⟩ := exists_mapM_ok fun c hc =>
      ⟨_, field_eq_ok.mpr (List.getElem?_eq_getElem (hcs c hc))⟩
    exact ⟨_, by simp only [access, hf', readColumns, hi, hfs, bind, Except.bind]; rfl⟩

theorem exists_ofReads {r : Reads} (h : ∀ x ∈ r.accesses, Expr.AccessInRange s x) :
    ∃ d, ofReads s r = .ok d := by
  unfold ofReads
  split
  · exact ⟨_, rfl⟩
  · exact exists_collect fun x hx => exists_access (h x hx)

theorem accessInRange_toWhole {r : Reads} (h : ∀ x ∈ r.accesses, Expr.AccessInRange s x) :
    ∀ x ∈ r.toWhole.accesses, Expr.AccessInRange s x := by
  intro x hx
  obtain ⟨y, hy, rfl⟩ := List.mem_map.mp hx
  exact ⟨(h y hy).1, nofun⟩

theorem exists_ofExpr {e : Expr} (h : e.inRange s = true) : ∃ d, ofExpr s e = .ok d :=
  exists_ofReads (Expr.access_inRange h)

theorem exists_ofKeys {keys : List Expr} (h : ∀ e ∈ keys, e.inRange s = true) :
    ∃ d, ofKeys s keys = .ok d :=
  exists_collect fun e he => exists_ofReads (accessInRange_toWhole (Expr.access_inRange (h e he)))

theorem exists_ofRange (required : List Nat) (start : Nat) :
    ∃ d, ofRange s required start = .ok d := by
  refine exists_collect fun p hp => exists_onField ?_ _
  obtain ⟨-, hp⟩ := List.mem_filter.mp hp
  simp only [Bool.and_eq_true, decide_eq_true_eq] at hp
  omega

theorem exists_both {a b : Except Error Demand} (ha : ∃ d, a = .ok d) (hb : ∃ d, b = .ok d) :
    ∃ d, (do return (← a) ++ (← b)) = Except.ok d := by
  obtain ⟨da, rfl⟩ := ha
  obtain ⟨db, rfl⟩ := hb
  exact ⟨_, rfl⟩

/-! ## Operators -/

theorem exists_ofItem {item : Item} (h : item.expr.inRange s = true) (required : List Nat)
    (range : Nat × Nat) : ∃ d, ofItem s required item range = .ok d := by
  unfold ofItem
  split
  · exact ⟨_, rfl⟩
  · split
    · exact ⟨_, rfl⟩
    · split
      · exact ⟨_, rfl⟩
      · split
        · rename_i p hp
          have hacc := Expr.access_inRange h (p, .whole) (by
            rw [Expr.accesses_of_forwards? hp]; exact List.mem_singleton.mpr rfl)
          exact exists_onField hacc.1 _
        · refine exists_ofReads ?_
          split
          · exact accessInRange_toWhole (Expr.access_inRange h)
          · exact Expr.access_inRange h

theorem exists_ofBag (known : Option (KeySet Uid)) : ∃ d, ofBag s known = .ok d := by
  unfold ofBag
  split
  · refine exists_collect fun u _ => ?_
    split
    · rename_i p hp
      obtain ⟨f, hf, -⟩ := Schema.positionOf?_eq_some.mp hp
      exact exists_onField (List.getElem?_eq_some_iff.mp hf).1 _
    · exact ⟨_, rfl⟩
  · exact ⟨_, rfl⟩

theorem exists_ofGroup {name : String} {t : Trackers} {c : CoGroup} {required : List Nat}
    {keys : List Expr} {i : Nat} (hkeys : ∀ e ∈ keys, e.inRange s = true)
    (hbag : CoGroup.bagPosition i ∈ required → i < c.bags.length) :
    ∃ d, ofGroup name t c required s keys i = .ok d := by
  obtain ⟨dk, hdk⟩ := exists_ofKeys hkeys
  simp only [ofGroup, hdk, bind, Except.bind]
  split
  · exact ⟨_, rfl⟩
  · rename_i hreq
    obtain ⟨⟨bagName, u⟩, hb⟩ : ∃ b, c.bags[i]? = some b :=
      ⟨_, List.getElem?_eq_getElem (hbag (by simpa using hreq))⟩
    obtain ⟨db, hdb⟩ := exists_ofBag (s := s) (t.bagColumns.get? u)
    simp only [hb, hdb]
    exact ⟨_, rfl⟩

theorem exists_ofMapping {name : String} {t : Trackers} {u : Union} {required : List Nat}
    {mapping : List (Option Nat)} (hreq : ∀ p ∈ required, p < u.fields.length)
    (hmap : ∀ p q : Nat, mapping[p]?.join = some q → q < s.length) :
    ∃ d, ofMapping name t u required s mapping = .ok d := by
  refine exists_collect fun p hp => ?_
  rw [List.getElem?_eq_getElem (hreq p hp)]
  simp only
  split
  · rename_i q hq
    exact exists_onField (hmap p q hq) _
  · exact ⟨_, rfl⟩

theorem exists_onFirst {name : String} {inputs : List Schema}
    {demand : Schema → Except Error Demand} {first : Schema} (hfirst : inputs[0]? = some first)
    (h : ∃ d, demand first = .ok d) : ∃ ds, onFirst name inputs demand = .ok ds := by
  cases inputs with
  | nil => cases hfirst
  | cons s rest =>
    cases hfirst
    obtain ⟨d, hd⟩ := h
    exact ⟨_, by simp only [onFirst, hd]; rfl⟩

/-- Expressions in range are so on the one schema that an input has. -/
theorem inRange_at {expressions : List (Nat × Expr)} {inputs : List Schema}
    (hin : ∀ x ∈ expressions, ∃ s, inputs[x.1]? = some s ∧ x.2.inRange s = true) {i : Nat}
    {e : Expr} (hx : (i, e) ∈ expressions) {s : Schema} (hs : inputs[i]? = some s) :
    e.inRange s = true := by
  obtain ⟨s', hs', he⟩ := hin _ hx
  rw [hs] at hs'
  cases hs'
  exact he

/-- Every operator of a consistent plan whose expressions are in range demands
something of its inputs. -/
theorem exists_ofOperator {p : Plan} {id : Nat} {n : Node} {inputs : List Schema}
    {natural : Schema} (hc : p.Checked id n inputs natural)
    (hin : ∀ x ∈ n.op.expressions, ∃ s, inputs[x.1]? = some s ∧ x.2.inRange s = true)
    (name : String) (t : Trackers) {required : List Nat}
    (hreq : ∀ m ∈ required, m < natural.length) :
    ∃ ds, ofOperator name t n.op inputs required = .ok ds := by
  have hlen : inputs.length = n.inputs.length := (mapM_ok.mp hc.schemas).length_eq.symm
  have htakes := hc.takes
  have hnat := hc.natural_eq
  have hmapped := hc.mapped
  rw [← hlen] at htakes
  have hfirst : n.op.arity = (1, some 1) → ∃ s, inputs[0]? = some s := fun ha =>
    ⟨_, List.getElem?_eq_getElem (by have := htakes.least; rw [ha] at this; exact this)⟩
  generalize n.op = op at hin htakes hnat hmapped hfirst ⊢
  cases op with
  | load | store | distinct | stream => exact ⟨_, rfl⟩
  | limit count =>
    obtain ⟨s, hs⟩ := hfirst rfl
    exact exists_onFirst hs (exists_ofRange required 0)
  | filter e =>
    obtain ⟨s, hs, he⟩ := hin (0, e) (List.mem_singleton.mpr rfl)
    exact exists_onFirst hs (exists_both (exists_ofRange required 0) (exists_ofExpr he))
  | orderBy o =>
    obtain ⟨s, hs⟩ := hfirst rfl
    exact exists_onFirst hs (exists_both (exists_ofRange required 0)
      (exists_ofKeys fun e he => inRange_at hin (List.mem_map.mpr ⟨e, he, rfl⟩) hs))
  | split ps =>
    obtain ⟨s, hs⟩ := hfirst rfl
    exact exists_onFirst hs (exists_both (exists_ofRange required 0)
      (exists_collect fun e he =>
        exists_ofExpr (inRange_at hin (List.mem_map.mpr ⟨e, he, rfl⟩) hs)))
  | forEach items =>
    obtain ⟨s, hs⟩ := hfirst rfl
    obtain ⟨rest, rfl⟩ : ∃ rest, inputs = s :: rest := by
      cases inputs with
      | nil => cases hs
      | cons x rest => cases hs; exact ⟨rest, rfl⟩
    obtain ⟨fss, hfss, -⟩ := bind_ok hnat
    simp only [ofOperator]
    refine exists_onFirst hs ?_
    simp only [Items.ranges, hfss, bind, Except.bind]
    exact exists_collect fun x hx => exists_ofItem
      (inRange_at hin (List.mem_map.mpr ⟨x.1, (List.of_mem_zip hx).1, rfl⟩) hs) required x.2
  | cross => exact exists_mapM_ok fun x _ => exists_ofRange required x.2
  | join j =>
    refine exists_mapM_ok fun x hx => exists_both (exists_ofRange required x.1.2)
      (exists_ofKeys fun e he => ?_)
    obtain ⟨⟨s, start⟩, i⟩ := x
    have hs := offsets_getElem? (List.mem_zipIdx_iff_getElem?.mp hx)
    cases hks : j.keys[i]? with
    | none =>
      simp only [hks] at he
      cases he
    | some ks =>
      simp only [hks] at he
      exact inRange_at hin (Operator.mem_keyed.mpr ⟨ks, hks, he⟩) hs
  | cogroup c =>
    refine exists_mapM_ok fun x hx => ?_
    obtain ⟨s, i⟩ := x
    have hs := List.mem_zipIdx_iff_getElem?.mp hx
    cases hks : c.keys[i]? with
    | none => exact ⟨empty, by simp only [hks]⟩
    | some ks =>
      simp only [hks]
      refine exists_ofGroup
        (fun e he => inRange_at hin (Operator.mem_keyed.mpr ⟨ks, hks, he⟩) hs) fun hmem => ?_
      have hlt := hreq _ hmem
      cases hnat
      simp only [CoGroup.schema, List.length_cons, List.length_zipWith, CoGroup.bagPosition] at hlt
      omega
  | union u =>
    refine exists_mapM_ok fun x hx => ?_
    obtain ⟨s, i⟩ := x
    have hs := List.mem_zipIdx_iff_getElem?.mp hx
    cases hm : u.mappings[i]? with
    | none => exact ⟨empty, by simp only [hm]⟩
    | some mapping =>
      simp only [hm]
      cases hnat
      have hmapping := hmapped u rfl (mapping, s)
        (List.mem_of_getElem? (List.getElem?_zip_eq_some.mpr ⟨hm, hs⟩))
      exact exists_ofMapping hreq fun _ _ => Plan.mapped_lt hmapping

end Demand

/-! ## Nodes -/

/-- What is required of a node can be said of its natural output. -/
theorem Node.exists_naturalRequired {id : Nat} {n : Node} {natural : Schema} {r : Required}
    (hpart : Plan.exposedPart id n natural = .ok n.schema) (hproper : r.Proper)
    (hbelow : r.Below n.schema.length) :
    ∃ r' required, n.naturalRequired r = .ok r' ∧ r'.resolve natural.length = .ok required := by
  have hexp := exposes_of_part hpart
  cases hp : n.projection with
  | none =>
    obtain ⟨required, hreq⟩ := Required.exists_resolve hbelow
    rw [← natural_of_part hpart hp] at hreq
    exact ⟨r, required, by simp only [naturalRequired, hp], hreq⟩
  | some ps =>
    have hps : n.exposed = ps := by rw [exposed, hp]; rfl
    rw [hps] at hexp
    obtain ⟨r', hr'⟩ : ∃ r', n.naturalRequired r = .ok r' := by
      unfold naturalRequired
      rw [hp]
      cases r with
      | none => exact ⟨_, rfl⟩
      | all => exact ⟨_, rfl⟩
      | positions qs =>
        refine exists_pure (exists_mapM_ok fun q hq => ?_)
        have hlt : q < ps.length := by rw [hexp.length_eq]; exact hbelow q hq
        rw [List.getElem?_eq_getElem hlt]
        exact ⟨_, rfl⟩
    refine ⟨r', ?_⟩
    obtain ⟨-, hcontains⟩ := naturalRequired_ok hproper hr'
    have hbelow' : r'.Below natural.length := by
      cases r' with
      | none => trivial
      | all => trivial
      | positions ms =>
        intro m hm
        obtain ⟨e, -, he⟩ := (hcontains ps hp m).mp (Required.mem_of_contains.mpr hm)
        obtain ⟨f, -, hf⟩ := getElem?_of_left hexp he
        exact (List.getElem?_eq_some_iff.mp hf).1
    obtain ⟨required, hreq⟩ := Required.exists_resolve hbelow'
    exact ⟨required, hr', hreq⟩

namespace Plan

variable {p : Plan}

theorem exists_inputDemands (hcheck : p.check = .ok ()) (hin : p.inRange = true) {id : Nat}
    {n : Node} (hn : p.nodes[id]? = some n) {r : Required} (hproper : r.Proper)
    (hbelow : r.Below n.schema.length) (t : Trackers) :
    ∃ ds, p.inputDemands id r t = .ok ds := by
  obtain ⟨inputs, natural, hc⟩ := check_ok.mp hcheck id n hn
  obtain ⟨r', required, hr', hreq⟩ := Node.exists_naturalRequired hc.exposed hproper hbelow
  obtain ⟨-, hb, -⟩ := Node.mem_required hproper hr' hreq hc.exposed
  obtain ⟨ds, hds⟩ := Demand.exists_ofOperator hc
    (inRange_at hin (List.mem_of_getElem? hn) hc.schemas) n.displayName t hb
  rw [inputDemands_eq hn hc, hr']
  simp only [bind, Except.bind, hreq]
  exact ⟨ds, hds⟩

end Plan

namespace Solver

variable {p : Plan} {retain : Bool}

/-- Only nodes of the plan wait to be visited. -/
def State.Waits (p : Plan) (s : State) : Prop := ∀ id ∈ s.pending, id < p.nodes.length

theorem lt_of_mem_numbers (hp : p.InPlace) {id : Nat} (h : id ∈ p.numbers) :
    id < p.nodes.length := by
  rcases List.mem_append.mp h with h | h
  · exact List.mem_range.mp h
  · obtain ⟨n, hn, rfl⟩ := List.mem_map.mp h
    obtain ⟨i, hi⟩ := List.mem_iff_getElem?.mp hn
    rw [hp i n hi]
    exact (List.getElem?_eq_some_iff.mp hi).1

theorem waits_visit (hcheck : p.check = .ok ()) {s s' : State} (hs : s.Waits p) {id : Nat}
    (h : visit p retain s id = .ok s') : s'.Waits p := by
  intro x hx
  rcases (putsBack_visit h).mem x hx with hx | hx
  · exact hs x hx
  · exact lt_of_mem_numbers (Plan.inPlace_of_check hcheck) hx

/-- A node can be visited in any state that the solver comes to. -/
theorem exists_visit (hcheck : p.check = .ok ()) (hin : p.inRange = true) {s : State}
    (hs : s.Invariant p retain) {id : Nat} (hid : id < p.nodes.length) (rest : List Nat) :
    ∃ s', visit p retain { s with pending := rest } id = .ok s' := by
  obtain ⟨n, hn⟩ : ∃ n, p.nodes[id]? = some n := ⟨_, List.getElem?_eq_getElem hid⟩
  have hsound : State.Sound p { s with pending := rest } :=
    ⟨hs.sound.length, hs.sound.proper, hs.sound.below⟩
  have hkept := hsound.retaining hn retain
  obtain ⟨ds, hds⟩ := Plan.exists_inputDemands hcheck hin hn (hkept.proper id) (hkept.below id n hn)
    s.trackers
  exact ⟨_, visit_ok.mpr ⟨n, ds, hn, hds, rfl⟩⟩

/-- Visits succeed until none is left. -/
theorem exists_run (hcheck : p.check = .ok ()) (hin : p.inRange = true) {c : Scope}
    {s : State} (hfits : s.Fits p c) (hc : c.Covers p) (hs : s.Invariant p retain)
    (hw : s.Waits p) : ∃ s', run p retain c hc s hfits = .ok s' := by
  induction s, hfits using run.induct p retain c hc with
  | case1 s hfits hp => exact ⟨s, run_of_reaches hfits (.done hp)⟩
  | case2 s hfits id rest hp e hv =>
    obtain ⟨s', hs'⟩ := exists_visit hcheck hin hs (hw id (by rw [hp]; exact List.mem_cons_self ..))
      rest
    rw [hv] at hs'
    cases hs'
  | case3 s hfits id rest hp s₁ hv ih =>
    obtain ⟨hs₁, -, -⟩ := invariant_visit (Plan.inPlace_of_check hcheck) hs hp hv
    have hw₁ : s₁.Waits p := waits_visit hcheck
      (fun x hx => hw x (by rw [hp]; exact List.mem_cons_of_mem _ hx)) hv
    obtain ⟨s', hs'⟩ := ih hs₁ hw₁
    exact ⟨s', run_of_reaches hfits (.visit hp hv (reaches_of_run hs'))⟩

end Solver

/-- The analysis of a consistent plan whose expressions are in range. -/
theorem Plan.exists_solve {p : Plan} (hcheck : p.check = .ok ()) (hin : p.inRange = true)
    (t : Trackers) (retain : Bool) : ∃ r, p.solve t retain = .ok r := by
  obtain ⟨s, hs⟩ := Solver.exists_run hcheck hin (p.start_fits t)
    (p.scope_covers _) (Solver.invariant_start p t retain) (fun id hid => by
      simpa [Solver.start] using hid)
  exact ⟨_, by simp only [Plan.solve, hs]; rfl⟩

end Dataflow
