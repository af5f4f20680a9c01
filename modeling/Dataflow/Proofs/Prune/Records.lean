import Dataflow.Proofs.Requirement.Closure
import Dataflow.Proofs.Traversal
import Dataflow.Prune.Pass

/-!
# What a run records on the loads

After narrowing, a run offers projections and reports what was lost. Both leave
the plan as it is except for what is recorded on its loads
(`Node.Rerecorded`). What is recorded depends on the source, the exposed
positions and the tracked keys only, so that a run which finds the same keys
records the same once more and has nothing to report (`offerNode_again`,
`reportNode_again`).
-/

namespace Dataflow

open List (Forall₂)

/-! ## Nodes -/

/-- A node, and the same with something else recorded on a load. -/
inductive Node.Rerecorded (n : Node) : Node → Prop
  | same : Rerecorded n n
  | load {l l' : Load} (hn : n.op = .load l) (h : l'.source = l.source) :
      Rerecorded n { n with op := .load l' }

namespace Node.Rerecorded

variable {n n' n'' : Node}

theorem trans (h : n.Rerecorded n') (h' : n'.Rerecorded n'') : n.Rerecorded n'' := by
  cases h' with
  | same => exact h
  | load hn' hl' =>
    cases h with
    | same => exact .load hn' hl'
    | load hn hl =>
      cases hn'
      exact .load hn (hl'.trans hl)

theorem id_eq (h : n.Rerecorded n') : n'.id = n.id := by cases h <;> rfl

theorem inputs_eq (h : n.Rerecorded n') : n'.inputs = n.inputs := by cases h <;> rfl

theorem schema_eq (h : n.Rerecorded n') : n'.schema = n.schema := by cases h <;> rfl

theorem projection_eq (h : n.Rerecorded n') : n'.projection = n.projection := by cases h <;> rfl

theorem exposed_eq (h : n.Rerecorded n') : n'.exposed = n.exposed := by
  rw [exposed, exposed, h.projection_eq, h.schema_eq]

theorem displayName_eq (h : n.Rerecorded n') : n'.displayName = n.displayName := by
  cases h with
  | same => rfl
  | @load l l' hn hl =>
    unfold displayName
    rw [hn]
    cases n.label with
    | some label => rfl
    | none => exact congrArg Source.location hl

end Node.Rerecorded

/-- The positions that a load exposes exist at its source. -/
def Node.ExposesSource (n : Node) : Prop :=
  ∀ l, n.op = .load l → ∀ p ∈ n.exposed, p < l.source.schema.length

theorem Node.ExposesSource.rerecorded {n n' : Node} (h : n.ExposesSource)
    (hr : n.Rerecorded n') : n'.ExposesSource := by
  intro l' hl' p hp
  rw [hr.exposed_eq] at hp
  cases hr with
  | same => exact h l' hl' p hp
  | load hn hl =>
    cases hl'
    rw [hl]
    exact h _ hn p hp

/-! ## Offers -/

namespace Pushdown

variable {mapKeys : Option (Tracker String)} {id : Nat} {n n' : Node} {o : Offers}

/-- How the offer to the reader of a load ends. -/
def answerOf (n : Node) (l : Load) (reader : Reader) (mapKeys : Option (Tracker String)) :
    Except Error PushdownStatus :=
  match reader.answer? with
  | none => .ok .unsupported
  | some answer => do
    let projection ← projectionOf l n.exposed mapKeys
    return (statusOf reader n.displayName (answer projection)).1

theorem offerLoad_ok {l : Load} {reader : Reader} :
    (∃ o, offerLoad id n l reader mapKeys = .ok (n', o)) ↔
      ∃ status, answerOf n l reader mapKeys = .ok status ∧
        n' = { n with op := .load { l with pushdown := some status } } := by
  unfold offerLoad answerOf
  cases hr : reader.answer? with
  | none =>
    constructor
    · rintro ⟨o, ho⟩
      cases ho
      exact ⟨_, rfl, rfl⟩
    · rintro ⟨status, hs, rfl⟩
      cases hs
      exact ⟨_, rfl⟩
  | some answer =>
    simp only
    cases hproj : projectionOf l n.exposed mapKeys with
    | error e =>
      constructor
      · rintro ⟨o, ho⟩
        cases ho
      · rintro ⟨status, hs, -⟩
        cases hs
    | ok projection =>
      constructor
      · rintro ⟨o, ho⟩
        cases ho
        exact ⟨_, rfl, rfl⟩
      · rintro ⟨status, hs, rfl⟩
        cases hs
        exact ⟨_, rfl⟩

/-- What an offer leaves behind, whatever the number of the node. -/
theorem offerNode_ok :
    (∃ o, offerNode id n mapKeys = .ok (n', o)) ↔
      (∃ l reader status, n.op = .load l ∧ l.source.reader = some reader ∧
        answerOf n l reader mapKeys = .ok status ∧
        n' = { n with op := .load { l with pushdown := some status } }) ∨
      ((∀ l, n.op = .load l → l.source.reader = none) ∧ n' = n) := by
  unfold offerNode
  cases hn : n.op with
  | load l =>
    cases hr : l.source.reader with
    | none =>
      simp only [hr]
      constructor
      · rintro ⟨o, ho⟩
        cases ho
        exact Or.inr ⟨fun l' hl' => by cases hl'; exact hr, rfl⟩
      · rintro (⟨l', reader, _, hl', hr', -, -⟩ | ⟨-, rfl⟩)
        · cases hl'
          rw [hr] at hr'
          cases hr'
        · exact ⟨_, rfl⟩
    | some reader =>
      simp only [hr]
      rw [offerLoad_ok]
      constructor
      · rintro ⟨status, hs, rfl⟩
        exact Or.inl ⟨l, reader, status, rfl, hr, hs, rfl⟩
      · rintro (⟨l', reader', status, hl', hr', hs, rfl⟩ | ⟨hnone, -⟩)
        · cases hl'
          rw [hr] at hr'
          cases hr'
          exact ⟨status, hs, rfl⟩
        · have := hnone l rfl
          rw [hr] at this
          cases this
  | _ =>
    constructor
    · rintro ⟨o, ho⟩
      cases ho
      exact Or.inr ⟨nofun, rfl⟩
    · rintro (⟨l', _, _, hl', -⟩ | ⟨-, rfl⟩)
      · cases hl'
      · exact ⟨_, rfl⟩

theorem rerecorded_of_offer (h : offerNode id n mapKeys = .ok (n', o)) : n.Rerecorded n' := by
  rcases offerNode_ok.mp ⟨o, h⟩ with ⟨l, _, _, hl, -, -, rfl⟩ | ⟨-, rfl⟩
  · exact .load hl rfl
  · exact .same

theorem exists_projectionOf (mapKeys : Option (Tracker String)) {l : Load} {exposed : List Nat}
    (h : ∀ p ∈ exposed, p < l.source.schema.length) :
    ∃ projection, projectionOf l exposed mapKeys = .ok projection := by
  refine exists_pure (exists_mapM_ok fun p hp => ?_)
  simp only [Schema.fieldAt, List.getElem?_eq_getElem (h p hp)]
  exact ⟨_, rfl⟩

theorem exists_offer (id : Nat) (mapKeys : Option (Tracker String)) (h : n.ExposesSource) :
    ∃ n' o, offerNode id n mapKeys = .ok (n', o) := by
  by_cases hl : ∃ l reader, n.op = .load l ∧ l.source.reader = some reader
  · obtain ⟨l, reader, hl, hr⟩ := hl
    obtain ⟨status, hs⟩ : ∃ status, answerOf n l reader mapKeys = .ok status := by
      unfold answerOf
      cases reader.answer? with
      | none => exact ⟨_, rfl⟩
      | some answer =>
        obtain ⟨projection, hp⟩ := exists_projectionOf mapKeys (h l hl)
        exact ⟨_, by simp only [hp]; rfl⟩
    exact ⟨_, offerNode_ok.mpr (Or.inl ⟨l, reader, status, hl, hr, hs, rfl⟩)⟩
  · refine ⟨n, offerNode_ok.mpr (Or.inr ⟨fun l hn => ?_, rfl⟩)⟩
    cases hr : l.source.reader with
    | none => rfl
    | some reader => exact absurd ⟨l, reader, hn, hr⟩ hl

/-- Offers to several nodes are one to the first of them and those to the rest. -/
theorem offerNodes_cons {n : Node} {rest nodes' : List Node} {os : Offers}
    (h : offerNodes mapKeys id (n :: rest) = (nodes', os, .ok ())) :
    ∃ n' o nodes₁ os₁, offerNode id n mapKeys = .ok (n', o) ∧
      offerNodes mapKeys (id + 1) rest = (nodes₁, os₁, .ok ()) ∧ nodes' = n' :: nodes₁ ∧
      os = ⟨o.outcomes ++ os₁.outcomes, o.offers ++ os₁.offers, o.logs ++ os₁.logs⟩ := by
  rw [offerNodes] at h
  split at h
  · cases h
  · rename_i n' o ho
    cases hrest : offerNodes mapKeys (id + 1) rest with
    | mk nodes₁ r =>
      obtain ⟨os₁, result⟩ := r
      rw [hrest] at h
      cases h
      exact ⟨n', o, nodes₁, os₁, ho, rfl, rfl, rfl⟩

theorem offerNodes_ok {nodes nodes' : List Node} {os : Offers}
    (h : offerNodes mapKeys id nodes = (nodes', os, .ok ())) :
    Forall₂ (fun n n' => ∃ id o, offerNode id n mapKeys = .ok (n', o)) nodes nodes' := by
  induction nodes generalizing id nodes' os with
  | nil => cases h; exact .nil
  | cons n rest ih =>
    obtain ⟨n', o, nodes₁, os₁, ho, hrest, rfl, -⟩ := offerNodes_cons h
    exact .cons ⟨id, o, ho⟩ (ih hrest)

/-- Offers that succeed one by one succeed together. -/
theorem exists_offers {nodes nodes' : List Node}
    (h : Forall₂ (fun n n' => ∀ id, ∃ o, offerNode id n mapKeys = .ok (n', o)) nodes nodes')
    (id : Nat) : ∃ os, offerNodes mapKeys id nodes = (nodes', os, .ok ()) := by
  induction h generalizing id with
  | nil => exact ⟨_, rfl⟩
  | cons hn _ ih =>
    obtain ⟨o, ho⟩ := hn id
    obtain ⟨os, hos⟩ := ih (id + 1)
    exact ⟨_, by rw [offerNodes, ho, hos]⟩

end Pushdown

/-! ## Reports -/

namespace Diagnostics

variable {mapKeys : Option (Tracker String)} {n n' : Node} {before : List Nat}
  {ds : List Diagnostic}

/-- The keys that a run records on a load. -/
def keysOf (source : Schema) (exposed : List Nat) (mapKeys : Option (Tracker String)) :
    Except Error (Option MapKeys) :=
  match mapKeys with
  | none => .ok none
  | some tracker => do
    let fields ← narrowedKeys source exposed tracker
    return if fields.isEmpty then none else some fields

/-- A load after its report has the keys that were found recorded. -/
theorem reportNode_load {l : Load} (hn : n.op = .load l) :
    (∃ ds, reportNode n before mapKeys = .ok (n', ds)) ↔
      ∃ keys, keysOf l.source.schema n.exposed mapKeys = .ok keys ∧
        n' = { n with op := .load { l with mapKeys := keys } } := by
  unfold reportNode
  rw [hn]
  simp only [reportLoad, keysOf]
  cases mapKeys with
  | none =>
    constructor
    · rintro ⟨ds, h⟩
      cases h
      exact ⟨none, rfl, rfl⟩
    · rintro ⟨keys, hk, rfl⟩
      cases hk
      exact ⟨_, rfl⟩
  | some tracker =>
    simp only
    cases hf : narrowedKeys l.source.schema n.exposed tracker with
    | error e =>
      constructor
      · rintro ⟨ds, h⟩
        cases h
      · rintro ⟨keys, hk, -⟩
        cases hk
    | ok fields =>
      simp only [bind, Except.bind, pure, Except.pure]
      by_cases hempty : fields.isEmpty = true
      · simp only [hempty, if_true]
        constructor
        · rintro ⟨ds, h⟩
          cases h
          exact ⟨none, rfl, rfl⟩
        · rintro ⟨keys, hk, rfl⟩
          cases hk
          exact ⟨_, rfl⟩
      · simp only [hempty, Bool.false_eq_true, if_false]
        have hsame : l.mapKeys = some fields →
            { n with op := .load { l with mapKeys := some fields } } = n := by
          intro hkeys
          rw [← hkeys, ← hn]
        constructor
        · rintro ⟨ds, h⟩
          refine ⟨some fields, rfl, ?_⟩
          by_cases hkeys : l.mapKeys = some fields
          · rw [if_pos hkeys] at h
            cases h
            exact (hsame hkeys).symm
          · rw [if_neg hkeys] at h
            cases h
            rfl
        · rintro ⟨keys, hk, rfl⟩
          cases hk
          by_cases hkeys : l.mapKeys = some fields
          · exact ⟨lostColumns n before, by rw [if_pos hkeys, hsame hkeys]⟩
          · exact ⟨lostColumns n before ++ [.mapKeysRequired n.displayName fields],
              by rw [if_neg hkeys]⟩

theorem reportNode_other (hn : ∀ l, n.op ≠ .load l) :
    reportNode n before mapKeys = .ok (n, []) := by
  unfold reportNode
  split
  · rename_i l hl; exact absurd hl (hn l)
  · rfl

theorem rerecorded_of_report (h : reportNode n before mapKeys = .ok (n', ds)) :
    n.Rerecorded n' := by
  by_cases hl : ∃ l, n.op = .load l
  · obtain ⟨l, hl⟩ := hl
    obtain ⟨keys, -, rfl⟩ := (reportNode_load hl).mp ⟨ds, h⟩
    exact .load hl rfl
  · rw [reportNode_other fun l hn => hl ⟨l, hn⟩] at h
    cases h
    exact .same

theorem mem_ascending {ps : List Nat} {p : Nat} (h : p ∈ ascending ps) : p ∈ ps := by
  have hback : ∀ (x : Nat) (ys : List Nat), ∀ y ∈ insertBack (fun a b => decide (a < b)) x ys,
      y = x ∨ y ∈ ys := by
    intro x ys
    induction ys with
    | nil => intro y hy; exact Or.inl (List.mem_singleton.mp hy)
    | cons z zs ih =>
      intro y hy
      unfold insertBack at hy
      split at hy
      · rcases List.mem_cons.mp hy with rfl | hy
        · exact Or.inr (List.mem_cons_self ..)
        · exact (ih y hy).imp id (List.mem_cons_of_mem _)
      · exact List.mem_cons.mp hy
  have hfold : ∀ (xs acc : List Nat),
      ∀ y ∈ xs.foldl (fun acc x => insertBack (fun a b => decide (a < b)) x acc) acc,
        y ∈ xs ∨ y ∈ acc := by
    intro xs
    induction xs with
    | nil => exact fun acc y hy => Or.inr hy
    | cons x xs ih =>
      intro acc y hy
      rcases ih _ y hy with hy | hy
      · exact Or.inl (List.mem_cons_of_mem _ hy)
      · rcases hback x acc y hy with rfl | hy
        · exact Or.inl (List.mem_cons_self ..)
        · exact Or.inr hy
  rcases hfold ps [] p (List.mem_reverse.mp h) with h | h
  · exact h
  · cases h

theorem exists_keysOf (mapKeys : Option (Tracker String)) {source : Schema} {exposed : List Nat}
    (h : ∀ p ∈ exposed, p < source.length) : ∃ keys, keysOf source exposed mapKeys = .ok keys := by
  unfold keysOf
  cases mapKeys with
  | none => exact ⟨_, rfl⟩
  | some tracker =>
    refine exists_pure (exists_pure (exists_mapM_ok fun p hp => ?_))
    simp only [Schema.fieldAt, List.getElem?_eq_getElem (h p (mem_ascending hp)), bind, Except.bind]
    split <;> exact ⟨_, rfl⟩

theorem exists_reportNode (mapKeys : Option (Tracker String)) (h : n.ExposesSource)
    (before : List Nat) : ∃ n' ds, reportNode n before mapKeys = .ok (n', ds) := by
  by_cases hl : ∃ l, n.op = .load l
  · obtain ⟨l, hl⟩ := hl
    obtain ⟨keys, hkeys⟩ := exists_keysOf mapKeys (h l hl)
    exact ⟨_, (reportNode_load hl).mpr ⟨keys, hkeys, rfl⟩⟩
  · exact ⟨n, [], reportNode_other fun l hn => hl ⟨l, hn⟩⟩

theorem lostColumns_self (n : Node) : lostColumns n n.exposed = [] := by
  have hnone : (n.exposed.filter fun p => !n.exposed.contains p) = [] :=
    List.filter_eq_nil_iff.mpr fun p hp => by simp [hp]
  simp only [lostColumns, hnone]
  rfl

/-- A load on which the keys that are found are recorded already has nothing to
report. -/
theorem reportNode_again {l : Load} (hn : n.op = .load l)
    (hkeys : keysOf l.source.schema n.exposed mapKeys = .ok l.mapKeys) :
    reportNode n n.exposed mapKeys = .ok (n, []) := by
  have hself : ∀ keys, l.mapKeys = keys →
      { n with op := .load { l with mapKeys := keys } } = n := by
    rintro keys rfl
    rw [← hn]
  unfold reportNode
  rw [hn]
  simp only [reportLoad, lostColumns_self]
  cases mapKeys with
  | none => rw [hself none (Except.ok.inj hkeys).symm]; rfl
  | some tracker =>
    obtain ⟨fields, hfields, hkeys⟩ := bind_ok hkeys
    have hkeys := (Except.ok.inj hkeys).symm
    simp only [hfields, bind, Except.bind]
    split
    · rename_i hempty
      rw [if_pos hempty] at hkeys
      rw [hself none hkeys]
      rfl
    · rename_i hsome
      rw [if_neg hsome] at hkeys
      rw [if_pos hkeys]
      rfl

/-! ## All loads -/

variable {p p' : Plan} {entries : List (Nat × List Nat)}

/-- A report on several loads is one on the first of them and one on the rest. -/
theorem report_cons {id : Nat} {rest : List (Nat × List Nat)}
    (h : report mapKeys ((id, before) :: rest) p = (p', .ok ds)) :
    ∃ n n' d ds', p.nodes[id]? = some n ∧ reportNode n before mapKeys = .ok (n', d) ∧
      report mapKeys rest ⟨p.nodes.set id n'⟩ = (p', .ok ds') ∧ ds = d ++ ds' := by
  rw [report] at h
  split at h
  · cases h
  · rename_i n' d hd
    obtain ⟨n, hn, hnode⟩ := bind_ok hd
    cases hrest : report mapKeys rest ⟨p.nodes.set id n'⟩ with
    | mk p₁ result =>
      rw [hrest] at h
      cases result with
      | error e => cases h
      | ok ds' =>
        cases h
        exact ⟨n, n', d, ds', Plan.node_ok.mp hn, hnode, hrest, rfl⟩

theorem report_ok (h : report mapKeys entries p = (p', .ok ds))
    (hnodup : (entries.map Prod.fst).Nodup) :
    p'.nodes.length = p.nodes.length ∧ ∀ i n, p.nodes[i]? = some n →
      ∃ n', p'.nodes[i]? = some n' ∧ (i ∉ entries.map Prod.fst → n' = n) ∧
        ∀ before, (i, before) ∈ entries → ∃ d, reportNode n before mapKeys = .ok (n', d) := by
  induction entries generalizing p ds with
  | nil => cases h; exact ⟨rfl, fun i n hn => ⟨n, hn, fun _ => rfl, nofun⟩⟩
  | cons x rest ih =>
    obtain ⟨id, before⟩ := x
    obtain ⟨hfresh, hnodup⟩ := List.nodup_cons.mp hnodup
    obtain ⟨n₀, m, d, ds₁, hn₀, hrep, hrest, rfl⟩ := report_cons h
    obtain ⟨hlen, hall⟩ := ih hrest hnodup
    have hlt := (List.getElem?_eq_some_iff.mp hn₀).1
    refine ⟨by rw [hlen, List.length_set], fun i n hn => ?_⟩
    by_cases hi : i = id
    · subst hi
      rw [hn] at hn₀
      cases hn₀
      obtain ⟨n', hn', hsame, -⟩ := hall i m (by simp [hlt])
      rw [hsame hfresh] at hn'
      refine ⟨m, hn', fun hno => absurd (List.mem_cons_self ..) hno, fun b hb => ?_⟩
      rcases List.mem_cons.mp hb with heq | hb
      · cases heq
        exact ⟨d, hrep⟩
      · exact absurd (List.mem_map.mpr ⟨_, hb, rfl⟩) hfresh
    · obtain ⟨n', hn', hsame, hrep'⟩ := hall i n (by
        show (p.nodes.set id m)[i]? = _
        rw [List.getElem?_set_ne (Ne.symm hi)]
        exact hn)
      refine ⟨n', hn', fun hno => hsame fun hmem => hno (List.mem_cons_of_mem _ hmem),
        fun b hb => ?_⟩
      rcases List.mem_cons.mp hb with heq | hb
      · cases heq
        exact absurd rfl hi
      · exact hrep' b hb

theorem exists_report (mapKeys : Option (Tracker String)) (entries : List (Nat × List Nat))
    (hlt : ∀ x ∈ entries, x.1 < p.nodes.length)
    (h : ∀ n ∈ p.nodes, n.ExposesSource) :
    ∃ p' ds, report mapKeys entries p = (p', .ok ds) := by
  induction entries generalizing p with
  | nil => exact ⟨p, [], rfl⟩
  | cons x rest ih =>
    obtain ⟨id, before⟩ := x
    have hid : id < p.nodes.length := hlt _ (List.mem_cons_self ..)
    obtain ⟨n, hn⟩ : ∃ n, p.nodes[id]? = some n := ⟨_, List.getElem?_eq_getElem hid⟩
    have hsource := h n (List.mem_of_getElem? hn)
    obtain ⟨n', d, hrep⟩ := exists_reportNode mapKeys hsource before
    obtain ⟨p', ds, hrest⟩ := @ih ⟨p.nodes.set id n'⟩
      (fun x hx => by
        rw [List.length_set]
        exact hlt x (List.mem_cons_of_mem _ hx))
      (fun m hm => by
        rcases List.mem_or_eq_of_mem_set hm with hm | rfl
        · exact h m hm
        · exact hsource.rerecorded (rerecorded_of_report hrep))
    refine ⟨p', d ++ ds, ?_⟩
    have hstep : (do reportNode (← p.node id) before mapKeys) = .ok (n', d) := by
      rw [Plan.node_ok.mpr hn]
      exact hrep
    rw [report, hstep]
    simp only
    rw [hrest]
    rfl

theorem report_self (h : ∀ x ∈ entries, ∃ n, p.nodes[x.1]? = some n ∧
    reportNode n x.2 mapKeys = .ok (n, [])) : report mapKeys entries p = (p, .ok []) := by
  induction entries with
  | nil => rfl
  | cons x rest ih =>
    obtain ⟨id, before⟩ := x
    obtain ⟨n, hn, hrep⟩ := h _ (List.mem_cons_self ..)
    have hstep : (do reportNode (← p.node id) before mapKeys) = .ok (n, []) := by
      rw [Plan.node_ok.mpr hn]
      exact hrep
    have hset : p.nodes.set id n = p.nodes := by
      obtain ⟨hlt, rfl⟩ := List.getElem?_eq_some_iff.mp hn
      exact List.set_getElem_self hlt
    rw [report, hstep]
    simp only [hset]
    rw [ih fun y hy => h y (List.mem_cons_of_mem _ hy)]
    rfl

end Diagnostics

/-! ## Once more -/

theorem Pushdown.answerOf_congr {mapKeys : Option (Tracker String)} {n n' : Node} {l l' : Load}
    {reader : Reader} (h : n.Rerecorded n') (hl : l'.source = l.source) :
    answerOf n' l' reader mapKeys = answerOf n l reader mapKeys := by
  unfold answerOf projectionOf
  rw [h.exposed_eq, h.displayName_eq, hl]

/-- An offer that is repeated after a report leaves the node as it is. -/
theorem Pushdown.offerNode_again {mapKeys mapKeys' : Option (Tracker String)} {id : Nat}
    {n n₁ n₂ : Node} {o : Offers} {before : List Nat} {ds : List Diagnostic}
    (h : offerNode id n mapKeys = .ok (n₁, o))
    (hreport : Diagnostics.reportNode n₁ before mapKeys' = .ok (n₂, ds)) (id' : Nat) :
    ∃ o, offerNode id' n₂ mapKeys = .ok (n₂, o) := by
  have hre := Diagnostics.rerecorded_of_report hreport
  rcases offerNode_ok.mp ⟨o, h⟩ with ⟨l, reader, status, hl, hreader, hanswer, rfl⟩ | ⟨hnone, rfl⟩
  · obtain ⟨keys, -, rfl⟩ := (Diagnostics.reportNode_load rfl).mp ⟨ds, hreport⟩
    refine offerNode_ok.mpr (Or.inl ⟨_, reader, status, rfl, hreader, ?_, rfl⟩)
    refine Eq.trans ?_ hanswer
    exact answerOf_congr (.load hl rfl) rfl
  · refine offerNode_ok.mpr (Or.inr ⟨fun l₂ hl₂ => ?_, rfl⟩)
    cases hre with
    | same => exact hnone l₂ hl₂
    | load hl hsource =>
      cases hl₂
      rw [hsource]
      exact hnone _ hl

end Dataflow
