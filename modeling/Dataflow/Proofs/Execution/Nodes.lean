import Dataflow.Proofs.Execution.ItemRows
import Dataflow.Proofs.Narrowing.Nodes

/-!
# Nodes on narrowed rows

From narrowed inputs an operator computes what is left of its natural output
(`Operator.Narrowed.naturalRows`), and of that a node exposes what is left of
what it exposed before (`Node.Narrowed.projectRows`). The operators of which the
schemas alone do not say enough, because they depend on the tables, on the
widths of unnested rows or on the builder, have their hypotheses in
`Operator.Fed`.
-/

namespace Dataflow

open List (Forall₂)

variable {g : String → String} {t : Trackers} {restricted : Bool}

/-! ## Natural rows -/

open Run in
/-- What has to be known about the rows that come to an operator. -/
structure Operator.Fed (restricted : Bool) (T T' : Tables) (op op' : Operator)
    (ws : List (Slice g t)) (inputs : List (List Row)) : Prop where
  load : ∀ l l', op = .load l → op' = .load l' →
    Forall₂ (Row.Kept t restricted l.source.schema (.all l.source.schema.length)) (loadRows T l)
      (loadRows T' l')
  items : ∀ items w rows, op = .forEach items → ws = [w] → inputs = [rows] → ∀ row ∈ rows,
    ∀ item ∈ items, ∀ fs out, item.fields w.old = .ok fs → itemRows w.old row item = .ok out →
      ∀ r ∈ out, r.length = fs.length
  bags : ∀ c, op = .cogroup c → c.bags.length = ws.length
  union : ∀ u, op = .union u → (∀ m ∈ u.mappings, m.length = u.fields.length) ∧
    ∀ row ∈ unionRows u inputs, Value.rowConforms row u.fields = true

namespace Run

theorem mem_distinctRows {rows : List Row} {row : Row} (h : row ∈ distinctRows rows) :
    row ∈ rows := by
  have hmain : ∀ (rows seen : List Row), row ∈ rows.foldl (fun seen row =>
      if seen.any fun r => Value.sameRow r row then seen else seen ++ [row]) seen →
      row ∈ seen ∨ row ∈ rows := by
    intro rows
    induction rows with
    | nil => exact fun seen h => Or.inl h
    | cons r rows ih =>
      intro seen h
      rcases ih _ h with h | h
      · dsimp only at h
        split at h
        · exact Or.inl h
        · rcases List.mem_append.mp h with h | h
          · exact Or.inl h
          · rw [List.mem_singleton.mp h]
            exact Or.inr (List.mem_cons_self ..)
      · exact Or.inr (List.mem_cons_of_mem _ h)
  exact (hmain rows [] h).resolve_left List.not_mem_nil

theorem fitRow_length (width : Nat) (row : Row) : (fitRow width row).length = width := by
  rw [fitRow, List.length_append, List.length_take, List.length_replicate]
  omega

/-- A key of an operator is one of its expressions. -/
theorem keys_exact {ws : List (Slice g t)} {keys : List (List Expr)}
    (hx : ∀ x ∈ Operator.keyed keys, ∀ w, ws[x.1]? = some w → x.2.reads.Exact w) :
    ∀ (i : Nat) ks w, keys[i]? = some ks → ws[i]? = some w → ∀ e ∈ ks, e.reads.Exact w :=
  fun i ks w hks hw e he => hx (i, e) (Operator.mem_keyed.mpr ⟨ks, hks, he⟩) w hw

end Run

open Run in
/-- The natural rows of an operator, and what is left of them. -/
theorem Operator.Narrowed.naturalRows {required : List Nat} {op op' : Operator}
    {ws : List (Slice g t)} {natural : Schema} {cols : Columns}
    (h : op.Narrowed required op' ws natural cols) (hx : op.Exact ws) {T T' : Tables}
    {inputs inputs' : List (List Row)} (hrows : Along (Slice.Rows restricted) ws inputs inputs')
    (hfed : Operator.Fed restricted T T' op op' ws inputs) {id id' : Nat} {out : List Row}
    (hout : Run.naturalRows T id op (ws.map Slice.old) inputs = .ok out) :
    ∃ out', Run.naturalRows T' id' op' (ws.map Slice.new) inputs' = .ok out' ∧
      Forall₂ (Row.Kept t restricted natural cols) out out' := by
  -- The rows of a single input.
  have hone : ∀ {w : Slice g t}, Along (Slice.Rows restricted) [w] inputs inputs' →
      ∃ rows rows', inputs = [rows] ∧ inputs' = [rows'] ∧ w.Rows restricted rows rows' := by
    intro w hw
    cases hw with
    | cons hw hrest =>
      cases hrest
      exact ⟨_, _, rfl, rfl, hw⟩
  cases h with
  | load hl =>
    cases hout
    exact ⟨_, rfl, hfed.load _ _ rfl rfl⟩
  | store =>
    cases hout
    exact ⟨_, rfl, .nil⟩
  | @forEach w items items' _ _ h =>
    obtain ⟨rows, rows', rfl, rfl, hw⟩ := hone hrows
    exact h.forEachRows (fun item hitem => hx (0, item.expr)
      (List.mem_map.mpr ⟨item, hitem, rfl⟩) w rfl) hw (hfed.items items w rows rfl rfl rfl) hout
  | filter h =>
    obtain ⟨rows, rows', rfl, rfl, hw⟩ := hone hrows
    exact filterRows_kept h (hx _ (List.mem_singleton.mpr rfl) _ rfl) hw hout
  | join keys same =>
    obtain ⟨sides, hsides, hout⟩ := bind_ok hout
    cases hout
    obtain ⟨sides', hsides', hsided⟩ := keyedSides_kept keys (keys_exact hx) hrows hsides
    refine ⟨_, ?_, joinRows_kept hsided _⟩
    show (keyedSides _ inputs' >>= fun sides => _) = _
    rw [hsides', same]
    rfl
  | @cogroup ws c c' h =>
    obtain ⟨sides, hsides, hout⟩ := bind_ok hout
    cases hout
    obtain ⟨sides', hsides', hsided⟩ := keyedSides_kept h.keys (keys_exact hx) hrows hsides
    refine ⟨_, ?_, groupRows_kept hsided (hfed.bags c rfl) c.inner⟩
    show (keyedSides _ inputs' >>= fun sides => _) = _
    rw [hsides', h.same]
    rfl
  | cross =>
    cases hout
    exact ⟨_, rfl, product_kept hrows⟩
  | @union ws u u' h =>
    cases hout
    obtain ⟨hm, hconf⟩ := hfed.union u rfl
    exact ⟨_, rfl, unionRows_kept h hm hrows hconf⟩
  | distinct h =>
    obtain ⟨rows, rows', rfl, rfl, hw⟩ := hone hrows
    cases hout
    obtain rfl := rows_eq_of_whole h hw
    refine ⟨_, rfl, List.forall₂_same.mpr fun row hrow => ?_⟩
    exact List.forall₂_same.mp hw row (mem_distinctRows hrow)
  | orderBy keys same =>
    obtain ⟨rows, rows', rfl, rfl, hw⟩ := hone hrows
    exact sortRows_kept keys same (fun e he => hx (0, e) (List.mem_map.mpr ⟨e, he, rfl⟩) _ rfl)
      hw hout
  | limit count =>
    obtain ⟨rows, rows', rfl, rfl, hw⟩ := hone hrows
    cases hout
    exact ⟨_, rfl, List.forall₂_take count hw⟩
  | split =>
    obtain ⟨rows, rows', rfl, rfl, hw⟩ := hone hrows
    cases hout
    exact ⟨_, rfl, hw⟩
  | stream command schema h =>
    obtain ⟨rows, rows', rfl, rfl, hw⟩ := hone hrows
    obtain rfl := rows_eq_of_whole h hw
    refine ⟨out, hout, ?_⟩
    simp only [Run.naturalRows] at hout
    split at hout
    · cases hout
      refine List.forall₂_same.mpr fun row hrow => ?_
      obtain ⟨r, -, rfl⟩ := List.mem_map.mp hrow
      exact Row.Kept.all (fitRow_length ..)
    · cases hout

/-! ## Exposed rows -/

/-- The exposed part of a row, and what is left of it. -/
theorem Row.Kept.exposed {natural schema : Schema} {cols columns : Columns}
    {exposed exposed' : List Nat} {row row' out : Row}
    (h : Row.Kept t restricted natural cols row row')
    (hexp : Forall₂ (fun m f => natural[m]? = some f) exposed schema)
    (hcols : Forall₂ (fun x q => ∃ m, exposed[x.1]? = some m ∧ cols[q]? = some (m, x.2)) columns
      exposed')
    (hout : Forall₂ (fun m v => row[m]? = some v) exposed out) :
    ∃ out', Forall₂ (fun q v => row'[q]? = some v) exposed' out' ∧
      Row.Kept t restricted schema columns out out' := by
  obtain ⟨out', hout'⟩ : ∃ out', Forall₂ (fun q v => row'[q]? = some v) exposed' out' := by
    refine exists_forall₂ fun q hq => ?_
    obtain ⟨x, -, m, -, hcol⟩ := mem_of_right hcols hq
    exact ⟨_, List.getElem?_eq_getElem (h.left ▸ (List.getElem?_eq_some_iff.mp hcol).1)⟩
  refine ⟨out', hout', hout.length_eq.symm.trans hexp.length_eq,
    hout'.length_eq.symm.trans hcols.length_eq.symm, fun k e c f v v' hk hf hv hv' => ?_⟩
  obtain ⟨q, hq, m, hm, hcol⟩ := getElem?_of_left hcols hk
  obtain ⟨f₀, hf₀, hmf⟩ := getElem?_of_left hexp hm
  rw [hf] at hf₀
  cases hf₀
  obtain ⟨v₀, hv₀, hmv⟩ := getElem?_of_left hout hm
  rw [hv] at hv₀
  cases hv₀
  obtain ⟨v₀', hv₀', hqv⟩ := getElem?_of_left hout' hq
  rw [hv'] at hv₀'
  cases hv₀'
  exact h.value q m c f v v' hcol hmf hmv hqv

/-- Exposing a part of rows, or all of them if there is no projection. -/
theorem Run.projectRows_ok {projection : Option (List Nat)} {width : Nat} {rows out : List Row}
    (hw : projection = none → ∀ row ∈ rows, row.length = width) :
    Run.projectRows projection rows = .ok out ↔
      Forall₂ (fun row o => Forall₂ (fun m v => row[m]? = some v)
        (projection.getD (List.range width)) o) rows out := by
  cases projection with
  | some ps =>
    unfold Run.projectRows
    rw [mapM_ok]
    constructor
    · refine List.Forall₂.imp fun row o h => (mapM_ok.mp h).imp fun m v h => ?_
      cases hm : row[m]? with
      | none => rw [hm] at h; cases h
      | some u => rw [hm] at h; cases h; rfl
    · exact List.Forall₂.imp fun row o h => mapM_ok.mpr (h.imp fun m v h => by rw [h])
  | none =>
    have hself : ∀ row ∈ rows, ∀ o : Row,
        Forall₂ (fun m v => row[m]? = some v) (List.range width) o ↔ o = row := by
      intro row hrow o
      have hlen := hw rfl row hrow
      constructor
      · intro h
        refine List.ext_getElem? fun i => ?_
        by_cases hi : i < width
        · obtain ⟨v, hv, hrv⟩ := getElem?_of_left h (List.getElem?_range hi)
          rw [hv, hrv]
        · have := h.length_eq
          rw [List.length_range] at this
          rw [List.getElem?_eq_none (by omega), List.getElem?_eq_none (by omega)]
      · rintro rfl
        refine forall₂_of_getElem? (by simp [hlen]) fun i m v hm hv => ?_
        obtain ⟨hlt, rfl⟩ := List.getElem?_eq_some_iff.mp hm
        rwa [List.getElem_range]
    show Except.ok rows = .ok out ↔ Forall₂ (fun row o => Forall₂ _ (List.range width) o) rows out
    constructor
    · intro h
      cases h
      exact List.forall₂_same.mpr fun row hrow => (hself row hrow row).mpr rfl
    · intro h
      have heq : Forall₂ (· = ·) rows out := by
        refine forall₂_of_getElem? h.length_eq fun i row o hr ho => ?_
        obtain ⟨o', ho', hro⟩ := getElem?_of_left h hr
        rw [ho] at ho'
        cases ho'
        exact ((hself row (List.mem_of_getElem? hr) o).mp hro).symm
      rw [List.forall₂_eq_eq_eq] at heq
      rw [heq]

/-- What a node exposes of its natural rows, and what is left of it. -/
theorem Node.Narrowed.projectRows {r : Required} {required keep : List Nat} {natural : Schema}
    {cols : Columns} {n n' : Node} {ins : List (Slice g t)} {w : Slice g t}
    (h : n.Narrowed r required natural cols n' ins w)
    (hready : n.Ready r keep required natural ins) {rows rows' out : List Row}
    (hrows : Forall₂ (Row.Kept t restricted natural cols) rows rows')
    (hout : Run.projectRows n.projection rows = .ok out) :
    ∃ out', Run.projectRows n'.projection rows' = .ok out' ∧ w.Rows restricted out out' := by
  obtain ⟨id, hpart⟩ := hready.part
  obtain ⟨natural', hnat', hnames⟩ := h.op.natural_new
  have hpart' := h.part id natural' hnat'
  have hexp := Node.exposes_of_part hpart
  have hwidth : n.projection = none → ∀ row ∈ rows, row.length = n.schema.length :=
    fun hp row hrow => by
      obtain ⟨row', -, hkept⟩ := mem_of_left hrows hrow
      rw [hkept.width, Node.natural_of_part hpart hp]
  have hwidth' : n'.projection = none → ∀ row ∈ rows', row.length = n'.schema.length :=
    fun hp row' hrow' => by
      obtain ⟨row, -, hkept⟩ := mem_of_right hrows hrow'
      have hlen := congrArg List.length hnames
      rw [Schema.mapNames_length, Columns.schema_length] at hlen
      rw [hkept.left, ← hlen, Node.natural_of_part hpart' hp]
  have hexposed := (Run.projectRows_ok hwidth).mp hout
  suffices hall : ∃ out', Forall₂ (fun row o => Forall₂ (fun m v => row[m]? = some v) n'.exposed o)
      rows' out' ∧ w.Rows restricted out out' by
    obtain ⟨out', hout', hrel⟩ := hall
    exact ⟨out', (Run.projectRows_ok hwidth').mpr hout', hrel⟩
  clear hwidth hwidth' hout
  induction hrows generalizing out with
  | nil =>
    cases hexposed
    exact ⟨[], .nil, .nil⟩
  | cons hrow _ ih =>
    cases hexposed with
    | cons ho hrest =>
      obtain ⟨out', hout', hrel⟩ := ih hrest
      obtain ⟨o', ho', hkept⟩ := hrow.exposed hexp h.exposes ho
      refine ⟨o' :: out', .cons ho' hout', .cons ?_ hrel⟩
      rwa [h.old]

/-! ## Outputs -/

inductive Output.Kept (restricted : Bool) (w : Slice g t) : Output → Output → Prop
  | rows {rows rows' : List Row} (h : w.Rows restricted rows rows') :
      Kept restricted w (.rows rows) (.rows rows')
  | branches {branches branches' : List (List Row)}
      (h : Forall₂ (w.Rows restricted) branches branches') :
      Kept restricted w (.branches branches) (.branches branches')

/-- The output of a node that is read whole. -/
theorem Output.Kept.eq_of_whole {w : Slice g t} {out out' : Output}
    (h : Output.Kept restricted w out out') (hw : w.Whole) : out' = out := by
  cases h with
  | rows h => rw [Run.rows_eq_of_whole hw h]
  | branches h =>
    have heq : Forall₂ (· = ·) _ _ := h.imp fun rows rows' hrows =>
      (Run.rows_eq_of_whole hw hrows).symm
    rw [List.forall₂_eq_eq_eq] at heq
    rw [heq]

namespace Run

variable {T : Tables} {p : Plan} {n : Node} {inputs : List (List Row)} {out : Output}
  {schemas : List Schema}

/-- A split puts out the exposed part of the rows that each of its predicates
selects. -/
theorem runNode_split {predicates : List Expr} {rows : List Row}
    (hs : p.inputSchemas n.id = .ok schemas) (hop : n.op = .split predicates) :
    runNode T p n [rows] = .ok out ↔ ∃ branches, out = .branches branches ∧
      Forall₂ (fun e b => ∃ selected, filterRows e rows = .ok selected ∧
        projectRows n.projection selected = .ok b) predicates branches := by
  have hrun : runNode T p n [rows] = (predicates.mapM fun e =>
      filterRows e rows >>= projectRows n.projection) >>= fun branches =>
        .ok (.branches branches) := by
    unfold runNode
    rw [hs, hop]
    rfl
  rw [hrun]
  constructor
  · intro h
    obtain ⟨branches, hbranches, h⟩ := bind_ok h
    cases h
    exact ⟨branches, rfl, (mapM_ok.mp hbranches).imp fun e b => bind_ok⟩
  · rintro ⟨branches, rfl, hbranches⟩
    rw [mapM_ok.mpr (hbranches.imp fun e b ⟨selected, hsel, hb⟩ => by rw [hsel]; exact hb)]
    rfl

/-- Any other node puts out the exposed part of its natural rows. -/
theorem runNode_rows (hs : p.inputSchemas n.id = .ok schemas)
    (hop : ∀ predicates, n.op ≠ .split predicates) :
    runNode T p n inputs = .ok out ↔ ∃ natural rows,
      naturalRows T n.id n.op schemas inputs = .ok natural ∧
      projectRows n.projection natural = .ok rows ∧ out = .rows rows := by
  have hrun : runNode T p n inputs = naturalRows T n.id n.op schemas inputs >>= fun natural =>
      projectRows n.projection natural >>= fun rows => .ok (.rows rows) := by
    unfold runNode
    rw [hs]
    generalize n.op = op at hop
    cases op with
    | split predicates => exact absurd rfl (hop predicates)
    | _ => rfl
  rw [hrun]
  constructor
  · intro h
    obtain ⟨natural, hnat, h⟩ := bind_ok h
    obtain ⟨rows, hrows, h⟩ := bind_ok h
    cases h
    exact ⟨natural, rows, hnat, hrows, rfl⟩
  · rintro ⟨natural, rows, hnat, hrows, rfl⟩
    simp only [hnat, hrows, bind, Except.bind]

end Run

/-- The branches of a split, and what is left of them. -/
theorem Node.Narrowed.splitRows {r : Required} {required keep : List Nat} {w w₀ : Slice g t}
    {n n' : Node} (h : n.Narrowed r required w₀.old w₀.columns n' [w₀] w)
    (hready : n.Ready r keep required w₀.old [w₀]) {ps ps' : List Expr}
    (hps : Forall₂ (Reading w₀) ps ps') (hx : ∀ e ∈ ps, e.reads.Exact w₀) {rows rows' : List Row}
    (hrows : w₀.Rows restricted rows rows') {branches : List (List Row)}
    (hbranches : Forall₂ (fun e b => ∃ selected, Run.filterRows e rows = .ok selected ∧
      Run.projectRows n.projection selected = .ok b) ps branches) :
    ∃ branches', Forall₂ (fun e b => ∃ selected, Run.filterRows e rows' = .ok selected ∧
        Run.projectRows n'.projection selected = .ok b) ps' branches' ∧
      Forall₂ (w.Rows restricted) branches branches' := by
  induction hps generalizing branches with
  | nil =>
    cases hbranches
    exact ⟨[], .nil, .nil⟩
  | cons he _ ih =>
    cases hbranches with
    | cons hb hrest =>
      obtain ⟨selected, hsel, hb⟩ := hb
      obtain ⟨selected', hsel', hkept⟩ := Run.filterRows_kept he (hx _ (List.mem_cons_self ..))
        hrows hsel
      obtain ⟨b', hb', hrel⟩ := h.projectRows hready hkept hb
      obtain ⟨branches', hbranches', hrels⟩ :=
        ih (fun e he => hx e (List.mem_cons_of_mem _ he)) hrest
      exact ⟨b' :: branches', .cons ⟨selected', hsel', hb'⟩ hbranches', .cons hrel hrels⟩

/-- From what is left of its inputs a node computes what is left of its output. -/
theorem Node.Narrowed.runNode {r : Required} {required keep : List Nat} {natural : Schema}
    {cols : Columns} {n n' : Node} {ins : List (Slice g t)} {w : Slice g t}
    (h : n.Narrowed r required natural cols n' ins w)
    (hready : n.Ready r keep required natural ins) (hx : n.op.Exact ins) {T T' : Tables}
    {inputs inputs' : List (List Row)} (hrows : Along (Slice.Rows restricted) ins inputs inputs')
    (hfed : Operator.Fed restricted T T' n.op n'.op ins inputs) {p p' : Plan}
    (hs : p.inputSchemas n.id = .ok (ins.map Slice.old))
    (hs' : p'.inputSchemas n'.id = .ok (ins.map Slice.new)) {out : Output}
    (hout : Run.runNode T p n inputs = .ok out) :
    ∃ out', Run.runNode T' p' n' inputs' = .ok out' ∧ Output.Kept restricted w out out' := by
  have hop := h.op
  by_cases hsplit : ∃ ps, n.op = .split ps
  · obtain ⟨ps, hps⟩ := hsplit
    generalize hps' : n'.op = op' at hop
    rw [hps] at hop hx
    cases hop with
    | @split w₀ _ ps' hread =>
      cases hrows with
      | cons hw₀ hrest =>
        cases hrest
        obtain ⟨branches, rfl, hbranches⟩ := (Run.runNode_split hs hps).mp hout
        obtain ⟨branches', hbranches', hkept⟩ := h.splitRows hready hread
          (fun e he => hx (0, e) (List.mem_map.mpr ⟨e, he, rfl⟩) w₀ rfl) hw₀ hbranches
        exact ⟨_, (Run.runNode_split hs' hps').mpr ⟨branches', rfl, hbranches'⟩, .branches hkept⟩
  · have hno : ∀ ps, n.op ≠ .split ps := fun ps hps => hsplit ⟨ps, hps⟩
    have hno' : ∀ ps, n'.op ≠ .split ps := fun ps hps => by
      rw [hps] at hop
      generalize n.op = op at hop hno
      cases hop
      exact hno _ rfl
    obtain ⟨rows, exposed, hnat, hexp, rfl⟩ := (Run.runNode_rows hs hno).mp hout
    obtain ⟨rows', hnat', hkept⟩ := hop.naturalRows hx hrows hfed hnat
    obtain ⟨exposed', hexp', hrel⟩ := h.projectRows hready hkept hexp
    exact ⟨_, (Run.runNode_rows hs' hno').mpr ⟨rows', exposed', hnat', hexp', rfl⟩, .rows hrel⟩

end Dataflow
