import Dataflow.Proofs.Plan.Drawn

/-!
# Fresh identities

A caller that makes up no identities of its own gets a plan in which every field
that an operator originates is new: its identity stands in no schema of an earlier
node, and no other operator originates it (`Session.run_identities`).

Callers hand schemas to loads and streams. In a `Session` these are schemas that
the builder has drawn or that a node of the plan has. Besides, a caller writes
types, in schemas, casts and declarations of functions, and may put identities into
them that come to stand in a schema (`Call.written`). What is kept along a session
holds without a condition on these: an identity in a schema was drawn or written,
and one that a later node creates is there only if it was written
(`Session.Sound`).
-/

namespace Dataflow

/-- Where the schema of a load or a stream comes from. -/
inductive Origin
  /-- The schema that was drawn as the `k`-th. -/
  | drawn (k : Nat)
  /-- The schema of a node. -/
  | node (id : Nat)

/-- A call of a builder. Grouping is a cogroup of one input. -/
inductive Call
  | field (name : String) (type : DataType)
  | schema (fields : List (String × DataType))
  | load (label location : String) (schema : Origin) (reader : Option Reader)
  | store (input : Edge) (location : String)
  | forEach (label : String) (input : Edge) (items : List (Expr × Bool))
  | filter (label : String) (input : Edge) (predicate : Expr)
  | join (label : String) (inputs : List (Edge × List Expr)) (type : JoinType)
      (strategy : JoinStrategy)
  | cogroup (label : String) (inputs : List (Edge × List Expr × Bool))
  | cross (label : String) (inputs : List Edge)
  | union (label : String) (inputs : List Edge)
  | unionByName (label : String) (inputs : List Edge)
  | distinct (label : String) (input : Edge)
  | orderBy (label : String) (input : Edge) (o : OrderBy)
  | limit (label : String) (input : Edge) (count : Nat)
  | split (label : String) (input : Edge) (predicates : List Expr)
  | stream (label : String) (input : Edge) (command : String) (schema : Origin)

/-- The identities in the types that the caller writes and that may come to stand
in a schema. What filters, joins, sorts and splits compute stands in none, nor
does a field that is no part of a drawn schema. -/
def Call.written : Call → List Uid
  | .schema fields => fields.flatMap fun f => f.2.identities
  | .forEach _ _ items => items.flatMap fun i => i.1.written
  | .cogroup _ inputs => inputs.flatMap fun i => i.2.1.flatMap Expr.written
  | _ => []

/-- A builder, and the schemas that it has drawn for the caller. -/
structure Session where
  builder : Builder
  drawn : List Schema

namespace Session

def start : Session := ⟨.empty, []⟩

/-- The schema that the caller means. -/
def schema? (s : Session) : Origin → Option Schema
  | .drawn k => s.drawn[k]?
  | .node id => s.builder.plan.nodes[id]?.map Node.schema

/-- The session after an operation, whether it succeeds or not. -/
def after {α : Type} (s : Session) (op : Build α) : Session :=
  { s with builder := s.builder.after op }

/-- The session after an operation on a schema, if there is one. -/
def afterWith (s : Session) (origin : Origin) (op : Schema → Build Nat) : Session :=
  match s.schema? origin with
  | some schema => s.after (op schema)
  | none => s

def drawSchema (s : Session) (fields : List (String × DataType)) : Session :=
  ⟨s.builder.after (Builder.schema fields),
    s.drawn ++ (s.builder.returns (Builder.schema fields)).toOption.toList⟩

def step (s : Session) : Call → Session
  | .field name type => s.after (Builder.field name type)
  | .schema fields => s.drawSchema fields
  | .load label location origin reader =>
    s.afterWith origin fun schema => Builder.load label location schema reader
  | .store input location => s.after (Builder.store input location)
  | .forEach label input items => s.after (Builder.forEach label input items)
  | .filter label input predicate => s.after (Builder.filter label input predicate)
  | .join label inputs type strategy => s.after (Builder.join label inputs type strategy)
  | .cogroup label inputs => s.after (Builder.cogroup label inputs)
  | .cross label inputs => s.after (Builder.cross label inputs)
  | .union label inputs => s.after (Builder.union label inputs)
  | .unionByName label inputs => s.after (Builder.unionByName label inputs)
  | .distinct label input => s.after (Builder.distinct label input)
  | .orderBy label input o => s.after (Builder.orderBy label input o)
  | .limit label input count => s.after (Builder.limit label input count)
  | .split label input predicates => s.after (Builder.split label input predicates)
  | .stream label input command origin =>
    s.afterWith origin fun schema => Builder.stream label input command schema

def run (calls : List Call) : Session := calls.foldl step start

def nodes (s : Session) : List Node := s.builder.plan.nodes

/-- The number of the identity that is drawn next; all before it were drawn. -/
def counter (s : Session) : Nat := s.builder.uids.next

/-- The schemas of the nodes and those that were drawn. -/
def schemas (s : Session) : List Schema := s.nodes.map Node.schema ++ s.drawn

/-- What is kept along a session in which the identities `written` were written. -/
structure Sound (s : Session) (written : List Uid) : Prop where
  known : ∀ schema ∈ s.schemas, ∀ u ∈ Schema.identities schema,
    u.number < s.counter ∨ u ∈ written
  created : ∀ n ∈ s.nodes, ∀ u ∈ n.op.created, u.number < s.counter
  distinct : (s.nodes.flatMap fun n => n.op.created).Nodup
  fresh : ∀ (h : Nat) (n : Node), s.nodes[h]? = some n → ∀ u ∈ n.op.created,
    ∀ (g : Nat) (m : Node), g < h → s.nodes[g]? = some m → u ∈ Schema.identities m.schema →
      u ∈ written

variable {s : Session} {written : List Uid}

theorem sound_start : start.Sound [] where
  known := nofun
  created := nofun
  distinct := List.nodup_nil
  fresh := nofun

theorem Sound.mono (hs : s.Sound written) {written' : List Uid} (h : written ⊆ written') :
    s.Sound written' where
  known := fun schema hm u hu => (hs.known schema hm u hu).imp_right fun hw => h hw
  created := hs.created
  distinct := hs.distinct
  fresh := fun i n hn u hu j m hj hm hum => h (hs.fresh i n hn u hu j m hj hm hum)

/-- Drawing identities changes nothing in the plan. -/
theorem Sound.drawing (hs : s.Sound written) {k : Nat} {drawn : List Schema}
    (hdrawn : ∀ schema ∈ drawn, ∀ u ∈ Schema.identities schema,
      u.number < s.counter + k ∨ u ∈ written) :
    Sound ⟨s.builder.drawing k, s.drawn ++ drawn⟩ written where
  known := fun schema hm u hu => by
    rcases List.mem_append.mp hm with hm | hm
    · exact (hs.known schema (List.mem_append_left _ hm) u hu).imp_left
        fun hlt => Nat.lt_add_right k hlt
    · rcases List.mem_append.mp hm with hm | hm
      · exact (hs.known schema (List.mem_append_right _ hm) u hu).imp_left
          fun hlt => Nat.lt_add_right k hlt
      · exact hdrawn schema hm u hu
  created := fun n hn u hu => Nat.lt_add_right k (hs.created n hn u hu)
  distinct := hs.distinct
  fresh := hs.fresh

theorem Sound.skips (hs : s.Sound written) (k : Nat) :
    Sound ⟨s.builder.drawing k, s.drawn⟩ written := by
  have h : Sound ⟨s.builder.drawing k, s.drawn ++ []⟩ written := hs.drawing nofun
  rwa [List.append_nil] at h

/-- One more node. Everything that stands in an earlier schema was drawn before the
call or written, and what the node creates was drawn in the call. -/
theorem Sound.gains (hs : s.Sound written) {known : Uid → Prop} {n : Node} {count : Nat}
    {b : Builder} (h : s.builder.Gains known n count b)
    (hknown : ∀ u, known u → u.number < s.counter ∨ u ∈ written) :
    Sound ⟨b, s.drawn⟩ written := by
  have hcounter : counter ⟨b, s.drawn⟩ = s.counter + count := h.next
  have hnodes : nodes ⟨b, s.drawn⟩ = s.nodes ++ [n] := h.nodes
  have hnew : ∀ u ∈ n.op.created, s.counter ≤ u.number ∧ u.number < s.counter + count :=
    fun u hu => UidSource.mem_upcoming.mp (h.created.subset hu)
  have hheld : ∀ m ∈ s.nodes, ∀ u ∈ Schema.identities m.schema,
      u.number < s.counter ∨ u ∈ written := fun m hm u hu =>
    hs.known m.schema (List.mem_append_left _ (List.mem_map.mpr ⟨m, hm, rfl⟩)) u hu
  refine ⟨fun schema hm u hu => ?_, fun m hm u hu => ?_, ?_, fun i m hm u hu j m' hj hm' hum => ?_⟩
  · rw [hcounter]
    have hlift : u.number < s.counter ∨ u ∈ written → u.number < s.counter + count ∨ u ∈ written :=
      Or.imp_left fun hlt => Nat.lt_add_right count hlt
    unfold schemas at hm
    rw [hnodes, List.map_append, List.append_assoc] at hm
    rcases List.mem_append.mp hm with hm | hm
    · exact hlift (hs.known schema (List.mem_append_left _ hm) u hu)
    rcases List.mem_cons.mp hm with rfl | hm
    · rcases h.exposed u hu with hu | ⟨m, hm, hu⟩ | hu
      · exact Or.inl (hnew u hu).2
      · exact hlift (hheld m hm u hu)
      · exact hlift (hknown u hu)
    · exact hlift (hs.known schema (List.mem_append_right _ hm) u hu)
  · rw [hcounter]
    rw [hnodes] at hm
    rcases List.mem_append.mp hm with hm | hm
    · exact Nat.lt_add_right count (hs.created m hm u hu)
    · cases List.mem_singleton.mp hm
      exact (hnew u hu).2
  · rw [hnodes, List.flatMap_append, List.flatMap_singleton]
    refine List.nodup_append.mpr ⟨hs.distinct, (UidSource.upcoming_nodup _ _).sublist h.created,
      fun u hu v hv heq => ?_⟩
    obtain ⟨m, hm, hu⟩ := List.mem_flatMap.mp hu
    have hlt := hs.created m hm u hu
    have hge := (hnew v hv).1
    rw [heq] at hlt
    omega
  · rw [hnodes] at hm hm'
    have hj' : j < s.nodes.length := by
      have := (List.getElem?_eq_some_iff.mp hm).1
      rw [List.length_append, List.length_singleton] at this
      omega
    rw [List.getElem?_append_left hj'] at hm'
    rcases Nat.lt_or_ge i s.nodes.length with hlt | hge
    · rw [List.getElem?_append_left hlt] at hm
      exact hs.fresh i m hm u hu j m' hj hm' hum
    · obtain rfl : m = n := by
        rw [List.getElem?_append_right hge, List.getElem?_singleton] at hm
        split at hm
        · exact (Option.some.inj hm).symm
        · cases hm
      have hge := (hnew u hu).1
      rcases hheld m' (List.mem_of_getElem? hm') u hum with hlt | hw
      · omega
      · exact hw

variable {α : Type}

/-- A call that appends a node of which the caller knows no more than it has. -/
theorem Sound.adds (hs : s.Sound written) {known : Uid → Prop} {op : Build α}
    (h : s.builder.Adds known op) (hknown : ∀ u, known u → u.number < s.counter ∨ u ∈ written) :
    (s.after op).Sound written := by
  unfold Builder.Adds Builder.Ends at h
  unfold after
  split at h
  · obtain ⟨n, count, hgains⟩ := h
    exact hs.gains hgains hknown
  · obtain ⟨k, hk⟩ := h
    rw [hk]
    exact hs.skips k

theorem Sound.draws (hs : s.Sound written) {count : Nat} {φ : α → Prop} {op : Build α}
    (h : s.builder.Draws count φ op) : (s.after op).Sound written := by
  obtain ⟨k, hk⟩ : ∃ k, s.builder.after op = s.builder.drawing k := by
    unfold Builder.Draws Builder.Ends at h
    split at h
    · exact ⟨count, h.1⟩
    · exact h
  unfold after
  rw [hk]
  exact hs.skips k

/-- The schemas that are drawn consist of new identities and of what was written in
their types. -/
theorem Sound.drawSchema (hs : s.Sound written) (fields : List (String × DataType))
    (hw : fields.flatMap (fun f => f.2.identities) ⊆ written) :
    (s.drawSchema fields).Sound written := by
  have h : s.builder.Draws fields.length _ (Builder.schema fields) :=
    Builder.draws_mapM Field.uid (fun x f => f.type = x.2) fun x _ => Builder.makes_field x.1 x.2
  unfold Builder.Draws Builder.Ends at h
  unfold Session.drawSchema
  split at h
  · rename_i schema hschema
    obtain ⟨hafter, huids, htypes⟩ := h
    rw [hafter, hschema]
    refine hs.drawing fun _ hm u hu => ?_
    cases List.mem_singleton.mp hm
    obtain ⟨f, hf, hu⟩ := Schema.mem_identities.mp hu
    rcases Field.mem_identities.mp hu with rfl | hu
    · have hnew : f.uid ∈ s.builder.uids.upcoming fields.length :=
        huids ▸ List.mem_map.mpr ⟨f, hf, rfl⟩
      exact Or.inl (UidSource.mem_upcoming.mp hnew).2
    · obtain ⟨x, hx, htype⟩ := mem_of_right htypes hf
      exact Or.inr (hw (List.mem_flatMap.mpr ⟨x, hx, htype ▸ hu⟩))
  · rename_i e he
    obtain ⟨k, hk⟩ := h
    rw [hk, he]
    exact hs.drawing nofun

/-- A load or a stream of a schema that the session has. -/
theorem Sound.afterWith (hs : s.Sound written) {origin : Origin} {op : Schema → Build Nat}
    (h : ∀ schema, s.builder.Adds (· ∈ Schema.identities schema) (op schema)) :
    (s.afterWith origin op).Sound written := by
  unfold Session.afterWith
  split
  · rename_i schema hschema
    refine hs.adds (h schema) (hs.known schema ?_)
    cases origin with
    | drawn k => exact List.mem_append_right _ (List.mem_of_getElem? hschema)
    | node id =>
      refine List.mem_append_left _ ?_
      obtain ⟨n, hn, rfl⟩ := Option.map_eq_some_iff.mp hschema
      exact List.mem_map.mpr ⟨n, List.mem_of_getElem? hn, rfl⟩
  · exact hs

/-- What one call keeps. -/
theorem Sound.step (hs : s.Sound written) (c : Call) :
    (s.step c).Sound (written ++ c.written) := by
  replace hs := hs.mono (List.subset_append_left written c.written)
  have hknown : ∀ u ∈ c.written, u.number < s.counter ∨ u ∈ written ++ c.written :=
    fun u hu => Or.inr (List.mem_append_right _ hu)
  have hplain : ∀ {op : Build Nat}, s.builder.Adds (fun _ => False) op →
      (s.after op).Sound (written ++ c.written) := fun h => hs.adds h nofun
  cases c with
  | field name type => exact hs.draws (Builder.makes_field name type s.builder)
  | schema fields => exact hs.drawSchema fields (List.subset_append_right ..)
  | load label location origin reader =>
    exact hs.afterWith fun schema => Builder.adds_plain rfl fun u hu => Or.inr hu
  | stream label input command origin =>
    exact hs.afterWith fun schema => Builder.adds_plain rfl fun u hu => Or.inr hu
  | forEach label input items => exact hs.adds (Builder.adds_forEach label input items) hknown
  | cogroup label inputs => exact hs.adds (Builder.adds_cogroup label inputs) hknown
  | union label inputs => exact hplain (Builder.adds_union label inputs)
  | unionByName label inputs => exact hplain (Builder.adds_unionByName label inputs)
  | join label inputs type strategy => exact hplain (Builder.adds_join label inputs type strategy)
  | cross label inputs => exact hplain (Builder.adds_cross label inputs)
  | filter | orderBy | split => exact hplain (Builder.adds_checked rfl rfl)
  | store | distinct | limit => exact hplain (Builder.adds_plain rfl nofun)

theorem sound_run (calls : List Call) : (run calls).Sound (calls.flatMap Call.written) := by
  have hall : ∀ (calls : List Call) (s : Session) (written : List Uid), s.Sound written →
      (calls.foldl step s).Sound (written ++ calls.flatMap Call.written) := by
    intro calls
    induction calls with
    | nil => intro s written hs; rwa [List.flatMap_nil, List.append_nil]
    | cons c calls ih =>
      intro s written hs
      rw [List.flatMap_cons, ← List.append_assoc]
      exact ih _ _ (hs.step c)
  exact hall calls start [] sound_start

/-- Whatever calls are made, failing ones included: if no identity that the caller
writes is one that the builder draws, then the identities that a node originates
stand in no schema of an earlier node and are distinct throughout the plan, and
every identity in a schema was drawn unless the caller wrote it. -/
theorem run_identities (calls : List Call)
    (h : ∀ u ∈ calls.flatMap Call.written, (run calls).counter ≤ u.number) :
    (∀ (i : Nat) (n : Node), (run calls).nodes[i]? = some n → ∀ u ∈ n.op.created,
      ∀ (j : Nat) (m : Node), j < i → (run calls).nodes[j]? = some m →
        u ∉ Schema.identities m.schema) ∧
    ((run calls).nodes.flatMap fun n => n.op.created).Nodup ∧
    ∀ schema ∈ (run calls).schemas, ∀ u ∈ Schema.identities schema,
      u.number < (run calls).counter ∨ u ∈ calls.flatMap Call.written := by
  have hs := sound_run calls
  refine ⟨fun i n hn u hu j m hj hm hum => ?_, hs.distinct, hs.known⟩
  have hlt := hs.created n (List.mem_of_getElem? hn) u hu
  have hge := h u (hs.fresh i n hn u hu j m hj hm hum)
  omega

/-- Visits grouped by two keys, with a computed bag of which the caller has made up
the identity, an operation that fails after it has drawn, and a union with a load
that reuses a schema. -/
def grouped : List Call :=
  [.schema [("user", .scalar .chararray), ("facts", .map (.scalar .int))],
   .load "A" "visits" (.drawn 0) none,
   .forEach "B" ⟨7, none⟩ [(.column 0, false)],
   .forEach "B" ⟨0, none⟩ [(.column 0, false), (.column 5, false)],
   .cogroup "G" [(⟨0, none⟩, [.column 0, .lookup (.column 1) "lang"], false)],
   .forEach "F" ⟨1, none⟩
     [(.column 0, false), (.cast (.column 1) (.bag [⟨"x", .scalar .int, ⟨100⟩⟩]), false)],
   .load "D" "more" (.node 2) none,
   .union "U" [⟨2, none⟩, ⟨3, none⟩]]

theorem run_identities_grouped :
    (∀ u ∈ grouped.flatMap Call.written, (run grouped).counter ≤ u.number) ∧
    (run grouped).nodes.map (fun n => n.op.created) =
      [[], [⟨4⟩, ⟨5⟩, ⟨6⟩, ⟨7⟩], [⟨9⟩], [], [⟨10⟩, ⟨11⟩]] ∧
    ((run grouped).nodes.flatMap fun n => n.op.created).Nodup ∧
    ∀ m ∈ (run grouped).nodes.take 4, (⟨10⟩ : Uid) ∉ Schema.identities m.schema := by
  have hw : ∀ u ∈ grouped.flatMap Call.written, (run grouped).counter ≤ u.number := by decide
  obtain ⟨hfresh, hdistinct, -⟩ := run_identities grouped hw
  refine ⟨hw, rfl, hdistinct, fun m hm => ?_⟩
  obtain ⟨j, hj⟩ := List.mem_iff_getElem?.mp hm
  rw [List.getElem?_take] at hj
  split at hj
  · rename_i hlt
    exact hfresh 4 _ rfl ⟨10⟩ (by decide) j m hlt hj
  · cases hj

end Session

end Dataflow
