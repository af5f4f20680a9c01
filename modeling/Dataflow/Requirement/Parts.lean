import Dataflow.Schema.Basic

/-!
# Required parts of nested fields

How much of a map or a bag is read: the keys of a map by name, the columns of a
bag by identity. A tracker has an entry for each field that is read at all; an
entry lists the parts in the order in which they were first needed, until the
field is read as a whole and the list gives way to `KeySet.all`. Entries only
grow, and every operation says whether it changed anything.
-/

namespace Dataflow

/-- The parts of a nested field that are read. -/
inductive KeySet (κ : Type)
  | all
  /-- Some parts, in the order in which they were first needed. -/
  | only (keys : List κ)
deriving Repr, DecidableEq

namespace KeySet

variable {κ : Type} [DecidableEq κ]

/-- Adds a part, and says whether that changed anything. -/
def insert (s : KeySet κ) (k : κ) : KeySet κ × Bool :=
  match s with
  | .all => (.all, false)
  | .only ks => if k ∈ ks then (.only ks, false) else (.only (ks ++ [k]), true)

/-- Reads the whole field, and says whether that changed anything. -/
def setAll (s : KeySet κ) : KeySet κ × Bool :=
  match s with
  | .all => (.all, false)
  | .only _ => (.all, true)

/-- Adds several parts, and says whether that changed anything. -/
def insertAll : KeySet κ → List κ → KeySet κ × Bool
  | s, [] => (s, false)
  | s, k :: ks =>
    let (s', changed) := s.insert k
    let (s'', changed') := insertAll s' ks
    (s'', changed || changed')

/-- Adds what another set has, and says whether that changed anything. -/
def merge (s other : KeySet κ) : KeySet κ × Bool :=
  match other with
  | .all => s.setAll
  | .only ks => s.insertAll ks

/-- The set of the listed parts, each once. -/
def ofList (ks : List κ) : KeySet κ := ((only []).insertAll ks).1

/-- The listed parts, unless the whole field is read. -/
def keys? : KeySet κ → Option (List κ)
  | .all => none
  | .only ks => some ks

end KeySet

/-- The parts that are read of each field. A field without an entry is not read
at all. -/
structure Tracker (κ : Type) where
  entries : List (Uid × KeySet κ)
deriving Repr, DecidableEq

namespace Tracker

variable {κ : Type} [DecidableEq κ]

def empty : Tracker κ := ⟨[]⟩

def get? (t : Tracker κ) (u : Uid) : Option (KeySet κ) := t.entries.lookup u

/-- Entries with the one of a field replaced, or added. -/
def put (u : Uid) (s : KeySet κ) : List (Uid × KeySet κ) → List (Uid × KeySet κ)
  | [] => [(u, s)]
  | (v, r) :: rest => if v = u then (u, s) :: rest else (v, r) :: put u s rest

/-- Changes the entry of a field by `f`, or makes it `first`; and says whether
that changed anything. -/
def update (t : Tracker κ) (u : Uid) (f : KeySet κ → KeySet κ × Bool) (first : KeySet κ) :
    Tracker κ × Bool :=
  match t.get? u with
  | some s =>
    let (s', changed) := f s
    (⟨put u s' t.entries⟩, changed)
  | none => (⟨put u first t.entries⟩, true)

def require (t : Tracker κ) (u : Uid) (k : κ) : Tracker κ × Bool :=
  t.update u (fun s => s.insert k) (.only [k])

def requireAll (t : Tracker κ) (u : Uid) : Tracker κ × Bool :=
  t.update u KeySet.setAll .all

def merge (t : Tracker κ) (u : Uid) (s : KeySet κ) : Tracker κ × Bool :=
  t.update u (fun r => r.merge s) s

/-- The parts that are read of a field, when it is some of them and not all. -/
def narrowed? (t : Tracker κ) (u : Uid) : Option (List κ) :=
  (t.get? u).bind fun s => s.keys?.filter fun ks => !ks.isEmpty

end Tracker

/-! ## Demands -/

/-- One finding about how a nested field is read. -/
inductive PartDemand
  | mapKey (u : Uid) (key : String)
  | allKeys (u : Uid)
  | bagColumns (u : Uid) (columns : List Uid)
  | allColumns (u : Uid)
deriving Repr, DecidableEq

def PartDemand.uid : PartDemand → Uid
  | .mapKey u _ => u
  | .allKeys u => u
  | .bagColumns u _ => u
  | .allColumns u => u

mutual

/-- What reading a whole field needs: all keys of every map and all columns of
every bag and tuple in it. -/
def Field.wholeDemands : Field → List PartDemand
  | ⟨_, .scalar _, _⟩ => []
  | ⟨_, .map _, u⟩ => [.allKeys u]
  | ⟨_, .bag inner, u⟩ => .allColumns u :: Schema.wholeDemands inner
  | ⟨_, .tuple inner, u⟩ => .allColumns u :: Schema.wholeDemands inner

def Schema.wholeDemands : List Field → List PartDemand
  | [] => []
  | f :: fs => f.wholeDemands ++ Schema.wholeDemands fs

end

/-- What passing a field on needs: all of its own parts, while the fields nested
in it keep whatever their consumers leave them. -/
def Field.forwardDemands (f : Field) : List PartDemand :=
  match f.type with
  | .scalar _ => []
  | .map _ => [.allKeys f.uid]
  | .bag _ | .tuple _ => [.allColumns f.uid]

/-- The required keys of maps and columns of bags. -/
structure Trackers where
  mapKeys : Tracker String
  bagColumns : Tracker Uid
  /-- Whether keys of maps are tracked at all. -/
  trackKeys : Bool
deriving Repr, DecidableEq

namespace Trackers

def empty (trackKeys : Bool) : Trackers := ⟨.empty, .empty, trackKeys⟩

def withMapKeys (t : Trackers) (r : Tracker String × Bool) : Trackers × Bool :=
  ({ t with mapKeys := r.1 }, r.2)

def withBagColumns (t : Trackers) (r : Tracker Uid × Bool) : Trackers × Bool :=
  ({ t with bagColumns := r.1 }, r.2)

/-- Records a finding, and says whether that changed anything. -/
def apply (t : Trackers) : PartDemand → Trackers × Bool
  | .mapKey u k => if t.trackKeys then t.withMapKeys (t.mapKeys.require u k) else (t, false)
  | .allKeys u => if t.trackKeys then t.withMapKeys (t.mapKeys.requireAll u) else (t, false)
  | .bagColumns u cs => t.withBagColumns (t.bagColumns.merge u (.ofList cs))
  | .allColumns u => t.withBagColumns (t.bagColumns.requireAll u)

def applyAll (t : Trackers) (ds : List PartDemand) : Trackers :=
  ds.foldl (fun t d => (t.apply d).1) t

end Trackers

end Dataflow
