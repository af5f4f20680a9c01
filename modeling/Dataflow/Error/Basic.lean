import Dataflow.Plan.Basic
import Dataflow.Value.Basic

/-!
# Errors

The causes of failure, by kind: a position outside a schema, a type that does
not fit (`TypeFault`), a value that does not fit (`ValueFault`), and a defect
of the planner itself (`Defect`), of which an inconsistent node of a plan
(`NodeFault`) is the largest group. An error met while an operator was being
created is passed on as `Error.creation`.

Every wording is in one of the `message` functions below.

A computation that cannot go on at all has no error: it ends in a `Failure`
that is an overflow, or a plan whose nodes are not in order.
-/

namespace Dataflow

/-- A type, or the type of a value, that does not fit. -/
inductive TypeFault
  | notBoolean (type : DataType)
  | noKeys (key : String) (type : DataType)
  | noColumns (type : DataType)
  | noArithmetic (op : BinaryOp) (left right : DataType)
  | notPredicate (e : Expr) (type : DataType)
  | valueWithoutKeys (v : Value)
  | valueWithoutColumns (v : Value)
  | valuesWithoutArithmetic (op : BinaryOp) (left right : Value)

/-- A request that makes no sense. -/
inductive ValueFault
  | joinInputs
  | outerJoinInputs (type : JoinType) (count : Nat)
  | joinKeys
  | groupShape
  | groupKeys
  | sortDirections (keys directions : Nat)
  | splitBranches
  | crossInputs
  | unionInputs
  | needsInput (operator : String)
  | unknownFunction (name : String) (count : Nat)
  | unknownCommand (command : String)

/-- What is inconsistent about a node of a plan. -/
inductive NodeFault
  | storedAs (id : Nat)
  | inputCount (operator : String) (count : Nat)
  | notEarlier (input : Nat)
  | noBranch (input : Nat)
  | branchOfOther (input : Nat)
  | noInput (e : Expr) (input : Nat)
  | illTyped (e : Expr) (message : String)
  | unionWidth
  | unionPosition (p : Nat)
  | cannotProject (operator : String)
  | repeatedPosition
  | schemaMismatch (exposed natural : Schema)
  | other (message : String)

/-- A defect of the planner rather than of its input. -/
inductive Defect
  | tooFewChildren (e : Expr)
  | missingInput (node : String)
  | noNode (id : Nat)
  | noUnionField (p : Nat)
  | invalidNode (id : Nat) (fault : NodeFault)
  | requiredPosition (p arity : Nat)
  | notExposed (p : Nat) (node : String)
  | noBag (node : String) (input : Nat)
  | noOutput (node : String) (p : Nat)
  | prunedColumn (p : Nat)
  | notNested (p : Nat)
  | prunedInner (column p : Nat)
  | noRequirement (id : Nat)
  | itemWidth (produced kept : Nat)
  | noInput (node : String) (input : Nat)
  | doesNotExpose (node : String) (p : Nat)
  | inputPruned (node : String) (p : Nat)
  | rowWidth (width p : Nat)
  | innerWidth (column : Nat)
  | noSuchBranch (branch id : Nat)
  | notRun (id : Nat)
  | storeWithoutInput
  | nodeWithoutInput (id : Nat)
  | forEachWithoutInput
  | noProjected (p : Nat)
  /-- An error of another kind that should not have been possible. -/
  | restated (message : String)

inductive Error
  | position (p : Nat) (schema : Schema)
  | type (fault : TypeFault)
  | value (fault : ValueFault)
  | internal (defect : Defect)
  /-- An error met while creating an operator. -/
  | creation (cause : Error)
  | reported (report : Report)

/-- The end of a computation that did not succeed. -/
inductive Failure
  | error (e : Error)
  /-- Integer arithmetic left the range of 64 bits. -/
  | overflow
  /-- A node reads a node that does not come before it. -/
  | outOfOrder (node input : Nat)

/-! ## Messages -/

def TypeFault.message : TypeFault → String
  | .notBoolean t => "Expected argument to be a Boolean expression, but received " ++ t.text
  | .noKeys key t => "Cannot look up key '" ++ key ++ "' in a value of type " ++ t.text
  | .noColumns t => "Cannot dereference columns of a value of type " ++ t.text
  | .noArithmetic op l r =>
    "Cannot apply " ++ op.text ++ " to values of type " ++ l.text ++ " and " ++ r.text
  | .notPredicate e t =>
    "Expected expression " ++ e.text ++ " to resolve to type Boolean, but received: " ++ t.text
  | .valueWithoutKeys v => v.text ++ " is not a map"
  | .valueWithoutColumns v => v.text ++ " cannot be dereferenced"
  | .valuesWithoutArithmetic op l r =>
    "Cannot apply " ++ op.text ++ " to " ++ l.text ++ " and " ++ r.text

def ValueFault.message : ValueFault → String
  | .joinInputs => "Join needs at least two inputs"
  | .outerJoinInputs t n =>
    "A " ++ t.text ++ " join takes exactly two inputs, got " ++ toString n
  | .joinKeys => "Every join input needs the same non-zero number of keys"
  | .groupShape => "CoGroup needs keys, an inner flag and a bag for every input"
  | .groupKeys => "Every CoGroup input needs the same number of keys"
  | .sortDirections keys directions =>
    "OrderBy needs one direction per sort key, got " ++ toString keys ++ " keys and " ++
      toString directions ++ " directions"
  | .splitBranches => "Split needs at least one branch"
  | .crossInputs => "Cross needs at least two inputs"
  | .unionInputs => "Union needs at least two inputs"
  | .needsInput op => op ++ " needs an input"
  | .unknownFunction name n =>
    "Unknown function " ++ name ++ " for " ++ toString n ++ " arguments"
  | .unknownCommand command => "Cannot run `" ++ command ++ "` in tests"

def NodeFault.message : NodeFault → String
  | .storedAs id => "stored with id #" ++ toString id
  | .inputCount op n => op ++ " has " ++ toString n ++ " inputs"
  | .notEarlier input => "input #" ++ toString input ++ " is not upstream"
  | .noBranch input => "reads Split #" ++ toString input ++ " without a valid branch"
  | .branchOfOther input =>
    "addresses a branch of #" ++ toString input ++ " which is not a Split"
  | .noInput e input => "expression " ++ e.text ++ " has no input " ++ toString input
  | .illTyped e message => "expression " ++ e.text ++ ": " ++ message
  | .unionWidth => "union mapping has the wrong width"
  | .unionPosition p => "union maps to missing input field " ++ positionText p
  | .cannotProject op => op ++ " cannot project its output"
  | .repeatedPosition => "output projection repeats a position"
  | .schemaMismatch exposed natural =>
    "exposed schema [" ++ Schema.text exposed ++ "] does not match its inputs [" ++
      Schema.text natural ++ "]"
  | .other message => message

def Defect.message : Defect → String
  | .tooFewChildren e => "Too few children supplied to rebuild " ++ e.text
  | .missingInput node => node ++ " is missing its input"
  | .noNode id => "Plan has no node #" ++ toString id
  | .noUnionField p => "No union input has field " ++ positionText p
  | .invalidNode id fault => "Invalid plan node #" ++ toString id ++ ": " ++ fault.message
  | .requiredPosition p arity =>
    "Required position " ++ positionText p ++ " is out of range for " ++ toString arity ++
      " fields"
  | .notExposed p node => "Position " ++ positionText p ++ " is not exposed by " ++ node
  | .noBag node input => node ++ " has no bag for input " ++ toString input
  | .noOutput node p => node ++ " has no output " ++ positionText p
  | .prunedColumn p => "Column " ++ positionText p ++ " was pruned but is still referenced"
  | .notNested p => "Column " ++ positionText p ++ " is dereferenced but is not a bag or tuple"
  | .prunedInner c p =>
    "Inner column " ++ positionText c ++ " of " ++ positionText p ++
      " was pruned but is still referenced"
  | .noRequirement id => "No requirement was computed for node #" ++ toString id
  | .itemWidth produced kept =>
    "ForEach produces " ++ toString produced ++ " fields after pruning but " ++
      toString kept ++ " were kept"
  | .noInput node input => node ++ " has no input " ++ toString input
  | .doesNotExpose node p => node ++ " does not expose " ++ positionText p
  | .inputPruned node p => node ++ " keeps " ++ positionText p ++ " but its input pruned it"
  | .rowWidth width p => "Row of width " ++ toString width ++ " has no " ++ positionText p
  | .innerWidth c => "Inner tuple has no " ++ positionText c
  | .noSuchBranch b id => "No branch " ++ toString b ++ " of #" ++ toString id
  | .notRun id => "#" ++ toString id ++ " has not run"
  | .storeWithoutInput => "Store without input"
  | .nodeWithoutInput id => "#" ++ toString id ++ " has no input"
  | .forEachWithoutInput => "ForEach without input"
  | .noProjected p => "Row has no " ++ positionText p ++ " to project"
  | .restated message => message

namespace Error

def kind : Error → ErrorKind
  | .position _ _ => .fieldNotFound
  | .type _ => .typeError
  | .value _ => .valueError
  | .internal _ => .internal
  | .creation _ => .external
  | .reported r => r.kind

def message : Error → String
  | .position p schema =>
    "Position " ++ positionText p ++ " is out of range for schema [" ++ Schema.text schema ++ "]"
  | .type fault => fault.message
  | .value fault => fault.message
  | .internal defect => defect.message
  | .creation cause =>
    "CreationError \x7b source: " ++ cause.kind.name ++ "(" ++ Text.quote cause.message ++ ") \x7d"
  | .reported r => r.message

/-- Whether the error is a defect of the planner. -/
def isInternal (e : Error) : Bool := e.kind == .internal

/-- The error as a defect of the planner, with the same message. -/
def asDefect (e : Error) : Error :=
  if e.isInternal then e else .internal (.restated e.message)

end Error

/-- The error of an operation that created an operator. -/
def creating {α : Type} (r : Except Error α) : Except Error α := r.mapError .creation

def failing {α : Type} (r : Except Error α) : Except Failure α := r.mapError .error

end Dataflow
