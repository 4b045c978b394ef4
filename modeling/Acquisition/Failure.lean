/-!
# Failures of an acquisition

An operation that does not give a value ends in one of three ways.

* An *error* is foreseen: a limit has passed, an oracle has no answer, a
  variable has no domain. The caller may go on with what is left.
* A *fault* is a broken promise: an identifier that was never handed out, a
  sum that leaves its word, a clause without literals where none may be.
  Nothing is said about any state after a fault.
* A search without an evident bound is run on *fuel*, and spending all of it is
  neither a value nor one of the two above.
-/
namespace Acquisition

/-- A variable of a constraint network. -/
abbrev Var := Nat

/-- A value taken by a variable. -/
abbrev Value := Int

/-- The place of a constraint in its arena. -/
abbrev ConstraintId := Nat

/-- A boolean variable of the propositional layer. -/
abbrev Atom := Nat

/-- The foreseen ways in which an operation may end without a value. -/
inductive ErrorKind
  /-- The deadline of the run has passed. -/
  | timeout
  /-- A bias that has to be closed under negation holds `c` without its negation. -/
  | incompleteBias (c : ConstraintId)
  /-- The constraint was given a second atom. -/
  | doubleRegistration (c : ConstraintId)
  /-- A constraint without an atom was looked up. -/
  | missing (c : ConstraintId)
  /-- The oracle could not classify a query. -/
  | oracleUnknown
  /-- A query that already has a verdict was given another. -/
  | alreadyClassified
  /-- There are more or fewer values than variables. -/
  | misaligned
  /-- A single call of a backend ran past its limit. -/
  | backendTimeout
  /-- A formula mentions an atom that was never allocated. -/
  | unknownAtom (a : Atom)
  /-- A variable of a network has no domain. -/
  | unknownVariable (v : Var)
  /-- A network taken to be satisfiable had no witness. -/
  | missingWitness
deriving DecidableEq, Repr

/-- The text of an error: the part of the library that gives up, around what it
gives up on. -/
def ErrorKind.render : ErrorKind → String
  | .timeout => "Timeout"
  | .incompleteBias c => s!"Build(IncompleteBias({c}))"
  | .doubleRegistration c => s!"Mapping(DoubleRegistration({c}))"
  | .missing c => s!"Mapping(Missing({c}))"
  | .oracleUnknown => "Oracle(Unknown)"
  | .alreadyClassified => "Query(AlreadyClassified)"
  | .misaligned => "Query(Misaligned)"
  | .backendTimeout => "Solver(Timeout)"
  | .unknownAtom a => s!"Solver(UnknownAtom({a}))"
  | .unknownVariable v => s!"Solver(UnknownVariable({v}))"
  | .missingWitness => "Solver(MissingWitness)"

/-- The promises whose breach ends an operation for good. -/
inductive Fault
  /-- The identifier was never handed out by the arena. -/
  | unregistered (c : ConstraintId)
  /-- A constraint was checked on fewer values than it has variables. -/
  | tooFewValues
  /-- The result of a sum or a negation does not fit its 64-bit word. -/
  | overflow
  /-- More was to be listed than there is room for. -/
  | noRoom
  /-- A clause without literals was met where every clause has one. -/
  | emptyClause
  /-- Every clause had to be of one literal, and some clause is longer. -/
  | notMonomial
  /-- A negated literal was given where a positive one is due. -/
  | negatedLiteral
  /-- The literal given for a constraint stands for another one. -/
  | foreignLiteral
  /-- A contradiction without members was recorded. -/
  | emptyContradiction
  /-- The members of a conflict hold together after all. -/
  | consistentConflict
  /-- A subset was grown beyond what its witness supports. -/
  | unsupportedSubset
  /-- The empty subset was found maximal beside a consistent constraint. -/
  | neglectedConstraint
  /-- A clause was to be split and there was none. -/
  | nothingToSplit
  /-- Some open constraint had to be free and none was. -/
  | nothingFree
deriving DecidableEq, Repr

/-- How an operation ends when it gives no value. -/
inductive Failure
  | error (e : ErrorKind)
  | fault (f : Fault)
  | outOfFuel
deriving DecidableEq, Repr

/-- An operation without effects that may break a promise. -/
abbrev Checked (α : Type) := Except Fault α

end Acquisition
