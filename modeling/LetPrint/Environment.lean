import LetPrint.Event

/-! # Environments

An environment holds the declared names and the values of those that are bound. Parsing declares
names, evaluation binds them; a rollback forgets declarations that never got a value.
-/
namespace LetPrint

/-- The declared names, in order of declaration, and the bindings, in order of first binding. -/
structure Environment where
  declared : List String := []
  bindings : List (String × Value) := []
  deriving DecidableEq, Repr

namespace Environment

def addName (name : String) (names : List String) : List String :=
  if name ∈ names then names else names ++ [name]

/-- Puts a value in the place of a name's old one, or at the end. -/
def putValue (name : String) (value : Value) : List (String × Value) → List (String × Value)
  | [] => [(name, value)]
  | (other, old) :: rest =>
    if other = name then (name, value) :: rest else (other, old) :: putValue name value rest

def isDeclared (env : Environment) (name : String) : Bool := decide (name ∈ env.declared)

def value? (env : Environment) (name : String) : Option Value := env.bindings.lookup name

def isBound (env : Environment) (name : String) : Bool := (env.value? name).isSome

def declare (env : Environment) (name : String) : Environment :=
  { env with declared := addName name env.declared }

def bind (env : Environment) (name : String) (value : Value) : Environment :=
  ⟨addName name env.declared, putValue name value env.bindings⟩

def get (env : Environment) (name : String) (position : Position) : Except Error Value :=
  match env.value? name with
  | some value => .ok value
  | none => .error (.located (.identifierNotDefined name) position)

def checkpoint (env : Environment) : List String := env.declared

/-- Forgets the names that are neither in the checkpoint nor bound. -/
def rollback (env : Environment) (checkpoint : List String) : Environment :=
  { env with declared := env.declared.filter fun name => name ∈ checkpoint || env.isBound name }

def declareNoted (env : Environment) (name : String) : Traced Environment := do
  Traced.note (.declared name)
  return env.declare name

def bindNoted (env : Environment) (name : String) (value : Value) : Traced Environment := do
  Traced.note (.bound name value)
  return env.bind name value

def rollbackNoted (env : Environment) (checkpoint : List String) : Traced Environment := do
  let kept := env.rollback checkpoint
  Traced.note (.rolledBack kept.declared.length)
  return kept

end Environment

end LetPrint
