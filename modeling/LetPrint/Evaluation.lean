import LetPrint.Environment
import LetPrint.Stream

/-! # Evaluation

Statements run in order on an environment and a sink; the first error stops them.
-/
namespace LetPrint

structure Machine where
  env : Environment
  sink : Sink
  deriving DecidableEq, Repr

def Expr.eval (env : Environment) : Expr → Except Error Value
  | text content _ => .ok (.text content)
  | undefined _ => .ok .undefined
  | name identifier span => env.get identifier span.start

def Expr.evalInitializer (env : Environment) : Option Expr → Except Error Value
  | some e => e.eval env
  | none => .ok .undefined

def Machine.print (m : Machine) (value : Value) : Except Error Unit × Machine :=
  let (result, sink) := m.sink.writeLine value.render
  (result, { m with sink := sink })

/-- Runs a statement, whose own value is undefined. -/
def Stmt.exec (m : Machine) : Stmt → Traced (Except Error Value × Machine)
  | print operand _ =>
    match operand.eval m.env with
    | .error error => pure (.error error, m)
    | .ok value =>
      match m.print value with
      | (.error error, m) => pure (.error error, m)
      | (.ok (), m) => pure (.ok .undefined, m)
  | bind identifier initializer _ =>
    match Expr.evalInitializer m.env initializer with
    | .error error => pure (.error error, m)
    | .ok value => do
      let env ← m.env.bindNoted identifier value
      return (.ok .undefined, { m with env := env })

/-- Runs statements in order, up to the first error. -/
def execAll (m : Machine) : List Stmt → Traced (Except Error Unit × Machine)
  | [] => pure (.ok (), m)
  | stmt :: rest => do
    Traced.note (.evaluating stmt)
    match ← stmt.exec m with
    | (.error error, m) => return (.error error, m)
    | (.ok _, m) => execAll m rest

def Program.exec (m : Machine) (program : Program) : Traced (Except Error Unit × Machine) :=
  execAll m program.statements

end LetPrint
