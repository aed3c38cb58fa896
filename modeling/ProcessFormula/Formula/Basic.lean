import ProcessFormula.Expr.Eval
import ProcessFormula.Expr.Printer
import ProcessFormula.Formula.Store

/-!
Compiled formulas. A formula keeps its text, its tree over variables and the variables that it was
bound to; evaluating it reads the cells and changes none.
-/

namespace ProcessFormula

/-- Which variables a formula may read: none, those the caller gives, or any name that occurs. -/
inductive BindingMode where
  | noVariables
  | fixed
  | autoDetect
  deriving DecidableEq

structure Formula where
  source : String
  root : Expr Variable
  /-- The caller's variables in fixed mode, the discovered ones in order of first occurrence in
  auto-detect mode. -/
  inputs : List Variable
  mode : BindingMode

namespace Formula

def eval (f : Formula) (store : Store) (m : Moments) : Evaluation := f.root.eval store.read m

def variableOf? (f : Formula) (name : String) : Option Variable :=
  f.inputs.find? fun v => v.name == name

def text (f : Formula) : String := f.root.text Variable.name

end Formula

namespace Expr

def references (e : Expr Variable) (name : String) : Bool := e.vars.any fun v => v.name == name

def containsVariable (e : Expr Variable) (v : Variable) : Bool :=
  e.vars.any fun w => w.cell == v.cell

end Expr

end ProcessFormula
