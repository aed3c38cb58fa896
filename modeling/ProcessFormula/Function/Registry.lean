import ProcessFormula.Function.Alarm
import ProcessFormula.Function.Array
import ProcessFormula.Function.Builtin
import ProcessFormula.Function.Industrial
import ProcessFormula.Function.Math
import ProcessFormula.Function.Text
import ProcessFormula.Text.NameChar

/-!
The functions that formula text can name. A registry holds plug-in functions, at most one of each
name, the last one registered; behind them stand the built-in functions, whose names are found
whatever the case of their letters. A plug-in hides a built-in function of the same name.
-/

namespace ProcessFormula

/-- Which plug-in functions a registry starts with. -/
structure RegistryConfig where
  discoverPlugins : Bool := true
  disabledCategories : List String := []
  disabledFunctions : List String := []
  deriving DecidableEq

namespace RegistryConfig

def isEnabled (c : RegistryConfig) (f : Callable) : Bool :=
  !c.disabledCategories.contains f.category && !c.disabledFunctions.contains f.name

end RegistryConfig

structure Registry where
  plugins : List Callable

namespace Registry

def builtinsOnly : Registry := ⟨[]⟩

/-- Can formula text call a function of this name, and is it filed under some category? -/
def acceptable (f : Callable) : Bool :=
  match f.name.toList with
  | [] => false
  | c :: rest => !c.isDigit && (c :: rest).all Text.isNameChar && !f.category.isEmpty

/-- The plug-ins with one more, which takes the place of one of the same name. -/
def insert (f : Callable) : List Callable → List Callable
  | [] => [f]
  | g :: rest => if g.name = f.name then f :: rest else g :: insert f rest

/-- Adds a plug-in function; an unacceptable one changes nothing. The flag says which it was. -/
def register (r : Registry) (f : Callable) : Bool × Registry :=
  if acceptable f then (true, ⟨insert f r.plugins⟩) else (false, r)

def knownPlugins : List Callable :=
  AlarmFunction.all ++ ArrayFunction.all ++ Industrial.all ++ Math.all ++ TextFunction.all

def ofConfig (c : RegistryConfig) : Registry :=
  if c.discoverPlugins then
    (knownPlugins.filter c.isEnabled).foldl (fun r f => (r.register f).2) builtinsOnly
  else builtinsOnly

def full : Registry := ofConfig {}

def sameIgnoringCase (a b : String) : Bool :=
  a.toList.map Char.toLower == b.toList.map Char.toLower

def builtin? (name : String) : Option Callable :=
  Builtin.all.find? fun f => sameIgnoringCase f.name name

def plugin? (r : Registry) (name : String) : Option Callable :=
  r.plugins.find? fun f => f.name == name

def resolve (r : Registry) (name : String) : Option Callable :=
  (r.plugin? name).or (builtin? name)

/-- All functions by name: the plug-ins, and the built-in functions that none of them hides. -/
def functions (r : Registry) : List Callable :=
  let visible := Builtin.all.filter fun f => (r.plugin? f.name).isNone
  (r.plugins ++ visible).mergeSort fun f g => decide (f.name ≤ g.name)

def size (r : Registry) : Nat := r.functions.length

end Registry

end ProcessFormula
