import ProcessFormula.Value.Basic

/-!
Variables as named cells of a store. A variable says which cell it is, so two variables of one name
may be different cells; whoever knows a variable can change its value, and every formula that reads
the cell sees the change. Cells are only ever added, and a new cell is one that nobody knew before.
-/

namespace ProcessFormula

/-- A named cell. -/
structure Variable where
  name : String
  cell : Nat
  deriving DecidableEq

structure Store where
  cells : Array Value

namespace Store

def empty : Store := ⟨#[]⟩

/-- The number of cells, which is also the number of the next new cell. -/
def size (s : Store) : Nat := s.cells.size

/-- The value of a variable. A cell outside the store holds no number. -/
def read (s : Store) (v : Variable) : Value :=
  s.cells.getD v.cell (.number ⟨0, 0⟩ Binary64.nan)

def write (s : Store) (v : Variable) (value : Value) : Store :=
  ⟨s.cells.setIfInBounds v.cell value⟩

/-- Adds one cell for each of the values, in order. -/
def extend (s : Store) (values : List Value) : Store := ⟨s.cells ++ values⟩

def create (s : Store) (name : String) (value : Value) : Variable × Store :=
  (⟨name, s.size⟩, s.extend [value])

end Store

end ProcessFormula
