import ProcessFormula.Expr.Basic

/-!
The height of a tree, and that other variables do not change it.
-/

namespace ProcessFormula.Expr

variable {ν μ : Type}

def children : Expr ν → List (Expr ν)
  | .constant _ | .var _ => []
  | .unary _ operand => [operand]
  | .binary _ left right => [left, right]
  | .conditional condition thenBranch elseBranch => [condition, thenBranch, elseBranch]
  | .call _ args => args

theorem tallest_eq_foldr (trees : List (Expr ν)) :
    tallest trees = (trees.map height).foldr max 0 := by
  induction trees with
  | nil => rfl
  | cons tree trees ih => rw [tallest, ih, List.map_cons, List.foldr_cons]

/-- A tree is one higher than the tallest of its children. -/
theorem height_eq_children (tree : Expr ν) :
    tree.height = 1 + (tree.children.map height).foldr max 0 := by
  rw [← tallest_eq_foldr, Nat.add_comm]
  cases tree with
  | constant | var | call => rfl
  | unary | binary => simp [height, children, tallest]
  | conditional => simp [height, children, tallest, Nat.max_assoc]

mutual

/-- Other variables leave the height as it is. -/
theorem height_map (f : ν → μ) (e : Expr ν) : (e.map f).height = e.height := by
  cases e with
  | constant | var => rfl
  | unary _ operand => simp [map, height, height_map f operand]
  | binary _ left right => simp [map, height, height_map f left, height_map f right]
  | conditional condition thenBranch elseBranch =>
      simp [map, height, height_map f condition, height_map f thenBranch, height_map f elseBranch]
  | call _ args => simp [map, height, tallest_mapAll f args]

theorem tallest_mapAll (f : ν → μ) (args : List (Expr ν)) :
    tallest (mapAll f args) = tallest args := by
  cases args with
  | nil => rfl
  | cons e rest => simp [mapAll, tallest, height_map f e, tallest_mapAll f rest]

end

end ProcessFormula.Expr
