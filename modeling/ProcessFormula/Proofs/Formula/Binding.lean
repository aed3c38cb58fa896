import ProcessFormula.Proofs.Formula.Compiling

/-!
How the names of a tree are bound. A name of the caller's means the first variable of that name, and
every other name of the tree has a new cell of its own.
-/

namespace ProcessFormula.Formula

section

variable {now : Timestamp} {mode : BindingMode} {offered : List Variable} {text : String}
  {store : Store} {tree : Expr String}

/-- The variable that a name means has this name. -/
theorem name_comp_binding (mode : BindingMode) (offered : List Variable) (store : Store)
    (tree : Expr String) : Variable.name ∘ binding mode offered store tree = id :=
  funext fun _ => bind_name ..

/-- The names of the leaves are those of the tree that was parsed. -/
theorem root_map_name :
    (compiled now mode offered text store tree).1.root.map Variable.name = tree := by
  simp only [compiled, Expr.map_map, name_comp_binding, Expr.map_id]

/-- The names of the inputs are those that the caller offers, and behind them those that were
discovered. -/
theorem inputs_compiled_name (now : Timestamp) (mode : BindingMode) (offered : List Variable)
    (text : String) (store : Store) (tree : Expr String) :
    (compiled now mode offered text store tree).1.inputs.map Variable.name =
      (callers mode offered).map Variable.name ++ discovered mode offered tree := by
  simp only [compiled, List.map_append, List.map_map, name_comp_binding, List.map_id]

/-- A variable of the tree is the first of the caller's with its name, or the new cell of its
name. -/
theorem binding_cases (mode : BindingMode) (offered : List Variable) (store : Store)
    {tree : Expr String} {name : String} (hname : name ∈ tree.vars) :
    ((callers mode offered).find? fun v => v.name == name) = some (binding mode offered store tree
        name) ∨
      ((callers mode offered).find? fun v => v.name == name) = none ∧
        name ∈ freeNames (callers mode offered) tree.vars ∧
        binding mode offered store tree name =
          ⟨name, store.size + (freeNames (callers mode offered) tree.vars).idxOf name⟩ := by
  cases h : (callers mode offered).find? fun v => v.name == name with
  | none => exact Or.inr ⟨rfl, mem_freeNames.mpr ⟨hname, h⟩, bind_of_none h⟩
  | some v => exact Or.inl (congrArg some (bind_of_some h).symm)

/-- A new cell holds the constant of its name, or NaN. -/
theorem read_new (now : Timestamp) (text : String) (store : Store) {name : String}
    (hfree : name ∈ freeNames (callers mode offered) tree.vars) :
    (compiled now mode offered text store tree).2.read
        ⟨name, store.size + (freeNames (callers mode offered) tree.vars).idxOf name⟩ =
      initialValue now name := by
  refine Store.read_extend_new ?_
  rw [List.getElem?_map, List.getElem?_idxOf hfree]
  rfl

end

end ProcessFormula.Formula
