import ProcessFormula.Formula.Builder

/-!
From formula text to a formula. The caller's variables count in fixed mode only. What the builder
has among its variables when the text ends are the formula's inputs, and the cells that it added are
new in the store.
-/

namespace ProcessFormula.Formula

/-- Compiles formula text. A position is the number of characters that were read, and the store is
as it was if the text is refused. -/
def compile (registry : Registry) (now : Timestamp) (mode : BindingMode)
    (offered : List Variable) (text : String) (store : Store) :
    Except CompileError (Formula × Store) :=
  let setting : Builder.Setting := ⟨registry.resolve, mode, now⟩
  let callers := if mode = .fixed then offered else []
  match (Builder.formula setting text.toList).runFrom ⟨0, callers, [], none, store⟩ with
  | (.ok root, d) => .ok (⟨text, root, d.inputs, mode⟩, d.store)
  | (.error failure, _) =>
    .error ⟨failure.fault, text, text.toList.length - failure.unread.length⟩

end ProcessFormula.Formula
