import ProcessFormula.Formula.Compile
import ProcessFormula.Proofs.Builder.Refinement

/-!
Compiling in two steps, which come to the same as building the formula in one: the parser makes a
tree over names, and then the names are bound, all at once. The first step depends on the caller's
variables only through the names it knows, and the second cannot fail.
-/

namespace ProcessFormula.Formula

def callers (mode : BindingMode) (offered : List Variable) : List Variable :=
  if mode = .fixed then offered else []

def scope (registry : Registry) (now : Timestamp) (mode : BindingMode) (offered : List Variable) :
    Parser.Scope :=
  ⟨knownName mode (callers mode offered), registry.resolve, now⟩

def binding (mode : BindingMode) (offered : List Variable) (store : Store) (tree : Expr String) :
    String → Variable :=
  bind (callers mode offered) (freeNames (callers mode offered) tree.vars) store.size

/-- The names of a tree that become variables of the formula without being the caller's. -/
def discovered (mode : BindingMode) (offered : List Variable) (tree : Expr String) : List String :=
  (freeNames (callers mode offered) tree.vars).filter fun name => !isConstantName name

def compiled (now : Timestamp) (mode : BindingMode) (offered : List Variable) (text : String)
    (store : Store) (tree : Expr String) : Formula × Store :=
  let variableOf := binding mode offered store tree
  (⟨text, tree.map variableOf,
      callers mode offered ++ (discovered mode offered tree).map variableOf, mode⟩,
    store.extend ((freeNames (callers mode offered) tree.vars).map (initialValue now)))

def origin (registry : Registry) (now : Timestamp) (mode : BindingMode) (offered : List Variable)
    (store : Store) : Builder.Origin :=
  ⟨⟨registry.resolve, mode, now⟩, callers mode offered, store⟩

theorem compile_eq (registry : Registry) (now : Timestamp) (mode : BindingMode)
    (offered : List Variable) (text : String) (store : Store) :
    compile registry now mode offered text store =
      match (Builder.formula (origin registry now mode offered store).setting text.toList).runFrom
        (origin registry now mode offered store).state with
      | (.ok root, d) => .ok (⟨text, root, d.inputs, mode⟩, d.store)
      | (.error failure, _) =>
        .error ⟨failure.fault, text, text.toList.length - failure.unread.length⟩ := rfl

/-- A text is compiled exactly if it is parsed. -/
theorem compile_eq_map (registry : Registry) (now : Timestamp) (mode : BindingMode)
    (offered : List Variable) (text : String) (store : Store) :
    compile registry now mode offered text store =
      (Parser.parse (scope registry now mode offered) text).map
        (compiled now mode offered text store) := by
  have hscope : (origin registry now mode offered store).scope =
      scope registry now mode offered := rfl
  have hbuilt := Builder.refined_formula (origin registry now mode offered store) text.toList
  rw [hscope] at hbuilt
  rw [compile_eq, Parser.parse]
  generalize Builder.Build.runFrom _ _ = run at hbuilt ⊢
  generalize Parser.formula _ text.toList = parsed at hbuilt ⊢
  cases hbuilt with
  | error e d => rfl
  | @ok root tree d h =>
      obtain ⟨rfl, htables⟩ := h
      dsimp only [Except.map]
      rw [htables.inputs, htables.store]
      rfl

/-- A text compiles exactly if it has a tree over names. The formula and its cells follow from this
tree. -/
theorem compile_eq_ok_iff {registry : Registry} {now : Timestamp} {mode : BindingMode}
    {offered : List Variable} {text : String} {store : Store} {result : Formula × Store} :
    compile registry now mode offered text store = .ok result ↔
      ∃ tree, Parser.parse (scope registry now mode offered) text = .ok tree ∧
        compiled now mode offered text store tree = result := by
  rw [compile_eq_map]
  cases Parser.parse (scope registry now mode offered) text with
  | error e => simp [Except.map]
  | ok tree => simp [Except.map]

/-- The tree that the parser reads is the one that is compiled. -/
theorem compile_of_parse {registry : Registry} {now : Timestamp} {mode : BindingMode}
    {offered : List Variable} {text : String} {tree : Expr String}
    (h : Parser.parse (scope registry now mode offered) text = .ok tree) (store : Store) :
    compile registry now mode offered text store =
      .ok ((compiled now mode offered text store tree).1,
        (compiled now mode offered text store tree).2) :=
  compile_eq_ok_iff.mpr ⟨tree, h, rfl⟩

/-- A text is refused at what the parser left unread. -/
theorem compile_of_failure {registry : Registry} {now : Timestamp} {mode : BindingMode}
    {offered : List Variable} {text : String} {failure : Parser.Failure}
    (h : Parser.formula (scope registry now mode offered) text.toList = .error failure)
    (store : Store) :
    compile registry now mode offered text store =
      .error ⟨failure.fault, text, text.toList.length - failure.unread.length⟩ := by
  rw [compile_eq_map, Parser.parse, h]
  rfl

/-! ### Results that are known in part -/

theorem exists_of_isOk {ε α : Type} {x : Except ε α} (h : x.isOk = true) : ∃ a, x = .ok a := by
  cases x with
  | ok a => exact ⟨a, rfl⟩
  | error e => cases h

theorem exists_of_map {ε α β : Type} {x : Except ε α} {f : α → β} {b : β}
    (h : x.map f = .ok b) : ∃ a, x = .ok a ∧ f a = b := by
  cases x with
  | ok a => exact ⟨a, rfl, Except.ok.inj h⟩
  | error e => cases h

theorem eq_error_of_map {ε α : Type} {x : Except ε α} {e : ε}
    (h : x.map (fun _ => ()) = .error e) : x = .error e := by
  cases x with
  | ok a => cases h
  | error e' => exact congrArg Except.error (Except.error.inj h)

end ProcessFormula.Formula
