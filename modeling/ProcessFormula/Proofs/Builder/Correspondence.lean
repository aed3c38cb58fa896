import ProcessFormula.Proofs.Builder.Counting
import ProcessFormula.Proofs.Builder.Tables

/-!
What a run of the builder has in common with a run of the parser. The parser reads a tree over names,
keeps no tables and no counter. The builder's tree is that tree with every name replaced by the
variable that it means; the state that the builder hands back is right for the names that were read
on top of those in front; and the latest unquoted name is that of what was read, if there is one.
-/

namespace ProcessFormula.Builder

open Lexeme Text
open ProcessFormula.Parser (Failure limited maxHeight)

/-! ### Related runs -/

/-- The first computation, with the state that it hands back, succeeds with a result that is related
to that of the second, or both fail alike. -/
inductive Refined {α β : Type} (related : α → β → State → Prop) :
    Except Failure α × State → Except Failure β → Prop
  | ok {a : α} {b : β} {d : State} (h : related a b d) : Refined related (.ok a, d) (.ok b)
  | error (e : Failure) (d : State) : Refined related (.error e, d) (.error e)

section

variable {α β γ δ : Type} {related : α → β → State → Prop} {related' : γ → δ → State → Prop}

/-- Computations that go on from related results refine each other as a whole. A failure of the
first step ends both. -/
theorem Refined.bind {x : Build α} {y : Except Failure β} {d : State}
    (h : Refined related (x.runFrom d) y) {f : α → Build γ} {g : β → Except Failure δ}
    (hmore : ∀ a b d', related a b d' → Refined related' ((f a).runFrom d') (g b)) :
    Refined related' ((x >>= f).runFrom d) (y >>= g) := by
  rw [Build.runFrom_bind]
  generalize x.runFrom d = run at h
  cases h with
  | ok h => exact hmore _ _ _ h
  | error e d' => exact .error e d'

theorem Refined.mono {run : Except Failure α × State} {y : Except Failure β}
    (h : Refined related run y) {weaker : α → β → State → Prop}
    (hmore : ∀ a b d', related a b d' → weaker a b d') : Refined weaker run y := by
  cases h with
  | ok h => exact .ok (hmore _ _ _ h)
  | error e d' => exact .error e d'

/-- What the one fails with, the other does too. -/
theorem Refined.eq_error {run : Except Failure α × State} {y : Except Failure β} {e : Failure}
    (h : Refined related run y) (he : run.1 = .error e) : y = .error e := by
  cases h with
  | ok _ => cases he
  | error e' _ => rw [Except.error.inj he]

/-- A step without a state. -/
theorem refined_lift (x : Except Failure α) (d : State) :
    Refined (fun a b d' => a = b ∧ d' = d) ((liftM x : Build α).runFrom d) x := by
  rw [Build.runFrom_lift]
  cases x with
  | ok a => exact .ok ⟨rfl, rfl⟩
  | error e => exact .error e d

/-- A tree is too tall for the one exactly if it is for the other. -/
theorem refined_branch (node : Expr Variable) (tree : Expr String) {height : Nat}
    (h : height = tree.height) (unread : Input) (d : State) :
    Refined (fun t tree' d' => t = ⟨node, height⟩ ∧ tree' = tree ∧ d' = d)
      ((liftM (branch node height unread) : Build Subtree).runFrom d) (limited tree unread) := by
  rw [Build.runFrom_lift]
  unfold branch limited
  by_cases hbound : tree.height ≤ maxHeight
  · rw [if_neg (by omega), if_pos hbound]
    exact .ok ⟨rfl, rfl, rfl⟩
  · rw [if_pos (by omega), if_neg hbound]
    exact .error _ _

end

/-! ### Trees over names and over variables -/

namespace Origin

variable {o : Origin} {names : List String}

/-- The second tree is the first one, read behind such names, with every name replaced by the
variable that it means, whatever names may follow. -/
def Denotes (o : Origin) (names : List String) (tree : Expr String) (node : Expr Variable) : Prop :=
  ∀ later, node = tree.map (o.variableOf (names ++ tree.vars ++ later))

def DenotesAll (o : Origin) (names : List String) (trees : List (Expr String))
    (nodes : List (Expr Variable)) : Prop :=
  ∀ later, nodes = Expr.mapAll (o.variableOf (names ++ Expr.allVars trees ++ later)) trees

theorem denotes_constant (value : Value) : o.Denotes names (.constant value) (.constant value) :=
  fun _ => rfl

theorem denotes_var (o : Origin) (names : List String) (name : String) :
    o.Denotes names (.var name) (.var (o.variableOf (names ++ [name]) name)) := by
  intro later
  simp only [Expr.map, Expr.vars]
  rw [o.variableOf_append (by simp) later]

theorem Denotes.unary {tree : Expr String} {node : Expr Variable} (h : o.Denotes names tree node)
    (op : UnaryOp) : o.Denotes names (.unary op tree) (.unary op node) :=
  fun later => congrArg (Expr.unary op) (h later)

/-- The right operand is read behind the names of the left one. -/
theorem Denotes.binary {left right : Expr String} {leftNode rightNode : Expr Variable}
    (hleft : o.Denotes names left leftNode)
    (hright : o.Denotes (names ++ left.vars) right rightNode) (op : BinaryOp) :
    o.Denotes names (.binary op left right) (.binary op leftNode rightNode) := by
  intro later
  rw [hleft (right.vars ++ later), hright later]
  simp only [Expr.map, Expr.vars, List.append_assoc]

theorem Denotes.conditional {condition thenBranch elseBranch : Expr String}
    {conditionNode thenNode elseNode : Expr Variable}
    (hcondition : o.Denotes names condition conditionNode)
    (hthen : o.Denotes (names ++ condition.vars) thenBranch thenNode)
    (helse : o.Denotes (names ++ condition.vars ++ thenBranch.vars) elseBranch elseNode) :
    o.Denotes names (.conditional condition thenBranch elseBranch)
      (.conditional conditionNode thenNode elseNode) := by
  intro later
  rw [hcondition (thenBranch.vars ++ elseBranch.vars ++ later),
    hthen (elseBranch.vars ++ later), helse later]
  simp only [Expr.map, Expr.vars, List.append_assoc]

theorem DenotesAll.call {trees : List (Expr String)} {nodes : List (Expr Variable)}
    (h : o.DenotesAll names trees nodes) (function : Callable) :
    o.Denotes names (.call function trees) (.call function nodes) :=
  fun later => congrArg (Expr.call function) (h later)

theorem denotesAll_nil : o.DenotesAll names [] [] := fun _ => rfl

/-- The arguments behind the first are read behind its names. -/
theorem Denotes.cons {tree : Expr String} {node : Expr Variable} {trees : List (Expr String)}
    {nodes : List (Expr Variable)} (h : o.Denotes names tree node)
    (hmore : o.DenotesAll (names ++ tree.vars) trees nodes) :
    o.DenotesAll names (tree :: trees) (node :: nodes) := by
  intro later
  rw [h (Expr.allVars trees ++ later), hmore later]
  simp only [Expr.mapAll, Expr.allVars, List.append_assoc]

/-! ### States -/

/-- The state is right in front of the text `s`, behind such names and with so many levels open. The
latest unquoted name stands in front of `s`. -/
structure At (o : Origin) (levels : Nat) (names : List String) (s : Input) (d : State) : Prop where
  tables : o.Tables names d
  nesting : d.nesting = levels
  latest : ∀ name t, d.lastName = some (name, t) → s.length < t.length

/-- Between the states lies a stretch of text, from `s` to `rest`, with such names in it. The last
unquoted one among them, if there is one, is now the latest. -/
structure Passes (o : Origin) (levels : Nat) (names vars : List String)
    (lastName : Option (String × Input)) (s rest : Input) (d d' : State) : Prop where
  at_rest : o.At levels (names ++ vars) rest d'
  latest : d'.lastName = lastName.or d.lastName
  within : ∀ name t, lastName = some (name, t) → t.length ≤ s.length

variable {levels : Nat} {s t rest : Input} {d d' d'' : State} {vars vars' : List String}
  {lastName lastName' : Option (String × Input)}

theorem At.behind (h : o.At levels names s d) (hle : t.length ≤ s.length) :
    o.At levels names t d :=
  ⟨h.tables, h.nesting, fun name u hu => Nat.lt_of_le_of_lt hle (h.latest name u hu)⟩

theorem At.passes (h : o.At levels names s d) (hle : rest.length ≤ s.length) :
    o.Passes levels names [] none s rest d d :=
  ⟨by simpa using h.behind hle, rfl, fun _ _ => nofun⟩

/-- One stretch of text behind another. -/
theorem Passes.trans (h : o.Passes levels names vars lastName s rest d d')
    (h' : o.Passes levels (names ++ vars) vars' lastName' t u d' d'') (hle : t.length ≤ s.length) :
    o.Passes levels names (vars ++ vars') (lastName'.or lastName) s u d d'' := by
  refine ⟨by simpa using h'.at_rest, by rw [h'.latest, h.latest, Option.or_assoc], ?_⟩
  intro name v hv
  rcases Option.or_eq_some_iff.mp hv with hv | ⟨-, hv⟩
  · exact Nat.le_trans (h'.within name v hv) hle
  · exact h.within name v hv

/-- The stretch may end anywhere further on where no name stands in between. -/
theorem Passes.behind (h : o.Passes levels names vars lastName s rest d d')
    (hle : t.length ≤ rest.length) : o.Passes levels names vars lastName s t d d' :=
  ⟨h.at_rest.behind hle, h.latest, h.within⟩

theorem Passes.earlier (h : o.Passes levels names vars lastName s rest d d')
    (hle : s.length ≤ t.length) : o.Passes levels names vars lastName t rest d d' :=
  ⟨h.at_rest, h.latest, fun name u hu => Nat.le_trans (h.within name u hu) hle⟩

end Origin

end ProcessFormula.Builder
