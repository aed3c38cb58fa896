import ProcessFormula.Formula.Builder

/-!
What the steps of the builder do to the state: the result of each, and the state that it hands back,
from any state that it is given.
-/

namespace ProcessFormula.Builder.Build

open Lexeme ProcessFormula.Parser

variable {α β : Type}

@[simp]
theorem runFrom_throw (e : Failure) (d : State) :
    (throw e : Build α).runFrom d = (.error e, d) := rfl

@[simp]
theorem runFrom_get (d : State) : (get : Build State).runFrom d = (.ok d, d) := rfl

@[simp]
theorem runFrom_modify (f : State → State) (d : State) :
    (modify f : Build PUnit).runFrom d = (.ok ⟨⟩, f d) := rfl

/-- A computation without a state leaves the state as it is. -/
@[simp]
theorem runFrom_lift (x : Except Failure α) (d : State) :
    (liftM x : Build α).runFrom d = (x, d) := by
  cases x with
  | ok a => rfl
  | error e => rfl

/-- The second of two steps goes on from the state that the first hands back, and a failure of the
first stands with that state. -/
theorem runFrom_bind (x : Build α) (f : α → Build β) (d : State) :
    (x >>= f).runFrom d =
      match x.runFrom d with
      | (.ok a, d') => (f a).runFrom d'
      | (.error e, d') => (.error e, d') := by
  unfold runFrom
  rw [ExceptT.run_bind, StateT.run_bind]
  rcases StateT.run (ExceptT.run x) d with ⟨e | a, d'⟩
  · rfl
  · rfl

/-- What is read inside starts with one level more, and that level is closed again behind a failure
too. -/
theorem runFrom_enter (unread : Input) (inside : Build α) (d : State) :
    (enter unread inside).runFrom d =
      if d.nesting = maxNesting then (.error ⟨.tooDeep maxNesting, unread⟩, d)
      else
        let (result, d') := inside.runFrom { d with nesting := d.nesting + 1 }
        (result, { d' with nesting := d'.nesting - 1 }) := by
  unfold enter
  simp only [runFrom_bind, runFrom_get]
  split
  · rfl
  · simp only [runFrom_bind, runFrom_modify, runFrom_lift]
    rfl

end ProcessFormula.Builder.Build
