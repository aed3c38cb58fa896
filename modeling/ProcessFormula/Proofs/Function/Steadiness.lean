import ProcessFormula.Proofs.Metadata.Functions

/-!
Functions whose results do not depend on the moment. A result is stamped with the clock only if it is
derived from no values at all, and every function of the library takes some; so of the library only
the random number is another one at another moment.
-/

namespace ProcessFormula

/-- With a number of arguments that it takes, the function computes the same at every moment. -/
def Callable.Steady (f : Callable) : Prop :=
  ∀ (m m' : Moment) (args : List Value), f.arity.accepts args.length = true →
    f.compute m args = f.compute m' args

/-- A function that takes some arguments has to be steady only with some. -/
theorem steady_of_cons {f : Callable} (hnone : f.arity.accepts 0 = false)
    (h : ∀ (m m' : Moment) (first : Value) (rest : List Value),
      f.compute m (first :: rest) = f.compute m' (first :: rest)) : f.Steady := by
  intro m m' args hcount
  cases args with
  | nil =>
      rw [List.length_nil, hnone] at hcount
      cases hcount
  | cons first rest => exact h m m' first rest

-- What is derived from at least one value takes its time from the values, so the two computations
-- are the same term once the arguments are known not to be empty.

theorem Math.steady {f : Callable} (hf : f ∈ Math.all) : f.Steady := by
  revert f
  simp only [all, List.forall_mem_cons]
  and_intros
  iterate 23 exact fun _ _ _ _ => rfl
  simp

/-- The random number is the one function that is left out. -/
theorem Builtin.steady {f : Callable} (hf : f ∈ Builtin.all) (hname : f.name ≠ "rnd") :
    f.Steady := by
  simp only [all, List.mem_cons, List.not_mem_nil, or_false] at hf
  rcases hf with rfl | rfl | rfl
  · exact absurd rfl hname
  · exact steady_of_cons rfl fun _ _ _ _ => rfl
  · exact steady_of_cons rfl fun _ _ _ _ => rfl

theorem AlarmFunction.steady {f : Callable} (hf : f ∈ AlarmFunction.all) : f.Steady := by
  simp only [all, List.mem_cons, List.not_mem_nil, or_false] at hf
  rcases hf with rfl | rfl | rfl
  · exact steady_of_cons rfl fun _ _ _ _ => rfl
  · exact fun _ _ _ _ => rfl
  · exact fun _ _ _ _ => rfl

theorem ArrayFunction.steady {f : Callable} (hf : f ∈ ArrayFunction.all) : f.Steady := by
  simp only [all, List.mem_cons, List.not_mem_nil, or_false] at hf
  rcases hf with rfl | rfl | rfl | rfl | rfl | rfl | rfl
  · exact steady_of_cons rfl fun _ _ _ _ => rfl
  iterate 5 exact fun _ _ _ _ => rfl
  exact steady_of_cons rfl fun _ _ _ _ => rfl

theorem Industrial.steady {f : Callable} (hf : f ∈ Industrial.all) : f.Steady := by
  simp only [all, List.mem_cons, List.not_mem_nil, or_false] at hf
  rcases hf with rfl | rfl | rfl | rfl
  · exact fun _ _ _ _ => rfl
  · exact steady_of_cons rfl fun _ _ _ _ => rfl
  · exact fun _ _ _ _ => rfl
  · exact steady_of_cons rfl fun _ _ _ _ => rfl

theorem TextFunction.steady {f : Callable} (hf : f ∈ TextFunction.all) : f.Steady := by
  simp only [all, List.mem_cons, List.not_mem_nil, or_false] at hf
  rcases hf with rfl | rfl
  · exact steady_of_cons rfl fun _ _ _ _ => rfl
  · exact fun _ _ _ _ => rfl

/-- Only the random number depends on the moment. -/
theorem steady_of_library {f : Callable} (hf : f ∈ libraryFunctions) (hname : f.name ≠ "rnd") :
    f.Steady := by
  simp only [libraryFunctions, Registry.knownPlugins, List.mem_append] at hf
  rcases hf with hf | ((((hf | hf) | hf) | hf) | hf)
  · exact Builtin.steady hf hname
  · exact AlarmFunction.steady hf
  · exact ArrayFunction.steady hf
  · exact Industrial.steady hf
  · exact Math.steady hf
  · exact TextFunction.steady hf

end ProcessFormula
