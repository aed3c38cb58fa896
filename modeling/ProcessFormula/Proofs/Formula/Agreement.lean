import ProcessFormula.Proofs.Expr.Variables
import ProcessFormula.Proofs.Formula.Evaluation
import ProcessFormula.Proofs.Function.Steadiness

/-!
What the value of a formula depends on: the values of the variables that occur in it, and, for a
random number or a function from outside, the moment. The value is the same over any two stores that
agree on the cells of the formula.
-/

namespace ProcessFormula

/-- Calls compute the same with two sequences of moments, each with the one that is its own and
whatever its arguments are. -/
def SameAt (m m' : Moments) (calls : List (Callable × Nat)) : Prop :=
  ∀ (i : Nat) (call : Callable × Nat), calls[i]? = some call → ∀ args : List Value, args.length = call.2 →
    call.1.compute (m i) args = call.1.compute (m' i) args

namespace SameAt

variable {m m' : Moments} {calls more : List (Callable × Nat)}

theorem refl (m : Moments) (calls : List (Callable × Nat)) : SameAt m m calls :=
  fun _ _ _ _ _ => rfl

/-- Steady calls do not care for the moment. -/
theorem of_steady (h : ∀ call ∈ calls, call.1.Steady ∧ call.1.arity.accepts call.2 = true)
    (m m' : Moments) : SameAt m m' calls := by
  intro i call hcall args hlength
  obtain ⟨hsteady, hcount⟩ := h call (List.mem_of_getElem? hcall)
  exact hsteady _ _ args (by rw [hlength, hcount])

/-- Calls that stand behind others have the moments behind theirs. -/
theorem of_append (h : SameAt m m' (calls ++ more)) :
    SameAt m m' calls ∧ SameAt (m.behind calls.length) (m'.behind calls.length) more := by
  refine ⟨fun i call hcall => h i call ?_, fun i call hcall => h (calls.length + i) call ?_⟩
  · rw [List.getElem?_append_left (List.getElem?_eq_some_iff.mp hcall).1, hcall]
  · rw [List.getElem?_append_right (Nat.le_add_right ..), Nat.add_sub_cancel_left, hcall]

end SameAt

namespace Expr

variable {ν : Type} {read read' : ν → Value}

mutual

/-- Trees are evaluated alike where their variables have the same values and their calls compute the
same. -/
theorem eval_congr {m m' : Moments} {e : Expr ν} (hcalls : SameAt m m' e.calls)
    (hread : ∀ x ∈ e.vars, read x = read' x) : e.eval read m = e.eval read' m' := by
  match e with
  | .constant value => rfl
  | .var x => exact congrArg Except.ok (hread x (by simp [vars]))
  | .unary op operand =>
      simp only [eval, eval_congr (e := operand) hcalls hread]
  | .binary op left right =>
      obtain ⟨hleft, hright⟩ := SameAt.of_append hcalls
      simp only [vars, List.forall_mem_append] at hread
      simp only [eval, eval_congr hleft hread.1, eval_congr hright hread.2]
  | .conditional condition thenBranch elseBranch =>
      obtain ⟨hboth, helse⟩ := SameAt.of_append hcalls
      obtain ⟨hcondition, hthen⟩ := hboth.of_append
      simp only [vars, List.forall_mem_append] at hread
      simp only [eval, eval_congr hcondition hread.1.1, eval_congr hthen hread.1.2,
        eval_congr helse hread.2]
  | .call f args =>
      obtain ⟨hargs, hown⟩ := SameAt.of_append hcalls
      simp only [vars] at hread
      simp only [eval, evalAll_congr hargs hread]
      cases hvalues : evalAll read' m' args with
      | error e => rfl
      | ok values => exact hown 0 _ rfl values (length_of_evalAll hvalues)

theorem evalAll_congr {m m' : Moments} {args : List (Expr ν)}
    (hcalls : SameAt m m' (allCalls args)) (hread : ∀ x ∈ allVars args, read x = read' x) :
    evalAll read m args = evalAll read' m' args := by
  match args with
  | [] => rfl
  | e :: rest =>
      obtain ⟨hfirst, hrest⟩ := SameAt.of_append hcalls
      simp only [allVars, List.forall_mem_append] at hread
      simp only [evalAll, eval_congr hfirst hread.1, evalAll_congr hrest hread.2]

end

end Expr

namespace Formula

/-- No random number occurs in the formula: it calls functions of the library other than `rnd`, and
functions from outside that compute the same at every moment. -/
def WithoutRandom (f : Formula) : Prop :=
  ∀ call ∈ f.root.calls, call.1 ∈ libraryFunctions ∧ call.1.name ≠ "rnd" ∨ call.1.Steady

/-- Functions of the library are steady but for the random number. -/
theorem WithoutRandom.steady {f : Formula} (h : f.WithoutRandom) {call : Callable × Nat}
    (hcall : call ∈ f.root.calls) : call.1.Steady := by
  rcases h call hcall with ⟨hlibrary, hname⟩ | hsteady
  · exact steady_of_library hlibrary hname
  · exact hsteady

/-- A formula has the same value over stores that agree on its cells. -/
theorem eval_congr {f : Formula} {store store' : Store} {m m' : Moments}
    (hcalls : SameAt m m' f.root.calls)
    (hread : ∀ v, f.root.containsVariable v = true → store.read v = store'.read v) :
    f.eval store m = f.eval store' m' := by
  refine Expr.eval_congr hcalls fun v hv => hread v ?_
  exact Expr.containsVariable_iff.mpr ⟨v, Expr.hasLeaf_of_mem_vars hv, rfl⟩

end Formula

end ProcessFormula
