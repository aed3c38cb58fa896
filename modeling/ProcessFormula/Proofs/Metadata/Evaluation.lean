import ProcessFormula.Expr.Eval
import ProcessFormula.Proofs.Metadata.Functions

/-!
Alarms and times go through a whole formula without loss: a result has the first worst alarm and the
latest time of the leaves that it was computed from.
-/

namespace ProcessFormula

open ProcessFormula.Parser (bind_eq_ok)

/-- The evaluation has a value of which the condition holds. -/
def Evaluation.gives (result : Evaluation) (condition : Value → Bool) : Bool :=
  match result with
  | .ok v => condition v
  | .error _ => false

/-- A call that combines the alarms and times of all its arguments: a function of the library with a
number of arguments that it takes. -/
def LibraryCall (f : Callable) (count : Nat) : Prop :=
  f ∈ libraryFunctions ∧ f.name ∉ exceptionalNames ∧ f.arity.accepts count = true

namespace Expr

variable {ν : Type}

mutual

/-- All calls in the tree are allowed ones. -/
def CallsOnly (allowed : Callable → Nat → Prop) : Expr ν → Prop
  | .constant _ => True
  | .var _ => True
  | .unary _ operand => operand.CallsOnly allowed
  | .binary _ left right => left.CallsOnly allowed ∧ right.CallsOnly allowed
  | .conditional condition thenBranch elseBranch =>
    condition.CallsOnly allowed ∧ thenBranch.CallsOnly allowed ∧ elseBranch.CallsOnly allowed
  | .call function args => allowed function args.length ∧ AllCallsOnly allowed args

def AllCallsOnly (allowed : Callable → Nat → Prop) : List (Expr ν) → Prop
  | [] => True
  | e :: rest => e.CallsOnly allowed ∧ AllCallsOnly allowed rest

end

mutual

/-- The values of the leaves that the result is computed from, in the order of evaluation. A left
operand that decides and the selection of a branch leave the other leaves out, and the condition
only selects. -/
def contributions (read : ν → Value) (m : Moments) : Expr ν → List Value
  | .constant value => [value]
  | .var x => [read x]
  | .unary _ operand => operand.contributions read m
  | .binary op left right =>
    left.contributions read m ++
      if (left.eval read m).gives op.decidedBy then []
      else right.contributions read (m.behind left.calls.length)
  | .conditional condition thenBranch elseBranch =>
    if (condition.eval read m).gives Value.isTrue then
      thenBranch.contributions read (m.behind condition.calls.length)
    else elseBranch.contributions read (m.behind (condition.calls ++ thenBranch.calls).length)
  | .call _ args => allContributions read m args

def allContributions (read : ν → Value) (m : Moments) : List (Expr ν) → List Value
  | [] => []
  | e :: rest =>
    e.contributions read m ++ allContributions read (m.behind e.calls.length) rest

end

end Expr

/-- Every operator takes over the worse alarm of its operands, whatever it computes. -/
theorem BinaryOp.combine_alarm (op : BinaryOp) (a b : Value) :
    (op.combine a b).alarm = a.alarm.worst b.alarm := by
  unfold combine
  split <;> rfl

theorem BinaryOp.combine_time (op : BinaryOp) (a b : Value) :
    (op.combine a b).time = a.time.latest b.time := by
  unfold combine
  split <;> rfl

/-- A call of a function that keeps metadata carries what its arguments carry. -/
theorem Callable.KeepsMetadata.carries {f : Callable} (hf : f.KeepsMetadata) {m : Moment}
    {args leaves : List Value} {v : Value} (hargs : CarriesEach args leaves)
    (hcount : f.arity.accepts args.length = true) (hv : f.compute m args = .ok v) :
    Carries v leaves := by
  have hne : args ≠ [] := by
    rintro rfl
    have hnone := hf.takesArguments
    rw [List.length_nil, hnone] at hcount
    cases hcount
  obtain ⟨halarm, htime⟩ := hf.fromArguments m args v hcount hv
  exact hargs.carries hne halarm htime

namespace Expr

variable {ν : Type} {read : ν → Value}

mutual

/-- The result of an evaluation carries the metadata of the values that contributed to it. -/
theorem eval_carries {m : Moments} {e : Expr ν} {v : Value}
    (hcalls : e.CallsOnly LibraryCall) (heval : e.eval read m = .ok v) :
    Carries v (e.contributions read m) := by
  match e with
  | .constant value =>
      obtain rfl := Except.ok.inj heval
      exact carries_single value
  | .var x =>
      obtain rfl := Except.ok.inj heval
      exact carries_single (read x)
  | .unary op operand =>
      obtain ⟨a, ha, heval⟩ := bind_eq_ok.mp heval
      obtain rfl := Except.ok.inj heval
      have hoperand := eval_carries (e := operand) hcalls ha
      exact ⟨hoperand.alarm, hoperand.time⟩
  | .binary op left right =>
      obtain ⟨hleft, hright⟩ := hcalls
      obtain ⟨a, ha, heval⟩ := bind_eq_ok.mp heval
      have hcarries := eval_carries hleft ha
      simp only [contributions, ha, Evaluation.gives]
      split at heval
      · next hdecided =>
        obtain rfl := Except.ok.inj heval
        rw [if_pos hdecided, List.append_nil]
        exact ⟨hcarries.alarm, hcarries.time⟩
      · next hopen =>
        obtain ⟨b, hb, heval⟩ := bind_eq_ok.mp heval
        obtain rfl := Except.ok.inj heval
        rw [if_neg hopen]
        exact hcarries.append (eval_carries hright hb) (op.combine_alarm a b) (op.combine_time a b)
  | .conditional condition thenBranch elseBranch =>
      obtain ⟨-, hthen, helse⟩ := hcalls
      obtain ⟨c, hc, heval⟩ := bind_eq_ok.mp heval
      simp only [contributions, hc, Evaluation.gives]
      split at heval
      · next htrue =>
        rw [if_pos htrue]
        exact eval_carries hthen heval
      · next hfalse =>
        rw [if_neg hfalse]
        exact eval_carries helse heval
  | .call f args =>
      obtain ⟨⟨hmem, hname, hcount⟩, hargs⟩ := hcalls
      obtain ⟨values, hvalues, heval⟩ := bind_eq_ok.mp heval
      obtain ⟨heach, hlength⟩ := evalAll_carries hargs hvalues
      rw [← hlength] at hcount
      exact (keepsMetadata_of_library hmem hname).carries heach hcount heval

theorem evalAll_carries {m : Moments} {args : List (Expr ν)} {values : List Value}
    (hcalls : AllCallsOnly LibraryCall args) (heval : evalAll read m args = .ok values) :
    CarriesEach values (allContributions read m args) ∧ values.length = args.length := by
  match args with
  | [] =>
      obtain rfl := Except.ok.inj heval
      exact ⟨.nil, rfl⟩
  | e :: rest =>
      obtain ⟨v, hv, heval⟩ := bind_eq_ok.mp heval
      obtain ⟨more, hmore, heval⟩ := bind_eq_ok.mp heval
      obtain rfl := Except.ok.inj heval
      obtain ⟨heach, hlength⟩ := evalAll_carries hcalls.2 hmore
      exact ⟨.cons (eval_carries hcalls.1 hv) heach, by simp [hlength]⟩

end

/-- The result of a formula has the alarm of the first of the contributing leaves whose severity has
the highest rank, and the latest time of these leaves. -/
theorem eval_metadata (read : ν → Value) (m : Moments) (e : Expr ν) (v : Value)
    (hcalls : e.CallsOnly LibraryCall) (heval : e.eval read m = .ok v) :
    FirstWorst v.alarm (e.contributions read m) ∧ IsLatest v.time (e.contributions read m) :=
  ⟨(eval_carries hcalls heval).alarm, (eval_carries hcalls heval).time⟩

/-- The greater of a disconnected and an invalid value is disconnected, which comes first. -/
theorem eval_metadata_max :
    let disconnected : Value := ⟨.text "pump", .disconnected, ⟨7, 0⟩⟩
    let invalid : Value := ⟨.text "valve", ⟨.invalid, "UDF"⟩, ⟨7, 5⟩⟩
    let e : Expr Bool := .call Builtin.max [.var true, .var false]
    let read (x : Bool) : Value := if x then disconnected else invalid
    let m : Moments := fun _ => ⟨⟨0, 0⟩, 0.5⟩
    ∃ v, e.eval read m = .ok v ∧
      FirstWorst v.alarm [disconnected, invalid] ∧ IsLatest v.time [disconnected, invalid] := by
  intro disconnected invalid e read m
  have hcalls : e.CallsOnly LibraryCall := by
    refine ⟨⟨?_, by decide, rfl⟩, trivial, trivial, trivial⟩
    simp [libraryFunctions, Builtin.all]
  exact ⟨_, rfl, eval_metadata read m e _ hcalls rfl⟩

end Expr

end ProcessFormula
