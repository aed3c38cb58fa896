import ProcessFormula.Proofs.Formula.Calls
import ProcessFormula.Proofs.Function.Checks

/-!
How the evaluation of a compiled formula fails. Operators never fail and neither does reading a
variable, so the error is that of a call; and compiling has checked that the call has the arguments
that its function takes.
-/

namespace ProcessFormula

open ProcessFormula.Parser (bind_eq_ok)

/-- A computation fails, if at all, because one of some calls refuses an argument. -/
def FailsOnlyIn {α : Type} (calls : List (Callable × Nat)) (x : Except EvalError α) : Prop :=
  (∃ a, x = .ok a) ∨ ∃ call ∈ calls, ∃ e, x = .error e ∧ BadArgument call.1.name call.2 e

namespace FailsOnlyIn

variable {α β : Type} {calls more : List (Callable × Nat)} {x : Except EvalError α}

theorem ok (a : α) : FailsOnlyIn calls (.ok a : Except EvalError α) := .inl ⟨a, rfl⟩

theorem mono (h : FailsOnlyIn calls x) (hsub : ∀ call ∈ calls, call ∈ more) :
    FailsOnlyIn more x := by
  rcases h with h | ⟨call, hcall, h⟩
  · exact .inl h
  · exact .inr ⟨call, hsub call hcall, h⟩

/-- What goes on from a result may fail in the same calls. -/
theorem bind (h : FailsOnlyIn calls x) {f : α → Except EvalError β}
    (hmore : ∀ a, x = .ok a → FailsOnlyIn calls (f a)) : FailsOnlyIn calls (x >>= f) := by
  rcases h with ⟨a, rfl⟩ | ⟨call, hcall, e, rfl, he⟩
  · exact hmore a rfl
  · exact .inr ⟨call, hcall, e, rfl, he⟩

end FailsOnlyIn

/-- A call that compiling lets through, of a function that checks its arguments. -/
def CheckedCall (call : Callable × Nat) : Prop :=
  call.1.ChecksArguments ∧ call.1.arity.accepts call.2 = true

namespace Expr

variable {ν : Type} {read : ν → Value}

theorem length_of_evalAll {m : Moments} {args : List (Expr ν)} {values : List Value}
    (h : evalAll read m args = .ok values) : values.length = args.length := by
  induction args generalizing values m with
  | nil =>
      obtain rfl := Except.ok.inj h
      rfl
  | cons e rest ih =>
      obtain ⟨v, -, h⟩ := bind_eq_ok.mp h
      obtain ⟨more, hmore, h⟩ := bind_eq_ok.mp h
      obtain rfl := Except.ok.inj h
      rw [List.length_cons, List.length_cons, ih hmore]

mutual

/-- Evaluation fails only in one of the calls of the tree, by induction on the tree. Operators have
a result for any two values. -/
theorem eval_failsOnlyIn {m : Moments} {e : Expr ν}
    (hcalls : ∀ call ∈ e.calls, CheckedCall call) : FailsOnlyIn e.calls (e.eval read m) := by
  match e with
  | .constant value => exact .ok value
  | .var x => exact .ok (read x)
  | .unary op operand =>
      exact (eval_failsOnlyIn (e := operand) hcalls).bind fun a _ => .ok _
  | .binary op left right =>
      simp only [calls, List.forall_mem_append] at hcalls ⊢
      refine ((eval_failsOnlyIn hcalls.1).mono fun _ => List.mem_append_left _).bind fun a _ => ?_
      split
      · exact .ok _
      · exact ((eval_failsOnlyIn hcalls.2).mono fun _ => List.mem_append_right _).bind
          fun b _ => .ok _
  | .conditional condition thenBranch elseBranch =>
      simp only [calls, List.forall_mem_append] at hcalls ⊢
      have hleft : ∀ call ∈ condition.calls, call ∈ (condition.calls ++ thenBranch.calls) ++
          elseBranch.calls := fun call hcall => by simp [hcall]
      refine ((eval_failsOnlyIn hcalls.1.1).mono hleft).bind fun c _ => ?_
      split
      · exact (eval_failsOnlyIn hcalls.1.2).mono fun call hcall => by simp [hcall]
      · exact (eval_failsOnlyIn hcalls.2).mono fun _ => List.mem_append_right _
  | .call f args =>
      simp only [calls, List.forall_mem_append, List.forall_mem_singleton] at hcalls ⊢
      obtain ⟨hargs, hchecks, harity⟩ := hcalls
      refine ((evalAll_failsOnlyIn hargs).mono fun _ => List.mem_append_left _).bind
        fun values hvalues => ?_
      have hlength := length_of_evalAll hvalues
      rcases hchecks _ values (by rwa [hlength]) with ⟨v, hv⟩ | ⟨e, he, hbad⟩
      · exact .inl ⟨v, hv⟩
      · exact .inr ⟨(f, args.length), by simp, e, he, hlength ▸ hbad⟩

theorem evalAll_failsOnlyIn {m : Moments} {args : List (Expr ν)}
    (hcalls : ∀ call ∈ allCalls args, CheckedCall call) :
    FailsOnlyIn (allCalls args) (evalAll read m args) := by
  match args with
  | [] => exact .ok []
  | e :: rest =>
      simp only [allCalls, List.forall_mem_append] at hcalls ⊢
      refine ((eval_failsOnlyIn hcalls.1).mono fun _ => List.mem_append_left _).bind fun v _ => ?_
      exact ((evalAll_failsOnlyIn hcalls.2).mono fun _ => List.mem_append_right _).bind
        fun more _ => .ok _

end

end Expr

namespace Formula

variable {c : RegistryConfig} {now : Timestamp} {mode : BindingMode} {offered : List Variable}
  {text : String} {store store' : Store} {f : Formula}

/-- A function of a configured registry never misses an argument if it is called with a number of
arguments that it takes. -/
theorem compute_ne_missing {name : String} {g : Callable}
    (hg : (Registry.ofConfig c).resolve name = some g) (m : Moment) {values : List Value}
    (hcount : g.arity.accepts values.length = true) (function : String) (index : Nat) :
    g.compute m values ≠ .error (.invalidArgument function index .missing) := by
  intro hmissing
  rcases checksArguments_of_library (Registry.mem_libraryFunctions hg) m values hcount with
    ⟨v, hv⟩ | ⟨e, he, hbad⟩
  · rw [hmissing] at hv
    cases hv
  · rw [hmissing] at he
    obtain rfl := Except.error.inj he
    obtain ⟨-, -, hfault⟩ := hbad
    exact hfault rfl

/-- Whatever its variables hold, a formula that was compiled with a configured registry has a value,
or one of its calls refuses an argument that it has. Without a call that may do so it has a value.
No function of the registry misses an argument when the number of arguments is one that it takes,
as it is in every call of the formula. -/
theorem eval_ok_or_badArgument
    (h : compile (.ofConfig c) now mode offered text store = .ok (f, store')) :
    (∀ (cells : Store) (m : Moments), (∃ v, f.eval cells m = .ok v) ∨
      ∃ call ∈ f.root.calls, ∃ index fault, call.1.name ∈ checkingNames ∧ index < call.2 ∧
        fault.message ≠ "missing argument" ∧
        f.eval cells m = .error (.invalidArgument call.1.name index fault)) ∧
    ((∀ call ∈ f.root.calls, call.1.name ∉ checkingNames) →
      ∀ (cells : Store) (m : Moments), ∃ v, f.eval cells m = .ok v) ∧
    (∀ call ∈ f.root.calls, call.1.arity.accepts call.2 = true) ∧
    ∀ name g, (Registry.ofConfig c).resolve name = some g → ∀ (m : Moment) (values : List Value),
      g.arity.accepts values.length = true → ∀ function index,
        g.compute m values ≠ .error (.invalidArgument function index .missing) := by
  have hchecked : ∀ call ∈ f.root.calls, CheckedCall call := by
    intro call hcall
    obtain ⟨⟨name, hname⟩, harity⟩ := resolve_of_mem_calls h hcall
    exact ⟨checksArguments_of_library (Registry.mem_libraryFunctions hname), harity⟩
  refine ⟨fun cells m => ?_, fun hnone cells m => ?_, fun call hcall => (hchecked call hcall).2,
    fun name g hg m values hcount function index => compute_ne_missing hg m hcount function index⟩
  · rcases @Expr.eval_failsOnlyIn _ cells.read m f.root hchecked with hok | ⟨call, hcall, e, he, hbad⟩
    · exact .inl hok
    · obtain ⟨hname, hindex, hfault⟩ := hbad
      exact .inr ⟨call, hcall, _, _, hname, hindex, hfault, he⟩
  · rcases @Expr.eval_failsOnlyIn _ cells.read m f.root hchecked with hok | ⟨call, hcall, e, -, hbad⟩
    · exact hok
    · obtain ⟨hname, -, -⟩ := hbad
      exact absurd hname (hnone call hcall)

/-- The length of a number is refused, with the name of the function and the argument. -/
theorem eval_ok_or_badArgument_length :
    ∃ f store', compile (.ofConfig {}) ⟨0, 0⟩ .noVariables [] "length(7)" .empty = .ok (f, store') ∧
      ∃ call ∈ f.root.calls, ∃ index fault, call.1.name ∈ checkingNames ∧ index < call.2 ∧
        fault.message ≠ "missing argument" ∧ f.eval .empty (fun _ => ⟨⟨0, 0⟩, 0.5⟩) =
          .error (.invalidArgument call.1.name index fault) := by
  have hfails : (compile (.ofConfig {}) ⟨0, 0⟩ .noVariables [] "length(7)" .empty).toOption.map
      (fun result => (result.1.eval .empty fun _ => ⟨⟨0, 0⟩, 0.5⟩).isOk) = some false := by
    decide +kernel
  cases hcompile : compile (.ofConfig {}) ⟨0, 0⟩ .noVariables [] "length(7)" .empty with
  | error e =>
      rw [hcompile] at hfails
      cases hfails
  | ok result =>
      obtain ⟨f, store'⟩ := result
      obtain ⟨hfailure, -⟩ := eval_ok_or_badArgument hcompile
      refine ⟨f, store', rfl, ?_⟩
      rcases hfailure .empty fun _ => ⟨⟨0, 0⟩, 0.5⟩ with ⟨v, hv⟩ | hbad
      · simp [hcompile, Except.toOption, hv, Except.isOk, Except.toBool] at hfails
      · exact hbad

end Formula

end ProcessFormula
