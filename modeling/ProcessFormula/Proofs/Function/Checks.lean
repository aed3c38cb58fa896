import ProcessFormula.Proofs.Metadata.Functions

/-!
How the functions of the library fail. A function that is called with a number of arguments that it
takes never misses one; some functions look at the data of an argument and may refuse it, and then
the error names the function, an argument that the call has, and what is wrong with it.
-/

namespace ProcessFormula

/-- The functions that may refuse the data of an argument. -/
def checkingNames : List String :=
  ["clamp", "round", "arraySum", "arrayMin", "arrayMax", "arrayAvg", "arrayLength", "elementAt",
    "length"]

/-- A function that may refuse arguments has refused one of `count` arguments that it was called
with. -/
inductive BadArgument (function : String) (count : Nat) : EvalError → Prop
  | intro {index : Nat} {fault : ArgumentFault} (hname : function ∈ checkingNames)
      (hindex : index < count) (hfault : fault.message ≠ "missing argument") :
      BadArgument function count (.invalidArgument function index fault)

/-- With a number of arguments that it takes, the function has a result or refuses an argument. -/
def Callable.ChecksArguments (f : Callable) : Prop :=
  ∀ (m : Moment) (args : List Value), f.arity.accepts args.length = true →
    (∃ v, f.compute m args = .ok v) ∨
      ∃ e, f.compute m args = .error e ∧ BadArgument f.name args.length e

theorem append_ne_of_not_prefix {s t : String} (h : ¬ s.toList <+: t.toList) (more : String) :
    s ++ more ≠ t := by
  rintro rfl
  exact h (by simp)

theorem ArgumentFault.message_invalidRange_ne (low high : Float) :
    (ArgumentFault.invalidRange low high).message ≠ "missing argument" := by
  unfold message
  simp only [String.append_assoc]
  exact append_ne_of_not_prefix (by decide) _

theorem ArgumentFault.message_outOfRange_ne (index : Float) (count : Nat) :
    (ArgumentFault.outOfRange index count).message ≠ "missing argument" := by
  unfold message
  simp only [String.append_assoc]
  exact append_ne_of_not_prefix (by decide) _

section

variable {name function : String} {args : List Value}

/-- An argument is there if there are enough of them. -/
theorem argument_of_lt {index : Nat} (h : index < args.length) :
    ∃ v, argument function args index = .ok v :=
  ⟨args[index], argument_eq_ok_iff.mpr (List.getElem?_eq_getElem h)⟩

theorem unary_succeeds (f : Float → Float) (h : 0 < args.length) :
    ∃ v, unary function f args = .ok v := by
  obtain ⟨a, ha⟩ := @argument_of_lt function args 0 h
  exact ⟨_, by rw [unary, ha]; rfl⟩

theorem binary_succeeds (f : Float → Float → Float) (h : 1 < args.length) :
    ∃ v, binary function f args = .ok v := by
  obtain ⟨a, ha⟩ := @argument_of_lt function args 0 (Nat.lt_of_succ_lt h)
  obtain ⟨b, hb⟩ := @argument_of_lt function args 1 h
  exact ⟨_, by rw [binary, ha]; simp only [bind, Except.bind, hb]; rfl⟩

/-- An argument that is there is an array of numbers or is refused. -/
theorem ArrayFunction.elements_cases {index : Nat} (h : index < args.length) :
    (∃ data, elements function args index = .ok data) ∨
      elements function args index = .error (.invalidArgument function index .notArray) := by
  obtain ⟨v, hv⟩ := @argument_of_lt function args index h
  simp only [elements, hv, bind, Except.bind]
  split
  · exact .inl ⟨_, rfl⟩
  · exact .inl ⟨_, rfl⟩
  · exact .inr rfl

end

theorem accepts_atLeast {n count : Nat} (h : (Arity.atLeast n).accepts count = true) :
    n ≤ count := by
  simpa [Arity.accepts] using h

/-! ### Families of functions -/

theorem Math.checksArguments_ofUnary (name : String) (f : Float → Float) (description : String) :
    (ofUnary name f description).ChecksArguments :=
  fun _ _ hcount => .inl (unary_succeeds f (by rw [accepts_exactly hcount]; decide))

theorem Math.checksArguments_ofBinary (name : String) (f : Float → Float → Float)
    (parameters : List String) (description : String) :
    (ofBinary name f parameters description).ChecksArguments :=
  fun _ _ hcount => .inl (binary_succeeds f (by rw [accepts_exactly hcount]; decide))

theorem ArrayFunction.checksArguments_ofReduction {name : String} (hname : name ∈ checkingNames)
    (f : List Float → Float) (description : String) :
    (ofReduction name f description).ChecksArguments := by
  intro m args hcount
  have hlength : 0 < args.length := by rw [accepts_exactly hcount]; decide
  show (∃ v, reduce name f args = .ok v) ∨
    ∃ e, reduce name f args = .error e ∧ BadArgument name args.length e
  rcases @elements_cases name args 0 hlength with ⟨data, hdata⟩ | hrefused
  · obtain ⟨v, hv⟩ := @argument_of_lt name args 0 hlength
    exact .inl ⟨_, by rw [reduce, hdata]; simp only [bind, Except.bind, hv]; rfl⟩
  · exact .inr ⟨_, by rw [reduce, hrefused]; rfl, .intro hname hlength (by decide)⟩

/-- No mathematical function refuses an argument. -/
theorem Math.checksArguments {f : Callable} (hf : f ∈ Math.all) : f.ChecksArguments := by
  revert f
  simp only [all, List.forall_mem_cons]
  and_intros
  iterate 20 exact checksArguments_ofUnary _ _ _
  iterate 3 exact checksArguments_ofBinary _ _ _ _
  simp

/-! ### Single functions -/

theorem Builtin.fold_succeeds {function : String} {f : Float → Float → Float} {m : Moment}
    {args : List Value} (h : 0 < args.length) : ∃ v, fold function f m args = .ok v := by
  obtain ⟨first, hfirst⟩ := @argument_of_lt function args 0 h
  exact ⟨_, by rw [fold, hfirst]; rfl⟩

/-- Nor does a built-in one. -/
theorem Builtin.checksArguments {f : Callable} (hf : f ∈ Builtin.all) : f.ChecksArguments := by
  simp only [all, List.mem_cons, List.not_mem_nil, or_false] at hf
  rcases hf with rfl | rfl | rfl
  · exact fun m args hcount => .inl (unary_succeeds _ (accepts_atLeast hcount))
  · exact fun m args hcount => .inl (fold_succeeds (Nat.lt_of_succ_lt (accepts_atLeast hcount)))
  · exact fun m args hcount => .inl (fold_succeeds (Nat.lt_of_succ_lt (accepts_atLeast hcount)))

theorem AlarmFunction.raise_succeeds {function : String} {severity : Severity} {args : List Value}
    (h : 1 < args.length) : ∃ v, raise function severity args = .ok v := by
  obtain ⟨condition, hcondition⟩ := @argument_of_lt function args 0 (Nat.lt_of_succ_lt h)
  obtain ⟨status, hstatus⟩ := @argument_of_lt function args 1 h
  exact ⟨_, by rw [raise, hcondition]; simp only [bind, Except.bind, hstatus]; rfl⟩

theorem AlarmFunction.checksArguments {f : Callable} (hf : f ∈ AlarmFunction.all) :
    f.ChecksArguments := by
  simp only [all, List.mem_cons, List.not_mem_nil, or_false] at hf
  rcases hf with rfl | rfl | rfl
  · intro m args hcount
    obtain ⟨first, hfirst⟩ := @argument_of_lt "highestSeverity" args 0 (accepts_atLeast hcount)
    exact .inl ⟨_, show nameHighest m args = _ by rw [nameHighest, hfirst]; rfl⟩
  · exact fun m args hcount => .inl (raise_succeeds (by rw [accepts_exactly hcount]; decide))
  · exact fun m args hcount => .inl (raise_succeeds (by rw [accepts_exactly hcount]; decide))

theorem ArrayFunction.checksArguments_arrayOf : arrayOf.ChecksArguments := by
  intro m args hcount
  obtain ⟨first, hfirst⟩ := @argument_of_lt "arrayOf" args 0 (accepts_atLeast hcount)
  exact .inl ⟨_, show collect m args = _ by rw [collect, hfirst]; rfl⟩

theorem ArrayFunction.checksArguments_elementAt : elementAt.ChecksArguments := by
  intro m args hcount
  have hlength : args.length = 2 := accepts_exactly hcount
  show (∃ v, select m args = .ok v) ∨
    ∃ e, select m args = .error e ∧ BadArgument "elementAt" args.length e
  rcases @elements_cases "elementAt" args 0 (by omega) with ⟨data, hdata⟩ | hrefused
  · obtain ⟨index, hindex⟩ := @argument_of_lt "elementAt" args 1 (by omega)
    simp only [select, hdata, hindex, bind, Except.bind]
    split
    · exact .inl ⟨_, rfl⟩
    · exact .inr ⟨_, rfl, .intro (by decide) (by omega) (ArgumentFault.message_outOfRange_ne _ _)⟩
  · exact .inr ⟨_, by rw [select, hrefused]; rfl, .intro (by decide) (by omega) (by decide)⟩

/-- The functions of arrays refuse what is no array, and an index that is out of range. -/
theorem ArrayFunction.checksArguments {f : Callable} (hf : f ∈ ArrayFunction.all) :
    f.ChecksArguments := by
  simp only [all, List.mem_cons, List.not_mem_nil, or_false] at hf
  rcases hf with rfl | rfl | rfl | rfl | rfl | rfl | rfl
  · exact checksArguments_arrayOf
  iterate 5 exact checksArguments_ofReduction (by decide) _ _
  exact checksArguments_elementAt

theorem Industrial.checksArguments_clamp : clamp.ChecksArguments := by
  intro m args hcount
  have hlength : args.length = 3 := accepts_exactly hcount
  obtain ⟨value, hvalue⟩ := @argument_of_lt "clamp" args 0 (by omega)
  obtain ⟨low, hlow⟩ := @argument_of_lt "clamp" args 1 (by omega)
  obtain ⟨high, hhigh⟩ := @argument_of_lt "clamp" args 2 (by omega)
  show (∃ v, clampTo m args = .ok v) ∨
    ∃ e, clampTo m args = .error e ∧ BadArgument "clamp" args.length e
  simp only [clampTo, hvalue, hlow, hhigh, bind, Except.bind]
  split
  · exact .inr ⟨_, rfl, .intro (by decide) (by omega) (ArgumentFault.message_invalidRange_ne _ _)⟩
  · exact .inl ⟨_, rfl⟩

/-- The decimal places are refused only if an argument gives them: without one they are zero. -/
theorem Industrial.checksArguments_round : round.ChecksArguments := by
  intro m args hcount
  obtain ⟨value, hvalue⟩ := @argument_of_lt "round" args 0 (accepts_atLeast hcount)
  show (∃ v, roundValue m args = .ok v) ∨
    ∃ e, roundValue m args = .error e ∧ BadArgument "round" args.length e
  simp only [roundValue, hvalue, bind, Except.bind]
  split
  · next hrefused =>
    refine .inr ⟨_, rfl, .intro (by decide) ?_ (by decide)⟩
    rw [← Nat.not_le]
    intro hone
    rw [List.getElem?_eq_none hone] at hrefused
    revert hrefused
    decide
  · exact .inl ⟨_, rfl⟩

/-- A range that is none and a number of decimals that is not finite are refused. -/
theorem Industrial.checksArguments {f : Callable} (hf : f ∈ Industrial.all) :
    f.ChecksArguments := by
  simp only [all, List.mem_cons, List.not_mem_nil, or_false] at hf
  rcases hf with rfl | rfl | rfl | rfl
  · exact fun m args hcount => .inl (binary_succeeds _ (by rw [accepts_exactly hcount]; decide))
  · exact checksArguments_clamp
  · exact fun m args hcount => .inl (unary_succeeds _ (by rw [accepts_exactly hcount]; decide))
  · exact checksArguments_round

/-- The length of anything but a text is refused. -/
theorem TextFunction.checksArguments {f : Callable} (hf : f ∈ TextFunction.all) :
    f.ChecksArguments := by
  simp only [all, List.mem_cons, List.not_mem_nil, or_false] at hf
  rcases hf with rfl | rfl
  · intro m args hcount
    obtain ⟨first, hfirst⟩ := @argument_of_lt "concat" args 0 (accepts_atLeast hcount)
    exact .inl ⟨_, show join m args = _ by rw [join, hfirst]; rfl⟩
  · intro m args hcount
    have hlength : args.length = 1 := accepts_exactly hcount
    obtain ⟨v, hv⟩ := @argument_of_lt "length" args 0 (by omega)
    show (∃ v, measure args = .ok v) ∨
      ∃ e, measure args = .error e ∧ BadArgument "length" args.length e
    simp only [measure, hv, bind, Except.bind]
    split
    · exact .inl ⟨_, rfl⟩
    · exact .inr ⟨_, rfl, .intro (by decide) (by omega) (by decide)⟩

/-- So does every function of the library. -/
theorem checksArguments_of_library {f : Callable} (hf : f ∈ libraryFunctions) :
    f.ChecksArguments := by
  simp only [libraryFunctions, Registry.knownPlugins, List.mem_append] at hf
  rcases hf with hf | ((((hf | hf) | hf) | hf) | hf)
  · exact Builtin.checksArguments hf
  · exact AlarmFunction.checksArguments hf
  · exact ArrayFunction.checksArguments hf
  · exact Industrial.checksArguments hf
  · exact Math.checksArguments hf
  · exact TextFunction.checksArguments hf

end ProcessFormula
