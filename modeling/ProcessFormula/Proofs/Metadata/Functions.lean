import ProcessFormula.Function.Registry
import ProcessFormula.Proofs.Metadata.Combining
import ProcessFormula.Proofs.Parser.Loops

/-!
What the functions of the library do with the alarms and times of their arguments. A function may
keep what its only argument has, or combine two arguments, or derive its result from all arguments;
with the number of arguments that it takes, this is one and the same.
-/

namespace ProcessFormula

open ProcessFormula.Parser (bind_eq_ok)

/-- A result has the worst alarm and the latest time of the arguments. -/
def FromArguments (now : Timestamp) (args : List Value) (v : Value) : Prop :=
  v.alarm = Value.highestAlarm args ∧ v.time = Value.latestTime now args

/-- The function takes some argument, and its results have the worst alarm and the latest time of
its arguments. -/
structure Callable.KeepsMetadata (f : Callable) : Prop where
  takesArguments : f.arity.accepts 0 = false
  fromArguments : ∀ (m : Moment) (args : List Value) (v : Value),
    f.arity.accepts args.length = true → f.compute m args = .ok v → FromArguments m.now args v

section

variable {now : Timestamp} {args : List Value} {v : Value}

theorem argument_eq_ok_iff {function : String} {index : Nat} :
    argument function args index = .ok v ↔ args[index]? = some v := by
  unfold argument
  split
  · next w hw => simp [hw]
  · next hnone => simp [hnone]

/-- A value that is derived from all arguments has its metadata from them. -/
theorem fromArguments_derived (payload : Payload) :
    FromArguments now args (Value.derived now payload args) :=
  ⟨rfl, rfl⟩

theorem fromArguments_withPayload {a : Value} (hlength : args.length = 1) (ha : args[0]? = some a)
    (payload : Payload) : FromArguments now args (a.withPayload payload) := by
  obtain ⟨b, rfl⟩ := List.length_eq_one_iff.mp hlength
  obtain rfl := Option.some.inj ha
  exact ⟨rfl, rfl⟩

/-- The combination of two arguments has its metadata from them. -/
theorem fromArguments_combine {a b : Value} (hlength : args.length = 2) (ha : args[0]? = some a)
    (hb : args[1]? = some b) (result : Float) :
    FromArguments now args (Value.combine result a b) := by
  match args, hlength, ha, hb with
  | [_, _], _, rfl, rfl => exact ⟨rfl, rfl⟩

theorem fromArguments_unary {name : String} {f : Float → Float} (hlength : args.length = 1)
    (hv : unary name f args = .ok v) : FromArguments now args v := by
  obtain ⟨a, ha, hv⟩ := bind_eq_ok.mp hv
  obtain rfl := Except.ok.inj hv
  exact fromArguments_withPayload hlength (argument_eq_ok_iff.mp ha) _

theorem fromArguments_binary {name : String} {f : Float → Float → Float} (hlength : args.length = 2)
    (hv : binary name f args = .ok v) : FromArguments now args v := by
  obtain ⟨a, ha, hv⟩ := bind_eq_ok.mp hv
  obtain ⟨b, hb, hv⟩ := bind_eq_ok.mp hv
  obtain rfl := Except.ok.inj hv
  exact fromArguments_combine hlength (argument_eq_ok_iff.mp ha) (argument_eq_ok_iff.mp hb) _

end

theorem accepts_exactly {n count : Nat} (h : (Arity.exactly n).accepts count = true) :
    count = n := by
  simpa [Arity.accepts] using h

/-! ### Families of functions -/

theorem Math.keepsMetadata_ofUnary (name : String) (f : Float → Float) (description : String) :
    (ofUnary name f description).KeepsMetadata where
  takesArguments := rfl
  fromArguments _ _ _ hcount hv := fromArguments_unary (accepts_exactly hcount) hv

theorem Math.keepsMetadata_ofBinary (name : String) (f : Float → Float → Float)
    (parameters : List String) (description : String) :
    (ofBinary name f parameters description).KeepsMetadata where
  takesArguments := rfl
  fromArguments _ _ _ hcount hv := fromArguments_binary (accepts_exactly hcount) hv

theorem ArrayFunction.keepsMetadata_ofReduction (name : String) (f : List Float → Float)
    (description : String) : (ofReduction name f description).KeepsMetadata where
  takesArguments := rfl
  fromArguments m args v hcount hv := by
    obtain ⟨data, -, hv⟩ := bind_eq_ok.mp hv
    obtain ⟨a, ha, hv⟩ := bind_eq_ok.mp hv
    obtain rfl := Except.ok.inj hv
    exact fromArguments_withPayload (accepts_exactly hcount) (argument_eq_ok_iff.mp ha) _

/-- Every mathematical function takes its metadata from its arguments. -/
theorem Math.keepsMetadata {f : Callable} (hf : f ∈ Math.all) : f.KeepsMetadata := by
  revert f
  simp only [all, List.forall_mem_cons]
  and_intros
  iterate 20 exact keepsMetadata_ofUnary _ _ _
  iterate 3 exact keepsMetadata_ofBinary _ _ _ _
  simp

/-! ### Single functions -/

/-- A fold over the arguments takes the metadata of them all. -/
theorem Builtin.fromArguments_fold {function : String} {f : Float → Float → Float} {m : Moment}
    {args : List Value} {v : Value} (hv : fold function f m args = .ok v) :
    FromArguments m.now args v := by
  obtain ⟨first, -, hv⟩ := bind_eq_ok.mp hv
  obtain rfl := Except.ok.inj hv
  exact fromArguments_derived _

theorem AlarmFunction.keepsMetadata_highestSeverity : highestSeverity.KeepsMetadata where
  takesArguments := rfl
  fromArguments m args v _ hv := by
    obtain ⟨first, -, hv⟩ := bind_eq_ok.mp hv
    obtain rfl := Except.ok.inj hv
    exact ⟨rfl, rfl⟩

theorem ArrayFunction.keepsMetadata_arrayOf : arrayOf.KeepsMetadata where
  takesArguments := rfl
  fromArguments m args v _ hv := by
    obtain ⟨first, -, hv⟩ := bind_eq_ok.mp hv
    obtain rfl := Except.ok.inj hv
    exact fromArguments_derived _

theorem ArrayFunction.keepsMetadata_elementAt : elementAt.KeepsMetadata where
  takesArguments := rfl
  fromArguments m args v _ hv := by
    obtain ⟨data, -, hv⟩ := bind_eq_ok.mp hv
    obtain ⟨index, -, hv⟩ := bind_eq_ok.mp hv
    split at hv
    · obtain rfl := Except.ok.inj hv
      exact fromArguments_derived _
    · cases hv

theorem Industrial.keepsMetadata_scale : scale.KeepsMetadata where
  takesArguments := rfl
  fromArguments _ _ _ hcount hv := fromArguments_binary (accepts_exactly hcount) hv

theorem Industrial.keepsMetadata_signOf : signOf.KeepsMetadata where
  takesArguments := rfl
  fromArguments _ _ _ hcount hv := fromArguments_unary (accepts_exactly hcount) hv

theorem Industrial.keepsMetadata_clamp : clamp.KeepsMetadata where
  takesArguments := rfl
  fromArguments m args v _ hv := by
    obtain ⟨value, -, hv⟩ := bind_eq_ok.mp hv
    obtain ⟨low, -, hv⟩ := bind_eq_ok.mp hv
    obtain ⟨high, -, hv⟩ := bind_eq_ok.mp hv
    split at hv
    · cases hv
    · obtain rfl := Except.ok.inj hv
      exact fromArguments_derived _

theorem Industrial.keepsMetadata_round : round.KeepsMetadata where
  takesArguments := rfl
  fromArguments m args v _ hv := by
    obtain ⟨value, -, hv⟩ := bind_eq_ok.mp hv
    dsimp only at hv
    split at hv
    · cases hv
    · obtain rfl := Except.ok.inj hv
      exact fromArguments_derived _

theorem TextFunction.keepsMetadata_concat : concat.KeepsMetadata where
  takesArguments := rfl
  fromArguments m args v _ hv := by
    obtain ⟨first, -, hv⟩ := bind_eq_ok.mp hv
    obtain rfl := Except.ok.inj hv
    exact fromArguments_derived _

theorem TextFunction.keepsMetadata_length : length.KeepsMetadata where
  takesArguments := rfl
  fromArguments m args v hcount hv := by
    obtain ⟨a, ha, hv⟩ := bind_eq_ok.mp hv
    split at hv
    · obtain rfl := Except.ok.inj hv
      exact fromArguments_withPayload (accepts_exactly hcount) (argument_eq_ok_iff.mp ha) _
    · cases hv

/-! ### The library -/

def libraryFunctions : List Callable := Builtin.all ++ Registry.knownPlugins

/-- The functions whose results do not have what all their arguments carry: a random number has the
alarm and the time of its first argument, and the other two raise alarms of their own. -/
def exceptionalNames : List String := ["rnd", "majorAlarm", "minorAlarm"]

/-- All other functions of the library keep the alarms and times of their arguments. -/
theorem keepsMetadata_of_library {f : Callable} (hf : f ∈ libraryFunctions)
    (hname : f.name ∉ exceptionalNames) : f.KeepsMetadata := by
  simp only [libraryFunctions, Registry.knownPlugins, List.mem_append] at hf
  rcases hf with hf | ((((hf | hf) | hf) | hf) | hf)
  · simp only [Builtin.all, List.mem_cons, List.not_mem_nil, or_false] at hf
    rcases hf with rfl | rfl | rfl
    · exact absurd (by decide) hname
    · exact ⟨rfl, fun _ _ _ _ hv => Builtin.fromArguments_fold hv⟩
    · exact ⟨rfl, fun _ _ _ _ hv => Builtin.fromArguments_fold hv⟩
  · simp only [AlarmFunction.all, List.mem_cons, List.not_mem_nil, or_false] at hf
    rcases hf with rfl | rfl | rfl
    · exact AlarmFunction.keepsMetadata_highestSeverity
    · exact absurd (by decide) hname
    · exact absurd (by decide) hname
  · simp only [ArrayFunction.all, List.mem_cons, List.not_mem_nil, or_false] at hf
    rcases hf with rfl | rfl | rfl | rfl | rfl | rfl | rfl
    · exact ArrayFunction.keepsMetadata_arrayOf
    iterate 5 exact ArrayFunction.keepsMetadata_ofReduction _ _ _
    exact ArrayFunction.keepsMetadata_elementAt
  · simp only [Industrial.all, List.mem_cons, List.not_mem_nil, or_false] at hf
    rcases hf with rfl | rfl | rfl | rfl
    · exact Industrial.keepsMetadata_scale
    · exact Industrial.keepsMetadata_clamp
    · exact Industrial.keepsMetadata_signOf
    · exact Industrial.keepsMetadata_round
  · exact Math.keepsMetadata hf
  · simp only [TextFunction.all, List.mem_cons, List.not_mem_nil, or_false] at hf
    rcases hf with rfl | rfl
    · exact TextFunction.keepsMetadata_concat
    · exact TextFunction.keepsMetadata_length

end ProcessFormula
