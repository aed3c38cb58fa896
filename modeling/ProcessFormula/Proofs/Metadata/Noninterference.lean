import ProcessFormula.Proofs.Expr.Variables
import ProcessFormula.Proofs.Metadata.Evaluation
import ProcessFormula.Proofs.Metadata.Order

/-!
Alarms and times have no influence on data, and worse alarms and later times never come out as
better or earlier ones. Two evaluations of one formula are compared, over values with the same data.
The time of the evaluation and the random number may differ between the two.
-/

namespace ProcessFormula

open ProcessFormula.Parser (bind_eq_ok)

/-- Two computations fail with the same error, or succeed with related results. -/
inductive SameOutcome {ε α β : Type} (related : α → β → Prop) : Except ε α → Except ε β → Prop
  | ok {a : α} {b : β} (h : related a b) : SameOutcome related (.ok a) (.ok b)
  | error (e : ε) : SameOutcome related (.error e) (.error e)

namespace SameOutcome

variable {ε α β γ δ : Type} {related : α → β → Prop} {related' : γ → δ → Prop}
  {x : Except ε α} {y : Except ε β}

/-- Computations with the same outcome may be continued by computations with the same outcome. -/
theorem bind (h : SameOutcome related x y) {f : α → Except ε γ} {g : β → Except ε δ}
    (hmore : ∀ a b, x = .ok a → related a b → SameOutcome related' (f a) (g b)) :
    SameOutcome related' (x >>= f) (y >>= g) := by
  cases h with
  | ok h => exact hmore _ _ rfl h
  | error e => exact .error e

theorem mono {stronger : α → β → Prop} (h : SameOutcome stronger x y)
    (himp : ∀ a b, stronger a b → related a b) : SameOutcome related x y := by
  cases h with
  | ok h => exact .ok (himp _ _ h)
  | error e => exact .error e

/-- Computations whose results have something in common have it in common with their errors. -/
theorem map_eq {f : α → γ} {g : β → γ} (h : SameOutcome related x y)
    (hsame : ∀ a b, related a b → f a = g b) : x.map f = y.map g := by
  cases h with
  | ok h => exact congrArg Except.ok (hsame _ _ h)
  | error e => rfl

end SameOutcome

section

variable {counts : Prop} {args args' : List Value} (h : FollowsAll counts args args')
include h

theorem FollowsAll.getElem? (index : Nat) :
    Option.Rel (Value.Follows counts) args[index]? args'[index]? := by
  induction h generalizing index with
  | nil => exact .none
  | cons hfirst _ ih =>
      cases index with
      | zero => exact .some hfirst
      | succ index => exact ih index

/-- An argument that is looked up on both sides is missing on both or follows. -/
theorem FollowsAll.argument (function : String) (index : Nat) :
    SameOutcome (Value.Follows counts) (argument function args index)
      (argument function args' index) := by
  unfold ProcessFormula.argument
  have hindex := h.getElem? index
  generalize args[index]? = first at hindex ⊢
  generalize args'[index]? = second at hindex ⊢
  cases hindex with
  | none => exact .error _
  | some hab => exact .ok hab

/-! ### Families of functions -/

/-- A function of one number only reads the payload of its argument. -/
theorem FollowsAll.unary (function : String) (f : Float → Float) :
    SameOutcome (Value.Follows counts) (unary function f args) (unary function f args') := by
  refine (h.argument function 0).bind fun a b _ hab => .ok ?_
  rw [hab.toFloat]
  exact hab.withPayload _

theorem FollowsAll.binary (function : String) (f : Float → Float → Float) :
    SameOutcome (Value.Follows counts) (binary function f args) (binary function f args') := by
  refine (h.argument function 0).bind fun a a' _ ha => ?_
  refine (h.argument function 1).bind fun b b' _ hb => .ok ⟨?_, fun hcounts => ?_⟩
  · rw [ha.toFloat, hb.toFloat]
    rfl
  · exact (ha.metadata hcounts).combined (hb.metadata hcounts) rfl rfl rfl rfl

theorem FollowsAll.elements (function : String) (index : Nat) :
    SameOutcome Eq (ArrayFunction.elements function args index)
      (ArrayFunction.elements function args' index) := by
  refine (h.argument function index).bind fun a b _ hab => ?_
  rw [hab.payload]
  split
  · exact .ok rfl
  · exact .ok rfl
  · exact .error _

theorem FollowsAll.reduce (function : String) (f : List Float → Float) :
    SameOutcome (Value.Follows counts) (ArrayFunction.reduce function f args)
      (ArrayFunction.reduce function f args') := by
  refine (h.elements function 0).bind fun data data' _ hdata => ?_
  refine (h.argument function 0).bind fun a b _ hab => .ok ?_
  rw [hdata]
  exact hab.withPayload _

/-- A result that is derived from all arguments, of which there is at least one. -/
theorem FollowsAll.derivedOf {function : String} {a : Value}
    (ha : ProcessFormula.argument function args 0 = .ok a) (now now' : Timestamp)
    (payload : Payload) :
    (Value.derived now payload args).Follows counts (Value.derived now' payload args') := by
  cases h with
  | nil => cases ha
  | cons hfirst hrest => exact FollowsAll.derived hfirst hrest now now' payload

end

/-- The function does to data what it does whatever the metadata, and makes of worse arguments a
worse result. -/
def Callable.KeepsOrder (f : Callable) : Prop :=
  ∀ (counts : Prop) (m m' : Moment) (args args' : List Value), FollowsAll counts args args' →
    SameOutcome (Value.Follows counts) (f.compute m args) (f.compute m' args')

/-- Mathematical functions compute the same from the same data, and worse metadata makes no better
metadata. -/
theorem Math.keepsOrder {f : Callable} (hf : f ∈ Math.all) : f.KeepsOrder := by
  have hunary : ∀ name g description, (ofUnary name g description).KeepsOrder :=
    fun name g _ _ _ _ _ _ h => h.unary name g
  have hbinary : ∀ name g parameters description,
      (ofBinary name g parameters description).KeepsOrder :=
    fun name g _ _ _ _ _ _ _ h => h.binary name g
  revert f
  simp only [all, List.forall_mem_cons]
  and_intros
  iterate 20 exact hunary _ _ _
  iterate 3 exact hbinary _ _ _ _
  simp

theorem ArrayFunction.keepsOrder_ofReduction (name : String) (f : List Float → Float)
    (description : String) : (ofReduction name f description).KeepsOrder :=
  fun _ _ _ _ _ h => h.reduce name f

/-! ### Single functions -/

section

variable {counts : Prop} {args args' : List Value} (h : FollowsAll counts args args')
  (m m' : Moment)
include h

/-- A fold computes with the numbers that the arguments stand for, and these are the same. -/
theorem Builtin.follows_fold (function : String) (f : Float → Float → Float) :
    SameOutcome (Value.Follows counts) (fold function f m args) (fold function f m' args') := by
  refine (h.argument function 0).bind fun a b ha hab => .ok ?_
  rw [List.map_tail, List.map_tail, h.map_toFloat, hab.toFloat]
  exact h.derivedOf ha _ _ _

theorem AlarmFunction.follows_raise (function : String) (severity : Severity) :
    SameOutcome (Value.Follows counts) (raise function severity args)
      (raise function severity args') := by
  refine (h.argument function 0).bind fun a a' _ ha => ?_
  refine (h.argument function 1).bind fun b b' _ hb => .ok ?_
  -- The alarm is decided by the data of both arguments, the time is that of the condition.
  rw [ha.isTrue, hb.toText]
  split
  · exact ⟨rfl, fun hcounts => ⟨Nat.le_refl _, (ha.metadata hcounts).time⟩⟩
  · exact ⟨rfl, fun hcounts => ⟨Nat.le_refl _, (ha.metadata hcounts).time⟩⟩

theorem ArrayFunction.follows_collect :
    SameOutcome (Value.Follows counts) (collect m args) (collect m' args') := by
  refine (h.argument "arrayOf" 0).bind fun a b ha _ => .ok ?_
  rw [h.map_toFloat, h.length_eq]
  exact h.derivedOf ha _ _ _

theorem ArrayFunction.follows_select :
    SameOutcome (Value.Follows counts) (select m args) (select m' args') := by
  refine (h.elements "elementAt" 0).bind fun data data' hread hdata => ?_
  obtain ⟨first, hfirst, -⟩ := bind_eq_ok.mp hread
  refine (h.argument "elementAt" 1).bind fun b b' _ hb => ?_
  rw [hdata, hb.toFloat]
  split
  · exact .ok (h.derivedOf hfirst _ _ _)
  · exact .error _

theorem Industrial.follows_clampTo :
    SameOutcome (Value.Follows counts) (clampTo m args) (clampTo m' args') := by
  refine (h.argument "clamp" 0).bind fun a a' hfirst ha => ?_
  refine (h.argument "clamp" 1).bind fun b b' _ hb => ?_
  refine (h.argument "clamp" 2).bind fun c c' _ hc => ?_
  rw [ha.toFloat, hb.toFloat, hc.toFloat]
  split
  · exact .error _
  · exact .ok (h.derivedOf hfirst _ _ _)

theorem Industrial.follows_roundValue :
    SameOutcome (Value.Follows counts) (roundValue m args) (roundValue m' args') := by
  refine (h.argument "round" 0).bind fun a a' hfirst ha => ?_
  have hdecimals : args[1]?.map Value.toFloat = args'[1]?.map Value.toFloat := by
    rw [← List.getElem?_map, ← List.getElem?_map, h.map_toFloat]
  rw [hdecimals, ha.toFloat]
  dsimp only
  split
  · exact .error _
  · exact .ok (h.derivedOf hfirst _ _ _)

theorem TextFunction.follows_join :
    SameOutcome (Value.Follows counts) (join m args) (join m' args') := by
  refine (h.argument "concat" 0).bind fun a b ha _ => .ok ?_
  rw [h.map_toText]
  exact h.derivedOf ha _ _ _

theorem TextFunction.follows_measure :
    SameOutcome (Value.Follows counts) (measure args) (measure args') := by
  refine (h.argument "length" 0).bind fun a b _ hab => ?_
  rw [hab.asText?]
  split
  · exact .ok (hab.withPayload _)
  · exact .error _

end

/-! ### The library -/

/-- The functions whose data depend on something else than data: on alarms, or on chance. -/
def impureNames : List String := ["highestSeverity", "rnd"]

/-- All other functions of the library keep the order. -/
theorem keepsOrder_of_library {f : Callable} (hf : f ∈ libraryFunctions)
    (hname : f.name ∉ impureNames) : f.KeepsOrder := by
  simp only [libraryFunctions, Registry.knownPlugins, List.mem_append] at hf
  rcases hf with hf | ((((hf | hf) | hf) | hf) | hf)
  · simp only [Builtin.all, List.mem_cons, List.not_mem_nil, or_false] at hf
    rcases hf with rfl | rfl | rfl
    · exact absurd (by decide) hname
    · exact fun _ m m' _ _ h => Builtin.follows_fold h m m' _ _
    · exact fun _ m m' _ _ h => Builtin.follows_fold h m m' _ _
  · simp only [AlarmFunction.all, List.mem_cons, List.not_mem_nil, or_false] at hf
    rcases hf with rfl | rfl | rfl
    · exact absurd (by decide) hname
    · exact fun _ _ _ _ _ h => AlarmFunction.follows_raise h _ _
    · exact fun _ _ _ _ _ h => AlarmFunction.follows_raise h _ _
  · simp only [ArrayFunction.all, List.mem_cons, List.not_mem_nil, or_false] at hf
    rcases hf with rfl | rfl | rfl | rfl | rfl | rfl | rfl
    · exact fun _ m m' _ _ h => ArrayFunction.follows_collect h m m'
    iterate 5 exact ArrayFunction.keepsOrder_ofReduction _ _ _
    exact fun _ m m' _ _ h => ArrayFunction.follows_select h m m'
  · simp only [Industrial.all, List.mem_cons, List.not_mem_nil, or_false] at hf
    rcases hf with rfl | rfl | rfl | rfl
    · exact fun _ _ _ _ _ h => h.binary _ _
    · exact fun _ m m' _ _ h => Industrial.follows_clampTo h m m'
    · exact fun _ _ _ _ _ h => h.unary _ _
    · exact fun _ m m' _ _ h => Industrial.follows_roundValue h m m'
  · exact Math.keepsOrder hf
  · simp only [TextFunction.all, List.mem_cons, List.not_mem_nil, or_false] at hf
    rcases hf with rfl | rfl
    · exact fun _ m m' _ _ h => TextFunction.follows_join h m m'
    · exact fun _ _ _ _ _ h => TextFunction.follows_measure h

/-- A call whose data depends on data only: of a function of the library, with any arguments. -/
def PureCall (f : Callable) (_ : Nat) : Prop := f ∈ libraryFunctions ∧ f.name ∉ impureNames

/-! ### Formulas -/

/-- An operator reads the payloads of its operands alone, and its metadata grows with theirs. -/
theorem BinaryOp.follows_combine {counts : Prop} {a a' b b' : Value} (op : BinaryOp)
    (ha : a.Follows counts a') (hb : b.Follows counts b') :
    (op.combine a b).Follows counts (op.combine a' b') := by
  refine ⟨?_, fun hcounts => ?_⟩
  · unfold combine
    rw [ha.isText, hb.isText, ha.toText, hb.toText, ha.toFloat, hb.toFloat]
    split <;> rfl
  · exact (ha.metadata hcounts).combined (hb.metadata hcounts) (op.combine_alarm a b)
      (op.combine_alarm a' b') (op.combine_time a b) (op.combine_time a' b')

namespace Expr

variable {ν : Type} {counts : Prop} {read read' : ν → Value}

mutual

/-- Both evaluations take the same branches, because what decides between them is data. -/
theorem eval_follows {m m' : Moments} {e : Expr ν} (hcalls : e.CallsOnly PureCall)
    (hread : ∀ x ∈ e.vars, (read x).Follows counts (read' x)) :
    SameOutcome (Value.Follows counts) (e.eval read m) (e.eval read' m') := by
  match e with
  | .constant value => exact .ok (.refl value)
  | .var x => exact .ok (hread x (by simp [vars]))
  | .unary op operand =>
      refine (eval_follows (e := operand) hcalls hread).bind fun a a' _ ha => .ok ?_
      rw [ha.toFloat]
      exact ha.withPayload _
  | .binary op left right =>
      simp only [vars, List.forall_mem_append] at hread
      refine (eval_follows hcalls.1 hread.1).bind fun a a' _ ha => ?_
      have hdecided : op.decidedBy a = op.decidedBy a' := by
        rw [BinaryOp.decidedBy, BinaryOp.decidedBy, ha.isTrue]
      rw [hdecided, ha.isTrue]
      split
      · exact .ok (ha.withPayload _)
      · refine (eval_follows hcalls.2 hread.2).bind fun b b' _ hb => .ok ?_
        exact op.follows_combine ha hb
  | .conditional condition thenBranch elseBranch =>
      simp only [vars, List.forall_mem_append] at hread
      refine (eval_follows hcalls.1 hread.1.1).bind fun c c' _ hc => ?_
      rw [hc.isTrue]
      split
      · exact eval_follows hcalls.2.1 hread.1.2
      · exact eval_follows hcalls.2.2 hread.2
  | .call f args =>
      have hargs : ∀ x ∈ allVars args, (read x).Follows counts (read' x) := by
        simpa only [vars] using hread
      refine (evalAll_follows hcalls.2 hargs).bind fun values values' _ hvalues => ?_
      exact keepsOrder_of_library hcalls.1.1 hcalls.1.2 counts _ _ values values' hvalues

/-- The arguments of a call are evaluated to lists of values that follow one another. -/
theorem evalAll_follows {m m' : Moments} {args : List (Expr ν)}
    (hcalls : AllCallsOnly PureCall args)
    (hread : ∀ x ∈ allVars args, (read x).Follows counts (read' x)) :
    SameOutcome (FollowsAll counts) (evalAll read m args) (evalAll read' m' args) := by
  match args with
  | [] => exact .ok .nil
  | e :: rest =>
      simp only [allVars, List.forall_mem_append] at hread
      refine (eval_follows hcalls.1 hread.1).bind fun a a' _ ha => ?_
      refine (evalAll_follows hcalls.2 hread.2).bind fun values values' _ hvalues => ?_
      exact .ok (.cons ha hvalues)

end

/-- Where two evaluations read the same data they have the same data as results, or the same error,
whatever the alarms and times. And where in the second evaluation no variable has a lesser severity
or an earlier time, the result has neither. -/
theorem eval_noninterference (read read' : ν → Value) (m m' : Moments) (e : Expr ν)
    (hcalls : e.CallsOnly PureCall)
    (hdata : ∀ x ∈ e.vars, (read x).payload = (read' x).payload) :
    (e.eval read m).map Value.payload = (e.eval read' m').map Value.payload ∧
      ((∀ x ∈ e.vars, (read x).WorsensTo (read' x)) →
        SameOutcome Value.WorsensTo (e.eval read m) (e.eval read' m')) := by
  have hfollows := @eval_follows ν (∀ x ∈ e.vars, (read x).WorsensTo (read' x)) read read' m m' e
    hcalls fun x hx => ⟨hdata x hx, fun h => h x hx⟩
  exact ⟨hfollows.map_eq fun v w h => h.payload,
    fun hworse => hfollows.mono fun v w h => h.metadata hworse⟩

/-- A level raises its alarm, and is limited, alike whether it is connected or not; the alarm of the
sum is not better for a level that is not. -/
theorem eval_noninterference_level :
    let level : Value := ⟨.scalar 9.5, .clear, ⟨7, 0⟩⟩
    let unconnected : Value := ⟨.scalar 9.5, .disconnected, ⟨7, 3⟩⟩
    let zero : Expr Unit := .constant (.number ⟨0, 0⟩ 0.0)
    let e : Expr Unit := .binary .add
      (.call AlarmFunction.majorAlarm [.var (), .constant (.text ⟨0, 0⟩ "high")])
      (.call Industrial.clamp [.var (), zero, .constant (.number ⟨0, 0⟩ 5.0)])
    (e.eval (fun _ => level) fun _ => ⟨⟨8, 0⟩, 0.5⟩).map Value.payload =
        (e.eval (fun _ => unconnected) fun _ => ⟨⟨9, 0⟩, 0.25⟩).map Value.payload ∧
      SameOutcome Value.WorsensTo (e.eval (fun _ => level) fun _ => ⟨⟨8, 0⟩, 0.5⟩)
        (e.eval (fun _ => unconnected) fun _ => ⟨⟨9, 0⟩, 0.25⟩) := by
  intro level unconnected zero e
  have hcalls : e.CallsOnly PureCall := by
    refine ⟨⟨⟨?_, by decide⟩, trivial, trivial, trivial⟩, ⟨?_, by decide⟩, trivial, trivial,
      trivial, trivial⟩
    · simp [libraryFunctions, Registry.knownPlugins, AlarmFunction.all]
    · simp [libraryFunctions, Registry.knownPlugins, Industrial.all]
  have hworse : level.WorsensTo unconnected := ⟨by decide, by decide⟩
  obtain ⟨hdata, hmetadata⟩ := eval_noninterference (fun _ => level) (fun _ => unconnected)
    (fun _ => ⟨⟨8, 0⟩, 0.5⟩) (fun _ => ⟨⟨9, 0⟩, 0.25⟩) e hcalls fun _ _ => rfl
  exact ⟨hdata, hmetadata fun _ _ => hworse⟩

end Expr

end ProcessFormula
