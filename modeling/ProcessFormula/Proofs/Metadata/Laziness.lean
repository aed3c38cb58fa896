import ProcessFormula.Proofs.Metadata.Noninterference

/-!
What evaluation leaves out does not show in the data. Eager evaluation computes both operands of the
logical operators and both branches of a conditional. Wherever it succeeds, so does evaluation, with
the same data; only the alarms and times of the parts that were left out may be missing.
-/

namespace ProcessFormula

open ProcessFormula.Parser (bind_eq_ok)

namespace Expr

variable {ν : Type}

mutual

/-- The value of a formula of which every part is evaluated, from left to right, and the first error
wins. A conditional selects between the values of its branches. -/
def evalEager (read : ν → Value) (m : Moments) : Expr ν → Evaluation
  | .constant value => .ok value
  | .var x => .ok (read x)
  | .unary op operand => do
    let v ← operand.evalEager read m
    return v.withPayload (.scalar (op.apply v.toFloat))
  | .binary op left right => do
    let a ← left.evalEager read m
    let b ← right.evalEager read (m.behind left.calls.length)
    return op.combine a b
  | .conditional condition thenBranch elseBranch => do
    let c ← condition.evalEager read m
    let a ← thenBranch.evalEager read (m.behind condition.calls.length)
    let b ← elseBranch.evalEager read (m.behind (condition.calls ++ thenBranch.calls).length)
    return if c.isTrue then a else b
  | .call function args => do
    let values ← evalAllEager read m args
    function.compute (m (allCalls args).length) values

def evalAllEager (read : ν → Value) (m : Moments) : List (Expr ν) → Except EvalError (List Value)
  | [] => .ok []
  | e :: rest => do
    let v ← e.evalEager read m
    let more ← evalAllEager read (m.behind e.calls.length) rest
    return v :: more

end

end Expr

/-! ### A left operand that decides -/

/-- The later of two times is not before the first. -/
theorem Timestamp.not_latest_before (s t : Timestamp) : ¬ (s.latest t).before s = true := by
  unfold latest
  split <;> simp only [before_iff] at * <;> omega

/-- Combining with another value does not improve metadata. -/
theorem Value.WorsensTo.combine {v w : Value} (h : v.WorsensTo w) (result : Float) (b : Value) :
    v.WorsensTo (Value.combine result w b) := by
  constructor
  · calc v.alarm.severity.rank
      _ ≤ w.alarm.severity.rank := h.rank
      _ ≤ max w.alarm.severity.rank b.alarm.severity.rank := Nat.le_max_left _ _
      _ = (w.alarm.worst b.alarm).severity.rank := (Alarm.rank_worst _ _).symm
  · intro hearlier
    have hnot := Timestamp.not_latest_before w.time b.time
    exact h.time (Timestamp.before_of_not_before hnot hearlier)

namespace BinaryOp

variable {op : BinaryOp} {a : Value}

/-- A left operand that decides gives the number that the operator gives with any right operand. -/
theorem apply_of_decidedBy (h : op.decidedBy a = true) (y : Float) :
    op.apply a.toFloat y = Binary64.flag a.isTrue := by
  cases op with
  | and =>
      have hfalse : a.isTrue = false := by simpa [decidedBy] using h
      change Binary64.flag (a.isTrue && y != 0.0) = _
      rw [hfalse, Bool.false_and]
  | or =>
      have htrue : a.isTrue = true := by simpa [decidedBy] using h
      change Binary64.flag (a.isTrue || y != 0.0) = _
      rw [htrue, Bool.true_or]
  | add | sub | mul | div | pow | lt | le | gt | ge | eq | ne => simp [decidedBy] at h

/-- Where the first operand decides the result, its truth is the result whatever the second is. -/
theorem combine_of_decidedBy (h : op.decidedBy a = true) (b : Value) :
    op.combine a b = Value.combine (Binary64.flag a.isTrue) a b := by
  have hop : op ≠ .add := by
    rintro rfl
    simp [decidedBy] at h
  rw [combine, if_neg fun hadd => hop hadd.1, apply_of_decidedBy h]

/-- The result of an operator that its left operand decides, compared with what both operands
give. -/
theorem follows_of_decidedBy {counts : Prop} {a' : Value} (h : op.decidedBy a' = true)
    (ha : a.Follows counts a') (b' : Value) :
    (a.withPayload (.scalar (Binary64.flag a.isTrue))).Follows counts (op.combine a' b') := by
  rw [combine_of_decidedBy h, ha.isTrue]
  refine ⟨rfl, fun hcounts => ?_⟩
  have hworse := (ha.metadata hcounts).combine (Binary64.flag a'.isTrue) b'
  exact ⟨hworse.rank, hworse.time⟩

end BinaryOp

/-! ### Formulas -/

/-- Where the second computation has a result, the first has one that is related to it. -/
theorem SameOutcome.exists_left {ε α β : Type} {related : α → β → Prop} {x : Except ε α} {b : β}
    (h : SameOutcome related x (.ok b)) : ∃ a, x = .ok a ∧ related a b := by
  cases h with
  | ok h => exact ⟨_, rfl, h⟩

namespace Expr

variable {ν : Type} {read : ν → Value}

mutual

/-- Where everything can be evaluated, what is needed can be, to the same payload and with no worse
metadata. -/
theorem eval_of_evalEager {m m' : Moments} {e : Expr ν} {w : Value}
    (hcalls : e.CallsOnly PureCall) (heager : e.evalEager read m' = .ok w) :
    ∃ v, e.eval read m = .ok v ∧ v.Follows True w := by
  match e with
  | .constant value =>
      obtain rfl := Except.ok.inj heager
      exact ⟨value, rfl, .refl value⟩
  | .var x =>
      obtain rfl := Except.ok.inj heager
      exact ⟨read x, rfl, .refl (read x)⟩
  | .unary op operand =>
      obtain ⟨a', ha', heager⟩ := bind_eq_ok.mp heager
      obtain rfl := Except.ok.inj heager
      obtain ⟨a, ha, hfollows⟩ := eval_of_evalEager (e := operand) hcalls ha'
      refine ⟨_, bind_eq_ok.mpr ⟨a, ha, rfl⟩, ?_⟩
      rw [hfollows.toFloat]
      exact hfollows.withPayload _
  | .binary op left right =>
      obtain ⟨a', ha', heager⟩ := bind_eq_ok.mp heager
      obtain ⟨b', hb', heager⟩ := bind_eq_ok.mp heager
      obtain rfl := Except.ok.inj heager
      obtain ⟨a, ha, hleft⟩ := eval_of_evalEager hcalls.1 ha'
      obtain ⟨b, hb, hright⟩ := eval_of_evalEager hcalls.2 hb'
      have hdecided : op.decidedBy a = op.decidedBy a' := by
        rw [BinaryOp.decidedBy, BinaryOp.decidedBy, hleft.isTrue]
      cases h : op.decidedBy a' with
      | true =>
          refine ⟨_, bind_eq_ok.mpr ⟨a, ha, if_pos (hdecided.trans h)⟩, ?_⟩
          exact BinaryOp.follows_of_decidedBy h hleft b'
      | false =>
          refine ⟨op.combine a b, bind_eq_ok.mpr ⟨a, ha, ?_⟩, op.follows_combine hleft hright⟩
          rw [hdecided, h]
          exact bind_eq_ok.mpr ⟨b, hb, rfl⟩
  | .conditional condition thenBranch elseBranch =>
      obtain ⟨c', hc', heager⟩ := bind_eq_ok.mp heager
      obtain ⟨a', ha', heager⟩ := bind_eq_ok.mp heager
      obtain ⟨b', hb', heager⟩ := bind_eq_ok.mp heager
      obtain rfl := Except.ok.inj heager
      obtain ⟨c, hc, hcondition⟩ := eval_of_evalEager hcalls.1 hc'
      obtain ⟨a, ha, hthen⟩ := eval_of_evalEager hcalls.2.1 ha'
      obtain ⟨b, hb, helse⟩ := eval_of_evalEager hcalls.2.2 hb'
      cases h : c'.isTrue with
      | true =>
          refine ⟨a, bind_eq_ok.mpr ⟨c, hc, ?_⟩, hthen⟩
          rw [hcondition.isTrue, h]
          exact ha
      | false =>
          refine ⟨b, bind_eq_ok.mpr ⟨c, hc, ?_⟩, helse⟩
          rw [hcondition.isTrue, h]
          exact hb
  | .call f args =>
      obtain ⟨values', hvalues', heager⟩ := bind_eq_ok.mp heager
      obtain ⟨values, hvalues, hfollows⟩ := evalAll_of_evalAllEager (m := m) hcalls.2 hvalues'
      let own := (allCalls args).length
      have hsame := keepsOrder_of_library hcalls.1.1 hcalls.1.2 True (m own) (m' own) values values'
        hfollows
      rw [heager] at hsame
      obtain ⟨v, hv, hresult⟩ := hsame.exists_left
      exact ⟨v, bind_eq_ok.mpr ⟨values, hvalues, hv⟩, hresult⟩

theorem evalAll_of_evalAllEager {m m' : Moments} {args : List (Expr ν)} {values' : List Value}
    (hcalls : AllCallsOnly PureCall args) (heager : evalAllEager read m' args = .ok values') :
    ∃ values, evalAll read m args = .ok values ∧ FollowsAll True values values' := by
  match args with
  | [] =>
      obtain rfl := Except.ok.inj heager
      exact ⟨[], rfl, .nil⟩
  | e :: rest =>
      obtain ⟨w, hw, heager⟩ := bind_eq_ok.mp heager
      obtain ⟨more', hmore', heager⟩ := bind_eq_ok.mp heager
      obtain rfl := Except.ok.inj heager
      obtain ⟨v, hv, hfirst⟩ := eval_of_evalEager hcalls.1 hw
      obtain ⟨more, hmore, hrest⟩ := evalAll_of_evalAllEager hcalls.2 hmore'
      exact ⟨v :: more, bind_eq_ok.mpr ⟨v, hv, bind_eq_ok.mpr ⟨more, hmore, rfl⟩⟩,
        .cons hfirst hrest⟩

end

/-- Where eager evaluation succeeds, evaluation succeeds with the same data, under an alarm of at
most the same severity and a time that is not later. -/
theorem eval_refines_evalEager (read : ν → Value) (m m' : Moments) (e : Expr ν) (w : Value)
    (hcalls : e.CallsOnly PureCall) (heager : e.evalEager read m' = .ok w) :
    ∃ v, e.eval read m = .ok v ∧ v.payload = w.payload ∧ v.WorsensTo w := by
  obtain ⟨v, hv, hfollows⟩ := eval_of_evalEager hcalls heager
  exact ⟨v, hv, hfollows.payload, hfollows.metadata trivial⟩

/-- A running pump needs no look at the valve, which is disconnected, and the text of the branch
that is not selected is not measured. -/
theorem eval_refines_evalEager_pump :
    let pump : Value := ⟨.scalar 1.0, .clear, ⟨7, 0⟩⟩
    let valve : Value := ⟨.text "valve", .disconnected, ⟨8, 0⟩⟩
    let read (x : Bool) : Value := if x then pump else valve
    let running : Expr Bool := .binary .or (.var true) (.var false)
    let e : Expr Bool := .conditional running running (.call TextFunction.length [.var false])
    let m : Moments := fun _ => ⟨⟨0, 0⟩, 0.5⟩
    ∃ w v, e.evalEager read m = .ok w ∧ w.alarm = .disconnected ∧ e.eval read m = .ok v ∧
      v.payload = w.payload ∧ v.WorsensTo w := by
  intro pump valve read running e m
  have hcalls : e.CallsOnly PureCall := by
    refine ⟨⟨trivial, trivial⟩, ⟨trivial, trivial⟩, ⟨?_, by decide⟩, trivial, trivial⟩
    simp [libraryFunctions, Registry.knownPlugins, TextFunction.all]
  have htrue : (BinaryOp.or.combine pump valve).isTrue = true := by decide
  have heager : e.evalEager read m = .ok (BinaryOp.or.combine pump valve) :=
    congrArg Except.ok (if_pos htrue)
  obtain ⟨v, hv, hpayload, hworse⟩ := eval_refines_evalEager read m m e _ hcalls heager
  exact ⟨_, v, heager, rfl, hv, hpayload, hworse⟩

end Expr

end ProcessFormula
