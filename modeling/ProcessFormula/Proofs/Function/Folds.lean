import ProcessFormula.Expr.Eval
import ProcessFormula.Function.Builtin
import ProcessFormula.Function.Text
import ProcessFormula.Proofs.Function.Elements

/-!
Several ways to the same value. The greatest and the least of some operands are computed by a
function of all of them or by one of the array that they are collected in, and their sum by such a
function or by a chain of operators, which also puts texts together. The ways start from different
numbers and combine alarms and times in different places, and nevertheless agree.
-/

namespace ProcessFormula

open ProcessFormula.Parser (bind_eq_ok)

namespace Binary64

/-- NaN in front of other numbers has no effect on the greatest of them. -/
theorem greater_nan (x : Float) : greater nan x = x :=
  if_pos rfl

theorem lesser_nan (x : Float) : lesser nan x = x :=
  if_pos rfl

end Binary64

/-- The start value of the sum does not show, since negative zero is neutral. -/
theorem ArrayFunction.sum_cons (x : Float) (data : List Float) :
    sum (x :: data) = data.foldl (· + ·) x := by
  rw [sum, List.foldl_cons, Binary64.negZero_add]

/-! ### Sums of values -/

theorem BinaryOp.combine_add_of_text {a b : Value} (h : a.isText = true ∨ b.isText = true) :
    BinaryOp.add.combine a b =
      ⟨.text (a.toText ++ b.toText), a.alarm.worst b.alarm, a.time.latest b.time⟩ :=
  if_pos ⟨rfl, h⟩

theorem BinaryOp.combine_add_of_not_text {a b : Value} (ha : a.isText = false)
    (hb : b.isText = false) :
    BinaryOp.add.combine a b = Value.combine (a.toFloat + b.toFloat) a b := by
  have hnot : ¬ (BinaryOp.add = .add ∧ (a.isText = true ∨ b.isText = true)) := by
    simp [ha, hb]
  exact if_neg hnot

section

variable {values rest : List Value} {a b : Value}

/-- Values that are no texts are added to a number as the numbers that they read as. -/
theorem foldl_add_number (h : ∀ v ∈ values, v.isText = false) (x : Float) (alarm : Alarm)
    (time : Timestamp) :
    values.foldl BinaryOp.add.combine ⟨.scalar x, alarm, time⟩ =
      ⟨.scalar ((values.map Value.toFloat).foldl (· + ·) x),
        (values.map (·.alarm)).foldl Alarm.worst alarm,
        (values.map (·.time)).foldl Timestamp.latest time⟩ := by
  induction values generalizing x alarm time with
  | nil => rfl
  | cons v rest ih =>
      obtain ⟨hv, hrest⟩ := List.forall_mem_cons.mp h
      rw [List.foldl_cons, BinaryOp.combine_add_of_not_text rfl hv]
      exact ih hrest (x + v.toFloat) (alarm.worst v.alarm) (time.latest v.time)

/-- Whatever is added to a text is put behind it as a text. -/
theorem foldl_add_text (values : List Value) (s : String) (alarm : Alarm) (time : Timestamp) :
    values.foldl BinaryOp.add.combine ⟨.text s, alarm, time⟩ =
      ⟨.text (s ++ String.join (values.map Value.toText)),
        (values.map (·.alarm)).foldl Alarm.worst alarm,
        (values.map (·.time)).foldl Timestamp.latest time⟩ := by
  induction values generalizing s alarm time with
  | nil => simp
  | cons v rest ih =>
      rw [List.foldl_cons, BinaryOp.combine_add_of_text (.inl rfl), List.map_cons,
        String.join_cons, ← String.append_assoc]
      exact ih (s ++ v.toText) (alarm.worst v.alarm) (time.latest v.time)

/-- The sum of two values or more is derived from all of them. It is the sum of their numbers. -/
theorem foldl_add_of_not_text (h : ∀ v ∈ a :: b :: rest, v.isText = false) (now : Timestamp) :
    (b :: rest).foldl BinaryOp.add.combine a = Value.derived now
      (.scalar (ArrayFunction.sum ((a :: b :: rest).map Value.toFloat))) (a :: b :: rest) := by
  obtain ⟨ha, hbrest⟩ := List.forall_mem_cons.mp h
  obtain ⟨hb, hrest⟩ := List.forall_mem_cons.mp hbrest
  rw [List.foldl_cons, BinaryOp.combine_add_of_not_text ha hb, Value.combine,
    foldl_add_number hrest, List.map_cons, ArrayFunction.sum_cons]
  rfl

/-- With a text among the first two values the sum is the text of all. -/
theorem foldl_add_of_text (h : a.isText = true ∨ b.isText = true) (now : Timestamp) :
    (b :: rest).foldl BinaryOp.add.combine a = Value.derived now
      (.text (String.join ((a :: b :: rest).map Value.toText))) (a :: b :: rest) := by
  rw [List.foldl_cons, BinaryOp.combine_add_of_text h, foldl_add_text, List.map_cons,
    List.map_cons, String.join_cons, String.join_cons, ← String.append_assoc]
  rfl

end

namespace Expr

variable {ν : Type}

/-- Operands with plus signs between them, added from the left. -/
def addAll (first : Expr ν) (more : List (Expr ν)) : Expr ν := more.foldl (.binary .add) first

def ofCollected (function : Callable) (operands : List (Expr ν)) : Expr ν :=
  .call function [.call ArrayFunction.arrayOf operands]

variable {read : ν → Value} {m : Moments}

/-- A call has the moment behind those of the calls in its arguments. -/
theorem eval_call {function : Callable} {args : List (Expr ν)} {values : List Value}
    (h : evalAll read m args = .ok values) :
    (call function args).eval read m = function.compute (m (allCalls args).length) values := by
  rw [eval, h]
  rfl

/-- Arguments are evaluated one behind the other. -/
theorem evalAll_cons_eq_ok {e : Expr ν} {more : List (Expr ν)} {values : List Value} :
    evalAll read m (e :: more) = .ok values ↔ ∃ v rest,
      e.eval read m = .ok v ∧ evalAll read (m.behind e.calls.length) more = .ok rest ∧
        v :: rest = values := by
  simp only [evalAll, bind_eq_ok, pure, Except.pure, Except.ok.injEq, exists_and_left]

/-- A reduction of collected operands computes a number from the numbers that they read as. -/
theorem eval_ofCollected {name description : String} {f : List Float → Float}
    {operands : List (Expr ν)} {first : Value} {rest : List Value}
    (h : evalAll read m operands = .ok (first :: rest)) :
    (ofCollected (ArrayFunction.ofReduction name f description) operands).eval read m =
      .ok (Value.derived (m 0).now (.scalar (f ((first :: rest).map Value.toFloat)))
        (first :: rest)) := by
  have hcollected : (call ArrayFunction.arrayOf operands).eval read m = .ok _ :=
    (eval_call h).trans (ArrayFunction.collect_cons _ first rest)
  have hargs : evalAll read m [call ArrayFunction.arrayOf operands] = .ok [_] :=
    evalAll_cons_eq_ok.mpr ⟨_, [], hcollected, rfl, rfl⟩
  rw [ofCollected, eval_call hargs]
  exact ArrayFunction.reduce_of_numbers rfl f

/-- A chain of sums adds the values of its operands from the left. -/
theorem eval_addAll {first : Expr ν} {more : List (Expr ν)} {a : Value} {rest : List Value}
    (hfirst : first.eval read m = .ok a)
    (hmore : evalAll read (m.behind first.calls.length) more = .ok rest) :
    (addAll first more).eval read m = .ok (rest.foldl BinaryOp.add.combine a) := by
  induction more generalizing first a rest with
  | nil =>
      obtain rfl := Except.ok.inj hmore
      exact hfirst
  | cons second more ih =>
      obtain ⟨b, others, hsecond, hothers, rfl⟩ := evalAll_cons_eq_ok.mp hmore
      have hsum : (binary .add first second).eval read m = .ok (BinaryOp.add.combine a b) := by
        rw [eval, hfirst, hsecond]
        rfl
      have hbehind : (binary .add first second).calls.length =
          first.calls.length + second.calls.length := by simp [calls]
      rw [Moments.behind_behind, ← hbehind] at hothers
      exact @ih _ _ others hsum hothers

/-- For two operands or more, whatever their values are, the greatest and the least of the array are
those of the operands. The sum of the array is the chain of their sums if none of them is a text,
and the average that sum divided by their number. With a text among the first two, the chain puts
the texts of all together. The results agree in payload, alarm and time. -/
theorem folds_agree {first second : Expr ν} {more : List (Expr ν)} {a b : Value}
    {rest : List Value} (h : evalAll read m (first :: second :: more) = .ok (a :: b :: rest)) :
    (∃ v, (ofCollected ArrayFunction.arrayMax (first :: second :: more)).eval read m = .ok v ∧
        (call Builtin.max (first :: second :: more)).eval read m = .ok v) ∧
      (∃ v, (ofCollected ArrayFunction.arrayMin (first :: second :: more)).eval read m = .ok v ∧
        (call Builtin.min (first :: second :: more)).eval read m = .ok v) ∧
      ((∀ v ∈ a :: b :: rest, v.isText = false) → ∃ total,
        (ofCollected ArrayFunction.arraySum (first :: second :: more)).eval read m = .ok total ∧
        (addAll first (second :: more)).eval read m = .ok total ∧
        (ofCollected ArrayFunction.arrayAvg (first :: second :: more)).eval read m =
          .ok (total.withPayload
            (.scalar (total.toFloat / Binary64.ofNat (a :: b :: rest).length)))) ∧
      (a.isText = true ∨ b.isText = true → ∃ joined,
        (call TextFunction.concat (first :: second :: more)).eval read m = .ok joined ∧
        (addAll first (second :: more)).eval read m = .ok joined) := by
  obtain ⟨v, others, hfirst, hmore, hvalues⟩ := evalAll_cons_eq_ok.mp h
  obtain ⟨rfl, rfl⟩ := List.cons.inj hvalues
  have hchain := eval_addAll hfirst hmore
  refine ⟨⟨_, eval_ofCollected h, ?_⟩, ⟨_, eval_ofCollected h, ?_⟩, fun hnumbers => ?_,
    fun htext => ?_⟩
  · rw [eval_call h, List.map_cons, List.foldl_cons, Binary64.greater_nan]
    rfl
  · rw [eval_call h, List.map_cons, List.foldl_cons, Binary64.lesser_nan]
    rfl
  · refine ⟨_, eval_ofCollected h, ?_, (eval_ofCollected h).trans ?_⟩
    · rw [hchain, foldl_add_of_not_text hnumbers (m 0).now]
    · have hlength : ((v :: b :: rest).map Value.toFloat).length = (v :: b :: rest).length :=
        List.length_map _
      rw [ArrayFunction.average, hlength]
      rfl
  · refine ⟨_, eval_call h, ?_⟩
    rw [hchain, foldl_add_of_text htext (m 0).now]
    rfl

/-- The choice of a mode, NaN and a level are no texts, so their sum is that of the array; the mode in
front of a text is put together with it. -/
theorem folds_agree_mode :
    let m : Moments := fun _ => ⟨⟨9, 0⟩, 0.0⟩
    let mode : Value := ⟨.choice 1 ["off", "on"], ⟨.minor, "LOW"⟩, ⟨5, 0⟩⟩
    let missing : Value := ⟨.scalar Binary64.nan, ⟨.minor, "HIGH"⟩, ⟨7, 0⟩⟩
    let mark : Value := ⟨.text "!", .clear, ⟨3, 0⟩⟩
    let read : ℕ → Value := fun _ => ⟨.scalar 2.5, .clear, ⟨3, 0⟩⟩
    (∃ total,
        (ofCollected ArrayFunction.arraySum [.constant mode, .constant missing, .var 0]).eval
          read m = .ok total ∧
        (addAll (.constant mode) [.constant missing, .var 0]).eval read m = .ok total) ∧
      (addAll (.constant mode) [.constant mark]).eval read m =
        .ok ⟨.text "on!", ⟨.minor, "LOW"⟩, ⟨5, 0⟩⟩ := by
  intro m mode missing mark read
  have hnumbers : evalAll read m [.constant mode, .constant missing, .var 0] =
      .ok [mode, missing, read 0] := rfl
  have htexts : evalAll read m [.constant mode, .constant mark] = .ok [mode, mark] := rfl
  constructor
  · obtain ⟨total, hsum, hchain, -⟩ := (folds_agree hnumbers).2.2.1 (by decide)
    exact ⟨total, hsum, hchain⟩
  · obtain ⟨joined, hconcat, hchain⟩ := (folds_agree htexts).2.2.2 (.inr rfl)
    have htext : String.join [mode.toText, mark.toText] = "on!" := by decide
    rw [hchain, ← hconcat, ← htext]
    rfl

end Expr

end ProcessFormula
