import ProcessFormula.Proofs.Formula.Interference
import ProcessFormula.Proofs.Value.Equality

/-!
A formula that is evaluated twice with no variable of it set in between compares equal to itself,
also where its value is or contains NaN: equality of values is an equivalence, and whatever else
happens in a session leaves the cells of the formula as they are.
-/

namespace ProcessFormula

inductive Evaluation.Same : Evaluation → Evaluation → Prop
  | value {a b : Value} (h : a.same b = true) : Same (.ok a) (.ok b)
  | error (e : EvalError) : Same (.error e) (.error e)

theorem Evaluation.Same.refl (r : Evaluation) : Evaluation.Same r r := by
  cases r with
  | ok v => exact .value (Value.same_equivalence.refl v)
  | error e => exact .error e

namespace Session

def performAll (s : Session) (actions : List Action) : Session := actions.foldl perform s

/-- An action that does not set a cell leaves it as it is. -/
theorem read_perform_of_not_set {s : Session} {a : Action} {w : Variable}
    (hw : w.cell < s.store.size)
    (hset : ∀ v value, a.setting? = some (v, value) → w.cell ≠ v.cell) :
    (s.perform a).store.read w = s.store.read w := by
  cases h : a.setting? with
  | none => rw [store_of_no_setting s h, Store.read_extend_of_lt hw]
  | some setting =>
      obtain ⟨v, value⟩ := setting
      rw [store_of_setting s h, Store.read_write_of_ne (hset v value h)]

/-- Nor do several actions of which none sets it. -/
theorem read_performAll_of_not_set {s : Session} {actions : List Action} {w : Variable}
    (hw : w.cell < s.store.size)
    (hset : ∀ a ∈ actions, ∀ v value, a.setting? = some (v, value) → w.cell ≠ v.cell) :
    (s.performAll actions).store.read w = s.store.read w := by
  induction actions generalizing s with
  | nil => rfl
  | cons a rest ih =>
      rw [List.forall_mem_cons] at hset
      have hlt : w.cell < (s.perform a).store.size := Nat.lt_of_lt_of_le hw (size_le_perform s a)
      exact (ih hlt hset.2).trans (read_perform_of_not_set hw hset.1)

end Session

/-- Equality of values and of payloads is an equivalence. So a formula without a random number gives
equal results, values or errors, when it is evaluated again later: whatever the cells hold, and
whatever is done in between that sets none of its variables. -/
theorem Formula.eval_repeats :
    (Equivalence fun a b : Value => a.same b = true) ∧
    (Equivalence fun p q : Payload => p.same q = true) ∧
    ∀ f : Formula, f.Compiled → f.WithoutRandom →
      ∀ (s : Session) (between : List Action) (m m' : Moments),
        (∀ w ∈ f.root.vars, w.cell < s.store.size) →
        (∀ a ∈ between, ∀ v value, a.setting? = some (v, value) →
          f.root.containsVariable v = false) →
        Evaluation.Same (f.eval s.store m) (f.eval (s.performAll between).store m') := by
  refine ⟨Value.same_equivalence, Payload.same_equivalence, ?_⟩
  intro f hcompiled hwithout s between m m' hcells hset
  have hread : ∀ w ∈ f.root.vars, s.store.read w = (s.performAll between).store.read w := by
    intro w hw
    refine (Session.read_performAll_of_not_set (hcells w hw) fun a ha v value h hcell => ?_).symm
    have hcontains : f.root.containsVariable v = true :=
      Expr.containsVariable_iff.mpr ⟨w, Expr.hasLeaf_of_mem_vars hw, hcell⟩
    rw [hset a ha v value h] at hcontains
    cases hcontains
  have hsame : SameAt m m' f.root.calls :=
    .of_steady (fun call hcall => ⟨hwithout.steady hcall, hcompiled.accepts hcall⟩) m m'
  have heval : f.eval s.store m = f.eval (s.performAll between).store m' :=
    Expr.eval_congr hsame hread
  rw [heval]
  exact .refl _

/-- A variable that was never set is NaN, before and after another one is created and set. -/
theorem Formula.eval_repeats_unbound :
    let level : Variable := ⟨"level", 0⟩
    let other : Variable := ⟨"other", 1⟩
    let f : Formula := ⟨"level", .var level, [level], .autoDetect⟩
    let s : Session := ⟨Store.empty.extend [.number ⟨3, 0⟩ Binary64.nan], [], [f]⟩
    let between : List Action :=
      [.create "other" (.number ⟨4, 0⟩ 1.0), .set other (.number ⟨5, 0⟩ 2.0)]
    let m : Moments := fun _ => ⟨⟨6, 0⟩, 0.25⟩
    let m' : Moments := fun _ => ⟨⟨7, 0⟩, 0.75⟩
    f.eval s.store m = .ok (.number ⟨3, 0⟩ Binary64.nan) ∧
      Evaluation.Same (f.eval s.store m) (f.eval (s.performAll between).store m') := by
  intro level other f s between m m'
  have htree : Parser.parse (scope .builtinsOnly ⟨3, 0⟩ .autoDetect []) "level" =
      .ok (.var "level") :=
    Grammar.parse_of_sentence (Grammar.sentence_of_name rfl ⟨'l', rfl, rfl⟩ rfl)
  have hcompiled : f.Compiled :=
    ⟨.builtinsOnly, ⟨3, 0⟩, .autoDetect, [], "level", .empty, _, compile_of_parse htree .empty⟩
  have hwithout : f.WithoutRandom := by simp [WithoutRandom, f, Expr.calls]
  refine ⟨rfl, eval_repeats.2.2 f hcompiled hwithout s between m m' ?_ ?_⟩
  · simp [f, level, s, Expr.vars, Store.size, Store.extend, Store.empty]
  · intro a ha v value hset
    simp only [between, List.mem_cons, List.not_mem_nil, or_false] at ha
    rcases ha with rfl | rfl
    · cases hset
    · obtain ⟨rfl, -⟩ := Prod.mk.inj (Option.some.inj hset)
      rfl

end ProcessFormula
