import ProcessFormula.Proofs.Builder.Running
import ProcessFormula.Proofs.Expr.Height
import ProcessFormula.Proofs.Parser.Loops

/-!
The two counters of the builder, from any state. Every reader hands the nesting counter back as it
got it, whether it succeeds or fails; and every tree that a reader hands back has the height that was
counted for it, which is within the limit. A reader does so if the reader that it is given for
expressions inside of its own does.
-/

namespace ProcessFormula.Builder

open Lexeme ProcessFormula.Parser Text

/-- The height that was counted for a tree is that of the tree, and it is within the limit. -/
structure Subtree.Measured (t : Subtree) : Prop where
  height : t.height = t.node.height
  bounded : t.height ≤ maxHeight

/-- From every state a computation hands the nesting counter back as it got it, and what it succeeds
with is good. -/
structure Keeps {α : Type} (good : α → Prop) (x : Build α) : Prop where
  nesting : ∀ d, (x.runFrom d).2.nesting = d.nesting
  good : ∀ d a, (x.runFrom d).1 = .ok a → good a

section

variable {α β : Type} {good : α → Prop} {good' : β → Prop}

theorem keeps_pure {a : α} (h : good a) : Keeps good (pure a) where
  nesting _ := rfl
  good _ _ ha := Except.ok.inj ha ▸ h

theorem keeps_throw (e : Failure) : Keeps good (throw e : Build α) where
  nesting _ := rfl
  good _ _ ha := by cases ha

theorem keeps_lift {x : Except Failure α} (h : ∀ a, x = .ok a → good a) :
    Keeps good (liftM x : Build α) where
  nesting d := by rw [Build.runFrom_lift]
  good d a ha := h a (by rwa [Build.runFrom_lift] at ha)

theorem keeps_get : Keeps (fun _ => True) (get : Build State) where
  nesting _ := rfl
  good _ _ _ := trivial

theorem keeps_modify {f : State → State} (h : ∀ d, (f d).nesting = d.nesting) :
    Keeps (fun _ => True) (modify f : Build PUnit) where
  nesting := h
  good _ _ _ := trivial

/-- Counters are kept by one computation after the other. -/
theorem Keeps.bind {x : Build α} {f : α → Build β} (hx : Keeps good x)
    (hf : ∀ a, good a → Keeps good' (f a)) : Keeps good' (x >>= f) := by
  have hrun (d : State) : ((x >>= f).runFrom d).2.nesting = d.nesting ∧
      ∀ b, ((x >>= f).runFrom d).1 = .ok b → good' b := by
    have hnesting := hx.nesting d
    have hgood := hx.good d
    rw [Build.runFrom_bind]
    generalize x.runFrom d = run at hnesting hgood ⊢
    rcases run with ⟨e | a, d'⟩
    · exact ⟨hnesting, fun b hb => by cases hb⟩
    · have ha := hf a (hgood a rfl)
      exact ⟨(ha.nesting d').trans hnesting, ha.good d'⟩
  exact ⟨fun d => (hrun d).1, fun d => (hrun d).2⟩

/-- A level that is opened is closed again, whatever comes of what is read inside. -/
theorem keeps_enter {unread : Input} {inside : Build α} (h : Keeps good inside) :
    Keeps good (enter unread inside) := by
  constructor
  · intro d
    rw [Build.runFrom_enter]
    split
    · rfl
    · dsimp only
      rw [h.nesting]
      rfl
  · intro d a ha
    rw [Build.runFrom_enter] at ha
    split at ha
    · cases ha
    · exact h.good _ a ha

end

/-! ### Heights -/

theorem measured_leaf {node : Expr Variable} (h : node.height = 1) : (Subtree.leaf node).Measured :=
  ⟨h.symm, show 1 ≤ maxHeight by decide⟩

/-- A tree that is put together has the height that was counted, unless it is refused. -/
theorem measured_of_branch {node : Expr Variable} {height : Nat} {unread : Input} {t : Subtree}
    (hheight : height = node.height) (h : branch node height unread = .ok t) : t.Measured := by
  unfold branch at h
  split at h
  · cases h
  · next hbound =>
    obtain rfl := Except.ok.inj h
    exact ⟨hheight, Nat.le_of_not_lt hbound⟩

theorem measured_of_binary {op : BinaryOp} {left right t : Subtree} {unread : Input}
    (hleft : left.Measured) (hright : right.Measured) (h : binary op left right unread = .ok t) :
    t.Measured :=
  measured_of_branch (by rw [hleft.height, hright.height]; rfl) h

theorem map_height_of_measured {args : List Subtree} (h : ∀ t ∈ args, t.Measured) :
    args.map Subtree.height = (args.map Subtree.node).map Expr.height := by
  rw [List.map_map]
  exact List.map_congr_left fun t ht => (h t ht).height

/-- The height of a call is counted from those of its arguments. -/
theorem measured_of_call {setting : Setting} {name : String} {start unread : Input}
    {args : List Subtree} {t : Subtree} (hargs : ∀ t ∈ args, t.Measured)
    (h : call setting name start args unread = .ok t) : t.Measured := by
  unfold call at h
  split at h
  · cases h
  · split at h
    · refine measured_of_branch ?_ h
      rw [map_height_of_measured hargs, ← Expr.tallest_eq_foldr]
      rfl
    · cases h

/-! ### Readers -/

/-- A reader of trees keeps the nesting counter and counts heights as they are. -/
abbrev Counts {s : Input} (x : Build (Read Subtree s)) : Prop := Keeps (fun p => p.result.Measured) x

def Nested.Counts {s : Input} (nested : Nested s) : Prop := ∀ t h, Builder.Counts (nested t h)

def Level.Counts (level : Level) : Prop :=
  ∀ (s : Input) (nested : Nested s), nested.Counts → Builder.Counts (level s nested)

section

variable {setting : Setting} {s : Input} {nested : Nested s}

/-- What holds inside a text holds inside a rest of it. -/
theorem Nested.Counts.behind (h : nested.Counts) (inner : Shorter s) :
    (nested.behind inner).Counts :=
  fun t _ => h t _

/-- A variable is looked up, or added, with the levels that are open. -/
theorem keeps_findVariable (setting : Setting) (name : String) (start : Input) :
    Keeps (fun _ => True) (findVariable setting name start) := by
  refine ⟨fun d => ?_, fun _ _ _ => trivial⟩
  unfold findVariable
  simp only [Build.runFrom_bind, Build.runFrom_get]
  split
  · rfl
  · split
    · rfl
    · split
      · rfl
      · rfl

theorem counts_quotedVariable (setting : Setting) (c : Char) (s : Input) :
    Counts (quotedVariable setting c s) := by
  refine (keeps_lift fun _ _ => trivial).bind fun name _ => ?_
  refine (keeps_findVariable setting name.result (c :: s)).bind fun v _ => ?_
  exact keeps_pure (measured_leaf rfl)

theorem counts_parenthesised (h : nested.Counts) (inner : Shorter s) :
    Counts (parenthesised nested inner) := by
  refine (h inner.1 inner.2).bind fun p hp => ?_
  exact (keeps_lift fun _ _ => trivial).bind fun rest _ => keeps_pure hp

theorem keeps_arguments (h : nested.Counts) (t : Input) (ht : t.length < s.length) :
    Keeps (fun p => ∀ t ∈ p.result, t.Measured) (arguments nested t ht) := by
  induction t, ht using arguments.induct with
  | case1 t ht ih =>
      rw [arguments]
      refine (h t ht).bind fun first hfirst => ?_
      split
      · exact keeps_pure (by simpa using hfirst)
      · next rest hcomma =>
        refine (ih first rest).bind fun more hmore => ?_
        exact keeps_pure (List.forall_mem_cons.mpr ⟨hfirst, hmore⟩)

theorem keeps_argumentList (h : nested.Counts) (inner : Shorter s) :
    Keeps (fun p => ∀ t ∈ p.result, t.Measured) (argumentList nested inner) := by
  unfold argumentList
  split
  · exact keeps_pure (by simp)
  · refine (keeps_arguments h inner.1 inner.2).bind fun args hargs => ?_
    exact (keeps_lift fun _ _ => trivial).bind fun rest _ => keeps_pure hargs

/-- A name adds nothing to the counter, whether it is one of a variable or of a function whose
arguments are read. -/
theorem counts_named (setting : Setting) (h : nested.Counts) :
    Counts (named setting s nested) := by
  unfold named
  dsimp only
  split
  · exact keeps_throw _
  · refine (keeps_modify fun _ => by rfl).bind fun _ _ => ?_
    split
    · refine (keeps_findVariable setting _ s).bind fun v _ => ?_
      exact keeps_pure (measured_leaf rfl)
    · refine (keeps_argumentList h _).bind fun args hargs => ?_
      refine (keeps_lift fun _ => measured_of_call hargs).bind fun tree htree => ?_
      exact keeps_pure htree

theorem counts_compound (setting : Setting) {c : Char} {nested : Nested (c :: s)}
    (h : nested.Counts) : Counts (compound setting c s nested) := by
  unfold compound
  split
  · exact counts_quotedVariable setting c s
  · split
    · exact counts_parenthesised h _
    · exact counts_named setting h

theorem counts_signed (setting : Setting) (negative : Bool) :
    (signed setting negative).Counts := by
  intro s nested h
  unfold signed
  split
  · exact keeps_throw _
  · split
    · refine (keeps_lift fun _ _ => trivial).bind fun text _ => ?_
      exact keeps_pure (measured_leaf rfl)
    · split
      · refine (keeps_lift fun _ _ => trivial).bind fun x _ => ?_
        exact keeps_pure (measured_leaf rfl)
      · refine (counts_compound setting h).bind fun p hp => ?_
        split
        · refine (keeps_lift fun _ => measured_of_binary (measured_leaf rfl) hp).bind
            fun tree htree => ?_
          exact keeps_pure htree
        · exact keeps_pure hp

theorem counts_primary (setting : Setting) : (primary setting).Counts := by
  intro s nested h
  unfold primary
  split
  · exact counts_signed setting false s nested h
  · next inner _ =>
    refine (counts_signed setting true inner.1 _ (h.behind inner)).bind fun p hp => ?_
    exact keeps_pure hp

theorem counts_unary (setting : Setting) : (unary setting).Counts := by
  intro s nested h
  unfold unary
  split
  · exact counts_primary setting s nested h
  · next inner _ =>
    refine (counts_primary setting inner.1 _ (h.behind inner)).bind fun p hp => ?_
    refine (keeps_lift fun _ => measured_of_branch ?_).bind fun tree htree => keeps_pure htree
    rw [hp.height]
    rfl

/-- A chain grows by one operand after the other. By induction on the unread text, the tree so far
and the counter are right after each of them. -/
theorem counts_chainFrom {operator : (s : Input) → Except Failure (Operator s)} {operand : Level}
    (hoperand : operand.Counts) (h : nested.Counts) (left : Read Subtree s)
    (hleft : left.result.Measured) : Counts (chainFrom operator operand nested left) := by
  induction left using chainFrom.induct with
  | case1 left ih =>
      rw [chainFrom]
      refine (keeps_lift fun _ _ => trivial).bind fun found _ => ?_
      split
      · exact keeps_pure hleft
      · next op rest =>
        refine (hoperand rest.1 _ (h.behind _)).bind fun right hright => ?_
        refine (keeps_lift fun _ => measured_of_binary hleft hright).bind fun tree htree => ?_
        exact ih rest right tree htree

theorem counts_chain {operator : (s : Input) → Except Failure (Operator s)} {operand : Level}
    (hoperand : operand.Counts) : (chain operator operand).Counts :=
  fun s nested h => (hoperand s nested h).bind fun left hleft =>
    counts_chainFrom hoperand h left hleft

theorem counts_product (setting : Setting) : (product setting).Counts :=
  counts_chain (counts_unary setting)

theorem counts_sum (setting : Setting) : (sum setting).Counts :=
  counts_chain (counts_product setting)

theorem counts_compare (setting : Setting) : (compare setting).Counts :=
  counts_chain (counts_sum setting)

/-- The same for logical operators and conditionals, whose else branches open levels that are closed
again. -/
theorem counts_logicalFrom (setting : Setting) (h : nested.Counts) (left : Read Subtree s)
    (hleft : left.result.Measured) : Counts (logicalFrom setting nested left) := by
  induction left using logicalFrom.induct with
  | case1 left op rest hop ih =>
      rw [logicalFrom]
      simp only [hop]
      refine (counts_compare setting rest.1 _ (h.behind _)).bind fun right hright => ?_
      refine (keeps_lift fun _ => measured_of_binary hleft hright).bind fun tree htree => ?_
      exact ih right tree htree
  | case2 left hop hmark =>
      rw [logicalFrom]
      simp only [hop, hmark]
      exact keeps_pure hleft
  | case3 left hop rest hmark _ ih =>
      rw [logicalFrom]
      simp only [hop, hmark]
      refine (counts_compare setting rest.1 _ (h.behind _)).bind fun thenBranch hthen => ?_
      split
      · exact keeps_get.bind fun d _ => keeps_throw _
      · next afterColon hcolon =>
        refine (h afterColon.1 _).bind fun elseBranch helse => ?_
        refine (keeps_lift fun _ => measured_of_branch ?_).bind fun tree htree =>
          ih thenBranch afterColon elseBranch tree htree
        rw [hleft.height, hthen.height, helse.height]
        rfl

theorem counts_logical (setting : Setting) : (logical setting).Counts :=
  fun s nested h => (counts_compare setting s nested h).bind fun left hleft =>
    counts_logicalFrom setting h left hleft

def nestedIn (setting : Setting) (s : Input) : Nested s := fun t _ => enter t (expression setting t)

/-- Inside of an expression its nested expressions are read with one level more. -/
theorem expression_eq (setting : Setting) (s : Input) :
    expression setting s = logical setting s (nestedIn setting s) := by
  rw [expression]
  rfl

/-- However a text goes on, an expression hands the counter back as it was and has the height that
was counted. The induction is on the length of the text, as a nested expression is shorter. -/
theorem counts_expression (setting : Setting) (s : Input) : Counts (expression setting s) := by
  rw [expression_eq]
  exact counts_logical setting s _ fun t _ => keeps_enter (counts_expression setting t)
termination_by s.length

theorem counts_nested (setting : Setting) (s : Input) : (nestedIn setting s).Counts :=
  fun t _ => keeps_enter (counts_expression setting t)

end

end ProcessFormula.Builder
