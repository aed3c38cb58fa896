import ProcessFormula.Proofs.Formula.Modes
import ProcessFormula.Proofs.Grammar.PrintedTrees

/-!
A formula and its printed text. Compiled for the same caller, the printed text of a formula gives a
formula with the same tree over names and the same variables; its constants are of the time at which
the printed text is compiled.
-/

namespace ProcessFormula.Formula

def tree (f : Formula) : Expr String := f.root.map Variable.name

/-- Which names are discovered does not depend on the time of the constants. -/
theorem discovered_atTime (mode : BindingMode) (offered : List Variable) (now : Timestamp)
    (tree : Expr String) :
    discovered mode offered (tree.atTime now) = discovered mode offered tree := by
  simp [discovered, freeNames]

/-- The printed text of a formula compiles again, to a formula of the same tree and of variables
with the same names, where the text shows the tree: see `Expr.Presentable`. -/
theorem compile_text {registry : Registry} {now : Timestamp} {mode : BindingMode}
    {offered : List Variable} {text : String} {store store' : Store} {f : Formula}
    (hcompile : compile registry now mode offered text store = .ok (f, store'))
    (hpresentable : f.tree.Everywhere (Expr.Presentable registry))
    (hnesting : f.tree.printedNesting ≤ 64) (later : Timestamp) (other : Store) :
    ∃ g other', compile registry later mode offered f.text other = .ok (g, other') ∧
      g.tree = f.tree.atTime later ∧
      g.inputs.map Variable.name = f.inputs.map Variable.name := by
  obtain ⟨hparse, hcompiled⟩ := parse_of_compile hcompile
  have hsentence := Grammar.sentence_of_parse hparse
  obtain ⟨-, -, -, hheight⟩ := id hsentence
  have hprinted : Grammar.Printed (scope registry later mode offered) 0 f.tree :=
    Grammar.printed hsentence.fromText hpresentable (by simpa [Parser.maxNesting] using hnesting)
  have hagain : Parser.parse (scope registry later mode offered) f.text =
      .ok (f.tree.atTime later) := by
    rw [text_eq]
    exact Grammar.parse_of_sentence (hprinted.sentence hheight)
  refine ⟨_, _, compile_of_parse hagain other, root_map_name, ?_⟩
  have hinputs : f.inputs.map Variable.name =
      (callers mode offered).map Variable.name ++ discovered mode offered f.tree := by
    have hf : f = (compiled now mode offered text store f.tree).1 := congrArg Prod.fst hcompiled
    conv => lhs; rw [hf]
    exact inputs_compiled_name ..
  rw [inputs_compiled_name, discovered_atTime, hinputs]

/-- The text `((level > 2.5) ? "high" : (level * -0.1))` is the printed text of its formula. -/
theorem compile_text_level :
    let text := "((level > 2.5) ? \x22high\x22 : (level * -0.1))"
    ∃ f store', compile .builtinsOnly ⟨0, 0⟩ .autoDetect [] text .empty = .ok (f, store') ∧
      f.text = text ∧
      ∃ g other', compile .builtinsOnly ⟨7, 0⟩ .autoDetect [] f.text .empty = .ok (g, other') ∧
        g.tree = f.tree.atTime ⟨7, 0⟩ ∧
        g.inputs.map Variable.name = f.inputs.map Variable.name := by
  intro text
  let e : Expr String := .conditional
    (.binary .gt (.var "level") (.constant (.number ⟨0, 0⟩ 2.5)))
    (.constant (.text ⟨0, 0⟩ "high"))
    (.binary .mul (.var "level") (.constant (.number ⟨0, 0⟩ (-0.1))))
  have htext : e.text id = text := by decide +kernel
  have hfrom : e.Everywhere (Expr.FromText (scope .builtinsOnly ⟨7, 0⟩ .autoDetect []).knows
      Registry.builtinsOnly.resolve) :=
    ⟨trivial, ⟨trivial, rfl, .inl ⟨_, _, rfl⟩⟩, .inr ⟨_, _, rfl, by decide⟩,
      trivial, rfl, .inl ⟨_, _, rfl⟩⟩
  have hlevel : (Expr.var "level").Presentable .builtinsOnly := by
    show ∀ c ∈ "level".toList.head?, c.isDigit = false
    simp
  have hpresentable : e.Everywhere (Expr.Presentable .builtinsOnly) := by
    refine ⟨trivial, ⟨trivial, hlevel, ?_⟩, ?_, trivial, hlevel, ?_⟩
    · show (2.5 : Float).isFinite = true
      decide +kernel
    · show '\x22' ∉ "high".toList
      decide
    · show (-0.1 : Float).isFinite = true
      decide +kernel
  have hprinted : Grammar.Printed (scope .builtinsOnly ⟨0, 0⟩ .autoDetect []) 0 e :=
    Grammar.printed hfrom hpresentable (by decide)
  have hsentence : Grammar.Sentence (scope .builtinsOnly ⟨0, 0⟩ .autoDetect []) text e :=
    htext ▸ hprinted.sentence (by decide)
  have hcompile := compile_of_parse (Grammar.parse_of_sentence hsentence) .empty
  have htree : (compiled ⟨0, 0⟩ .autoDetect [] text .empty e).1.tree = e := root_map_name
  refine ⟨_, _, hcompile, ?_, ?_⟩
  · exact (text_eq _).trans ((congrArg (Expr.text id) htree).trans htext)
  · exact compile_text hcompile (by rw [htree]; exact hpresentable) (by rw [htree]; decide)
      ⟨7, 0⟩ .empty

end ProcessFormula.Formula
