import ProcessFormula.Proofs.Formula.Discovery
import ProcessFormula.Proofs.Grammar.Occurrence

/-!
The three ways to bind a formula read a text alike. They differ in the names they know; a text that
is refused in one mode and compiled in another names a variable that the first does not know.
-/

namespace ProcessFormula

/-- The cells of constants are nobody else's, so a constant is told by its name only. -/
def Variable.shared (v : Variable) : String × Option Nat :=
  (v.name, if isConstantName v.name then none else some v.cell)

namespace Formula

open ProcessFormula.Grammar (FirstOccursAt)

/-- The tree of a formula, whichever cells its constants are. -/
def sharedTree (f : Formula) : Expr (String × Option Nat) := f.root.map Variable.shared

variable {registry : Registry} {now : Timestamp} {mode : BindingMode}
  {offered : List Variable} {text : String} {store : Store} {tree : Expr String}

/-- Every formula is compiled from the tree over names that its own tree shows. -/
theorem parse_of_compile {f : Formula} {store' : Store}
    (h : compile registry now mode offered text store = .ok (f, store')) :
    Parser.parse (scope registry now mode offered) text = .ok (f.root.map Variable.name) ∧
      (f, store') = compiled now mode offered text store (f.root.map Variable.name) := by
  obtain ⟨tree, htree, hcompiled⟩ := compile_eq_ok_iff.mp h
  have hroot : f.root.map Variable.name = tree := by
    rw [← congrArg (fun r => r.1.root) hcompiled]
    exact root_map_name
  rw [hroot]
  exact ⟨htree, hcompiled.symm⟩

/-- In every mode, a text is read as in any other mode that knows its names. -/
theorem parse_of_knows {mode' : BindingMode} {offered' : List Variable}
    (h : Parser.parse (scope registry now mode offered) text = .ok tree)
    (hknown : ∀ name ∈ tree.vars, (scope registry now mode' offered').knows name = true) :
    Parser.parse (scope registry now mode' offered') text = .ok tree :=
  Grammar.parse_of_sentence ((Grammar.sentence_of_parse h).transfer hknown)

/-- In fixed mode a name is known if it is the caller's or a constant. -/
theorem knows_fixed {name : String} :
    (scope registry now .fixed offered).knows name = true ↔
      (∃ v ∈ offered, v.name = name) ∨ isConstantName name = true := by
  simp [scope, knownName, callers]

/-- Without variables is fixed mode with none. -/
theorem scope_noVariables (registry : Registry) (now : Timestamp) (offered : List Variable) :
    scope registry now .noVariables offered = scope registry now .fixed [] :=
  rfl

/-- The text of a formula depends on its tree over names only. -/
theorem text_eq (f : Formula) : f.text = (f.root.map Variable.name).text id :=
  (Expr.text_map Variable.name id f.root).symm

theorem sharedTree_compiled :
    sharedTree (compiled now mode offered text store tree).1 =
      tree.map (Variable.shared ∘ binding mode offered store tree) :=
  Expr.map_map _ _ _

theorem shared_binding_of_constant {name : String} (h : isConstantName name = true) :
    (binding mode offered store tree name).shared = (name, none) := by
  have hname : (binding mode offered store tree name).name = name := bind_name ..
  simp [Variable.shared, hname, h]

/-- Where only constants are known, trees show nothing but their names. -/
theorem sharedTree_of_constants
    (hconstants : ∀ name ∈ tree.vars, isConstantName name = true) :
    sharedTree (compiled now mode offered text store tree).1 =
      tree.map fun name => (name, none) := by
  rw [sharedTree_compiled]
  exact Expr.map_congr fun name hname => shared_binding_of_constant (hconstants name hname)

/-- Without variables a text compiles as it does for a caller who offers none. -/
theorem noVariables_eq_fixed (registry : Registry) (now : Timestamp) (offered : List Variable)
    (text : String) (store store' : Store) :
    (compile registry now .noVariables offered text store).map (fun r => r.1.sharedTree) =
      (compile registry now .fixed [] text store').map (fun r => r.1.sharedTree) := by
  rw [compile_eq_map, compile_eq_map, scope_noVariables]
  cases h : Parser.parse (scope registry now .fixed []) text with
  | error e => rfl
  | ok tree =>
      have hconstants : ∀ name ∈ tree.vars, isConstantName name = true := by
        intro name hname
        have hknown := (Grammar.sentence_of_parse h).knows name hname
        simpa [knows_fixed] using hknown
      simp only [Except.map, sharedTree_of_constants hconstants]

/-- What compiles for a caller's variables compiles with whatever occurs. -/
theorem autoDetect_of_fixed {offered' : List Variable} {store₁ : Store}
    (h : Parser.parse (scope registry now .fixed offered) text = .ok tree) :
    ∃ g store₁', compile registry now .autoDetect offered' text store₁ = .ok (g, store₁') ∧
      g.root.map Variable.name = tree := by
  have hauto : Parser.parse (scope registry now .autoDetect offered') text = .ok tree :=
    parse_of_knows h fun _ _ => rfl
  exact ⟨_, _, compile_of_parse hauto store₁, root_map_name⟩

/-- A name of the tree that no constant has is that of an input. -/
theorem exists_input (now : Timestamp) (offered : List Variable) (text : String) (store : Store)
    {name : String} (hname : name ∈ tree.vars) (hconstant : isConstantName name = false) :
    binding .autoDetect offered store tree name ∈
      (compiled now .autoDetect offered text store tree).1.inputs := by
  refine List.mem_append_right _ (List.mem_map_of_mem ?_)
  simp [discovered, mem_freeNames, callers, hname, hconstant]

/-- The inputs that were discovered can be offered. -/
theorem fixed_of_autoDetect {store₁ : Store}
    (h : Parser.parse (scope registry now .autoDetect offered) text = .ok tree) :
    ∃ g store₁', compile registry now .fixed
        (compiled now .autoDetect offered text store tree).1.inputs text store₁ = .ok (g, store₁') ∧
      g.sharedTree = (compiled now .autoDetect offered text store tree).1.sharedTree := by
  have hname : ∀ name, (binding .autoDetect offered store tree name).name = name :=
    fun name => bind_name ..
  have hfixed : Parser.parse (scope registry now .fixed
      (compiled now .autoDetect offered text store tree).1.inputs) text = .ok tree := by
    refine parse_of_knows h fun name hmem => knows_fixed.mpr ?_
    cases hconstant : isConstantName name with
    | true => exact Or.inr rfl
    | false => exact Or.inl ⟨_, exists_input now offered text store hmem hconstant, hname name⟩
  refine ⟨_, _, compile_of_parse hfixed store₁, ?_⟩
  rw [sharedTree_compiled, sharedTree_compiled]
  refine Expr.map_congr fun name hmem => ?_
  simp only [Function.comp_apply]
  cases hconstant : isConstantName name with
  | true => rw [shared_binding_of_constant hconstant, shared_binding_of_constant hconstant]
  | false =>
      have hfound := discoversInputs.found _ (exists_input now offered text store hmem hconstant)
      rw [hname] at hfound
      rw [show binding .fixed _ store₁ tree name = binding .autoDetect offered store tree name from
        bind_of_some hfound]

/-- The first input that is not offered is the first name of the tree that is not known. -/
theorem find?_unknown (now : Timestamp) (text : String) (store : Store) (tree : Expr String)
    {offered' : List Variable} {before after : List String} {n : String}
    (hinputs : (compiled now .autoDetect offered' text store tree).1.inputs.map Variable.name =
      before ++ n :: after)
    (hbefore : ∀ m ∈ before, ∃ v ∈ offered, v.name = m) (hn : ¬ ∃ v ∈ offered, v.name = n) :
    (tree.vars.find? fun name => !(scope registry now .fixed offered).knows name) = some n := by
  have hoffered : ∀ name, (offered.any fun v => v.name == name) = true ↔
      ∃ v ∈ offered, v.name = name := by simp
  have hfind : (before ++ n :: after).find? (fun name => !offered.any fun v => v.name == name) =
      some n := by
    have hnone : before.find? (fun name => !offered.any fun v => v.name == name) = none := by
      rw [List.find?_eq_none]
      intro m hm
      simp [(hoffered m).mpr (hbefore m hm)]
    have hnot : (offered.any fun v => v.name == n) = false := by
      rw [← Bool.not_eq_true, hoffered]
      exact hn
    rw [List.find?_append, hnone]
    simp [hnot]
  rw [← hinputs, inputs_names, find?_distinct, List.find?_filter] at hfind
  rw [← hfind]
  congr 1
  funext name
  have hknows := @knows_fixed registry now offered name
  rw [Bool.eq_iff_iff, Bool.not_eq_true', ← Bool.not_eq_true, hknows, ← hoffered]
  simp only [not_or, Bool.not_eq_true, decide_eq_true_eq, Bool.not_eq_true', and_comm]

/-- A caller who does not offer all inputs is refused at the first that is missing. -/
theorem fixed_of_missing {offered' : List Variable} {store₁ : Store} {before after : List String}
    {n : String} (h : Parser.parse (scope registry now .autoDetect offered') text = .ok tree)
    (hinputs : (compiled now .autoDetect offered' text store tree).1.inputs.map Variable.name =
      before ++ n :: after)
    (hbefore : ∀ m ∈ before, ∃ v ∈ offered, v.name = m) (hn : ¬ ∃ v ∈ offered, v.name = n) :
    ∃ position, FirstOccursAt text n position ∧
      compile registry now .fixed offered text store₁ =
        .error ⟨.unknownVariable n, text, position⟩ := by
  have hfind := @find?_unknown registry offered now text store tree _ _ _ _ hinputs hbefore hn
  obtain ⟨tokens, hlexes, hderives, hheight⟩ := Grammar.sentence_of_parse h
  have hunknown : ¬ ∀ name ∈ tree.vars, (scope registry now .fixed offered).knows name = true := by
    intro hknown
    have hmem := List.mem_of_find?_eq_some hfind
    have hnot := List.find?_some hfind
    simp [hknown n hmem] at hnot
  obtain ⟨failure, hrefused, hparse⟩ :=
    Grammar.parse_of_unknown hlexes hderives hheight hunknown
  obtain ⟨name, hfault, hfirst, hname⟩ := hrefused.firstOccursAt
  rw [hderives.variableNames_eq] at hname
  obtain rfl : name = n := Option.some.inj (hname.symm.trans hfind)
  refine ⟨_, hfirst, ?_⟩
  have hscope : scope registry now .fixed offered =
      { scope registry now .autoDetect offered' with
        knows := (scope registry now .fixed offered).knows } := rfl
  rw [compile_eq_map, hscope, hparse, hfault]
  rfl

/-- A caller who offers all inputs is not refused. -/
theorem fixed_of_offered {offered' : List Variable} {store₁ : Store}
    (h : Parser.parse (scope registry now .autoDetect offered') text = .ok tree)
    (hall : ∀ v ∈ (compiled now .autoDetect offered' text store tree).1.inputs,
      ∃ w ∈ offered, w.name = v.name) :
    ∃ g store₁', compile registry now .fixed offered text store₁ = .ok (g, store₁') := by
  refine ⟨_, _, compile_of_parse (parse_of_knows h fun name hmem => knows_fixed.mpr ?_) store₁⟩
  cases hconstant : isConstantName name with
  | true => exact Or.inr rfl
  | false =>
      obtain ⟨w, hw, hwname⟩ := hall _ (exists_input now offered' text store hmem hconstant)
      exact Or.inl ⟨w, hw, hwname.trans (bind_name ..)⟩

/-- The modes agree, whatever stores they are used with. Without variables a text compiles as it
does for a caller who offers none, with the same tree or the same error. What compiles for some
caller compiles with whatever occurs, to a formula of the same text. The other way round, what
compiles with whatever occurs compiles for a caller who offers its inputs, to the same tree over the
same cells. A caller who offers all names of inputs can compile it as well, and one who does not is
told the first name that is missing and the place of its first occurrence. -/
theorem modes_agree (registry : Registry) (now : Timestamp) (text : String)
    (offered ignored : List Variable) (store store₁ : Store) :
    ((compile registry now .noVariables ignored text store).map fun r => r.1.sharedTree) =
        ((compile registry now .fixed [] text store₁).map fun r => r.1.sharedTree) ∧
      (∀ f store', compile registry now .fixed offered text store = .ok (f, store') →
        ∃ g store₁', compile registry now .autoDetect ignored text store₁ = .ok (g, store₁') ∧
          g.text = f.text) ∧
      ∀ f store', compile registry now .autoDetect ignored text store = .ok (f, store') →
        (∃ g store₁', compile registry now .fixed f.inputs text store₁ = .ok (g, store₁') ∧
          g.sharedTree = f.sharedTree) ∧
        (∀ before n after, f.inputs.map Variable.name = before ++ n :: after →
          (∀ m ∈ before, ∃ v ∈ offered, v.name = m) → (¬ ∃ v ∈ offered, v.name = n) →
          ∃ position, FirstOccursAt text n position ∧
            compile registry now .fixed offered text store₁ =
              .error ⟨.unknownVariable n, text, position⟩) ∧
        ((∀ v ∈ f.inputs, ∃ w ∈ offered, w.name = v.name) →
          ∃ g store₁', compile registry now .fixed offered text store₁ = .ok (g, store₁')) := by
  refine ⟨noVariables_eq_fixed .., ?_, ?_⟩
  · intro f store' h
    obtain ⟨hparse, -⟩ := parse_of_compile h
    obtain ⟨g, store₁', hg, htree⟩ := autoDetect_of_fixed hparse
    exact ⟨g, store₁', hg, by rw [text_eq, text_eq, htree]⟩
  · intro f store' h
    obtain ⟨tree, htree, hcompiled⟩ := compile_eq_ok_iff.mp h
    obtain rfl : (compiled now .autoDetect ignored text store tree).1 = f :=
      congrArg Prod.fst hcompiled
    exact ⟨fixed_of_autoDetect htree, fun before n after hinputs hbefore hn =>
      fixed_of_missing htree hinputs hbefore hn, fixed_of_offered htree⟩

/-- A caller without variables cannot compile the name of one. -/
theorem modes_agree_level :
    ∃ position, FirstOccursAt "level" "level" position ∧
      compile .builtinsOnly ⟨0, 0⟩ .fixed [] "level" .empty =
        .error ⟨.unknownVariable "level", "level", position⟩ := by
  have htree : Parser.parse (scope .builtinsOnly ⟨0, 0⟩ .autoDetect []) "level" =
      .ok (.var "level") :=
    Grammar.parse_of_sentence (Grammar.sentence_of_name rfl ⟨'l', rfl, rfl⟩ rfl)
  obtain ⟨-, -, hauto⟩ := modes_agree .builtinsOnly ⟨0, 0⟩ "level" [] [] .empty .empty
  obtain ⟨-, hmissing, -⟩ := hauto _ _ (compile_of_parse htree .empty)
  exact hmissing [] "level" [] rfl (by simp) (by simp)

end Formula

end ProcessFormula
