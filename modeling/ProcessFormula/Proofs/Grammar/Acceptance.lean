import ProcessFormula.Proofs.Formula.Compiling
import ProcessFormula.Proofs.Grammar.Completeness
import ProcessFormula.Proofs.Grammar.Soundness

/-!
The parser accepts exactly the texts that the grammar derives, with exactly the trees that the
grammar gives them. A text has therefore at most one tree, although no rule of the grammar says so.
-/

namespace ProcessFormula.Grammar

open Text Lexeme ProcessFormula.Parser

/-- The parser decides the grammar. -/
theorem parse_eq_ok_iff {scope : Scope} {text : String} {tree : Expr String} :
    parse scope text = .ok tree ↔ Sentence scope text tree :=
  ⟨sentence_of_parse, parse_of_sentence⟩

/-- The grammar is unambiguous. -/
theorem Sentence.unique {scope : Scope} {text : String} {tree tree' : Expr String}
    (h : Sentence scope text tree) (h' : Sentence scope text tree') : tree = tree' :=
  Except.ok.inj ((parse_of_sentence h).symm.trans (parse_of_sentence h'))

/-- A name by itself is a formula. -/
theorem sentence_of_name {scope : Scope} {name : String}
    (hname : name.toList.all isNameChar = true)
    (hhead : ∃ c ∈ name.toList.head?, startsNumber c = false)
    (hknown : scope.knows name = true) : Sentence scope name (.var name) := by
  have hchars : ∀ c ∈ name.toList, isNameChar c = true := List.all_eq_true.mp hname
  have hsolid : solid name.toList = name.toList :=
    List.filter_eq_self.mpr fun c hc => by simp [isBlank_of_isNameChar (hchars c hc)]
  have hstart : StartsSolid name.toList :=
    fun c hc => isBlank_of_isNameChar (hchars c (List.mem_of_head? hc))
  have hrun : Longest (Runs nameGoesOn) name.toList name.toList [] := by
    refine ⟨⟨name.toList, by simp, hsolid⟩, ?_, startsSolid_nil, by simp⟩
    intro before c after heq
    exact hchars c (by simp [heq])
  have hreads := Reads.bare hrun hhead (by simp)
  rw [String.ofList_toList] at hreads
  have hunary : Derives scope 0 (.operandOf .product) [.bare name] (.var name) :=
    .plain (.unsigned (.bare hknown))
  have hproduct : Derives scope 0 (.operandOf .sum) [.bare name] (.var name) := .single hunary
  have hsum : Derives scope 0 (.operandOf .comparison) [.bare name] (.var name) := .single hproduct
  have hcomparison : Derives scope 0 (.operandOf .junction) [.bare name] (.var name) := .single hsum
  refine ⟨[.bare name], ?_, .chains (.single hcomparison), height_var_le name⟩
  rw [skipBlanks_of_startsSolid hstart]
  exact .one hreads

/-- A text compiles to a formula with the tree `root` exactly if the lexemes of the text derive a
tree over names and `root` is that tree with its names bound. -/
theorem compiles_iff_sentence (registry : Registry) (now : Timestamp) (mode : BindingMode)
    (offered : List Variable) (text : String) (store : Store) (root : Expr Variable) :
    (∃ f store', Formula.compile registry now mode offered text store = .ok (f, store') ∧
        f.root = root) ↔
      ∃ tree, Sentence (Formula.scope registry now mode offered) text tree ∧
        tree.map (Formula.binding mode offered store tree) = root := by
  simp only [Formula.compile_eq_ok_iff, parse_eq_ok_iff]
  constructor
  · rintro ⟨f, store', ⟨tree, htree, hcompiled⟩, rfl⟩
    obtain ⟨rfl, rfl⟩ := Prod.mk.inj hcompiled
    exact ⟨tree, htree, rfl⟩
  · rintro ⟨tree, htree, rfl⟩
    exact ⟨_, _, ⟨tree, htree, rfl⟩, rfl⟩

end ProcessFormula.Grammar
