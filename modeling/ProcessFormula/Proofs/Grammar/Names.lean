import Mathlib.Data.List.Basic
import ProcessFormula.Proofs.Expr.Variables
import ProcessFormula.Proofs.Grammar.Derivation

/-!
The names in a tree are those of the lexemes it is derived from, in the same order. Which names may
occur restricts the texts that have a tree, but not the tree that a text has.
-/

namespace ProcessFormula.Grammar

open ProcessFormula.Parser

theorem variableNames_append (row more : List Token) :
    variableNames (row ++ more) = variableNames row ++ variableNames more :=
  List.filterMap_append

theorem variableNames_cons_of_none {token : Token} (h : token.variableName? = none)
    (row : List Token) : variableNames (token :: row) = variableNames row := by
  simp [variableNames, h]

/-- Commas read no variables. -/
theorem variableNames_separated (rows : List (List Token)) :
    variableNames (separated rows) = rows.flatMap variableNames := by
  induction rows with
  | nil => rfl
  | cons row rows ih =>
      by_cases hrows : rows = []
      · subst hrows
        simp [separated_one]
      · rw [separated_cons _ hrows, variableNames_append, variableNames_cons_of_none rfl, ih,
          List.flatMap_cons]

theorem allVars_eq_flatMap {ν : Type} (args : List (Expr ν)) :
    Expr.allVars args = args.flatMap Expr.vars := by
  induction args with
  | nil => rfl
  | cons e rest ih => simp [Expr.allVars, ih]

variable {scope : Scope} {depth : Nat} {level : Level} {row : List Token} {tree : Expr String}

/-- A tree has the variables that its lexemes name, in their order. -/
theorem Derives.variableNames_eq (h : Derives scope depth level row tree) :
    variableNames row = tree.vars := by
  induction h with
  | chains _ ih | single _ ih | plain _ ih | unsigned _ ih => exact ih
  | conditional _ _ _ _ ihcondition ihthen ihelse =>
      rw [variableNames_append, variableNames_cons_of_none rfl, variableNames_append,
        variableNames_cons_of_none rfl, ihcondition, ihthen, ihelse, Expr.vars, List.append_assoc]
  | chain _ _ ihleft ihright =>
      rw [variableNames_append, variableNames_cons_of_none rfl, ihleft, ihright, Expr.vars]
  | not _ ih => rw [variableNames_cons_of_none rfl, ih, Expr.vars]
  | negative _ ih =>
      rw [variableNames_cons_of_none rfl, ih, Expr.vars, Expr.vars, List.nil_append]
  | number | negativeNumber | text | negativeText | quoted | bare => rfl
  | parenthesised _ _ ih =>
      rw [variableNames_cons_of_none rfl, variableNames_append, ih]
      exact List.append_nil _
  | @call _ name f args _ _ _ _ ih =>
      rw [variableNames_cons_of_none rfl, variableNames_cons_of_none rfl, variableNames_append,
        variableNames_separated, Expr.vars, allVars_eq_flatMap, List.flatMap_map, List.flatMap_map]
      rw [List.flatMap_congr ih]
      exact List.append_nil _

/-- All names in a tree are known. -/
theorem Derives.knows (h : Derives scope depth level row tree) :
    ∀ name ∈ tree.vars, scope.knows name = true := by
  induction h with
  | chains _ ih | single _ ih | plain _ ih | unsigned _ ih | parenthesised _ _ ih => exact ih
  | conditional _ _ _ _ ihcondition ihthen ihelse =>
      simp only [Expr.vars, List.forall_mem_append]
      exact ⟨⟨ihcondition, ihthen⟩, ihelse⟩
  | chain _ _ ihleft ihright =>
      simp only [Expr.vars, List.forall_mem_append]
      exact ⟨ihleft, ihright⟩
  | not _ ih => simpa only [Expr.vars] using ih
  | negative _ ih => simpa only [Expr.vars, List.nil_append] using ih
  | number | negativeNumber | text | negativeText => simp [Expr.vars]
  | quoted hknown | bare hknown => simpa [Expr.vars] using hknown
  | @call _ name f args _ _ _ _ ih =>
      simp only [Expr.vars, Expr.mem_allVars_iff]
      rintro n ⟨tree, htree, hn⟩
      obtain ⟨arg, harg, rfl⟩ := List.mem_map.mp htree
      exact ih arg harg n hn

/-- A tree stays derived where its names are known and everything else is as it was. -/
theorem Derives.transfer {knows : String → Bool} (h : Derives scope depth level row tree)
    (hknown : ∀ name ∈ tree.vars, knows name = true) :
    Derives { scope with knows } depth level row tree := by
  induction h with
  | chains _ ih => exact .chains (ih hknown)
  | conditional _ _ hdepth _ ihcondition ihthen ihelse =>
      simp only [Expr.vars, List.forall_mem_append] at hknown
      exact .conditional (ihcondition hknown.1.1) (ihthen hknown.1.2) hdepth (ihelse hknown.2)
  | single _ ih => exact .single (ih hknown)
  | chain _ _ ihleft ihright =>
      simp only [Expr.vars, List.forall_mem_append] at hknown
      exact .chain (ihleft hknown.1) (ihright hknown.2)
  | not _ ih => exact .not (ih (by simpa only [Expr.vars] using hknown))
  | plain _ ih => exact .plain (ih hknown)
  | number x => exact @Derives.number { scope with knows } _ x
  | negativeNumber x => exact @Derives.negativeNumber { scope with knows } _ x
  | text s => exact @Derives.text { scope with knows } _ s
  | negativeText s => exact @Derives.negativeText { scope with knows } _ s
  | unsigned _ ih => exact .unsigned (ih hknown)
  | negative _ ih =>
      refine @Derives.negative { scope with knows } _ _ _ (ih ?_)
      simpa only [Expr.vars, List.nil_append] using hknown
  | quoted => exact .quoted (by simpa [Expr.vars] using hknown)
  | bare => exact .bare (by simpa [Expr.vars] using hknown)
  | parenthesised hdepth _ ih => exact .parenthesised hdepth (ih hknown)
  | call hresolve harity hdepth _ ih =>
      refine .call hresolve harity hdepth fun arg harg => ih arg harg fun name hname => ?_
      simp only [Expr.vars, Expr.mem_allVars_iff] at hknown
      exact hknown name ⟨arg.2, List.mem_map_of_mem harg, hname⟩

/-- All variables of a sentence are known. -/
theorem Sentence.knows {text : String} (h : Sentence scope text tree) :
    ∀ name ∈ tree.vars, scope.knows name = true := by
  obtain ⟨tokens, -, hderives, -⟩ := h
  exact hderives.knows

/-- A sentence stays one where the names in it are known, whichever others are not. -/
theorem Sentence.transfer {text : String} {knows : String → Bool} (h : Sentence scope text tree)
    (hknown : ∀ name ∈ tree.vars, knows name = true) :
    Sentence { scope with knows } text tree := by
  obtain ⟨tokens, hlexes, hderives, hheight⟩ := h
  exact ⟨tokens, hlexes, hderives.transfer hknown, hheight⟩

end ProcessFormula.Grammar
