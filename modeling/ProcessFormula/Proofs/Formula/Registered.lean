import ProcessFormula.Proofs.Grammar.Acceptance
import ProcessFormula.Proofs.Grammar.PrintedTrees
import ProcessFormula.Proofs.Parser.Lookups
import ProcessFormula.Proofs.Registry.Registration

/-!
What may be registered is what formula text can call. A function whose name is an unquoted name is
called by text with zeros as its arguments, and no text calls a function of any other name. Besides
its name only the category of a function counts, which has to be there.
-/

namespace ProcessFormula

namespace Grammar

open Text Lexeme ProcessFormula.Parser

/-! ### Calls with zeros -/

def zerosText (name : String) (count : Nat) : String :=
  name ++ "(" ++ ",".intercalate (List.replicate count "0") ++ ")"

def zerosCall (now : Timestamp) (f : Callable) (count : Nat) : Expr String :=
  .call f (List.replicate count (.constant (.number now 0.0)))

/-- A call with zeros is not too tall, however many there are. -/
theorem height_zerosCall (now : Timestamp) (f : Callable) (count : Nat) :
    (zerosCall now f count).height ≤ 2 := by
  have htallest : Expr.tallest (List.replicate count
      (.constant (.number now 0.0) : Expr String)) ≤ 1 := by
    induction count with
    | zero => exact Nat.zero_le 1
    | succ count ih => exact Nat.max_le.mpr ⟨Nat.le_refl 1, ih⟩
  exact Nat.succ_le_succ htallest

theorem map_zerosCall (g : String → Variable) (now : Timestamp) (f : Callable) (count : Nat) :
    (zerosCall now f count).map g =
      .call f (List.replicate count (.constant (.number now 0.0))) := by
  have hargs : Expr.mapAll g (List.replicate count (.constant (.number now 0.0))) =
      List.replicate count (.constant (.number now 0.0)) := by
    induction count with
    | zero => rfl
    | succ count ih => rw [List.replicate_succ, List.replicate_succ, Expr.mapAll, Expr.map, ih]
  rw [zerosCall, Expr.map, hargs]

theorem written_zero : Written ['0'] [.number 0.0] false := by
  have hnumeral : Numeral ['0'] ⟨0, 0⟩ := .digits ⟨by simp, by simp⟩ (.inl rfl)
  exact written_number hnumeral

def zeros (count : Nat) : List Char := [','].intercalate (List.replicate count ['0'])

theorem zeros_add_two (count : Nat) : zeros (count + 2) = '0' :: ',' :: zeros (count + 1) := by
  simp [zeros, List.replicate_succ, List.intercalate]

/-- Zeros are read up to the parenthesis that closes the call. -/
theorem lexes_zeros (count : Nat) :
    StartsSolid (zeros count ++ [')']) ∧ Lexes .operand (zeros count ++ [')'])
      (separated (List.replicate count [.number 0.0]) ++ [.closing]) .operator [] := by
  have hclosing (position : Position) : Reads position [')'] .closing [] :=
    (lone_closing position).reads_cons []
  match count with
  | 0 => exact ⟨startsSolid_cons.mpr (by decide), .one (hclosing .operand)⟩
  | 1 =>
      have hzero : Lexes .operand ['0', ')'] [.number 0.0] .operator [')'] :=
        written_zero.lexes (by decide) (by simp) []
      exact ⟨startsSolid_cons.mpr (by decide), hzero.append (.one (hclosing .operator))⟩
  | count + 2 =>
      obtain ⟨hsolid, hmore⟩ := lexes_zeros (count + 1)
      have hzero : Lexes .operand ('0' :: ',' :: (zeros (count + 1) ++ [')'])) [.number 0.0]
          .operator (',' :: (zeros (count + 1) ++ [')'])) :=
        written_zero.lexes (by decide) (by simp) _
      have hcomma := lone_comma.reads_cons (zeros (count + 1) ++ [')'])
      rw [skipBlanks_of_startsSolid hsolid] at hcomma
      rw [zeros_add_two, List.replicate_succ, separated_cons _ (by simp)]
      refine ⟨startsSolid_cons.mpr (by decide), ?_⟩
      simpa using hzero.append (.cons hcomma hmore)

/-- A function that an unquoted name resolves to is called with zeros. -/
theorem sentence_zeros {scope : Scope} {name : String} {f : Callable} {count : Nat}
    (hname : NameText name.toList) (hresolve : scope.resolve name = some f)
    (harity : f.arity.accepts count = true) :
    Sentence scope (zerosText name count) (zerosCall scope.now f count) := by
  have htext : (zerosText name count).toList =
      name.toList ++ '(' :: (zeros count ++ [')']) := by
    simp [zerosText, zeros]
  obtain ⟨hsolid, hzeros⟩ := lexes_zeros count
  have hopening := (lone_opening .operator).reads_cons (zeros count ++ [')'])
  rw [skipBlanks_of_startsSolid hsolid] at hopening
  have hzero : Derives scope 1 .logical [.number 0.0] (.constant (.number scope.now 0.0)) :=
    logical_of_chain (derives_chain (.plain (.number 0.0)) .product)
  let args : List (List Token × Expr String) :=
    List.replicate count ([.number 0.0], .constant (.number scope.now 0.0))
  have hargs : ∀ arg ∈ args, Derives scope 1 .logical arg.1 arg.2 := by
    intro arg harg
    obtain rfl := List.eq_of_mem_replicate harg
    exact hzero
  have hcall := @Derives.call scope 0 name f args hresolve
    (by rwa [List.length_replicate]) (fun _ => by decide) hargs
  simp only [args, List.map_replicate] at hcall
  refine ⟨_, ?_, logical_of_chain (derives_chain (.plain (.unsigned hcall)) .product), ?_⟩
  · rw [htext, skipBlanks_of_startsSolid ((startsOperand_name hname).append _).startsSolid]
    exact .cons (reads_function hname _) (.cons hopening hzeros)
  · exact Nat.le_trans (height_zerosCall _ _ _) (by decide)

/-- Every unquoted name is looked up in some text: two functions of it make two trees. -/
theorem exists_consults {name : String} (hname : NameText name.toList) :
    ∃ scope text, Consults scope text name := by
  let scope : Scope := ⟨fun _ => true, fun _ => some Builtin.rnd, ⟨0, 0⟩⟩
  refine ⟨scope, zerosText name 1, some TextFunction.length, fun hsame => ?_⟩
  have hrandom := parse_of_sentence (@sentence_zeros scope name _ 1 hname rfl rfl)
  have hlength := parse_of_sentence (@sentence_zeros
    { scope with resolve := Function.update scope.resolve name (some TextFunction.length) } name
    _ 1 hname (Function.update_self name _ _) rfl)
  rw [hsame, hrandom] at hlength
  have hfunction : Builtin.rnd = TextFunction.length :=
    (Expr.call.inj (Except.ok.inj hlength)).1
  have harity : Arity.atLeast 1 = Arity.exactly 1 := congrArg Callable.arity hfunction
  cases harity

/-- The parser looks up the unquoted names and no others. -/
theorem exists_consults_iff {name : String} :
    (∃ scope text, Consults scope text name) ↔ NameText name.toList := by
  constructor
  · rintro ⟨scope, text, hconsults⟩
    exact hconsults.nameText
  · exact exists_consults

end Grammar

/-! ### Registration -/

namespace Registry

open Grammar

theorem acceptable_iff {f : Callable} :
    acceptable f = true ↔ NameText f.name.toList ∧ f.category ≠ "" := by
  unfold acceptable
  split
  · next hnil =>
    rw [hnil]
    constructor
    · intro h
      cases h
    · rintro ⟨⟨-, c, hc, -⟩, -⟩
      cases hc
  · next c rest hname =>
    rw [hname, nameText_cons_iff]
    simp [and_assoc]

/-- A function is accepted exactly if its name can stand in front of a parenthesis and it has a
category. -/
theorem register_accepts_iff (r : Registry) {f : Callable} :
    (r.register f).1 = true ↔ NameText f.name.toList ∧ f.category ≠ "" := by
  rw [register_fst, acceptable_iff]

/-- A function that is registered is called by its name with as many zeros as it takes arguments, in
every mode, and that very function is called. A function of some category is refused exactly if no
text makes the parser look up its name, and one of no category always. -/
theorem register_accepts_callable (r : Registry) (f : Callable) :
    ((r.register f).1 = true → ∀ (now : Timestamp) (mode : BindingMode) (offered : List Variable)
        (store : Store) (count : Nat), f.arity.accepts count = true →
      ∃ g store', Formula.compile (r.register f).2 now mode offered (zerosText f.name count) store =
          .ok (g, store') ∧
        g.root = .call f (List.replicate count (.constant (.number now 0.0)))) ∧
      (f.category ≠ "" →
        ((r.register f).1 = false ↔ ∀ scope text, ¬ Parser.Consults scope text f.name)) ∧
      (f.category = "" → (r.register f).1 = false) := by
  refine ⟨fun h now mode offered store count harity => ?_, fun hcategory => ?_, fun hcategory => ?_⟩
  · obtain ⟨hname, -⟩ := (register_accepts_iff r).mp h
    have hresolve : (r.register f).2.resolve f.name = some f := by
      rw [resolve_register r h, if_pos rfl]
    have hsentence : Sentence (Formula.scope (r.register f).2 now mode offered)
        (zerosText f.name count) (zerosCall now f count) := sentence_zeros hname hresolve harity
    exact ⟨_, _, Formula.compile_of_parse (parse_of_sentence hsentence) store,
      map_zerosCall _ now f count⟩
  · have haccepted : (r.register f).1 = true ↔ ∃ scope text, Parser.Consults scope text f.name := by
      rw [register_accepts_iff, exists_consults_iff]
      exact and_iff_left hcategory
    rw [← Bool.not_eq_true, haccepted]
    simp only [not_exists]
  · rw [← Bool.not_eq_true, register_accepts_iff]
    rintro ⟨-, hnonempty⟩
    exact hnonempty hcategory

/-- A function whose name has a Greek letter, a colon and a digit is called. The name of one that
starts with an ASCII digit is never looked up, and a function without a category is refused. -/
theorem register_accepts_callable_doubling :
    let f := doubling "μ:2" "twice"
    let digit := doubling "2μ" "twice"
    (∃ g store', Formula.compile (builtinsOnly.register f).2 ⟨7, 0⟩ .noVariables [] "μ:2(0)"
        .empty = .ok (g, store') ∧ g.root = .call f [.constant (.number ⟨7, 0⟩ 0.0)]) ∧
      (∀ scope text, ¬ Parser.Consults scope text digit.name) ∧
      (builtinsOnly.register { f with category := "" }).1 = false := by
  intro f digit
  have haccepted : (builtinsOnly.register f).1 = true := by decide
  have hrefused : (builtinsOnly.register digit).1 = false := by decide
  have htext : zerosText f.name 1 = "μ:2(0)" := by decide
  obtain ⟨hcalled, -, -⟩ := register_accepts_callable builtinsOnly f
  obtain ⟨-, hdigit, -⟩ := register_accepts_callable builtinsOnly digit
  obtain ⟨-, -, hcategory⟩ := register_accepts_callable builtinsOnly { f with category := "" }
  refine ⟨?_, (hdigit (by decide)).mp hrefused, hcategory rfl⟩
  rw [← htext]
  exact hcalled haccepted ⟨7, 0⟩ .noVariables [] .empty 1 rfl

end Registry

end ProcessFormula
