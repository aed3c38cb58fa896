import ProcessFormula.Proofs.Grammar.Acceptance
import ProcessFormula.Proofs.Grammar.Origin
import ProcessFormula.Proofs.Metadata.Functions
import ProcessFormula.Proofs.Registry.Lookup

/-!
The calls in a formula. Compiling checks every one of them: its function is one that the registry
has, and the number of its arguments is one that the function takes. A configured registry has
functions of this library only.
-/

namespace ProcessFormula

namespace Expr

variable {ν μ : Type}

theorem length_mapAll (f : ν → μ) (args : List (Expr ν)) : (mapAll f args).length = args.length := by
  induction args with
  | nil => rfl
  | cons e rest ih => simp [mapAll, ih]

mutual

/-- Replacing variables leaves the calls as they are. -/
@[simp]
theorem calls_map (f : ν → μ) (e : Expr ν) : (e.map f).calls = e.calls := by
  cases e with
  | constant | var => rfl
  | unary _ operand => simp [map, calls, calls_map f operand]
  | binary _ left right => simp [map, calls, calls_map f left, calls_map f right]
  | conditional condition thenBranch elseBranch =>
      simp [map, calls, calls_map f condition, calls_map f thenBranch, calls_map f elseBranch]
  | call _ args => simp [map, calls, allCalls_mapAll f args, length_mapAll]

theorem allCalls_mapAll (f : ν → μ) (args : List (Expr ν)) :
    allCalls (mapAll f args) = allCalls args := by
  cases args with
  | nil => rfl
  | cons e rest => simp [mapAll, allCalls, calls_map f e, allCalls_mapAll f rest]

end

mutual

/-- What holds of every subtree holds of every call. -/
theorem Everywhere.of_mem_calls {holds : Expr ν → Prop} {e : Expr ν} (h : e.Everywhere holds)
    {call : Callable × Nat} (hcall : call ∈ e.calls) :
    ∃ args, args.length = call.2 ∧ holds (.call call.1 args) := by
  match e with
  | .constant _ | .var _ => simp [calls] at hcall
  | .unary _ operand => exact Everywhere.of_mem_calls (e := operand) h.2 (by simpa [calls] using hcall)
  | .binary _ left right =>
      rcases List.mem_append.mp (by simpa only [calls] using hcall) with hcall | hcall
      · exact Everywhere.of_mem_calls h.2.1 hcall
      · exact Everywhere.of_mem_calls h.2.2 hcall
  | .conditional condition thenBranch elseBranch =>
      simp only [calls, List.mem_append] at hcall
      rcases hcall with (hcall | hcall) | hcall
      · exact Everywhere.of_mem_calls h.2.1 hcall
      · exact Everywhere.of_mem_calls h.2.2.1 hcall
      · exact Everywhere.of_mem_calls h.2.2.2 hcall
  | .call f args =>
      simp only [calls, List.mem_append, List.mem_singleton] at hcall
      rcases hcall with hcall | rfl
      · exact AllEverywhere.of_mem_allCalls h.2 hcall
      · exact ⟨args, rfl, h.1⟩

theorem AllEverywhere.of_mem_allCalls {holds : Expr ν → Prop} {trees : List (Expr ν)}
    (h : AllEverywhere holds trees) {call : Callable × Nat} (hcall : call ∈ allCalls trees) :
    ∃ args, args.length = call.2 ∧ holds (.call call.1 args) := by
  match trees with
  | [] => simp [allCalls] at hcall
  | e :: rest =>
      rcases List.mem_append.mp (by simpa only [allCalls] using hcall) with hcall | hcall
      · exact Everywhere.of_mem_calls h.1 hcall
      · exact AllEverywhere.of_mem_allCalls h.2 hcall

end

end Expr

/-- A configured registry finds functions of the library only. -/
theorem Registry.mem_libraryFunctions {c : RegistryConfig} {name : String} {f : Callable}
    (h : (ofConfig c).resolve name = some f) : f ∈ libraryFunctions := by
  rw [resolve_eq_some_iff, plugin?_ofConfig] at h
  rcases h with hplugin | ⟨-, hbuiltin⟩
  · obtain ⟨hmem, -⟩ := (lastNamed?_of_nodup (nodup_names_discovered c)).mp hplugin
    exact List.mem_append_right _ (mem_knownPlugins hmem)
  · exact List.mem_append_left _ (builtin?_eq_some_iff.mp hbuiltin).1

/-- Every call in a formula is one of a function that the registry finds under some name, with a
number of arguments that the function takes. -/
theorem Formula.resolve_of_mem_calls {registry : Registry} {now : Timestamp} {mode : BindingMode}
    {offered : List Variable} {text : String} {store store' : Store} {f : Formula}
    (h : compile registry now mode offered text store = .ok (f, store'))
    {call : Callable × Nat} (hcall : call ∈ f.root.calls) :
    (∃ name, registry.resolve name = some call.1) ∧ call.1.arity.accepts call.2 = true := by
  obtain ⟨tree, htree, hcompiled⟩ := compile_eq_ok_iff.mp h
  obtain rfl := congrArg Prod.fst hcompiled
  have hcalls : call ∈ tree.calls := by simpa [compiled] using hcall
  obtain ⟨args, hlength, harity, name, -, hname⟩ :=
    (Grammar.sentence_of_parse htree).fromText.of_mem_calls hcalls
  exact ⟨⟨name, hname⟩, hlength ▸ harity⟩

end ProcessFormula
