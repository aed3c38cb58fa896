import ProcessFormula.Proofs.Formula.Compiling
import ProcessFormula.Proofs.Parser.Restriction
import ProcessFormula.Proofs.Registry.Lookup

/-!
What a formula owes to the functions that a registry lacks. More functions take no formula away and
change none; fewer functions can only cause one fault, that a function is unknown. A configuration
takes functions away from the full registry, and none of those that it leaves hides a built-in one.
-/

namespace ProcessFormula

namespace Registry

/-- The registry `s` resolves every name that `r` resolves, to the same function. -/
def Extends (s r : Registry) : Prop :=
  ∀ name f, r.resolve name = some f → s.resolve name = some f

/-- A configuration that discovers more functions gives a registry that extends the other. -/
theorem ofConfig_extends {c c' : RegistryConfig} (h : ∀ f ∈ discovered c, f ∈ discovered c') :
    (ofConfig c').Extends (ofConfig c) := by
  intro name f hf
  rw [resolve_eq_some_iff, plugin?_ofConfig] at hf ⊢
  rcases hf with hplugin | ⟨-, hbuiltin⟩
  · obtain ⟨hmem, hname⟩ := (lastNamed?_of_nodup (nodup_names_discovered c)).mp hplugin
    exact Or.inl ((lastNamed?_of_nodup (nodup_names_discovered c')).mpr ⟨h f hmem, hname⟩)
  · refine Or.inr ⟨lastNamed?_eq_none_iff.mpr fun g hg hname => ?_, hbuiltin⟩
    have hnone := builtin?_knownPlugin (mem_knownPlugins hg)
    rw [hname, hbuiltin] at hnone
    cases hnone

/-- No configuration has a function that the full registry does not have. -/
theorem full_extends (c : RegistryConfig) : full.Extends (ofConfig c) := by
  refine ofConfig_extends fun f hf => ?_
  have hknown := mem_knownPlugins hf
  simp [discovered, RegistryConfig.isEnabled, hknown]

theorem extends_builtinsOnly (c : RegistryConfig) : (ofConfig c).Extends builtinsOnly :=
  ofConfig_extends (c := { discoverPlugins := false }) fun _ hf =>
    absurd hf List.not_mem_nil

end Registry

namespace Formula

variable {r s : Registry} {now : Timestamp} {mode : BindingMode} {offered : List Variable}
  {text : String} {store : Store}

/-- With more functions a text compiles to the same, unless it was refused for a function that is
unknown to the smaller registry. -/
theorem compile_eq_or_unknown (h : s.Extends r) (now : Timestamp) (mode : BindingMode)
    (offered : List Variable) (text : String) (store : Store) :
    compile s now mode offered text store = compile r now mode offered text store ∨
      ∃ name position, compile r now mode offered text store =
        .error ⟨.unknownFunction name, text, position⟩ := by
  rw [compile_eq_map, compile_eq_map]
  rcases Parser.parse_of_resolve (scope r now mode offered) h text with
    hsame | ⟨name, position, hunknown⟩
  · exact Or.inl (congrArg (Except.map _) hsame)
  · exact Or.inr ⟨name, position, congrArg (Except.map _) hunknown⟩

/-- What compiles with a registry compiles with one that extends it, to the same formula, and what is
refused for any other reason than an unknown function is refused with the same error. The full
registry extends every configured one, and each of these has all built-in functions. -/
theorem compile_of_extends :
    (∀ r s : Registry, s.Extends r → ∀ (now : Timestamp) (mode : BindingMode)
        (offered : List Variable) (text : String) (store : Store),
      (∀ f store', compile r now mode offered text store = .ok (f, store') →
        compile s now mode offered text store = .ok (f, store')) ∧
      ∀ e, compile r now mode offered text store = .error e →
        (∀ name, e.fault ≠ .unknownFunction name) →
        compile s now mode offered text store = .error e) ∧
    ∀ c : RegistryConfig, Registry.full.Extends (.ofConfig c) ∧
      (Registry.ofConfig c).Extends .builtinsOnly := by
  refine ⟨fun r s h now mode offered text store => ?_,
    fun c => ⟨Registry.full_extends c, Registry.extends_builtinsOnly c⟩⟩
  rcases compile_eq_or_unknown h now mode offered text store with hsame | ⟨name, position, hunknown⟩
  · rw [hsame]
    exact ⟨fun _ _ hf => hf, fun _ he _ => he⟩
  · rw [hunknown]
    refine ⟨fun _ _ hf => (nomatch hf), fun e he hknown => ?_⟩
    obtain rfl := Except.error.inj he
    exact absurd rfl (hknown name)

/-- The call of a built-in function compiles to the same formula whether or not there are plug-ins,
and with a number of arguments that it does not take, it is refused with the same error. -/
theorem compile_of_extends_max :
    (∃ result, compile .builtinsOnly ⟨0, 0⟩ .autoDetect [] "max(level, 7)" .empty = .ok result ∧
      compile .full ⟨0, 0⟩ .autoDetect [] "max(level, 7)" .empty = .ok result) ∧
    compile .full ⟨0, 0⟩ .noVariables [] "min(1)" .empty =
      .error ⟨.arityMismatch "min(a, b, ...)" (.atLeast 2) 1, "min(1)", 0⟩ := by
  have h : Registry.full.Extends .builtinsOnly := Registry.extends_builtinsOnly {}
  have hmax : (compile .builtinsOnly ⟨0, 0⟩ .autoDetect [] "max(level, 7)" .empty).isOk = true := by
    decide +kernel
  have hmin : (compile .builtinsOnly ⟨0, 0⟩ .noVariables [] "min(1)" .empty).map (fun _ => ()) =
      .error ⟨.arityMismatch "min(a, b, ...)" (.atLeast 2) 1, "min(1)", 0⟩ := by
    decide +kernel
  constructor
  · cases hf : compile .builtinsOnly ⟨0, 0⟩ .autoDetect [] "max(level, 7)" .empty with
    | error e =>
        rw [hf] at hmax
        cases hmax
    | ok result =>
        obtain ⟨hsame, -⟩ := compile_of_extends.1 _ _ h ⟨0, 0⟩ .autoDetect [] "max(level, 7)" .empty
        exact ⟨result, rfl, hsame _ _ hf⟩
  · cases he : compile .builtinsOnly ⟨0, 0⟩ .noVariables [] "min(1)" .empty with
    | ok result =>
        rw [he] at hmin
        cases hmin
    | error e =>
        rw [he] at hmin
        obtain rfl := Except.error.inj hmin
        obtain ⟨-, hrefused⟩ := compile_of_extends.1 _ _ h ⟨0, 0⟩ .noVariables [] "min(1)" .empty
        exact hrefused _ he fun name hfault => nomatch hfault

end Formula

end ProcessFormula
