import ProcessFormula.Proofs.Registry.Lookup

/-!
What registrations amount to. Whatever was registered with a registry, and in which order, each name
calls the last function that was accepted under it, and the listing has one function for each name
that occurs in it. A built-in function that a plug-in hides can still be called by another spelling
of its name; it is the only kind of function that can be called without being listed.
-/

namespace ProcessFormula.Registry

/-- How a registry is made: with the built-in functions only, or as a configuration asks. -/
inductive Origin where
  | builtinsOnly
  | config (c : RegistryConfig)

namespace Origin

def registry : Origin → Registry
  | .builtinsOnly => .builtinsOnly
  | .config c => .ofConfig c

def discovered : Origin → List Callable
  | .builtinsOnly => []
  | .config c => Registry.discovered c

theorem namesApart_registry (origin : Origin) : origin.registry.NamesApart := by
  cases origin with
  | builtinsOnly => exact List.nodup_nil
  | config c => exact namesApart_ofConfig c

theorem plugin?_registry (origin : Origin) (name : String) :
    origin.registry.plugin? name = lastNamed? name origin.discovered := by
  cases origin with
  | builtinsOnly => rfl
  | config c => exact plugin?_ofConfig c name

theorem nodup_names_discovered (origin : Origin) :
    (origin.discovered.map Callable.name).Nodup := by
  cases origin with
  | builtinsOnly => exact List.nodup_nil
  | config c => exact Registry.nodup_names_discovered c

theorem mem_knownPlugins {origin : Origin} {f : Callable} (h : f ∈ origin.discovered) :
    f ∈ knownPlugins := by
  cases origin with
  | builtinsOnly => cases h
  | config c => exact Registry.mem_knownPlugins h

end Origin

/-- What a name calls after some functions were discovered and, behind them, some were accepted: the
last function that was accepted under this very name; if there is none, the one that was discovered
under it; and if there is none either, the built-in function whose name differs from it at most in
the case of its letters. -/
inductive Calls (discovered accepted : List Callable) (name : String) : Callable → Prop
  | registered {f : Callable} {before after : List Callable} (hname : f.name = name)
      (h : accepted = before ++ f :: after) (hlast : ∀ g ∈ after, g.name ≠ name) :
      Calls discovered accepted name f
  | discovered {f : Callable} (hnone : ∀ g ∈ accepted, g.name ≠ name) (hname : f.name = name)
      (h : f ∈ discovered) : Calls discovered accepted name f
  | builtin {f : Callable} (hnone : ∀ g ∈ discovered ++ accepted, g.name ≠ name)
      (hname : sameIgnoringCase f.name name = true) (h : f ∈ Builtin.all) :
      Calls discovered accepted name f

/-- The registry answers as one that discovered some functions and then accepted others. -/
structure AnswersFor (discovered accepted : List Callable) (r : Registry) : Prop where
  resolve_iff : ∀ name f, r.resolve name = some f ↔ Calls discovered accepted name f
  /-- A registration that is rejected changes no answer. -/
  of_rejected : ∀ f, (r.register f).1 = false →
    (∀ name, (r.register f).2.resolve name = r.resolve name) ∧
      (r.register f).2.functions = r.functions ∧ (r.register f).2.size = r.size
  /-- One that is accepted changes what its own name calls, and what no other name calls. -/
  of_accepted : ∀ f, (r.register f).1 = true → (r.register f).2.resolve f.name = some f ∧
    ∀ name, name ≠ f.name → (r.register f).2.resolve name = r.resolve name
  ascending : r.functions.Pairwise fun f g => f.name < g.name
  resolve_listed : ∀ f ∈ r.functions, r.resolve f.name = some f
  /-- What was not replaced is listed. -/
  lists : ∀ before f after, discovered ++ accepted = before ++ f :: after →
    (∀ g ∈ after, g.name ≠ f.name) → f ∈ r.functions
  size_eq : r.size = r.functions.length

section

variable {origin : Origin} {fs : List Callable} {name : String} {f : Callable}

/-- The plug-in of a name is the last function of that name in the history of the registry. -/
theorem plugin?_history (origin : Origin) (fs : List Callable) (name : String) :
    (origin.registry.registerAll fs).plugin? name =
      lastNamed? name (origin.discovered ++ origin.registry.accepted fs) := by
  rw [plugin?_registerAll, Origin.plugin?_registry, lastNamed?_append]

/-- What a name means after any registrations is said by `Calls`. -/
theorem resolve_history_iff :
    (origin.registry.registerAll fs).resolve name = some f ↔
      Calls origin.discovered (origin.registry.accepted fs) name f := by
  rw [resolve_eq_some_iff, plugin?_history, lastNamed?_eq_none_iff, builtin?_eq_some_iff,
    lastNamed?_append, Option.or_eq_some_iff, lastNamed?_eq_none_iff, lastNamed?_eq_some_iff,
    lastNamed?_of_nodup origin.nodup_names_discovered]
  constructor
  · rintro ((⟨hname, before, after, h, hlast⟩ | ⟨hnone, h, hname⟩) | ⟨hnone, h, hname⟩)
    · exact .registered hname h hlast
    · exact .discovered hnone hname h
    · exact .builtin hnone hname h
  · rintro (⟨hname, h, hlast⟩ | ⟨hnone, hname, h⟩ | ⟨hnone, hname, h⟩)
    · exact Or.inl (Or.inl ⟨hname, _, _, h, hlast⟩)
    · exact Or.inl (Or.inr ⟨hnone, h, hname⟩)
    · exact Or.inr ⟨hnone, h, hname⟩

/-- An accepted registration changes the meaning of its own name alone. -/
theorem resolve_register (r : Registry) (h : (r.register f).1 = true) (name : String) :
    (r.register f).2.resolve name = if f.name = name then some f else r.resolve name := by
  rw [resolve, plugin?_register h]
  split <;> rfl

end

/-- A registry answers as its history demands, whatever was registered with it. -/
theorem last_registration_wins (origin : Origin) (fs : List Callable) :
    AnswersFor origin.discovered (origin.registry.accepted fs)
      (origin.registry.registerAll fs) := by
  have hapart := origin.namesApart_registry.registerAll fs
  exact {
    resolve_iff := fun _ _ => resolve_history_iff
    of_rejected := fun f h => by
      rw [register_of_rejected h]
      exact ⟨fun _ => rfl, rfl, rfl⟩
    of_accepted := fun f h => by
      refine ⟨?_, fun name hname => ?_⟩
      · rw [resolve_register _ h, if_pos rfl]
      · rw [resolve_register _ h, if_neg hname.symm]
    ascending := hapart.functions_ascending
    resolve_listed := fun f hf => hapart.mem_functions_iff.mp hf
    lists := fun before f after h hlast => by
      have hplugin := lastNamed?_eq_some_iff.mpr ⟨rfl, before, after, h, hlast⟩
      rw [← plugin?_history] at hplugin
      exact hapart.mem_functions_iff.mpr (resolve_eq_some_iff.mpr (Or.inl hplugin))
    size_eq := rfl }

def doubling (name description : String) : Callable where
  name
  category := "demo"
  description
  parameters := ["x"]
  arity := .exactly 1
  compute := fun _ => unary name (· * 2.0)

/-- Of two plug-ins that take the name of a built-in function the second counts; one whose name
starts with a digit is rejected. The built-in function is called by other spellings. -/
theorem last_registration_wins_max :
    let first := doubling "max" "twice"
    let second := doubling "max" "double"
    let r := Origin.builtinsOnly.registry.registerAll [first, doubling "2max" "twice", second]
    r.resolve "max" = some second ∧ r.resolve "Max" = some Builtin.max ∧ second ∈ r.functions ∧
      r.functions.Pairwise fun f g => f.name < g.name := by
  intro first second r
  have hfirst : acceptable first = true := by decide
  have hsecond : acceptable second = true := by decide
  have hdigit : acceptable (doubling "2max" "twice") = false := by decide
  have h := last_registration_wins .builtinsOnly [first, doubling "2max" "twice", second]
  simp only [accepted_eq_filter, List.filter_cons, List.filter_nil, hfirst, hsecond, hdigit,
    if_true, if_neg Bool.false_ne_true] at h
  refine ⟨(h.resolve_iff _ _).mpr ?_, (h.resolve_iff _ _).mpr ?_, ?_, h.ascending⟩
  · exact .registered rfl (show [first, second] = [first] ++ second :: [] from rfl) (by simp)
  · refine .builtin ?_ (by decide) (by simp [Builtin.all])
    show ∀ g ∈ [first, second], g.name ≠ "Max"
    simp [first, second, doubling]
  · exact h.lists [first] second [] rfl (by simp)

/-- Every function that a name calls is listed, but for a built-in function that is called by another
spelling of its name: where a plug-in has been registered under exactly its name, the plug-in is
listed in its place. -/
theorem resolve_listed_or_hidden (origin : Origin) (fs : List Callable) (name : String)
    (f : Callable) (h : (origin.registry.registerAll fs).resolve name = some f) :
    f ∈ (origin.registry.registerAll fs).functions ∨
      f ∈ Builtin.all ∧ name ≠ f.name ∧ sameIgnoringCase f.name name = true ∧
        ∃ g ∈ origin.registry.accepted fs, g.name = f.name ∧
          g ∈ (origin.registry.registerAll fs).functions := by
  have hapart := origin.namesApart_registry.registerAll fs
  rcases resolve_eq_some_iff.mp h with hplugin | ⟨hnone, hbuiltin⟩
  · obtain ⟨hf, -⟩ := hapart.plugin?_eq_some_iff.mp hplugin
    exact Or.inl (mem_functions_iff.mpr (Or.inl hf))
  obtain ⟨hf, hsame⟩ := builtin?_eq_some_iff.mp hbuiltin
  cases hown : (origin.registry.registerAll fs).plugin? f.name with
  | none => exact Or.inl (mem_functions_iff.mpr (Or.inr ⟨hf, hown⟩))
  | some g =>
      obtain ⟨hg, hname⟩ := hapart.plugin?_eq_some_iff.mp hown
      have hother : name ≠ f.name := by
        rintro rfl
        rw [hnone] at hown
        cases hown
      refine Or.inr ⟨hf, hother, hsame, g, ?_, hname, mem_functions_iff.mpr (Or.inl hg)⟩
      -- No plug-in of the library has the name of a built-in function, so this one was registered.
      rw [plugin?_history] at hown
      obtain ⟨-, before, after, hhistory, -⟩ := lastNamed?_eq_some_iff.mp hown
      have hmem : g ∈ origin.discovered ++ origin.registry.accepted fs := by simp [hhistory]
      rcases List.mem_append.mp hmem with hdiscovered | haccepted
      · have hknown := builtin?_knownPlugin (Origin.mem_knownPlugins hdiscovered)
        rw [hname, builtin?_name hf] at hknown
        cases hknown
      · exact haccepted

/-- A plug-in named as a built-in function is found under that name only, and is listed alone. -/
theorem resolve_listed_or_hidden_max :
    let r := Origin.builtinsOnly.registry.registerAll [doubling "max" "twice"]
    r.resolve "MAX" = some Builtin.max ∧
      (Builtin.max ∈ r.functions ∨ ∃ g ∈ [doubling "max" "twice"],
        g.name = Builtin.max.name ∧ g ∈ r.functions) := by
  intro r
  have hcalls : r.resolve "MAX" = some Builtin.max := rfl
  refine ⟨hcalls, ?_⟩
  rcases resolve_listed_or_hidden _ _ _ _ hcalls with h | ⟨-, -, -, h⟩
  · exact Or.inl h
  · exact Or.inr h

/-- A function that can be called may be missing in the listing. -/
theorem resolve_unlisted :
    ¬ ∀ (origin : Origin) (fs : List Callable) (name : String) (f : Callable),
      (origin.registry.registerAll fs).resolve name = some f →
        f ∈ (origin.registry.registerAll fs).functions := by
  intro hall
  have hlisted := hall .builtinsOnly [doubling "max" "twice"] "MAX" Builtin.max rfl
  have hapart := Origin.builtinsOnly.namesApart_registry.registerAll [doubling "max" "twice"]
  have hcalls := hapart.mem_functions_iff.mp hlisted
  have hplugin : (Origin.builtinsOnly.registry.registerAll [doubling "max" "twice"]).resolve "max" =
      some (doubling "max" "twice") := rfl
  have hsame := Option.some.inj (hplugin.symm.trans hcalls)
  have hcategory : "demo" = "builtin" := congrArg Callable.category hsame
  revert hcategory
  decide

end ProcessFormula.Registry
