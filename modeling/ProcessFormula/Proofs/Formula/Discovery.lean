import ProcessFormula.Proofs.Formula.Handles
import ProcessFormula.Proofs.Grammar.Acceptance
import ProcessFormula.Proofs.Grammar.Names

/-!
What a compiled formula says about its variables: a name is a cell, and the variables it lists are
those that its leaves read.
-/

namespace ProcessFormula.Formula

open ProcessFormula.Expr (HasLeaf)

/-- Two leaves have one name exactly if they are one cell. -/
def OneCellPerName (root : Expr Variable) : Prop :=
  ∀ v w, HasLeaf v root → HasLeaf w root → (v.name = w.name ↔ v.cell = w.cell)

/-- The inputs of a formula are the variables that occur in it. They are listed by their names in
the order of first occurrence, and nothing has been written to them. -/
structure DiscoversInputs (now : Timestamp) (f : Formula) (store : Store) : Prop where
  names : f.inputs.map Variable.name =
    ((f.root.vars.map Variable.name).filter fun name => name != "E" && name != "PI").eraseDups
  found : ∀ v ∈ f.inputs, f.variableOf? v.name = some v
  leaf : ∀ v ∈ f.inputs, ∀ w, HasLeaf w f.root → w.name = v.name → w = v
  unbound : ∀ v ∈ f.inputs, store.read v = .number now Binary64.nan

/-- A constant that only this formula reads. -/
structure PrivateConstant (now : Timestamp) (held : List Variable) (store : Store)
    (v : Variable) : Prop where
  isPrivate : ∀ w ∈ held, w.cell ≠ v.cell
  value : v.name = "E" ∧ store.read v = .number now Math.e ∨
    v.name = "PI" ∧ store.read v = .number now Math.pi

/-- The inputs of a formula are the variables that were offered. A leaf is the first of them that
has its name, or else a constant. -/
structure BindsOffered (now : Timestamp) (held offered : List Variable) (f : Formula)
    (store : Store) : Prop where
  inputs : f.inputs = offered
  leaf : ∀ w, HasLeaf w f.root →
    (offered.find? fun v => v.name == w.name) = some w ∨
      (offered.find? fun v => v.name == w.name) = none ∧ PrivateConstant now held store w

section

variable {registry : Registry} {now : Timestamp} {mode : BindingMode}
  {offered held : List Variable} {text : String} {store : Store} {tree : Expr String}

theorem isConstantName_eq (name : String) :
    isConstantName name = (name == "E" || name == "PI") := by
  rw [Bool.eq_iff_iff, isConstantName_iff]
  simp

theorem hasLeaf_compiled {w : Variable} :
    HasLeaf w (compiled now mode offered text store tree).1.root ↔
      ∃ name ∈ tree.vars, binding mode offered store tree name = w := by
  rw [← Expr.mem_vars_iff]
  simp [compiled]

/-- The variable of a leaf is the one that its name means. -/
theorem binding_of_hasLeaf {w : Variable}
    (h : HasLeaf w (compiled now mode offered text store tree).1.root) :
    w.name ∈ tree.vars ∧ binding mode offered store tree w.name = w := by
  obtain ⟨name, hname, rfl⟩ := hasLeaf_compiled.mp h
  rw [show (binding mode offered store tree name).name = name from bind_name ..]
  exact ⟨hname, rfl⟩

/-- Over a store whose cells have one name each, a new formula does not mix names either. -/
theorem oneCellPerName (now : Timestamp) (text : String) (tree : Expr String)
    (hstore : store.Handles held) (hoffered : ∀ v ∈ offered, v ∈ held) :
    OneCellPerName (compiled now mode offered text store tree).1.root := by
  intro v w hv hw
  constructor
  · intro hname
    rw [← (binding_of_hasLeaf hv).2, ← (binding_of_hasLeaf hw).2, hname]
  · have hhandles := handles_compiled now mode text tree hstore hoffered
    exact hhandles.oneName v (List.mem_append_left _ hv.mem_vars) w
      (List.mem_append_left _ hw.mem_vars)

theorem root_names :
    (compiled now mode offered text store tree).1.root.vars.map Variable.name = tree.vars := by
  rw [← Expr.vars_map, root_map_name]

/-- A variable that was discovered starts as NaN. -/
theorem read_discovered {name : String}
    (hname : name ∈ discovered mode offered tree) :
    (compiled now mode offered text store tree).2.read (binding mode offered store tree name) =
      .number now Binary64.nan := by
  obtain ⟨hfree, hconstant⟩ := List.mem_filter.mp hname
  obtain ⟨-, hnone⟩ := mem_freeNames.mp hfree
  rw [show binding mode offered store tree name = _ from bind_of_none hnone,
    read_new now text store hfree]
  have hvalue : constantNamed? name = none := by simpa [isConstantName] using hconstant
  simp [initialValue, hvalue]

/-- The inputs that are discovered are the names of the tree that no constant has. -/
theorem inputs_names (now : Timestamp) (offered : List Variable) (text : String) (store : Store)
    (tree : Expr String) :
    (compiled now .autoDetect offered text store tree).1.inputs.map Variable.name =
      distinct (tree.vars.filter fun name => !isConstantName name) := by
  rw [inputs_compiled_name]
  simp [discovered, freeNames, callers, distinct_filter]

/-- In auto-detect mode the inputs are what was discovered. -/
theorem discoversInputs :
    DiscoversInputs now (compiled now .autoDetect offered text store tree).1
      (compiled now .autoDetect offered text store tree).2 := by
  have hinputs : (compiled now .autoDetect offered text store tree).1.inputs =
      (discovered .autoDetect offered tree).map (binding .autoDetect offered store tree) := rfl
  have hname : ∀ name, (binding .autoDetect offered store tree name).name = name :=
    fun name => bind_name ..
  constructor
  · rw [inputs_names, root_names, distinct_eq_eraseDups]
    congr 1
    refine List.filter_congr fun name _ => ?_
    rw [isConstantName_eq, Bool.not_or]
    rfl
  · intro v hv
    rw [hinputs] at hv
    obtain ⟨name, hmem, rfl⟩ := List.mem_map.mp hv
    have hsame : (fun v : Variable => v.name == name) ∘ binding .autoDetect offered store tree =
        (· == name) := by
      funext name'
      simp [hname]
    rw [hname, variableOf?, hinputs, List.find?_map, hsame, find?_of_mem hmem, Option.map_some]
  · intro v hv w hw hwv
    rw [hinputs] at hv
    obtain ⟨name, -, rfl⟩ := List.mem_map.mp hv
    rw [hname] at hwv
    rw [← (binding_of_hasLeaf hw).2, hwv]
  · intro v hv
    rw [hinputs] at hv
    obtain ⟨name, hmem, rfl⟩ := List.mem_map.mp hv
    exact read_discovered hmem

/-- In fixed mode a name that is not the caller's is known only if it is that of a constant. -/
theorem isConstantName_of_knows {name : String}
    (hknown : (scope registry now .fixed offered).knows name = true)
    (hnone : (offered.find? fun v => v.name == name) = none) : name = "E" ∨ name = "PI" := by
  have hcallers : (offered.any fun v => v.name == name) = false := by
    rw [List.any_eq_false]
    exact List.find?_eq_none.mp hnone
  rw [← isConstantName_iff]
  simpa [scope, knownName, callers, hcallers] using hknown

/-- In fixed mode the inputs are the caller's variables, the first of each name counting, and every
other name is a constant. -/
theorem bindsOffered (hstore : store.Handles held)
    (hknown : ∀ name ∈ tree.vars, (scope registry now .fixed offered).knows name = true) :
    BindsOffered now held offered (compiled now .fixed offered text store tree).1
      (compiled now .fixed offered text store tree).2 := by
  -- A name is new only if no caller's variable has it, and then it is known as a constant.
  have hnew : ∀ name ∈ freeNames (callers .fixed offered) tree.vars, name = "E" ∨ name = "PI" := by
    intro name hname
    obtain ⟨hname, hnone⟩ := mem_freeNames.mp hname
    exact isConstantName_of_knows (hknown name hname) hnone
  constructor
  · have hnone : discovered .fixed offered tree = [] := by
      simp only [discovered, List.filter_eq_nil_iff]
      intro name hname
      simp [isConstantName_iff.mpr (hnew name hname)]
    simp [compiled, hnone, callers]
  · intro w hw
    obtain ⟨hname, hbinding⟩ := binding_of_hasLeaf hw
    rcases binding_cases .fixed offered store hname with h | ⟨hnone, hfree, heq⟩
    · rw [hbinding] at h
      exact Or.inl h
    · rw [hbinding] at heq
      refine Or.inr ⟨hnone, ?_, ?_⟩
      · intro v hv
        have := hstore.inStore v hv
        rw [heq]
        dsimp only
        omega
      · have hread := read_new now text store hfree
        rw [← heq] at hread
        rcases hnew _ hfree with hE | hPI
        · exact Or.inl ⟨hE, by rw [hread, hE]; rfl⟩
        · exact Or.inr ⟨hPI, by rw [hread, hPI]; rfl⟩

/-- Without variables a formula has constants only. -/
theorem inputs_noVariables
    (hknown : ∀ name ∈ tree.vars, (scope registry now .noVariables offered).knows name = true) :
    (compiled now .noVariables offered text store tree).1.inputs = [] := by
  have hnone : discovered .noVariables offered tree = [] := by
    simp only [discovered, List.filter_eq_nil_iff]
    intro name hname
    have := hknown name (mem_freeNames.mp hname).1
    simpa [scope, knownName, callers] using this
  simp [compiled, hnone, callers]

/-- A variable that a formula finds by name is the one that the name means. -/
theorem eq_binding_of_variableOf? {name : String} {v : Variable}
    (h : (compiled now mode offered text store tree).1.variableOf? name = some v) :
    binding mode offered store tree name = v := by
  rw [variableOf?, compiled, List.find?_append, Option.or_eq_some_iff] at h
  rcases h with h | ⟨-, h⟩
  · exact bind_of_some h
  · obtain ⟨n, -, rfl⟩ := List.mem_map.mp (List.mem_of_find?_eq_some h)
    have hname : (binding mode offered store tree n).name = name := by
      simpa using List.find?_some h
    rw [← hname, show (binding mode offered store tree n).name = n from bind_name ..]

/-- A formula that refers to a name contains the variable that it lists under this name. -/
theorem containsVariable_of_references (now : Timestamp) (text : String) {name : String}
    {v : Variable}
    (h : (compiled now mode offered text store tree).1.root.references name = true)
    (hv : (compiled now mode offered text store tree).1.variableOf? name = some v) :
    (compiled now mode offered text store tree).1.root.containsVariable v = true := by
  obtain ⟨w, hw, rfl⟩ := Expr.references_iff.mp h
  refine Expr.containsVariable_iff.mpr ⟨w, hw, ?_⟩
  rw [← (binding_of_hasLeaf hw).2, eq_binding_of_variableOf? hv]

end

/-- What is known about the variables of a formula compiled in any mode. -/
theorem compile_variables {registry : Registry} {now : Timestamp} {mode : BindingMode}
    {offered held : List Variable} {text : String} {store store' : Store} {f : Formula}
    (hheld : Held store held) (hoffered : ∀ v ∈ offered, v ∈ held)
    (hcompile : compile registry now mode offered text store = .ok (f, store')) :
    OneCellPerName f.root ∧
      (mode = .autoDetect → DiscoversInputs now f store') ∧
      (mode = .fixed → BindsOffered now held offered f store') ∧
      (mode = .noVariables → f.inputs = []) ∧
      ∀ name, (f.root.references name = true ↔ ∃ v, HasLeaf v f.root ∧ v.name = name) ∧
        (f.root.references name = true → ∀ v, f.variableOf? name = some v →
          f.root.containsVariable v = true) := by
  obtain ⟨tree, htree, hresult⟩ := compile_eq_ok_iff.mp hcompile
  obtain ⟨rfl, rfl⟩ := Prod.mk.inj hresult
  have hknown := (Grammar.sentence_of_parse htree).knows
  refine ⟨oneCellPerName now text tree hheld.handles hoffered, ?_, ?_, ?_, fun name =>
    ⟨Expr.references_iff, fun href v hv => containsVariable_of_references now text href hv⟩⟩
  · rintro rfl
    exact discoversInputs
  · rintro rfl
    exact bindsOffered hheld.handles hknown
  · rintro rfl
    exact inputs_noVariables hknown

/-- A formula with one name in all its parts, a quoted name and a constant: five cells for five names,
and the constant is no input. In fixed mode the caller's variable is the only input, and the constant
has the first new cell. -/
theorem compile_variables_branches :
    let text := "on ? level * max(PI, 'tank 2') : level - rest"
    let level : Variable × Store := Store.empty.create "level" (.number ⟨0, 0⟩ 1.0)
    (∃ f store', compile .builtinsOnly ⟨0, 0⟩ .autoDetect [] text .empty = .ok (f, store') ∧
      f.inputs = [⟨"on", 0⟩, ⟨"level", 1⟩, ⟨"tank 2", 3⟩, ⟨"rest", 4⟩] ∧
      f.root.vars =
        [⟨"on", 0⟩, ⟨"level", 1⟩, ⟨"PI", 2⟩, ⟨"tank 2", 3⟩, ⟨"level", 1⟩, ⟨"rest", 4⟩] ∧
      OneCellPerName f.root ∧ DiscoversInputs ⟨0, 0⟩ f store' ∧
      ∃ v, HasLeaf v f.root ∧ v.name = "level") ∧
    ∃ f store', compile .builtinsOnly ⟨0, 0⟩ .fixed [level.1] "level * (level + PI)" level.2 =
        .ok (f, store') ∧
      f.root.vars = [⟨"level", 0⟩, ⟨"level", 0⟩, ⟨"PI", 1⟩] ∧
      OneCellPerName f.root ∧ BindsOffered ⟨0, 0⟩ [level.1] [level.1] f store' := by
  intro text level
  constructor
  · have hmap : (compile .builtinsOnly ⟨0, 0⟩ .autoDetect [] text .empty).map
        (fun r => (r.1.inputs, r.1.root.vars)) =
          .ok ([⟨"on", 0⟩, ⟨"level", 1⟩, ⟨"tank 2", 3⟩, ⟨"rest", 4⟩],
            [⟨"on", 0⟩, ⟨"level", 1⟩, ⟨"PI", 2⟩, ⟨"tank 2", 3⟩, ⟨"level", 1⟩, ⟨"rest", 4⟩]) := by
      decide +kernel
    obtain ⟨⟨f, store'⟩, hcompile, hparts⟩ := exists_of_map hmap
    obtain ⟨hinputs, hvars⟩ := Prod.mk.inj hparts
    obtain ⟨hone, hauto, -, -, hnames⟩ :=
      compile_variables Held.start (fun v hv => hv) hcompile
    have href : f.root.references "level" = true := by simp [Expr.references, hvars]
    exact ⟨f, store', hcompile, hinputs, hvars, hone, hauto rfl, (hnames "level").1.mp href⟩
  · have hmap : (compile .builtinsOnly ⟨0, 0⟩ .fixed [level.1] "level * (level + PI)" level.2).map
        (fun r => r.1.root.vars) = .ok [⟨"level", 0⟩, ⟨"level", 0⟩, ⟨"PI", 1⟩] := by
      decide +kernel
    obtain ⟨⟨f, store'⟩, hcompile, hvars⟩ := exists_of_map hmap
    have hheld : Held level.2 [level.1] := Held.start.create _ _
    obtain ⟨hone, -, hfixed, -⟩ := compile_variables hheld (fun v hv => hv) hcompile
    exact ⟨f, store', hcompile, hvars, hone, hfixed rfl⟩

end ProcessFormula.Formula
