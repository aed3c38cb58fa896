import ProcessFormula.Proofs.Builder.Running
import ProcessFormula.Proofs.Formula.Naming

/-!
The tables of the builder. After any names the variables are the caller's and behind them the names
that are neither the caller's nor those of constants, each once and in the order of first occurrence;
the constants are those that occurred, each once; and the store has one new cell for each of these
names. Looking up one more name gives the variable that the name means and keeps this true of the
names with the new one behind them. What a name means does not change when others follow.
-/

namespace ProcessFormula.Builder

open Lexeme ProcessFormula.Parser
open Formula (freeNames bind initialValue bind_name bind_of_some bind_of_none mem_freeNames)

/-- What the builder starts with. -/
structure Origin where
  setting : Setting
  callers : List Variable
  store : Store

namespace Origin

def state (o : Origin) : State := ⟨0, o.callers, [], none, o.store⟩

def scope (o : Origin) : Scope :=
  ⟨knownName o.setting.mode o.callers, o.setting.resolve, o.setting.now⟩

def variableOf (o : Origin) (names : List String) : String → Variable :=
  bind o.callers (freeNames o.callers names) o.store.size

def table (o : Origin) (names : List String) (kind : String → Bool) : List Variable :=
  ((freeNames o.callers names).filter kind).map (o.variableOf names)

/-- The state has what is right after these names in its tables. -/
structure Tables (o : Origin) (names : List String) (d : State) : Prop where
  inputs : d.inputs = o.callers ++ o.table names fun name => !isConstantName name
  constants : d.constants = o.table names isConstantName
  store : d.store =
    o.store.extend ((freeNames o.callers names).map (initialValue o.setting.now))
  known : ∀ name ∈ names, o.scope.knows name = true

end Origin

section

variable {callers : List Variable} {names : List String} {name : String}

/-- The new names among more names begin with those among the first ones. -/
theorem freeNames_append (callers : List Variable) (names later : List String) :
    ∃ more, freeNames callers (names ++ later) = freeNames callers names ++ more := by
  unfold freeNames
  rw [List.filter_append, distinct_append]
  exact ⟨_, rfl⟩

theorem freeNames_concat_of_mem (h : name ∈ names) :
    freeNames callers (names ++ [name]) = freeNames callers names := by
  unfold freeNames
  generalize (fun name => !callers.any fun v => v.name == name) = isNew
  have hnothing : ([name].filter isNew).removeAll (names.filter isNew) = [] := by
    rw [List.removeAll, List.filter_eq_nil_iff]
    intro n hn
    obtain ⟨hn, hisNew⟩ := List.mem_filter.mp hn
    obtain rfl := List.mem_singleton.mp hn
    simp [h, hisNew]
  rw [List.filter_append, distinct_append, hnothing, distinct, List.append_nil]

theorem any_of_find? {v : Variable} (h : (callers.find? fun v => v.name == name) = some v) :
    (callers.any fun v => v.name == name) = true :=
  List.any_eq_true.mpr ⟨v, List.mem_of_find?_eq_some h, by simpa using List.find?_some h⟩

theorem freeNames_concat_of_some {v : Variable}
    (h : (callers.find? fun v => v.name == name) = some v) :
    freeNames callers (names ++ [name]) = freeNames callers names := by
  unfold freeNames
  rw [List.filter_append, List.filter_singleton, any_of_find? h]
  simp

/-- A name that is new and not the caller's gets the next cell. -/
theorem freeNames_concat_of_new (hnew : name ∉ names)
    (hnone : (callers.find? fun v => v.name == name) = none) :
    freeNames callers (names ++ [name]) = freeNames callers names ++ [name] := by
  have hany : (callers.any fun v => v.name == name) = false := by
    simpa [List.find?_eq_none] using hnone
  simp [freeNames, List.filter_append, distinct_append, List.removeAll, hany, hnew, distinct]

end

namespace Origin

variable {o : Origin} {names : List String} {name : String} {kind : String → Bool} {d : State}

@[simp]
theorem variableOf_name (o : Origin) (names : List String) (name : String) :
    (o.variableOf names name).name = name := bind_name ..

/-- A name that occurred keeps its meaning. -/
theorem variableOf_append (o : Origin) (h : name ∈ names) (later : List String) :
    o.variableOf (names ++ later) name = o.variableOf names name := by
  unfold variableOf
  cases hfind : o.callers.find? fun v => v.name == name with
  | some v => rw [bind_of_some hfind, bind_of_some hfind]
  | none =>
      obtain ⟨more, hmore⟩ := freeNames_append o.callers names later
      rw [bind_of_none hfind, bind_of_none hfind, hmore,
        List.idxOf_append_of_mem (mem_freeNames.mpr ⟨h, hfind⟩)]

/-- A new name means the next new cell. -/
theorem variableOf_new (o : Origin) (hnew : name ∉ names)
    (hnone : (o.callers.find? fun v => v.name == name) = none) :
    o.variableOf (names ++ [name]) name =
      ⟨name, o.store.size + (freeNames o.callers names).length⟩ := by
  have hfree : name ∉ freeNames o.callers names := fun h => hnew (mem_freeNames.mp h).1
  rw [variableOf, bind_of_none hnone, freeNames_concat_of_new hnew hnone,
    List.idxOf_append_of_notMem hfree]
  simp

/-- A table has a variable for a name exactly if the name occurred, is not the caller's and is of
the table's kind. -/
theorem find?_table :
    (o.table names kind).find? (fun v => v.name == name) =
      if name ∈ freeNames o.callers names ∧ kind name = true then some (o.variableOf names name)
      else none := by
  have hsame : (fun v : Variable => v.name == name) ∘ o.variableOf names = (· == name) := by
    funext name'
    simp
  rw [table, List.find?_map, hsame]
  split
  · next h => rw [find?_of_mem (List.mem_filter.mpr h), Option.map_some]
  · next h =>
    rw [Option.map_eq_none_iff, List.find?_eq_none]
    intro name' hname' heq
    obtain rfl := beq_iff_eq.mp heq
    exact h (List.mem_filter.mp hname')

/-- The new names with one more behind them: its variable joins the table of its kind. -/
theorem table_concat_of_new (hnew : name ∉ names)
    (hnone : (o.callers.find? fun v => v.name == name) = none) :
    o.table (names ++ [name]) kind = o.table names kind ++
      if kind name = true then [o.variableOf (names ++ [name]) name] else [] := by
  unfold table
  rw [freeNames_concat_of_new hnew hnone, List.filter_append, List.map_append]
  congr 1
  · refine List.map_congr_left fun name' hname' => ?_
    exact o.variableOf_append (mem_freeNames.mp (List.mem_filter.mp hname').1).1 [name]
  · rw [List.filter_singleton]
    cases kind name with
    | true => rfl
    | false => rfl

/-! ### Looking a name up -/

/-- A name of the caller's, or one that occurred, has its variable in the tables. -/
theorem Tables.lookup_of_known (h : o.Tables names d)
    (hname : name ∈ names ∨ (o.callers.find? fun v => v.name == name) ≠ none) :
    d.lookup name = some (o.variableOf names name) := by
  unfold State.lookup
  rw [h.inputs, h.constants, List.find?_append, find?_table, find?_table]
  cases hfind : o.callers.find? fun v => v.name == name with
  | some v => simp [variableOf, bind_of_some hfind]
  | none =>
      have hmem := hname.resolve_right (fun hne => hne hfind)
      have hfree : name ∈ freeNames o.callers names := mem_freeNames.mpr ⟨hmem, hfind⟩
      cases isConstantName name with
      | true => simp [hfree]
      | false => simp [hfree]

/-- A name that has not occurred and is not the caller's is in neither table. -/
theorem Tables.lookup_of_new (h : o.Tables names d) (hnew : name ∉ names)
    (hnone : (o.callers.find? fun v => v.name == name) = none) : d.lookup name = none := by
  have hfree : name ∉ freeNames o.callers names := fun h => hnew (mem_freeNames.mp h).1
  unfold State.lookup
  rw [h.inputs, h.constants, List.find?_append, find?_table, find?_table]
  simp [hnone, hfree]

/-- A name of the caller's, or one that occurred, needs no cell. -/
theorem freeNames_concat_of_known
    (hname : name ∈ names ∨ (o.callers.find? fun v => v.name == name) ≠ none) :
    freeNames o.callers (names ++ [name]) = freeNames o.callers names := by
  rcases hname with hname | hname
  · exact freeNames_concat_of_mem hname
  · obtain ⟨v, hv⟩ := Option.ne_none_iff_exists'.mp hname
    exact freeNames_concat_of_some hv

theorem variableOf_concat_of_known
    (hname : name ∈ names ∨ (o.callers.find? fun v => v.name == name) ≠ none) :
    o.variableOf (names ++ [name]) = o.variableOf names := by
  rw [variableOf, freeNames_concat_of_known hname, variableOf]

/-- A name that is in the tables already leaves them as they are. -/
theorem Tables.concat_of_known (h : o.Tables names d) (hknown : o.scope.knows name = true)
    (hname : name ∈ names ∨ (o.callers.find? fun v => v.name == name) ≠ none) :
    o.Tables (names ++ [name]) d := by
  have hfree := freeNames_concat_of_known hname
  have hvariable := variableOf_concat_of_known hname
  constructor
  · rw [h.inputs, table, table, hfree, hvariable]
  · rw [h.constants, table, table, hfree, hvariable]
  · rw [h.store, hfree]
  · simpa [or_imp, forall_and] using ⟨h.known, hknown⟩

/-- The store has one cell for each new name. -/
theorem Tables.size_store (h : o.Tables names d) :
    d.store.size = o.store.size + (freeNames o.callers names).length := by
  rw [h.store, Store.size_extend, List.length_map]

/-- A new name among the constants. -/
theorem Tables.addConstant (h : o.Tables names d) (hnew : name ∉ names)
    (hnone : (o.callers.find? fun v => v.name == name) = none) {x : Float}
    (hx : constantNamed? name = some x) :
    (d.addConstant name (.number o.setting.now x)).1 = o.variableOf (names ++ [name]) name ∧
      o.Tables (names ++ [name]) (d.addConstant name (.number o.setting.now x)).2 := by
  have hkind : isConstantName name = true := by rw [isConstantName, hx]; rfl
  have hvariable := o.variableOf_new hnew hnone
  rw [← h.size_store] at hvariable
  refine ⟨hvariable.symm, ?_, ?_, ?_, ?_⟩
  · rw [table_concat_of_new hnew hnone, hkind]
    exact h.inputs.trans (by simp)
  · rw [table_concat_of_new hnew hnone, if_pos hkind, hvariable, ← h.constants]
    rfl
  · rw [freeNames_concat_of_new hnew hnone, List.map_append, ← Store.extend_extend, ← h.store]
    simp [State.addConstant, Store.create, initialValue, hx]
  · have hknown : o.scope.knows name = true := by simp [scope, knownName, hkind]
    simpa [or_imp, forall_and] using ⟨h.known, hknown⟩

/-- A new name among the variables. -/
theorem Tables.addVariable (h : o.Tables names d) (hnew : name ∉ names)
    (hnone : (o.callers.find? fun v => v.name == name) = none) (hmode : o.setting.mode = .autoDetect)
    (hx : constantNamed? name = none) :
    (d.addVariable name (.number o.setting.now Binary64.nan)).1 =
        o.variableOf (names ++ [name]) name ∧
      o.Tables (names ++ [name]) (d.addVariable name (.number o.setting.now Binary64.nan)).2 := by
  have hkind : isConstantName name = false := by rw [isConstantName, hx]; rfl
  have hvariable := o.variableOf_new hnew hnone
  rw [← h.size_store] at hvariable
  refine ⟨hvariable.symm, ?_, ?_, ?_, ?_⟩
  · rw [table_concat_of_new hnew hnone, hvariable, hkind, if_pos (by rfl), ← List.append_assoc,
      ← h.inputs]
    rfl
  · rw [table_concat_of_new hnew hnone, hkind]
    exact h.constants.trans (by simp)
  · rw [freeNames_concat_of_new hnew hnone, List.map_append, ← Store.extend_extend, ← h.store]
    simp [State.addVariable, Store.create, initialValue, hx]
  · have hknown : o.scope.knows name = true := by simp [scope, knownName, hmode]
    simpa [or_imp, forall_and] using ⟨h.known, hknown⟩

/-- What happens to a state while a name is looked up: nothing but that its tables may grow. -/
structure Looked (o : Origin) (names : List String) (d d' : State) : Prop where
  tables : o.Tables names d'
  nesting : d'.nesting = d.nesting
  lastName : d'.lastName = d.lastName

/-- A known name is found, or gets its cell. -/
theorem Tables.findVariable (h : o.Tables names d) (hknown : o.scope.knows name = true)
    (start : Input) :
    ∃ d', (Builder.findVariable o.setting name start).runFrom d =
        (.ok (o.variableOf (names ++ [name]) name), d') ∧ o.Looked (names ++ [name]) d d' := by
  unfold Builder.findVariable
  simp only [Build.runFrom_bind, Build.runFrom_get]
  by_cases hname : name ∈ names ∨ (o.callers.find? fun v => v.name == name) ≠ none
  · rw [h.lookup_of_known hname, variableOf_concat_of_known hname]
    exact ⟨d, rfl, h.concat_of_known hknown hname, rfl, rfl⟩
  · obtain ⟨hnew, hnone⟩ := not_or.mp hname
    have hnone := not_not.mp hnone
    rw [h.lookup_of_new hnew hnone]
    dsimp only
    split
    · next x hx =>
      obtain ⟨hvariable, htables⟩ := h.addConstant hnew hnone hx
      rw [← hvariable]
      exact ⟨_, rfl, htables, rfl, rfl⟩
    · next hx =>
      -- The name is neither the caller's nor that of a constant, so every name is known.
      have hcallers : (o.callers.any fun v => v.name == name) = false := by
        simpa [List.find?_eq_none] using hnone
      have hmode : o.setting.mode = .autoDetect := by
        simpa [scope, knownName, isConstantName, hx, hcallers] using hknown
      obtain ⟨hvariable, htables⟩ := h.addVariable hnew hnone hmode hx
      rw [if_pos hmode, ← hvariable]
      exact ⟨_, rfl, htables, rfl, rfl⟩

/-- A name that is not known is refused where it starts. -/
theorem Tables.findVariable_unknown (h : o.Tables names d) (hunknown : o.scope.knows name = false)
    (start : Input) :
    (Builder.findVariable o.setting name start).runFrom d =
      (.error ⟨.unknownVariable name, start⟩, d) := by
  have hnew : name ∉ names := fun hname => by simp [h.known name hname] at hunknown
  simp only [scope, knownName, isConstantName, Bool.or_eq_false_iff, beq_eq_false_iff_ne,
    Option.isSome_eq_false_iff, Option.isNone_iff_eq_none] at hunknown
  obtain ⟨⟨hmode, hcallers⟩, hx⟩ := hunknown
  have hnone : (o.callers.find? fun v => v.name == name) = none := by
    simpa [List.find?_eq_none] using hcallers
  unfold Builder.findVariable
  simp only [Build.runFrom_bind, Build.runFrom_get, h.lookup_of_new hnew hnone, hx, if_neg hmode]
  rfl

end Origin

end ProcessFormula.Builder
