import ProcessFormula.CommandLine.Binding
import ProcessFormula.Proofs.Formula.Interference

/-!
What the bindings of a command line do to a formula that was compiled in auto-detect mode. Each of
its variables takes the value of the last binding with its name, and what no binding names stays NaN
and is reported. So only the last binding of a name counts, and one of a foreign name not at all.
-/

namespace ProcessFormula.CommandLine.Binding

def last? (bindings : List Binding) (name : String) : Option Binding :=
  bindings.reverse.find? fun b => b.name == name

/-- The bindings that no later one of the same name follows. -/
def latest : List Binding → List Binding
  | [] => []
  | b :: rest => if rest.any fun c => c.name == b.name then latest rest else b :: latest rest

/-! ### The last binding of a name -/

/-- Going on from the first binding, it counts only if no later one has its name. -/
theorem last?_cons (b : Binding) (rest : List Binding) (name : String) :
    last? (b :: rest) name = (last? rest name).or (if b.name = name then some b else none) := by
  rw [last?, List.reverse_cons, List.find?_append, ← last?]
  congr 1
  by_cases h : b.name = name <;> simp [h]

theorem last?_eq_none_iff {bindings : List Binding} {name : String} :
    last? bindings name = none ↔ ∀ b ∈ bindings, b.name ≠ name := by
  simp [last?]

/-- A binding counts if no later one has its name. -/
theorem last?_eq_some {before after : List Binding} {b : Binding}
    (h : ∀ c ∈ after, c.name ≠ b.name) : last? (before ++ b :: after) b.name = some b := by
  have hafter : last? after b.name = none := last?_eq_none_iff.mpr h
  unfold last? at hafter ⊢
  simp [List.find?_append, hafter]

theorem any_eq_isSome_last? (bindings : List Binding) (name : String) :
    (bindings.any fun b => b.name == name) = (last? bindings name).isSome := by
  rw [← List.any_reverse, last?, ← List.isSome_find?]

theorem last?_filter {names : List String} {name : String} (h : name ∈ names)
    (bindings : List Binding) :
    last? (bindings.filter fun b => b.name ∈ names) name = last? bindings name := by
  rw [last?, ← List.filter_reverse, List.find?_filter, last?]
  congr 1
  funext b
  by_cases hname : b.name = name
  · simp [hname, h]
  · simp [hname]

/-- Bindings that a later one replaces do not show in what counts. -/
theorem last?_latest (bindings : List Binding) (name : String) :
    last? (latest bindings) name = last? bindings name := by
  induction bindings with
  | nil => rfl
  | cons b rest ih =>
      unfold latest
      split
      · next hlater =>
        rw [ih, last?_cons]
        by_cases hname : b.name = name
        · obtain ⟨c, hc⟩ : ∃ c, last? rest name = some c := by
            rw [← Option.isSome_iff_exists, Option.isSome_iff_ne_none, Ne, last?_eq_none_iff]
            obtain ⟨c, hc, hsame⟩ := List.any_eq_true.mp hlater
            exact fun hnone => hnone c hc ((beq_iff_eq.mp hsame).trans hname)
          rw [hc, Option.some_or]
        · rw [if_neg hname, Option.or_none]
      · rw [last?_cons, last?_cons, ih]

/-! ### Setting the variables -/

theorem nodup_distinct (names : List String) : (distinct names).Nodup := by
  induction names with
  | nil => exact List.nodup_nil
  | cons name rest ih => exact List.nodup_cons.mpr ⟨by simp, ih.filter _⟩

/-- Each variable of the formula is found by its name and has a cell of its own. -/
structure HasCells (f : Formula) (store : Store) : Prop where
  found : ∀ v ∈ f.inputs, f.variableOf? v.name = some v
  cells : ∀ v ∈ f.inputs, ∀ w ∈ f.inputs, v.cell = w.cell → v = w
  inStore : ∀ v ∈ f.inputs, v.cell < store.size

section

variable {registry : Registry} {now : Timestamp} {offered : List Variable} {text : String}
  {store store' : Store} {f : Formula}
  (h : Formula.compile registry now .autoDetect offered text store = .ok (f, store'))
include h

theorem discoversInputs_of_compile : Formula.DiscoversInputs now f store' := by
  obtain ⟨tree, -, hresult⟩ := Formula.compile_eq_ok_iff.mp h
  obtain ⟨rfl, rfl⟩ := Prod.mk.inj hresult
  exact Formula.discoversInputs

theorem nodup_names_of_compile : (f.inputs.map Variable.name).Nodup := by
  rw [(discoversInputs_of_compile h).names, ← distinct_eq_eraseDups]
  exact nodup_distinct _

/-- Cells of a formula are not shared between names. -/
theorem oneName_of_compile {v w : Variable} (hv : v ∈ f.handles) (hw : w ∈ f.handles)
    (hcell : v.cell = w.cell) : v.name = w.name := by
  obtain ⟨tree, -, hresult⟩ := Formula.compile_eq_ok_iff.mp h
  obtain ⟨rfl, rfl⟩ := Prod.mk.inj hresult
  have hnobody : store.Handles [] := ⟨by simp, by simp⟩
  -- What was offered does not count, so that nothing has to be known about it.
  have hhandles := @Formula.handles_compiled [] [] store now .autoDetect text tree hnobody
    (by simp)
  rw [List.append_nil] at hhandles
  exact hhandles.oneName v hv w hw hcell

/-- So the cells of the variables can be told apart by their names. -/
theorem hasCells_of_compile : HasCells f store' := by
  have hfound := (discoversInputs_of_compile h).found
  refine ⟨hfound, fun v hv w hw hcell => ?_, fun v hv => ?_⟩
  · have hname := oneName_of_compile h (List.mem_append_right _ hv) (List.mem_append_right _ hw)
      hcell
    have hsame := hfound v hv
    rw [hname, hfound w hw] at hsame
    exact (Option.some.inj hsame).symm
  · have hbound := Formula.boundOver_of_compile h
    rcases hbound.handles v (List.mem_append_right _ hv) with ⟨hfixed, -⟩ | ⟨-, hlt⟩
    · cases hfixed
    · exact hlt

/-- A leaf that is no variable of the formula, but a constant, has a cell that none of them has. -/
theorem cell_ne_of_compile {v w : Variable} (hv : v ∈ f.inputs) (hw : w ∈ f.root.vars)
    (hconstant : w ∉ f.inputs) : v.cell ≠ w.cell := by
  intro hcell
  have hname := oneName_of_compile h (List.mem_append_right _ hv) (List.mem_append_left _ hw) hcell
  have hsame := (discoversInputs_of_compile h).leaf v hv w (Expr.hasLeaf_of_mem_vars hw) hname.symm
  exact hconstant (hsame ▸ hv)

end

section

variable {f : Formula} {store : Store}

theorem size_apply (f : Formula) (store : Store) (b : Binding) :
    (apply f store b).size = store.size := by
  unfold apply
  split
  · exact Store.size_write ..
  · rfl

theorem HasCells.apply (h : HasCells f store) (b : Binding) :
    HasCells f (Binding.apply f store b) where
  __ := h
  inStore := by simpa [size_apply] using h.inStore

/-- One binding sets the variable that it names. -/
theorem read_apply (h : HasCells f store) (b : Binding) {v : Variable} (hv : v ∈ f.inputs) :
    (apply f store b).read v = if b.name = v.name then b.value else store.read v := by
  unfold apply
  split
  · next u hu =>
    obtain hname : u.name = b.name := by simpa using List.find?_some hu
    rw [Store.read_write (h.inStore u (List.mem_of_find?_eq_some hu))]
    by_cases hsame : b.name = v.name
    · rw [hsame, h.found v hv] at hu
      obtain rfl := Option.some.inj hu
      rw [if_pos rfl, if_pos hsame]
    · have hcell : v.cell ≠ u.cell := by
        intro hcell
        obtain rfl := h.cells v hv u (List.mem_of_find?_eq_some hu) hcell
        exact hsame hname.symm
      rw [if_neg hcell, if_neg hsame]
  · next hnone =>
    have hname : b.name ≠ v.name := by
      intro hsame
      rw [hsame, h.found v hv] at hnone
      cases hnone
    rw [if_neg hname]

/-- A binding touches no cell outside of the formula's variables. -/
theorem read_apply_of_foreign (store : Store) (b : Binding) {w : Variable}
    (hw : ∀ v ∈ f.inputs, v.cell ≠ w.cell) :
    (apply f store b).read w = store.read w := by
  unfold apply
  split
  · next u hu => exact Store.read_write_of_ne (hw u (List.mem_of_find?_eq_some hu)).symm _
  · rfl

theorem size_applyAll (f : Formula) (bindings : List Binding) (store : Store) :
    (applyAll f bindings store).size = store.size := by
  induction bindings generalizing store with
  | nil => rfl
  | cons b rest ih => exact (ih _).trans (size_apply f store b)

/-- Of several bindings the last one of the name counts. -/
theorem read_applyAll (h : HasCells f store) (bindings : List Binding) {v : Variable}
    (hv : v ∈ f.inputs) : (applyAll f bindings store).read v =
      ((last? bindings v.name).map Binding.value).getD (store.read v) := by
  induction bindings generalizing store with
  | nil => rfl
  | cons b rest ih =>
      have hrest : (applyAll f (b :: rest) store).read v = _ := ih (h.apply b)
      rw [hrest, read_apply h b hv, last?_cons]
      cases last? rest v.name with
      | some c => rfl
      | none =>
          by_cases hname : b.name = v.name
          · simp [hname]
          · simp [hname]

theorem read_applyAll_of_foreign (bindings : List Binding) (store : Store) {w : Variable}
    (hw : ∀ v ∈ f.inputs, v.cell ≠ w.cell) :
    (applyAll f bindings store).read w = store.read w := by
  induction bindings generalizing store with
  | nil => rfl
  | cons b rest ih => exact (ih _).trans (read_apply_of_foreign store b hw)

end

section

variable {f : Formula} {bindings bindings' : List Binding}
  (h : ∀ v ∈ f.inputs, last? bindings v.name = last? bindings' v.name)
include h

/-- Only the last binding of each variable counts for the cells. -/
theorem applyAll_congr {store : Store} (hcells : HasCells f store) :
    applyAll f bindings store = applyAll f bindings' store := by
  refine Store.eq_of_read ((size_applyAll ..).trans (size_applyAll ..).symm) fun w => ?_
  by_cases hw : ∃ v ∈ f.inputs, v.cell = w.cell
  · obtain ⟨v, hv, hcell⟩ := hw
    have hread (s : Store) : s.read w = s.read v := by
      rw [Store.read, Store.read, hcell]
    rw [hread, hread, read_applyAll hcells _ hv, read_applyAll hcells _ hv, h v hv]
  · have hforeign : ∀ v ∈ f.inputs, v.cell ≠ w.cell := fun v hv hcell => hw ⟨v, hv, hcell⟩
    rw [read_applyAll_of_foreign _ _ hforeign, read_applyAll_of_foreign _ _ hforeign]

/-- And for what is reported. -/
theorem unbound_congr : unbound f bindings = unbound f bindings' := by
  refine List.filter_congr fun name hname => ?_
  obtain ⟨v, hv, rfl⟩ := List.mem_map.mp hname
  rw [any_eq_isSome_last?, any_eq_isSome_last?, h v hv]

end

/-! ### The bindings of a command line -/

/-- The bindings set the variables of a formula that they name, and nothing else. -/
structure SetsNamed (compiled : Timestamp) (f : Formula) (store : Store)
    (bindings : List Binding) : Prop where
  /-- A variable holds the value of the last binding with its name, or is still unbound. -/
  bound : ∀ v ∈ f.inputs, (applyAll f bindings store).read v =
    ((last? bindings v.name).map Binding.value).getD (.number compiled Binary64.nan)
  /-- No other cell changes, and a leaf that is a constant keeps its value. -/
  size : (applyAll f bindings store).size = store.size
  others : ∀ w : Variable, (∀ v ∈ f.inputs, v.cell ≠ w.cell) →
    (applyAll f bindings store).read w = store.read w
  constants : ∀ w ∈ f.root.vars, w ∉ f.inputs →
    (applyAll f bindings store).read w = store.read w
  /-- The variables without a binding are reported, each once and in their order. -/
  mem_unbound : ∀ name, name ∈ unbound f bindings ↔
    name ∈ f.inputs.map Variable.name ∧ ∀ b ∈ bindings, b.name ≠ name
  unbound_sublist : (unbound f bindings).Sublist (f.inputs.map Variable.name)
  unbound_nodup : (unbound f bindings).Nodup
  /-- Bindings of foreign names do not count. -/
  foreign : let known := bindings.filter fun b => b.name ∈ f.inputs.map Variable.name
    applyAll f known store = applyAll f bindings store ∧
      unbound f known = unbound f bindings
  /-- Nor do bindings that a later one of the same name follows. -/
  superseded : applyAll f (latest bindings) store = applyAll f bindings store ∧
    unbound f (latest bindings) = unbound f bindings

/-- Bindings set the variables that they name, whatever text was compiled and whatever names the
bindings have. -/
theorem bindings_set_named {registry : Registry} {compiled : Timestamp} {offered : List Variable}
    {text : String} {store store' : Store} {f : Formula}
    (h : Formula.compile registry compiled .autoDetect offered text store = .ok (f, store'))
    (bindings : List Binding) : SetsNamed compiled f store' bindings := by
  have hcells := hasCells_of_compile h
  have hforeign : ∀ v ∈ f.inputs,
      last? (bindings.filter fun b => b.name ∈ f.inputs.map Variable.name) v.name =
        last? bindings v.name :=
    fun v hv => last?_filter (List.mem_map_of_mem hv) bindings
  exact {
    bound := fun v hv => by
      rw [read_applyAll hcells bindings hv, (discoversInputs_of_compile h).unbound v hv]
    size := size_applyAll ..
    others := fun w hw => read_applyAll_of_foreign bindings _ hw
    constants := fun w hw hconstant => read_applyAll_of_foreign bindings _
      fun v hv => cell_ne_of_compile h hv hw hconstant
    mem_unbound := fun name => by simp [unbound]
    unbound_sublist := List.filter_sublist
    unbound_nodup := (nodup_names_of_compile h).filter _
    foreign := ⟨applyAll_congr hforeign hcells, unbound_congr hforeign⟩
    superseded := ⟨applyAll_congr (fun v _ => last?_latest bindings v.name) hcells,
      unbound_congr fun v _ => last?_latest bindings v.name⟩ }

/-- A level that is bound twice keeps the second value, and a binding of a constant is ignored. -/
theorem bindings_set_named_level :
    let bindings : List Binding :=
      [⟨"level", .number ⟨7, 0⟩ 1.0⟩, ⟨"E", .number ⟨8, 0⟩ 3.0⟩, ⟨"level", .text ⟨9, 0⟩ "high"⟩]
    ∃ f store', Formula.compile .builtinsOnly ⟨3, 0⟩ .autoDetect [] "level" .empty =
        .ok (f, store') ∧ SetsNamed ⟨3, 0⟩ f store' bindings ∧
      (applyAll f bindings store').read ⟨"level", 0⟩ = .text ⟨9, 0⟩ "high" ∧
      unbound f bindings = [] := by
  intro bindings
  have htree : Parser.parse (Formula.scope .builtinsOnly ⟨3, 0⟩ .autoDetect []) "level" =
      .ok (.var "level") :=
    Grammar.parse_of_sentence (Grammar.sentence_of_name rfl ⟨'l', rfl, rfl⟩ rfl)
  have hcompile := Formula.compile_of_parse htree .empty
  have hsets := bindings_set_named hcompile bindings
  exact ⟨_, _, hcompile, hsets, hsets.bound ⟨"level", 0⟩ List.mem_cons_self, rfl⟩

end ProcessFormula.CommandLine.Binding
