import ProcessFormula.Expr.Printer
import ProcessFormula.Formula.Basic

/-!
The variables of a tree and what replacing them does. A tree over names and the tree in which its
names are bound have the same shape, so they have corresponding leaves and the same text.
-/

namespace ProcessFormula.Expr

variable {ν μ κ : Type}

inductive HasLeaf (x : ν) : Expr ν → Prop
  | var : HasLeaf x (.var x)
  | unary {op : UnaryOp} {operand : Expr ν} (h : HasLeaf x operand) :
      HasLeaf x (.unary op operand)
  | left {op : BinaryOp} {left right : Expr ν} (h : HasLeaf x left) :
      HasLeaf x (.binary op left right)
  | right {op : BinaryOp} {left right : Expr ν} (h : HasLeaf x right) :
      HasLeaf x (.binary op left right)
  | condition {condition thenBranch elseBranch : Expr ν} (h : HasLeaf x condition) :
      HasLeaf x (.conditional condition thenBranch elseBranch)
  | thenBranch {condition thenBranch elseBranch : Expr ν} (h : HasLeaf x thenBranch) :
      HasLeaf x (.conditional condition thenBranch elseBranch)
  | elseBranch {condition thenBranch elseBranch : Expr ν} (h : HasLeaf x elseBranch) :
      HasLeaf x (.conditional condition thenBranch elseBranch)
  | argument {f : Callable} {args : List (Expr ν)} {arg : Expr ν} (harg : arg ∈ args)
      (h : HasLeaf x arg) : HasLeaf x (.call f args)

theorem mem_allVars_iff {x : ν} {args : List (Expr ν)} :
    x ∈ allVars args ↔ ∃ arg ∈ args, x ∈ arg.vars := by
  induction args with
  | nil => simp [allVars]
  | cons e rest ih => simp [allVars, ih]

theorem HasLeaf.mem_vars {x : ν} {e : Expr ν} (h : HasLeaf x e) : x ∈ e.vars := by
  induction h with
  | var => simp [vars]
  | unary _ ih => simpa [vars] using ih
  | left _ ih | right _ ih | condition _ ih | thenBranch _ ih | elseBranch _ ih => simp [vars, ih]
  | argument harg _ ih =>
      simp only [vars, mem_allVars_iff]
      exact ⟨_, harg, ih⟩

mutual

theorem hasLeaf_of_mem_vars {x : ν} {e : Expr ν} (h : x ∈ e.vars) : HasLeaf x e := by
  match e with
  | .constant _ => simp [vars] at h
  | .var y =>
      obtain rfl : x = y := by simpa [vars] using h
      exact .var
  | .unary _ operand => exact .unary (hasLeaf_of_mem_vars (e := operand) (by simpa [vars] using h))
  | .binary _ left right =>
      rcases List.mem_append.mp (by simpa only [vars] using h) with h | h
      · exact .left (hasLeaf_of_mem_vars h)
      · exact .right (hasLeaf_of_mem_vars h)
  | .conditional condition thenBranch elseBranch =>
      rcases List.mem_append.mp (by simpa only [vars] using h) with h | h
      · rcases List.mem_append.mp h with h | h
        · exact .condition (hasLeaf_of_mem_vars h)
        · exact .thenBranch (hasLeaf_of_mem_vars h)
      · exact .elseBranch (hasLeaf_of_mem_vars h)
  | .call f args =>
      have hargs : x ∈ allVars args := by simpa only [vars] using h
      obtain ⟨arg, harg, hleaf⟩ := hasLeaf_of_mem_allVars hargs
      exact .argument harg hleaf

theorem hasLeaf_of_mem_allVars {x : ν} {args : List (Expr ν)} (h : x ∈ allVars args) :
    ∃ arg ∈ args, HasLeaf x arg := by
  match args with
  | [] => simp [allVars] at h
  | e :: rest =>
      rcases List.mem_append.mp (by simpa only [allVars] using h) with h | h
      · exact ⟨e, by simp, hasLeaf_of_mem_vars h⟩
      · obtain ⟨arg, harg, hleaf⟩ := hasLeaf_of_mem_allVars h
        exact ⟨arg, List.mem_cons_of_mem _ harg, hleaf⟩

end

/-- The variables of a tree are those of its leaves. -/
theorem mem_vars_iff {x : ν} {e : Expr ν} : x ∈ e.vars ↔ HasLeaf x e :=
  ⟨hasLeaf_of_mem_vars, HasLeaf.mem_vars⟩

/-! ### Other variables -/

mutual

/-- Replacing the variables of a tree replaces them in the list of its leaves. -/
@[simp]
theorem vars_map (f : ν → μ) (e : Expr ν) : (e.map f).vars = e.vars.map f := by
  cases e with
  | constant | var => rfl
  | unary _ operand => exact vars_map f operand
  | binary _ left right => simp [map, vars, vars_map f left, vars_map f right]
  | conditional condition thenBranch elseBranch =>
      simp [map, vars, vars_map f condition, vars_map f thenBranch, vars_map f elseBranch]
  | call _ args => exact allVars_mapAll f args

theorem allVars_mapAll (f : ν → μ) (args : List (Expr ν)) :
    allVars (mapAll f args) = (allVars args).map f := by
  cases args with
  | nil => rfl
  | cons e rest => simp [mapAll, allVars, vars_map f e, allVars_mapAll f rest]

end

mutual

theorem map_map (f : ν → μ) (g : μ → κ) (e : Expr ν) : (e.map f).map g = e.map (g ∘ f) := by
  cases e with
  | constant | var => rfl
  | unary _ operand => simp [map, map_map f g operand]
  | binary _ left right => simp [map, map_map f g left, map_map f g right]
  | conditional condition thenBranch elseBranch =>
      simp [map, map_map f g condition, map_map f g thenBranch, map_map f g elseBranch]
  | call _ args => simp [map, mapAll_mapAll f g args]

theorem mapAll_mapAll (f : ν → μ) (g : μ → κ) (args : List (Expr ν)) :
    mapAll g (mapAll f args) = mapAll (g ∘ f) args := by
  cases args with
  | nil => rfl
  | cons e rest => simp [mapAll, map_map f g e, mapAll_mapAll f g rest]

end

mutual

/-- Only the variables that occur matter to a replacement. -/
theorem map_congr {f g : ν → μ} {e : Expr ν} (h : ∀ x ∈ e.vars, f x = g x) :
    e.map f = e.map g := by
  match e with
  | .constant _ => rfl
  | .var x => simp [map, h x (by simp [vars])]
  | .unary _ operand => simp [map, map_congr (e := operand) (by simpa [vars] using h)]
  | .binary _ left right =>
      simp only [vars, List.forall_mem_append] at h
      simp [map, map_congr h.1, map_congr h.2]
  | .conditional condition thenBranch elseBranch =>
      simp only [vars, List.forall_mem_append] at h
      simp [map, map_congr h.1.1, map_congr h.1.2, map_congr h.2]
  | .call _ args =>
      have hargs : ∀ x ∈ allVars args, f x = g x := by simpa only [vars] using h
      simp [map, mapAll_congr hargs]

theorem mapAll_congr {f g : ν → μ} {args : List (Expr ν)} (h : ∀ x ∈ allVars args, f x = g x) :
    mapAll f args = mapAll g args := by
  match args with
  | [] => rfl
  | e :: rest =>
      simp only [allVars, List.forall_mem_append] at h
      simp [mapAll, map_congr h.1, mapAll_congr h.2]

end

mutual

theorem map_id (e : Expr ν) : e.map id = e := by
  cases e with
  | constant | var => rfl
  | unary _ operand => simp [map, map_id operand]
  | binary _ left right => simp [map, map_id left, map_id right]
  | conditional condition thenBranch elseBranch =>
      simp [map, map_id condition, map_id thenBranch, map_id elseBranch]
  | call _ args => simp [map, mapAll_id args]

theorem mapAll_id (args : List (Expr ν)) : mapAll id args = args := by
  cases args with
  | nil => rfl
  | cons e rest => simp [mapAll, map_id e, mapAll_id rest]

end

mutual

/-- The text of a tree depends on the names of its variables only. -/
theorem text_map (f : ν → μ) (nameOf : μ → String) (e : Expr ν) :
    (e.map f).text nameOf = e.text (nameOf ∘ f) := by
  cases e with
  | constant | var => rfl
  | unary _ operand => simp [map, text, text_map f nameOf operand]
  | binary _ left right => simp [map, text, text_map f nameOf left, text_map f nameOf right]
  | conditional condition thenBranch elseBranch =>
      simp [map, text, text_map f nameOf condition, text_map f nameOf thenBranch,
        text_map f nameOf elseBranch]
  | call _ args => simp [map, text, texts_mapAll f nameOf args]

theorem texts_mapAll (f : ν → μ) (nameOf : μ → String) (args : List (Expr ν)) :
    texts nameOf (mapAll f args) = texts (nameOf ∘ f) args := by
  cases args with
  | nil => rfl
  | cons e rest => simp [mapAll, texts, text_map f nameOf e, texts_mapAll f nameOf rest]

end

/-! ### Looking for variables -/

theorem references_iff {e : Expr Variable} {name : String} :
    e.references name = true ↔ ∃ v, HasLeaf v e ∧ v.name = name := by
  simp [references, mem_vars_iff]

/-- A tree contains a variable if it has a leaf with the same cell, whatever its name. -/
theorem containsVariable_iff {e : Expr Variable} {v : Variable} :
    e.containsVariable v = true ↔ ∃ w, HasLeaf w e ∧ w.cell = v.cell := by
  simp [containsVariable, mem_vars_iff]

end ProcessFormula.Expr
