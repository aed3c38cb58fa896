import Mathlib.Data.List.Basic
import ProcessFormula.Formula.Builder
import ProcessFormula.Proofs.Expr.Variables

/-!
What a name means once all names of a formula are known. A name of one of the caller's variables
means the first such variable. Every other name has one new cell, however often it occurs, and the
cells are numbered in the order of first occurrence: a named constant has the cell of that constant,
any other name a cell that is still unbound and holds NaN.
-/

namespace ProcessFormula

def isConstantName (name : String) : Bool := (constantNamed? name).isSome

/-- The caller's names, the constants and, in auto-detect mode, everything. -/
def knownName (mode : BindingMode) (callers : List Variable) (name : String) : Bool :=
  mode == .autoDetect || callers.any (fun v => v.name == name) || isConstantName name

def distinct : List String → List String
  | [] => []
  | name :: rest => name :: (distinct rest).filter (· != name)

namespace Formula

/-- Those of the names that are not the caller's, in order of first occurrence. Each gets a new
cell. -/
def freeNames (callers : List Variable) (names : List String) : List String :=
  distinct (names.filter fun name => !callers.any fun v => v.name == name)

/-- The variable that a name means, new cells being counted from `next`. -/
def bind (callers : List Variable) (free : List String) (next : Nat) (name : String) : Variable :=
  match callers.find? fun v => v.name == name with
  | some v => v
  | none => ⟨name, next + free.idxOf name⟩

def initialValue (now : Timestamp) (name : String) : Value :=
  .number now ((constantNamed? name).getD Binary64.nan)

end Formula

/-! ### Names without repetitions -/

theorem distinct_filter (p : String → Bool) (names : List String) :
    (distinct names).filter p = distinct (names.filter p) := by
  induction names with
  | nil => rfl
  | cons name rest ih =>
      simp only [distinct, List.filter_cons]
      split
      · simp only [distinct, ← ih, List.filter_filter, Bool.and_comm]
      · next hp =>
        rw [← ih, List.filter_filter]
        refine List.filter_congr fun x _ => ?_
        by_cases hx : x = name
        · subst hx
          simpa using hp
        · simp [hx]

/-- Later repetitions are left out. -/
theorem distinct_eq_eraseDups (names : List String) : distinct names = names.eraseDups := by
  match names with
  | [] => rfl
  | name :: rest =>
      rw [distinct, distinct_filter, List.eraseDups_cons, distinct_eq_eraseDups]
      rfl
termination_by names.length
decreasing_by exact Nat.lt_succ_of_le (List.length_filter_le _ _)

/-- Leaving out repetitions loses no name. -/
theorem mem_distinct {name : String} {names : List String} :
    name ∈ distinct names ↔ name ∈ names := by
  rw [distinct_eq_eraseDups, List.mem_eraseDups]

/-- Repetitions do not change which name is found first. -/
theorem find?_distinct (p : String → Bool) (names : List String) :
    (distinct names).find? p = names.find? p := by
  induction names with
  | nil => rfl
  | cons name rest ih =>
      rw [distinct, List.find?_cons, List.find?_cons]
      split
      · rfl
      · next hp =>
        rw [List.find?_filter, ← ih]
        congr 1
        funext x
        by_cases hx : x = name
        · simp [hx, hp]
        · simp [hx]

/-- A name that is in a list is what is found under it. -/
theorem find?_of_mem {name : String} {names : List String} (h : name ∈ names) :
    names.find? (· == name) = some name := by
  cases hfind : names.find? (· == name) with
  | none => exact absurd (List.find?_eq_none.mp hfind name h) (by simp)
  | some found => simpa using List.find?_some hfind

/-- Behind other names only those count that are new. -/
theorem distinct_append (names more : List String) :
    distinct (names ++ more) = distinct names ++ distinct (more.removeAll names) := by
  simp only [distinct_eq_eraseDups, List.eraseDups_append]

theorem isConstantName_iff {name : String} :
    isConstantName name = true ↔ name = "E" ∨ name = "PI" := by
  rw [isConstantName, constantNamed?, namedConstants, List.lookup_cons, List.lookup_cons,
    List.lookup_nil]
  by_cases hE : name = "E"
  · simp [hE]
  · by_cases hPI : name = "PI"
    · simp [hPI]
    · simp [hE, hPI, beq_eq_false_iff_ne.mpr hE, beq_eq_false_iff_ne.mpr hPI]

/-! ### Stores -/

namespace Store

variable {s : Store} {values : List Value}

theorem cells_extend (s : Store) (values : List Value) :
    (s.extend values).cells = s.cells ++ values.toArray :=
  Array.toList_inj.mp (by simp [extend])

@[simp]
theorem size_extend (s : Store) (values : List Value) :
    (s.extend values).size = s.size + values.length := by
  simp [size, cells_extend]

theorem extend_extend (s : Store) (values more : List Value) :
    (s.extend values).extend more = s.extend (values ++ more) :=
  congrArg Store.mk (Array.toList_inj.mp (by simp [extend]))

@[simp]
theorem size_write (s : Store) (v : Variable) (value : Value) :
    (s.write v value).size = s.size := by
  simp [write, size]

/-- Adding cells changes none of the others. -/
theorem read_extend_of_lt {v : Variable} (h : v.cell < s.size) :
    (s.extend values).read v = s.read v := by
  unfold size at h
  simp [read, cells_extend, Array.getD_eq_getD_getElem?, Array.getElem?_append_left h]

/-- A new cell holds its initial value. -/
theorem read_extend_new {name : String} {i : Nat} {value : Value} (h : values[i]? = some value) :
    (s.extend values).read ⟨name, s.size + i⟩ = value := by
  have hle : s.cells.size ≤ s.cells.size + i := Nat.le_add_right _ _
  simp [read, cells_extend, size, Array.getD_eq_getD_getElem?, Array.getElem?_append_right hle, h]

end Store

namespace Formula

/-! ### Binding -/

section

variable {callers : List Variable} {free : List String} {next : Nat} {name : String}

/-- The variable that a name means has that name. -/
@[simp]
theorem bind_name (callers : List Variable) (free : List String) (next : Nat) (name : String) :
    (bind callers free next name).name = name := by
  unfold bind
  split
  · next v hv => simpa using List.find?_some hv
  · rfl

theorem bind_of_some {v : Variable} (h : (callers.find? fun v => v.name == name) = some v) :
    bind callers free next name = v := by
  simp [bind, h]

/-- A name that is not the caller's means the new cell at its place among the free names. -/
theorem bind_of_none (h : (callers.find? fun v => v.name == name) = none) :
    bind callers free next name = ⟨name, next + free.idxOf name⟩ := by
  simp [bind, h]

/-- The free names are those that no variable of the caller's has. -/
theorem mem_freeNames {names : List String} :
    name ∈ freeNames callers names ↔
      name ∈ names ∧ (callers.find? fun v => v.name == name) = none := by
  simp [freeNames, mem_distinct, List.find?_eq_none]

end

end Formula

end ProcessFormula
