import ProcessFormula.Proofs.Formula.Sessions

/-!
Formulas have to do with each other only through the cells that they share. After any run of a
session each cell holds what was last set on it; the value of a formula is a function of the cells
that occur in it; a variable that a compilation discovered belongs to its formula alone, and the
formulas over the same variables of the caller's see what is set on these through any handle.
-/

namespace ProcessFormula

/-- The initial values of all cells, in the order in which the cells were added. -/
def initialValues : List Action → List Value
  | [] => []
  | a :: history => initialValues history ++ a.added

def lastSet? (cell : Nat) : List Action → Option Value
  | [] => none
  | a :: history =>
    match a.setting? with
    | some (v, value) => if cell = v.cell then some value else lastSet? cell history
    | none => lastSet? cell history

namespace Store

variable {s : Store} {v w : Variable}

/-- Writing a variable changes its cell and no other. -/
theorem read_write (h : v.cell < s.size) (value : Value) (w : Variable) :
    (s.write v value).read w = if w.cell = v.cell then value else s.read w := by
  unfold size at h
  by_cases hcell : w.cell = v.cell
  · simp [read, write, hcell, Array.getD_eq_getD_getElem?, h]
  · simp [read, write, hcell, Array.getD_eq_getD_getElem?, Ne.symm hcell]

theorem read_write_of_ne (h : w.cell ≠ v.cell) (value : Value) :
    (s.write v value).read w = s.read w := by
  simp [read, write, Array.getD_eq_getD_getElem?, h.symm]

/-- A store is nothing but its cells. -/
theorem eq_of_read {s s' : Store} (hsize : s.size = s'.size) (h : ∀ w, s.read w = s'.read w) :
    s = s' := by
  obtain ⟨cells⟩ := s
  obtain ⟨cells'⟩ := s'
  congr 1
  refine Array.ext hsize fun i hi hi' => ?_
  have hread := h ⟨"", i⟩
  simpa [read, Array.getD_eq_getD_getElem?, hi, hi'] using hread

end Store

/-- A formula does not see what is set on a cell that it does not contain. -/
theorem Formula.eval_write_of_not_contains {f : Formula} {v : Variable}
    (h : f.root.containsVariable v = false) (store : Store) (value : Value) (m : Moments) :
    f.eval (store.write v value) m = f.eval store m := by
  refine eval_congr (.refl m _) fun w hw => Store.read_write_of_ne ?_ value
  intro hcell
  rw [Expr.containsVariable, hcell, ← Expr.containsVariable, h] at hw
  cases hw

namespace Session

/-- Formulas have to do with each other only through the cells that they share. -/
structure SharesCellsOnly (history : List Action) (s : Session) : Prop where
  /-- What sets no variable changes no cell that is there. -/
  unset : ∀ a, s.Allows a → a.setting? = none →
    ∀ w, w.cell < s.store.size → (s.perform a).store.read w = s.store.read w
  /-- Setting a variable changes its cell, which is there, and no other. -/
  set : ∀ a v value, s.Allows a → a.setting? = some (v, value) →
    v.cell < s.store.size ∧ (s.perform a).store.size = s.store.size ∧
      ∀ w, (s.perform a).store.read w = if w.cell = v.cell then value else s.store.read w
  /-- A cell holds what was last set on it, or its initial value. -/
  lastSet : ∀ v, v.cell < s.store.size → ∃ initial, (initialValues history)[v.cell]? = some initial ∧
    s.store.read v = (lastSet? v.cell history).getD initial
  /-- The value of a formula depends on its cells, and on the moment only if it is random. -/
  agreement : ∀ f ∈ s.formulas, ∀ store store' m m', m = m' ∨ f.WithoutRandom →
    (∀ v, f.root.containsVariable v = true → store.read v = store'.read v) →
      f.eval store m = f.eval store' m'
  /-- What was discovered in a formula is neither the caller's nor in another formula, so setting it
  changes the value of no other formula. -/
  discovered : ∀ before f after, s.formulas = before ++ f :: after → f.mode = .autoDetect →
    ∀ v ∈ f.inputs, (∀ w ∈ s.created, w.cell ≠ v.cell) ∧
      ∀ g ∈ before ++ after, g.root.containsVariable v = false ∧
        ∀ a value m, a.setting? = some (v, value) → g.eval (s.perform a).store m = g.eval s.store m
  /-- Formulas in fixed mode over the same variables, which are the caller's own, find the same ones
  under each name; and each formula sees what is set on one of them wherever it means this one. -/
  offered : ∀ f ∈ s.formulas, ∀ g ∈ s.formulas, f.mode = .fixed → g.mode = .fixed →
    f.inputs = g.inputs → (∀ name, f.variableOf? name = g.variableOf? name) ∧
      ∀ v ∈ f.inputs, v ∈ s.created ∧
        ∀ a value m, a.setting? = some (v, value) → g.eval (s.perform a).store m =
          g.root.eval (fun w => if g.variableOf? w.name = some v then value else s.store.read w) m

variable {history : List Action} {s : Session} {a : Action} {v : Variable} {value : Value}

theorem Reaches.lt_size (hreaches : s.Reaches v) (h : s.Apart) : v.cell < s.store.size := by
  rcases hreaches with hcreated | ⟨f, hf, name, hname⟩
  · exact h.inStore v hcreated
  · exact h.handlesInStore f hf v (List.mem_append_right _ (List.mem_of_find?_eq_some hname))

theorem reaches_of_setting (hallowed : s.Allows a) (hset : a.setting? = some (v, value)) :
    s.Reaches v := by
  cases a with
  | set | setNumber =>
      obtain ⟨rfl, -⟩ := Prod.mk.inj (Option.some.inj hset)
      exact hallowed
  | create | compile | eval => cases hset

/-- An action that sets a variable writes its cell. -/
theorem store_of_setting (s : Session) (hset : a.setting? = some (v, value)) :
    (s.perform a).store = s.store.write v value := by
  rw [store_perform, hset]

/-- Any other action at most adds cells at the end of the store. -/
theorem store_of_no_setting (s : Session) (hset : a.setting? = none) :
    (s.perform a).store = s.store.extend a.added := by
  rw [store_perform, hset]

/-! ### The last value set -/

theorem Reached.size_eq (h : Reached history s) :
    s.store.size = (initialValues history).length := by
  induction h with
  | start => rfl
  | step _ _ ih => rw [size_perform, ih, initialValues, List.length_append]

/-- Nothing was set on a cell that is not there yet. -/
theorem Reached.lastSet?_eq_none (h : Reached history s) {cell : Nat}
    (hcell : s.store.size ≤ cell) : lastSet? cell history = none := by
  induction h with
  | start => rfl
  | @step history s a h hallowed ih =>
      have hold := ih (Nat.le_trans (size_le_perform s a) hcell)
      unfold lastSet?
      split
      · next v value hset =>
        have hlt := (reaches_of_setting hallowed hset).lt_size h.apart
        have hle := Nat.le_trans (size_le_perform s a) hcell
        rw [if_neg (by omega), hold]
      · exact hold

/-- A cell has the value that was last set on it, or else its initial value. The induction is on the
history of the session. -/
theorem Reached.read_eq (h : Reached history s) {initial : Value}
    (hinitial : (initialValues history)[v.cell]? = some initial) :
    s.store.read v = (lastSet? v.cell history).getD initial := by
  induction h with
  | start => cases hinitial
  | @step history s a h hallowed ih =>
      unfold lastSet?
      unfold initialValues at hinitial
      split
      · next u value hset =>
        rw [added_of_setting hset, List.append_nil] at hinitial
        rw [store_of_setting s hset,
          Store.read_write ((reaches_of_setting hallowed hset).lt_size h.apart)]
        split
        · rfl
        · exact ih hinitial
      · next hset =>
        rw [store_of_no_setting s hset]
        by_cases hlt : v.cell < s.store.size
        · rw [Store.read_extend_of_lt hlt]
          rw [List.getElem?_append_left (h.size_eq ▸ hlt)] at hinitial
          exact ih hinitial
        · -- The cell is one of those that are added, so nothing has been set on it.
          have hle : s.store.size ≤ v.cell := Nat.le_of_not_lt hlt
          rw [List.getElem?_append_right (h.size_eq ▸ hle), ← h.size_eq] at hinitial
          have hread := @Store.read_extend_new s.store a.added v.name _ initial hinitial
          rw [Nat.add_sub_cancel' hle] at hread
          rw [h.lastSet?_eq_none hle]
          exact hread

/-! ### Cells in common -/

/-- What two formulas of a session have in common is a caller's. -/
theorem Apart.exists_created (h : s.Apart) {before after : List Formula} {f g : Formula}
    (hformulas : s.formulas = before ++ f :: after) (hg : g ∈ before ++ after) {w : Variable}
    (hv : v ∈ f.handles) (hw : w ∈ g.handles) (hcell : w.cell = v.cell) :
    ∃ u ∈ s.created, u.cell = v.cell := by
  have hshared := h.shared
  rw [hformulas, List.pairwise_append, List.pairwise_cons] at hshared
  obtain ⟨-, ⟨hafter, -⟩, hbefore⟩ := hshared
  rcases List.mem_append.mp hg with hg | hg
  · exact ⟨w, hbefore g hg f List.mem_cons_self w hw v hv hcell, hcell⟩
  · exact ⟨v, hafter g hg v hv w hw hcell.symm, rfl⟩

/-- What a formula discovered is no variable of the caller's. -/
theorem Apart.not_created (h : s.Apart) {f : Formula} (hf : f ∈ s.formulas)
    (hmode : f.mode = .autoDetect) (hv : v ∈ f.handles) : ∀ w ∈ s.created, w.cell ≠ v.cell := by
  rcases h.owner f hf v hv with ⟨hfixed, -⟩ | hprivate
  · rw [hmode] at hfixed
    cases hfixed
  · exact hprivate

/-- A leaf of a formula in fixed mode is a variable of the caller's exactly if the formula finds this
variable under the name of the leaf. -/
theorem Apart.cell_eq_iff (h : s.Apart) {g : Formula} (hg : g ∈ s.formulas) (hmode : g.mode = .fixed)
    (hcreated : v ∈ s.created) {w : Variable} (hw : w ∈ g.root.vars) :
    w.cell = v.cell ↔ g.variableOf? w.name = some v := by
  constructor
  · intro hcell
    rcases h.leaf g hg w hw with hfound | hprivate
    · have hw := h.inputs g hg hmode w (List.mem_of_find?_eq_some hfound)
      rwa [h.unique w hw v hcreated hcell] at hfound ⊢
    · exact absurd hcell.symm (hprivate v hcreated)
  · intro hfound
    rw [(h.compiled g hg).eq_of_variableOf? (Expr.hasLeaf_of_mem_vars hw) hfound]

/-- Whatever a caller does in a session, its formulas share nothing but cells. -/
theorem formulas_share_cells_only (h : Reached history s) : SharesCellsOnly history s := by
  have hapart := h.apart
  constructor
  · intro a hallowed hset w hw
    rw [store_of_no_setting s hset, Store.read_extend_of_lt hw]
  · intro a v value hallowed hset
    have hlt := (reaches_of_setting hallowed hset).lt_size hapart
    refine ⟨hlt, ?_, fun w => ?_⟩
    · rw [store_of_setting s hset, Store.size_write]
    · rw [store_of_setting s hset, Store.read_write hlt]
  · intro v hv
    rw [h.size_eq] at hv
    exact ⟨_, List.getElem?_eq_getElem hv, h.read_eq (List.getElem?_eq_getElem hv)⟩
  · intro f hf store store' m m' hmoment hread
    refine Formula.eval_congr ?_ hread
    rcases hmoment with rfl | hwithout
    · exact .refl m _
    · exact .of_steady (fun call hcall => ⟨hwithout.steady hcall,
        (hapart.compiled f hf).accepts hcall⟩) m m'
  · intro before f after hformulas hmode v hv
    have hf : f ∈ s.formulas := by simp [hformulas]
    have hhandle : v ∈ f.handles := List.mem_append_right _ hv
    have hcreated := hapart.not_created hf hmode hhandle
    refine ⟨hcreated, fun g hg => ?_⟩
    have hcontains : g.root.containsVariable v = false := by
      rw [← Bool.not_eq_true, Expr.containsVariable_iff]
      rintro ⟨w, hw, hcell⟩
      obtain ⟨u, hu, hcell⟩ :=
        hapart.exists_created hformulas hg hhandle (List.mem_append_left _ hw.mem_vars) hcell
      exact hcreated u hu hcell
    refine ⟨hcontains, fun a value m hset => ?_⟩
    rw [store_of_setting s hset, Formula.eval_write_of_not_contains hcontains]
  · intro f hf g hg hfixed hfixed' hinputs
    refine ⟨fun name => by rw [Formula.variableOf?, hinputs, ← Formula.variableOf?], fun v hv => ?_⟩
    have hcreated := hapart.inputs f hf hfixed v hv
    refine ⟨hcreated, fun a value m hset => ?_⟩
    rw [store_of_setting s hset]
    refine Expr.eval_congr (.refl m _) fun w hw => ?_
    rw [Store.read_write (hapart.inStore v hcreated)]
    simp only [hapart.cell_eq_iff hg hfixed' hcreated hw]

/-- What is set through one of two formulas over a variable of the caller's is what the other one
evaluates to. -/
theorem formulas_share_cells_only_level :
    ∃ history s f g v, Reached history s ∧ s.formulas = [g, f] ∧ f.variableOf? "level" = some v ∧
      ∀ value m, g.eval (s.perform (.set v value)).store m = .ok value := by
  let level : Variable := ⟨"level", 0⟩
  let f : Formula := ⟨"level", .var level, [level], .fixed⟩
  let creating : Action := .create "level" (.number ⟨0, 0⟩ 1.0)
  let compiling : Action := .compile .builtinsOnly ⟨0, 0⟩ .fixed [level] "level"
  have htree : Parser.parse (Formula.scope .builtinsOnly ⟨0, 0⟩ .fixed [level]) "level" =
      .ok (.var "level") :=
    Grammar.parse_of_sentence (Grammar.sentence_of_name rfl ⟨'l', rfl, rfl⟩ rfl)
  have hperform (s : Session) : (s.perform compiling).formulas = f :: s.formulas ∧
      (s.perform compiling).created = s.created := by
    simp only [perform, compiling, Formula.compile_of_parse htree]
    exact ⟨rfl, rfl⟩
  let s : Session := ((start.perform creating).perform compiling).perform compiling
  have hreached : Reached [compiling, compiling, creating] s := by
    refine .step (.step (.step .start trivial) fun _ v hv => hv) fun _ v hv => ?_
    rw [(hperform _).2]
    exact hv
  have hformulas : s.formulas = [f, f] := by
    rw [(hperform _).1, (hperform _).1]
    rfl
  have hf : f ∈ s.formulas := by simp [hformulas]
  obtain ⟨-, hsees⟩ := (formulas_share_cells_only hreached).offered f hf f hf rfl rfl rfl
  refine ⟨_, s, f, f, level, hreached, hformulas, rfl, fun value m => ?_⟩
  rw [(hsees level List.mem_cons_self).2 _ value m rfl]
  rfl

end Session

end ProcessFormula
