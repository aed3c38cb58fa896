import ProcessFormula.Proofs.Formula.Binding

/-!
The variables that a program holds. It gets them by creating variables and by compiling formulas,
and offers them to the compiler again; so a cell has one name, whoever knows it, and a cell that is
added is one that nobody held before.
-/

namespace ProcessFormula

/-- A program that has done nothing but create, write and compile may hold these variables over this
store. -/
inductive Held : Store → List Variable → Prop
  | start : Held .empty []
  | create {store : Store} {held : List Variable} (h : Held store held) (name : String)
      (value : Value) : Held (store.create name value).2 ((store.create name value).1 :: held)
  | write {store : Store} {held : List Variable} (h : Held store held) (v : Variable)
      (value : Value) : Held (store.write v value) held
  | compile {store store' : Store} {held offered : List Variable} {registry : Registry}
      {now : Timestamp} {mode : BindingMode} {text : String} {f : Formula} (h : Held store held)
      (hoffered : ∀ v ∈ offered, v ∈ held)
      (hcompile : Formula.compile registry now mode offered text store = .ok (f, store')) :
      Held store' (f.root.vars ++ (f.inputs ++ held))

/-- The variables are cells of the store, and those of one cell have one name. -/
structure Store.Handles (store : Store) (held : List Variable) : Prop where
  inStore : ∀ v ∈ held, v.cell < store.size
  oneName : ∀ v ∈ held, ∀ w ∈ held, v.cell = w.cell → v.name = w.name

/-- Cells may be added, each for one name. -/
theorem Store.Handles.extend {store : Store} {held held' : List Variable} {values : List Value}
    (h : store.Handles held) (free : List String) (hlength : values.length = free.length)
    (hnew : ∀ v ∈ held', v ∈ held ∨
      ∃ name ∈ free, v = ⟨name, store.size + free.idxOf name⟩) :
    (store.extend values).Handles held' := by
  constructor
  · intro v hv
    rw [Store.size_extend, hlength]
    rcases hnew v hv with hv | ⟨name, hname, rfl⟩
    · exact Nat.lt_of_lt_of_le (h.inStore v hv) (Nat.le_add_right _ _)
    · have := List.idxOf_lt_length_of_mem hname
      dsimp only
      omega
  · intro v hv w hw hcell
    rcases hnew v hv with hv | ⟨name, hname, rfl⟩
    · have hold := h.inStore v hv
      rcases hnew w hw with hw | ⟨name, hname, rfl⟩
      · exact h.oneName v hv w hw hcell
      · dsimp only at hcell
        omega
    · rcases hnew w hw with hw | ⟨name', hname', rfl⟩
      · have hold := h.inStore w hw
        dsimp only at hcell
        omega
      · exact (List.idxOf_inj hname).mp (Nat.add_left_cancel hcell)

namespace Formula

variable {now : Timestamp} {mode : BindingMode} {offered held : List Variable} {text : String}
  {store : Store} {tree : Expr String}

/-- What the caller offers counts in fixed mode only. -/
theorem mem_callers_iff {v : Variable} :
    v ∈ callers mode offered ↔ mode = .fixed ∧ v ∈ offered := by
  unfold callers
  split
  · next hmode => simp [hmode]
  · next hmode => simp [hmode]

/-- Whatever a formula is bound to is the caller's or a new cell. -/
theorem binding_held_or_new (hcallers : ∀ v ∈ callers mode offered, v ∈ held) {name : String}
    (hname : name ∈ tree.vars) :
    binding mode offered store tree name ∈ held ∨
      ∃ n ∈ freeNames (callers mode offered) tree.vars, binding mode offered store tree name =
        ⟨n, store.size + (freeNames (callers mode offered) tree.vars).idxOf n⟩ := by
  rcases binding_cases mode offered store hname with h | ⟨-, hfree, hnew⟩
  · exact Or.inl (hcallers _ (List.mem_of_find?_eq_some h))
  · exact Or.inr ⟨name, hfree, hnew⟩

/-- The variables of a formula are handles along with those that were held before. -/
theorem handles_compiled (now : Timestamp) (mode : BindingMode) (text : String)
    (tree : Expr String) (h : store.Handles held) (hoffered : ∀ v ∈ offered, v ∈ held) :
    (compiled now mode offered text store tree).2.Handles
      ((compiled now mode offered text store tree).1.root.vars ++
        ((compiled now mode offered text store tree).1.inputs ++ held)) := by
  have hcallers : ∀ v ∈ callers mode offered, v ∈ held :=
    fun v hv => hoffered v (mem_callers_iff.mp hv).2
  refine h.extend _ (List.length_map ..) fun v hv => ?_
  simp only [compiled, Expr.vars_map, List.mem_append, List.mem_map] at hv
  rcases hv with ⟨name, hname, rfl⟩ | (hv | ⟨name, hname, rfl⟩) | hv
  · exact binding_held_or_new hcallers hname
  · exact Or.inl (hcallers v hv)
  · exact binding_held_or_new hcallers (mem_freeNames.mp (List.mem_of_mem_filter hname)).1
  · exact Or.inl hv

end Formula

/-- All variables that a program holds are handles. -/
theorem Held.handles {store : Store} {held : List Variable} (h : Held store held) :
    store.Handles held := by
  induction h with
  | start => exact ⟨by simp, by simp⟩
  | @create store held _ name value ih =>
      refine ih.extend [name] rfl fun v hv => ?_
      rcases List.mem_cons.mp hv with rfl | hv
      · exact Or.inr ⟨name, by simp, by simp [Store.create]⟩
      · exact Or.inl hv
  | write _ v value ih => exact ⟨by simpa using ih.inStore, ih.oneName⟩
  | compile _ hoffered hcompile ih =>
      obtain ⟨tree, -, hresult⟩ := Formula.compile_eq_ok_iff.mp hcompile
      obtain ⟨rfl, rfl⟩ := Prod.mk.inj hresult
      exact Formula.handles_compiled _ _ _ _ ih hoffered

end ProcessFormula
