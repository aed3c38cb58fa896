import ProcessFormula.Proofs.Formula.Agreement
import ProcessFormula.Proofs.Formula.Discovery

/-!
Sessions: what a caller does with variables and formulas, one action after the other. It creates
variables, compiles formulas, sets variables through the handles that it has, and evaluates formulas.
The invariant says who knows a cell. A caller's variable has a cell of its own, and so has every
variable that a compilation adds; two formulas have a cell in common only if it is a caller's.
-/

namespace ProcessFormula

inductive Action where
  | create (name : String) (value : Value)
  | compile (registry : Registry) (now : Timestamp) (mode : BindingMode) (offered : List Variable)
      (text : String)
  | set (v : Variable) (value : Value)
  | setNumber (v : Variable) (now : Timestamp) (x : Float)
  | eval (f : Formula) (m : Moments)

def Action.setting? : Action → Option (Variable × Value)
  | .set v value => some (v, value)
  | .setNumber v now x => some (v, .number now x)
  | .create _ _ | .compile _ _ _ _ _ | .eval _ _ => none

/-- The initial values of the cells that a tree needs; a text that is refused needs none. -/
def Formula.newValues (now : Timestamp) (mode : BindingMode) (offered : List Variable) :
    Except CompileError (Expr String) → List Value
  | .ok tree => (freeNames (callers mode offered) tree.vars).map (initialValue now)
  | .error _ => []

def Action.added : Action → List Value
  | .create _ value => [value]
  | .compile registry now mode offered text =>
    Formula.newValues now mode offered
      (Parser.parse (Formula.scope registry now mode offered) text)
  | .set _ _ | .setNumber _ _ _ | .eval _ _ => []

/-- The cells, the variables that the caller has created and the formulas that it has compiled, the
latest first. -/
structure Session where
  store : Store
  created : List Variable
  formulas : List Formula

namespace Session

def start : Session := ⟨.empty, [], []⟩

/-- Keeps a formula that was compiled. A text that was refused leaves everything as it is. -/
def keep (s : Session) : Except CompileError (Formula × Store) → Session
  | .ok (f, store) => { s with store, formulas := f :: s.formulas }
  | .error _ => s

def perform (s : Session) : Action → Session
  | .create name value =>
    let (v, store) := s.store.create name value
    { s with store, created := v :: s.created }
  | .compile registry now mode offered text =>
    s.keep (Formula.compile registry now mode offered text s.store)
  | .set v value => { s with store := s.store.write v value }
  | .setNumber v now x => { s with store := s.store.write v (.number now x) }
  | .eval _ _ => s

/-- The variables that the caller can set: those it has created, and those that a formula finds by
name. -/
def Reaches (s : Session) (v : Variable) : Prop :=
  v ∈ s.created ∨ ∃ f ∈ s.formulas, ∃ name, f.variableOf? name = some v

/-- What the caller may do. It offers a compilation in fixed mode only variables that it has created
itself. -/
def Allows (s : Session) : Action → Prop
  | .create _ _ => True
  | .compile _ _ mode offered _ => mode = .fixed → ∀ v ∈ offered, v ∈ s.created
  | .set v _ | .setNumber v _ _ => s.Reaches v
  | .eval f _ => f ∈ s.formulas

/-- A session that some actions lead to, the latest of them first. -/
inductive Reached : List Action → Session → Prop
  | start : Reached [] start
  | step {history : List Action} {s : Session} {a : Action} (h : Reached history s)
      (hallowed : s.Allows a) : Reached (a :: history) (s.perform a)

/-! ### Cells -/

section

variable {s : Session} {a : Action}

/-- All that an action does to the store. -/
theorem store_perform (s : Session) (a : Action) :
    (s.perform a).store =
      match a.setting? with
      | some (v, value) => s.store.write v value
      | none => s.store.extend a.added := by
  cases a with
  | create name value => rfl
  | compile registry now mode offered text =>
      simp only [perform, Action.setting?, Action.added, Formula.compile_eq_map]
      cases Parser.parse (Formula.scope registry now mode offered) text with
      | ok tree => rfl
      | error e => simp [Except.map, keep, Formula.newValues, Store.extend]
  | set v value => rfl
  | setNumber v now x => rfl
  | eval f m => simp [perform, Action.setting?, Action.added, Store.extend]

theorem added_of_setting {v : Variable} {value : Value} (h : a.setting? = some (v, value)) :
    a.added = [] := by
  cases a with
  | set | setNumber => rfl
  | create | compile | eval => cases h

theorem size_perform (s : Session) (a : Action) :
    (s.perform a).store.size = s.store.size + a.added.length := by
  rw [store_perform]
  cases h : a.setting? with
  | none => exact Store.size_extend ..
  | some setting => simp [added_of_setting h]

/-- Cells are never taken away. -/
theorem size_le_perform (s : Session) (a : Action) :
    s.store.size ≤ (s.perform a).store.size := by
  rw [size_perform]
  exact Nat.le_add_right ..

end

end Session

/-! ### Owners -/

namespace Formula

/-- The variables of a formula: those of its leaves, and those that it lists. -/
def handles (f : Formula) : List Variable := f.root.vars ++ f.inputs

/-- The formula was compiled, from whatever text over whatever store. -/
def Compiled (f : Formula) : Prop :=
  ∃ registry now mode offered text store store',
    compile registry now mode offered text store = .ok (f, store')

section

variable {now : Timestamp} {mode : BindingMode} {offered : List Variable} {text : String}
  {store : Store} {tree : Expr String}

/-- A variable of a tree is the caller's, or its cell is a new one. -/
theorem binding_callers_or_new {name : String} (hname : name ∈ tree.vars) :
    binding mode offered store tree name ∈ callers mode offered ∨
      store.size ≤ (binding mode offered store tree name).cell ∧
        (binding mode offered store tree name).cell <
          (compiled now mode offered text store tree).2.size := by
  rcases binding_held_or_new (fun _ hv => hv) hname with h | ⟨n, hfree, heq⟩
  · exact .inl h
  · have hlt := List.idxOf_lt_length_of_mem hfree
    refine .inr ?_
    simp only [heq, compiled, Store.size_extend, List.length_map]
    omega

end

/-- What a compilation over a store yields: the variables of the formula are the caller's, in fixed
mode, or have new cells. -/
structure BoundOver (mode : BindingMode) (offered : List Variable) (store : Store) (f : Formula)
    (store' : Store) : Prop where
  mode_eq : f.mode = mode
  grows : store.size ≤ store'.size
  inputs : mode = .fixed → f.inputs = offered
  leaf : ∀ w ∈ f.root.vars, f.variableOf? w.name = some w ∨ store.size ≤ w.cell
  handles : ∀ v ∈ f.handles,
    mode = .fixed ∧ v ∈ offered ∨ store.size ≤ v.cell ∧ v.cell < store'.size

/-- The cells that a compilation adds are the last ones of its store. -/
theorem boundOver_of_compile {registry : Registry} {now : Timestamp} {mode : BindingMode}
    {offered : List Variable} {text : String} {store store' : Store} {f : Formula}
    (h : compile registry now mode offered text store = .ok (f, store')) :
    BoundOver mode offered store f store' := by
  obtain ⟨tree, htree, hresult⟩ := compile_eq_ok_iff.mp h
  obtain rfl := congrArg Prod.fst hresult
  obtain rfl := congrArg Prod.snd hresult
  constructor
  · rfl
  · simp [compiled]
  · rintro rfl
    have hnobody : store.Handles [] := ⟨by simp, by simp⟩
    exact (bindsOffered hnobody (Grammar.sentence_of_parse htree).knows).inputs
  · intro w hw
    obtain ⟨hname, hbinding⟩ := binding_of_hasLeaf (Expr.hasLeaf_of_mem_vars hw)
    rcases binding_cases mode offered store hname with hcallers | ⟨-, -, hnew⟩
    · rw [hbinding] at hcallers
      exact .inl (by rw [variableOf?, compiled, List.find?_append, hcallers, Option.some_or])
    · rw [hbinding] at hnew
      exact .inr (by rw [hnew]; exact Nat.le_add_right ..)
  · intro v hv
    rw [← mem_callers_iff]
    simp only [Formula.handles, compiled, Expr.vars_map, List.mem_append, List.mem_map] at hv
    rcases hv with ⟨name, hname, rfl⟩ | hv | ⟨name, hname, rfl⟩
    · exact binding_callers_or_new hname
    · exact .inl hv
    · exact binding_callers_or_new (mem_freeNames.mp (List.mem_of_mem_filter hname)).1

namespace Compiled

variable {f : Formula}

/-- Every call has a number of arguments that its function takes. -/
theorem accepts (h : f.Compiled) {call : Callable × Nat} (hcall : call ∈ f.root.calls) :
    call.1.arity.accepts call.2 = true := by
  obtain ⟨_, _, _, _, _, _, _, hcompile⟩ := h
  exact (resolve_of_mem_calls hcompile hcall).2

/-- A leaf is the variable that the formula finds under its name. -/
theorem eq_of_variableOf? (h : f.Compiled) {v w : Variable} (hleaf : Expr.HasLeaf w f.root)
    (hv : f.variableOf? w.name = some v) : w = v := by
  obtain ⟨_, _, _, _, _, _, _, hcompile⟩ := h
  obtain ⟨tree, -, hresult⟩ := compile_eq_ok_iff.mp hcompile
  obtain rfl := congrArg Prod.fst hresult
  rw [← (binding_of_hasLeaf hleaf).2, eq_binding_of_variableOf? hv]

end Compiled

end Formula

namespace Session

/-- Who knows which cell. -/
structure Apart (s : Session) : Prop where
  inStore : ∀ v ∈ s.created, v.cell < s.store.size
  unique : ∀ v ∈ s.created, ∀ w ∈ s.created, v.cell = w.cell → v = w
  compiled : ∀ f ∈ s.formulas, f.Compiled
  handlesInStore : ∀ f ∈ s.formulas, ∀ v ∈ f.handles, v.cell < s.store.size
  /-- A formula in fixed mode lists variables of the caller's. -/
  inputs : ∀ f ∈ s.formulas, f.mode = .fixed → ∀ v ∈ f.inputs, v ∈ s.created
  /-- A leaf is what the formula finds under its name, or a cell of the formula's own. -/
  leaf : ∀ f ∈ s.formulas, ∀ w ∈ f.root.vars,
    f.variableOf? w.name = some w ∨ ∀ u ∈ s.created, u.cell ≠ w.cell
  /-- Only in fixed mode does a formula know variables of the caller's. -/
  owner : ∀ f ∈ s.formulas, ∀ v ∈ f.handles,
    f.mode = .fixed ∧ v ∈ s.created ∨ ∀ w ∈ s.created, w.cell ≠ v.cell
  /-- Two formulas have nothing but the caller's variables in common. -/
  shared : s.formulas.Pairwise fun f g =>
    ∀ v ∈ f.handles, ∀ w ∈ g.handles, v.cell = w.cell → v ∈ s.created

namespace Apart

variable {s : Session}

/-- Writing a cell changes nobody's variables. -/
theorem write (h : s.Apart) (v : Variable) (value : Value) :
    { s with store := s.store.write v value : Session }.Apart where
  __ := h
  inStore := by simpa using h.inStore
  handlesInStore := by simpa using h.handlesInStore

/-- A variable that is created has none of the cells that are there. -/
theorem create_ne (name : String) (value : Value) {v : Variable} (hv : v.cell < s.store.size)
    (hprivate : ∀ w ∈ s.created, w.cell ≠ v.cell) :
    ∀ w ∈ (s.perform (.create name value)).created, w.cell ≠ v.cell :=
  List.forall_mem_cons.mpr ⟨Nat.ne_of_gt hv, hprivate⟩

/-- A variable that the caller creates has a cell of its own. -/
theorem create (h : s.Apart) (name : String) (value : Value) :
    (s.perform (.create name value)).Apart where
  compiled := h.compiled
  inStore v hv := by
    have hsize : (s.perform (.create name value)).store.size = s.store.size + 1 := size_perform ..
    rw [hsize]
    rcases List.mem_cons.mp hv with rfl | hv
    · exact Nat.lt_succ_self _
    · exact Nat.lt_succ_of_lt (h.inStore v hv)
  unique v hv w hw hcell := by
    rcases List.mem_cons.mp hv with rfl | hv
    · rcases List.mem_cons.mp hw with rfl | hw
      · rfl
      · exact absurd hcell (Nat.ne_of_gt (h.inStore w hw))
    · rcases List.mem_cons.mp hw with rfl | hw
      · exact absurd hcell (Nat.ne_of_lt (h.inStore v hv))
      · exact h.unique v hv w hw hcell
  handlesInStore f hf v hv :=
    Nat.lt_of_lt_of_le (h.handlesInStore f hf v hv) (size_le_perform s (.create name value))
  inputs f hf hmode v hv := List.mem_cons_of_mem _ (h.inputs f hf hmode v hv)
  leaf f hf w hw := (h.leaf f hf w hw).imp_right
    (create_ne name value (h.handlesInStore f hf w (List.mem_append_left _ hw)))
  owner f hf v hv := by
    rcases h.owner f hf v hv with ⟨hmode, hcreated⟩ | hprivate
    · exact .inl ⟨hmode, List.mem_cons_of_mem _ hcreated⟩
    · exact .inr (create_ne name value (h.handlesInStore f hf v hv) hprivate)
  shared := h.shared.imp fun hshared v hv w hw hcell =>
    List.mem_cons_of_mem _ (hshared v hv w hw hcell)

/-- A compiled formula knows the variables that it was offered and new cells. -/
theorem compile (h : s.Apart) {registry : Registry} {now : Timestamp} {mode : BindingMode}
    {offered : List Variable} {text : String} {f : Formula} {store : Store}
    (hoffered : mode = .fixed → ∀ v ∈ offered, v ∈ s.created)
    (hcompile : Formula.compile registry now mode offered text s.store = .ok (f, store)) :
    { s with store, formulas := f :: s.formulas : Session }.Apart := by
  have hbound := Formula.boundOver_of_compile hcompile
  have hhandles : ∀ v ∈ f.handles, mode = .fixed ∧ v ∈ s.created ∨
      s.store.size ≤ v.cell ∧ v.cell < store.size :=
    fun v hv => (hbound.handles v hv).imp_left fun hcallers =>
      ⟨hcallers.1, hoffered hcallers.1 v hcallers.2⟩
  have hnew {v : Variable} (hle : s.store.size ≤ v.cell) : ∀ u ∈ s.created, u.cell ≠ v.cell :=
    fun u hu => Nat.ne_of_lt (Nat.lt_of_lt_of_le (h.inStore u hu) hle)
  constructor
  · exact fun v hv => Nat.lt_of_lt_of_le (h.inStore v hv) hbound.grows
  · exact h.unique
  · exact List.forall_mem_cons.mpr ⟨⟨_, _, _, _, _, _, _, hcompile⟩, h.compiled⟩
  · refine List.forall_mem_cons.mpr ⟨fun v hv => ?_, fun g hg v hv => ?_⟩
    · rcases hhandles v hv with ⟨-, hcreated⟩ | ⟨-, hlt⟩
      · exact Nat.lt_of_lt_of_le (h.inStore v hcreated) hbound.grows
      · exact hlt
    · exact Nat.lt_of_lt_of_le (h.handlesInStore g hg v hv) hbound.grows
  · refine List.forall_mem_cons.mpr ⟨fun hfixed v hv => ?_, h.inputs⟩
    have hmode : mode = .fixed := hbound.mode_eq.symm.trans hfixed
    exact hoffered hmode v (hbound.inputs hmode ▸ hv)
  · exact List.forall_mem_cons.mpr ⟨fun w hw => (hbound.leaf w hw).imp_right hnew, h.leaf⟩
  · refine List.forall_mem_cons.mpr ⟨fun v hv => ?_, h.owner⟩
    rcases hhandles v hv with ⟨hfixed, hcreated⟩ | ⟨hle, -⟩
    · exact .inl ⟨hbound.mode_eq.trans hfixed, hcreated⟩
    · exact .inr (hnew hle)
  · refine List.pairwise_cons.mpr ⟨fun g hg v hv w hw hcell => ?_, h.shared⟩
    rcases hhandles v hv with ⟨-, hcreated⟩ | ⟨hnew, -⟩
    · exact hcreated
    · exact absurd hcell (Nat.ne_of_gt (Nat.lt_of_lt_of_le (h.handlesInStore g hg w hw) hnew))

/-- Every action that is allowed keeps the cells apart. -/
theorem perform (h : s.Apart) {a : Action} (hallowed : s.Allows a) : (s.perform a).Apart := by
  cases a with
  | create name value => exact h.create name value
  | compile registry now mode offered text =>
      cases hcompile : Formula.compile registry now mode offered text s.store with
      | ok result =>
          rw [Session.perform, hcompile]
          exact h.compile hallowed hcompile
      | error e =>
          rw [Session.perform, hcompile]
          exact h
  | set v value => exact h.write v value
  | setNumber v now x => exact h.write v (.number now x)
  | eval f m => exact h

end Apart

/-- In every session that actions lead to, each cell is known to those only who share it. The
induction is on the actions. -/
theorem Reached.apart {history : List Action} {s : Session} (h : Reached history s) : s.Apart := by
  induction h with
  | start =>
      constructor
      case shared => exact .nil
      all_goals
        intro x hx
        cases hx
  | step _ hallowed ih => exact ih.perform hallowed

end Session

end ProcessFormula
