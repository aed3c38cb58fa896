import Mathlib.Data.List.Nodup
import ProcessFormula.Function.Registry

/-!
What a registry finds after any number of registrations. The plug-ins have names of their own, each
with the last function that was registered under it; the functions of this library have names that
no other of them and no built-in function has. So the listing holds, for every name that occurs in
it, the one function that the name calls.
-/

namespace ProcessFormula.Registry

variable {r : Registry} {f : Callable} {fs : List Callable} {name : String}

def registerAll (r : Registry) (fs : List Callable) : Registry :=
  fs.foldl (fun r f => (r.register f).2) r

/-- Those of the functions that are accepted when they are registered one by one. -/
def accepted : Registry → List Callable → List Callable
  | _, [] => []
  | r, f :: rest =>
    let more := accepted (r.register f).2 rest
    if (r.register f).1 then f :: more else more

def lastNamed? (name : String) (fs : List Callable) : Option Callable :=
  fs.reverse.find? fun f => f.name == name

theorem lastNamed?_cons :
    lastNamed? name (f :: fs) =
      (lastNamed? name fs).or (if f.name = name then some f else none) := by
  simp [lastNamed?, List.find?_append, List.find?_singleton]

/-- The last of a name is the one that no other of this name follows. -/
theorem lastNamed?_eq_some_iff :
    lastNamed? name fs = some f ↔
      f.name = name ∧ ∃ before after, fs = before ++ f :: after ∧ ∀ g ∈ after, g.name ≠ name := by
  unfold lastNamed?
  rw [List.find?_eq_some_iff_append, beq_iff_eq]
  refine and_congr_right fun _ => ⟨?_, ?_⟩
  · rintro ⟨after, before, hfs, hafter⟩
    refine ⟨before.reverse, after.reverse, ?_, by simpa using hafter⟩
    rw [← List.reverse_reverse fs, hfs]
    simp
  · rintro ⟨before, after, rfl, hafter⟩
    exact ⟨after.reverse, before.reverse, by simp, by simpa using hafter⟩

theorem lastNamed?_append {gs : List Callable} :
    lastNamed? name (fs ++ gs) = (lastNamed? name gs).or (lastNamed? name fs) := by
  simp [lastNamed?, List.find?_append]

theorem lastNamed?_eq_none_iff : lastNamed? name fs = none ↔ ∀ g ∈ fs, g.name ≠ name := by
  simp [lastNamed?]

/-- Where every function has a key of its own, each is found under its key. -/
theorem find?_key_eq_some_iff {κ : Type} [BEq κ] [LawfulBEq κ] (key : Callable → κ) (k : κ)
    (hnodup : (fs.map key).Nodup) :
    (fs.find? fun g => key g == k) = some f ↔ f ∈ fs ∧ key f = k := by
  induction fs with
  | nil => simp
  | cons g rest ih =>
      obtain ⟨hfresh, hrest⟩ := List.nodup_cons.mp hnodup
      have hother : f ∈ rest → key f ≠ key g := fun hf h => hfresh (h ▸ List.mem_map_of_mem hf)
      rw [List.find?_cons]
      by_cases hkey : key g = k
      · subst hkey
        simp only [beq_self_eq_true, Option.some.injEq, List.mem_cons]
        refine ⟨fun h => ⟨Or.inl h.symm, h ▸ rfl⟩, ?_⟩
        rintro ⟨rfl | hf, h⟩
        · rfl
        · exact absurd h (hother hf)
      · rw [beq_eq_false_iff_ne.mpr hkey]
        refine (ih hrest).trans (and_congr_left fun h => ?_)
        simp only [List.mem_cons, iff_or_self]
        rintro rfl
        exact absurd h hkey

/-- Where every function has a name of its own, the last of a name is the only one. -/
theorem lastNamed?_of_nodup (hnodup : (fs.map Callable.name).Nodup) :
    lastNamed? name fs = some f ↔ f ∈ fs ∧ f.name = name := by
  rw [← List.nodup_reverse, ← List.map_reverse] at hnodup
  exact (find?_key_eq_some_iff Callable.name name hnodup).trans
    (and_congr_left fun _ => List.mem_reverse)

/-! ### Registration -/

/-- An inserted function is found under its name, and under the other names what was there before.
-/
theorem find?_insert (plugins : List Callable) :
    ((insert f plugins).find? fun g => g.name == name) =
      if f.name = name then some f else plugins.find? fun g => g.name == name := by
  induction plugins with
  | nil => simp [insert, List.find?_singleton]
  | cons g rest ih =>
      rw [insert]
      split
      · next hsame => by_cases hname : f.name = name <;> simp [hname, hsame]
      · next hother =>
        rw [List.find?_cons, List.find?_cons, ih]
        by_cases hname : f.name = name
        · subst hname
          simp [beq_eq_false_iff_ne.mpr hother]
        · simp [hname]

theorem mem_names_insert {plugins : List Callable} :
    name ∈ (insert f plugins).map Callable.name ↔
      name = f.name ∨ name ∈ plugins.map Callable.name := by
  induction plugins with
  | nil => simp [insert]
  | cons g rest ih =>
      rw [insert]
      split
      · next hsame => simp [hsame]
      · simp only [List.map_cons, List.mem_cons, ih, or_left_comm]

/-- Inserting a function keeps the names apart. -/
theorem nodup_names_insert {plugins : List Callable} (h : (plugins.map Callable.name).Nodup) :
    ((insert f plugins).map Callable.name).Nodup := by
  induction plugins with
  | nil => simp [insert]
  | cons g rest ih =>
      obtain ⟨hfresh, hrest⟩ := List.nodup_cons.mp h
      rw [insert]
      split
      · next hsame =>
        rw [List.map_cons, ← hsame]
        exact h
      · next hother =>
        rw [List.map_cons, List.nodup_cons, mem_names_insert]
        exact ⟨not_or.mpr ⟨hother, hfresh⟩, ih hrest⟩

theorem register_of_accepted (h : (r.register f).1 = true) :
    (r.register f).2 = ⟨insert f r.plugins⟩ := by
  unfold register at h ⊢
  split at h
  · next hacceptable => rw [if_pos hacceptable]
  · cases h

/-- A rejected registration changes nothing. -/
theorem register_of_rejected (h : (r.register f).1 = false) : (r.register f).2 = r := by
  unfold register at h ⊢
  split at h
  · cases h
  · next hunacceptable => rw [if_neg hunacceptable]

/-- An accepted registration changes what one name means. -/
theorem plugin?_register (h : (r.register f).1 = true) (name : String) :
    (r.register f).2.plugin? name = if f.name = name then some f else r.plugin? name := by
  rw [register_of_accepted h]
  exact find?_insert r.plugins

/-- Under every name stands the last function that was accepted, or what stood there before. -/
theorem plugin?_registerAll (r : Registry) (fs : List Callable) (name : String) :
    (r.registerAll fs).plugin? name =
      (lastNamed? name (r.accepted fs)).or (r.plugin? name) := by
  induction fs generalizing r with
  | nil => rfl
  | cons f rest ih =>
      rw [registerAll, List.foldl_cons, accepted]
      cases h : (r.register f).1 with
      | true =>
          rw [if_pos rfl, lastNamed?_cons, Option.or_assoc, ← registerAll, ih, plugin?_register h]
          split <;> rfl
      | false =>
          rw [if_neg Bool.false_ne_true, ← registerAll, ih, register_of_rejected h]

theorem register_fst (r : Registry) (f : Callable) : (r.register f).1 = acceptable f := by
  cases h : acceptable f <;> simp [register, h]

/-- Which functions are accepted does not depend on what was registered before. -/
theorem accepted_eq_filter (r : Registry) (fs : List Callable) :
    r.accepted fs = fs.filter acceptable := by
  induction fs generalizing r with
  | nil => rfl
  | cons f rest ih => rw [accepted, List.filter_cons, register_fst, ih]

/-- Every plug-in has a name of its own. -/
def NamesApart (r : Registry) : Prop := (r.plugins.map Callable.name).Nodup

theorem NamesApart.register (hr : r.NamesApart) (f : Callable) : (r.register f).2.NamesApart := by
  cases h : (r.register f).1 with
  | true =>
      rw [register_of_accepted h]
      exact nodup_names_insert hr
  | false => rwa [register_of_rejected h]

theorem NamesApart.registerAll (hr : r.NamesApart) (fs : List Callable) :
    (r.registerAll fs).NamesApart := by
  induction fs generalizing r with
  | nil => exact hr
  | cons f rest ih => exact ih (hr.register f)

theorem NamesApart.plugin?_eq_some_iff (hr : r.NamesApart) :
    r.plugin? name = some f ↔ f ∈ r.plugins ∧ f.name = name :=
  find?_key_eq_some_iff Callable.name name hr

/-! ### Functions of the library -/

theorem builtin?_eq_some_iff :
    builtin? name = some f ↔ f ∈ Builtin.all ∧ sameIgnoringCase f.name name = true := by
  let lower (s : String) := s.toList.map Char.toLower
  have hnodup : (Builtin.all.map fun f => lower f.name).Nodup := by decide
  rw [sameIgnoringCase, beq_iff_eq]
  exact find?_key_eq_some_iff (fun f => lower f.name) (lower name) hnodup

theorem builtin?_name (h : f ∈ Builtin.all) : builtin? f.name = some f :=
  builtin?_eq_some_iff.mpr ⟨h, beq_self_eq_true _⟩

theorem nodup_names_builtins : (Builtin.all.map Callable.name).Nodup := by decide

theorem nodup_names_knownPlugins : (knownPlugins.map Callable.name).Nodup := by decide

/-- No plug-in of the library hides a built-in function, in whatever case its name is written. -/
theorem builtin?_knownPlugin (h : f ∈ knownPlugins) : builtin? f.name = none := by
  have hall : (knownPlugins.all fun f => (builtin? f.name).isNone) = true := by decide
  exact Option.isNone_iff_eq_none.mp (List.all_eq_true.mp hall f h)

theorem acceptable_knownPlugin (h : f ∈ knownPlugins) : acceptable f = true := by
  have hall : knownPlugins.all acceptable = true := by decide
  exact List.all_eq_true.mp hall f h

/-- The plug-ins that a configuration makes a registry start with. -/
def discovered (c : RegistryConfig) : List Callable :=
  if c.discoverPlugins then knownPlugins.filter c.isEnabled else []

theorem mem_knownPlugins {c : RegistryConfig} (h : f ∈ discovered c) : f ∈ knownPlugins := by
  unfold discovered at h
  split at h
  · exact (List.mem_filter.mp h).1
  · cases h

theorem nodup_names_discovered (c : RegistryConfig) :
    ((discovered c).map Callable.name).Nodup := by
  unfold discovered
  split
  · exact nodup_names_knownPlugins.sublist (List.filter_sublist.map _)
  · exact List.nodup_nil

theorem ofConfig_eq (c : RegistryConfig) : ofConfig c = builtinsOnly.registerAll (discovered c) := by
  unfold ofConfig discovered
  split <;> rfl

theorem namesApart_ofConfig (c : RegistryConfig) : (ofConfig c).NamesApart := by
  rw [ofConfig_eq]
  exact NamesApart.registerAll (r := builtinsOnly) List.nodup_nil _

/-- A configuration makes a registry find the plug-ins that it asks for, under their names. -/
theorem plugin?_ofConfig (c : RegistryConfig) (name : String) :
    (ofConfig c).plugin? name = lastNamed? name (discovered c) := by
  have hall : (discovered c).filter acceptable = discovered c :=
    List.filter_eq_self.mpr fun f hf => acceptable_knownPlugin (mem_knownPlugins hf)
  rw [ofConfig_eq, plugin?_registerAll, accepted_eq_filter, hall]
  exact Option.or_none

/-! ### The listing -/

/-- A name means the plug-in of exactly this name, or else a built-in whatever the case of its
letters. -/
theorem resolve_eq_some_iff :
    r.resolve name = some f ↔
      r.plugin? name = some f ∨ r.plugin? name = none ∧ builtin? name = some f :=
  Option.or_eq_some_iff

/-- All plug-ins are listed, and of the built-ins those whose name no plug-in has. -/
theorem mem_functions_iff :
    f ∈ r.functions ↔ f ∈ r.plugins ∨ f ∈ Builtin.all ∧ r.plugin? f.name = none := by
  simp [functions]

/-- The listing has the functions that their own names call. -/
theorem NamesApart.mem_functions_iff (hr : r.NamesApart) :
    f ∈ r.functions ↔ r.resolve f.name = some f := by
  rw [Registry.mem_functions_iff, resolve_eq_some_iff, hr.plugin?_eq_some_iff, builtin?_eq_some_iff]
  simp [sameIgnoringCase, and_comm]

theorem NamesApart.nodup_names_functions (hr : r.NamesApart) :
    (r.functions.map Callable.name).Nodup := by
  have hvisible : ((Builtin.all.filter fun f => (r.plugin? f.name).isNone).map
      Callable.name).Nodup := nodup_names_builtins.sublist (List.filter_sublist.map _)
  refine ((List.mergeSort_perm _ _).map Callable.name).nodup_iff.mpr ?_
  rw [List.map_append, List.nodup_append]
  refine ⟨hr, hvisible, ?_⟩
  rintro name hplugin other hother rfl
  obtain ⟨f, hf, rfl⟩ := List.mem_map.mp hplugin
  obtain ⟨g, hg, hname⟩ := List.mem_map.mp hother
  have hnone : r.plugin? g.name = none := by simpa using (List.mem_filter.mp hg).2
  rw [hname, hr.plugin?_eq_some_iff.mpr ⟨hf, rfl⟩] at hnone
  cases hnone

/-- The listed functions ascend strictly by name. -/
theorem NamesApart.functions_ascending (hr : r.NamesApart) :
    r.functions.Pairwise fun f g => f.name < g.name := by
  have hle : r.functions.Pairwise fun f g => decide (f.name ≤ g.name) = true := by
    refine List.pairwise_mergeSort ?_ ?_ _
    · intro a b c hab hbc
      simp only [decide_eq_true_eq] at *
      exact String.le_trans hab hbc
    · intro a b
      simpa using String.le_total a.name b.name
  have hne : r.functions.Pairwise fun f g => f.name ≠ g.name :=
    List.pairwise_map.mp hr.nodup_names_functions
  refine (hle.and hne).imp fun {f g} h => ?_
  obtain ⟨hle, hne⟩ := h
  refine String.not_le.mp fun hge => hne ?_
  exact String.le_antisymm (of_decide_eq_true hle) hge

end ProcessFormula.Registry
