import Mathlib
import ProcessFormula.Proofs.Config.Formats

/-!
Layers of configuration override each other setting by setting. What a setting is comes from the
highest layer in which it stands, as a whole; what lower layers say about it is not even read.
-/

namespace ProcessFormula.Config

namespace Tree

def setting? (key : String) (t : Tree) : Option Tree := (t.get? "functions").bind (get? key)

/-- What layers, the highest one first, say about a setting: the highest one that sets it counts. -/
def winner? (key : String) (layers : List Tree) : Option Tree := layers.findSome? (setting? key)

/-- What the tree says about functions is a table, if it says anything. -/
def HasSection (t : Tree) : Prop :=
  ∀ u, t.get? "functions" = some u → ∃ entries, u = .table entries

theorem hasSection_empty : empty.HasSection := by
  intro u hu
  cases hu

theorem hasSection_of_table {entries settings : List (String × Tree)}
    (h : entries.lookup "functions" = some (.table settings)) : (table entries).HasSection := by
  intro u hu
  exact ⟨settings, Option.some.inj (hu.symm.trans h)⟩

/-! ### Laying one tree over another -/

/-- What becomes of two entries with the same key. -/
def laid (lower upper : Option Tree) : Option Tree :=
  match upper, lower with
  | none, lower => lower
  | some t, none => some t
  | some t, some u => some (merge u t)

theorem lookup_mergeEntries {good : Tree → Prop} {upper : List (String × Tree)}
    (hupper : Distinct good upper) (lower : List (String × Tree)) (key : String) :
    (mergeEntries lower upper).lookup key = laid (lower.lookup key) (upper.lookup key) := by
  induction upper generalizing lower with
  | nil => rfl
  | cons entry rest ih =>
      obtain ⟨k, t⟩ := entry
      rw [mergeEntries, ih hupper.tail, put_eq, lookup_putAt, List.lookup_cons]
      by_cases h : key = k
      · subst h
        rw [if_pos rfl, hupper.lookup_tail, beq_self_eq_true]
        cases lower.lookup key with
        | none => rfl
        | some u => rfl
      · rw [if_neg h, beq_eq_false_iff_ne.mpr h]

/-- What a merged configuration has under a key depends on what both have under it. -/
theorem get?_merge {lower upper : Tree} (hlower : lower.Rooted) (hupper : upper.Rooted)
    (key : String) : (merge lower upper).get? key = laid (lower.get? key) (upper.get? key) := by
  obtain ⟨entries, rfl, -⟩ := hlower
  obtain ⟨entries', rfl, hdistinct⟩ := hupper
  exact lookup_mergeEntries hdistinct entries key

/-- The same entry, or two tables. No setting is a table, so it does not matter what is in one. -/
inductive Alike : Option Tree → Option Tree → Prop
  | same (t : Option Tree) : Alike t t
  | tables (entries entries' : List (String × Tree)) :
      Alike (some (.table entries)) (some (.table entries'))

namespace Alike

variable {t u v : Option Tree}

theorem trans (h : Alike t u) (h' : Alike u v) : Alike t v := by
  cases h with
  | same => exact h'
  | tables entries entries' =>
      cases h' with
      | same => exact .tables entries entries'
      | tables _ entries'' => exact .tables entries entries''

theorem or_left (h : Alike u v) (t : Option Tree) : Alike (t.or u) (t.or v) := by
  cases t with
  | none => exact h
  | some t => exact .same (some t)

theorem orDefault {α : Type} (h : Alike t u) {read? : Tree → Option α}
    (hread : ∀ entries, read? (.table entries) = none) (default : α) :
    orDefault default read? t = orDefault default read? u := by
  cases h with
  | same => rfl
  | tables entries entries' => exact (hread entries).trans (hread entries').symm

/-- The upper one of two entries counts. -/
theorem laid (lower upper : Option Tree) : Alike (laid lower upper) (upper.or lower) := by
  cases upper with
  | none => exact .same lower
  | some t =>
      cases lower with
      | none => exact .same (some t)
      | some u =>
          cases t with
          | flag | text | other | list => exact .same _
          | table entries =>
              cases u with
              | flag | text | other | list => exact .same _
              | table entries' => exact .tables _ _

end Alike

theorem HasSection.merge {lower upper : Tree} (hlower : lower.Rooted) (hupper : upper.Rooted)
    (hsection : lower.HasSection) (hsection' : upper.HasSection) :
    (merge lower upper).HasSection := by
  intro u hu
  rw [get?_merge hlower hupper] at hu
  cases hl : lower.get? "functions" with
  | none =>
      cases hr : upper.get? "functions" with
      | none => simp [laid, hl, hr] at hu
      | some t =>
          simp only [laid, hl, hr] at hu
          exact hsection' u (hr.trans hu)
  | some l =>
      cases hr : upper.get? "functions" with
      | none =>
          simp only [laid, hl, hr] at hu
          exact hsection u (hl.trans hu)
      | some t =>
          simp only [laid, hl, hr] at hu
          obtain ⟨entries, rfl⟩ := hsection l hl
          obtain ⟨entries', rfl⟩ := hsection' t hr
          exact ⟨_, (Option.some.inj hu).symm⟩

/-- One layer more: what it says about a setting replaces what lower layers say. -/
theorem setting?_merge {lower upper : Tree} (hlower : lower.Rooted) (hupper : upper.Rooted)
    (hsection : lower.HasSection) (hsection' : upper.HasSection) (key : String) :
    Alike ((merge lower upper).setting? key) ((upper.setting? key).or (lower.setting? key)) := by
  unfold setting?
  rw [get?_merge hlower hupper]
  cases hr : upper.get? "functions" with
  | none => exact .same _
  | some t =>
      obtain ⟨entries', rfl⟩ := hsection' t hr
      cases hl : lower.get? "functions" with
      | none =>
          simp only [Tree.laid, Option.bind_some, Option.bind_none, Option.or_none]
          exact .same _
      | some l =>
          obtain ⟨entries, rfl⟩ := hsection l hl
          have hdistinct : Distinct Keyed entries' := by
            obtain ⟨all, rfl, hall⟩ := hupper
            exact (hall.lookup hr).entries
          simp only [Tree.laid, Option.bind_some, merge, get?, lookup_mergeEntries hdistinct]
          exact .laid _ _

/-- All layers: each setting is what the highest layer that sets it says. -/
theorem setting?_foldl {layers : List Tree}
    (hlayers : ∀ layer ∈ layers, layer.Rooted ∧ layer.HasSection) {t : Tree} (ht : t.Rooted)
    (hsection : t.HasSection) (key : String) :
    (layers.foldl merge t).HasSection ∧
      Alike ((layers.foldl merge t).setting? key)
        ((winner? key layers.reverse).or (t.setting? key)) := by
  induction layers generalizing t with
  | nil => exact ⟨hsection, .same _⟩
  | cons layer rest ih =>
      obtain ⟨⟨hrooted, hlayer⟩, hrest⟩ := List.forall_mem_cons.mp hlayers
      have hmerged := HasSection.merge ht hrooted hsection hlayer
      obtain ⟨hlast, halike⟩ := ih hrest (ht.merge hrooted) hmerged
      refine ⟨hlast, halike.trans ?_⟩
      have hstep := (setting?_merge ht hrooted hsection hlayer key).or_left
        (winner? key rest.reverse)
      have hwinner : winner? key (layer :: rest).reverse =
          (winner? key rest.reverse).or (layer.setting? key) := by
        simp [winner?, List.findSome?_append]
      rwa [hwinner, Option.or_assoc]

/-! ### The three settings -/

/-- The configuration in which each setting is this entry, or its default if there is none. -/
def config? (plugins categories functions : Option Tree) : Option RegistryConfig := do
  return ⟨← orDefault true flag? plugins, ← orDefault [] texts? categories,
    ← orDefault [] texts? functions⟩

theorem registryConfig?_eq {t : Tree} (hsection : t.HasSection) :
    t.registryConfig? = config? (t.setting? "discover_plugins")
      (t.setting? "disabled_categories") (t.setting? "disabled_functions") := by
  unfold registryConfig? setting?
  cases hfunctions : t.get? "functions" with
  | none => rfl
  | some u =>
      obtain ⟨entries, rfl⟩ := hsection u hfunctions
      rfl

/-- What is in a table where a setting should be makes no difference. -/
theorem config?_congr {plugins plugins' categories categories' functions functions' : Option Tree}
    (hplugins : Alike plugins plugins') (hcategories : Alike categories categories')
    (hfunctions : Alike functions functions') :
    config? plugins categories functions = config? plugins' categories' functions' := by
  have hflag : ∀ entries, flag? (.table entries) = none := fun _ => rfl
  have htexts : ∀ entries, texts? (.table entries) = none := fun _ => rfl
  unfold config?
  rw [hplugins.orDefault hflag, hcategories.orDefault htexts, hfunctions.orDefault htexts]

theorem orDefault_eq_elim {α : Type} (default : α) (read? : Tree → Option α)
    (entry : Option Tree) : orDefault default read? entry = entry.elim (some default) read? := by
  cases entry with
  | none => rfl
  | some t => rfl

theorem orDefault_eq_none_iff {α : Type} (default : α) {read? : Tree → Option α}
    {entry : Option Tree} :
    orDefault default read? entry = none ↔ ∃ t, entry = some t ∧ read? t = none := by
  cases entry with
  | none => simp [orDefault]
  | some t => simp [orDefault]

theorem config?_eq_some_iff {plugins categories functions : Option Tree}
    {config : RegistryConfig} :
    config? plugins categories functions = some config ↔
      orDefault true flag? plugins = some config.discoverPlugins ∧
      orDefault [] texts? categories = some config.disabledCategories ∧
      orDefault [] texts? functions = some config.disabledFunctions := by
  constructor
  · intro h
    obtain ⟨plugin, hplugin, h⟩ := Option.bind_eq_some_iff.mp h
    obtain ⟨category, hcategory, h⟩ := Option.bind_eq_some_iff.mp h
    obtain ⟨function, hfunction, h⟩ := Option.bind_eq_some_iff.mp h
    obtain rfl := Option.some.inj h
    exact ⟨hplugin, hcategory, hfunction⟩
  · rintro ⟨hplugin, hcategory, hfunction⟩
    unfold config?
    rw [hplugin, hcategory, hfunction]
    rfl

/-- A configuration is refused exactly if one of its settings has a wrong type. -/
theorem config?_eq_none_iff {plugins categories functions : Option Tree} :
    config? plugins categories functions = none ↔
      orDefault true flag? plugins = none ∨ orDefault [] texts? categories = none ∨
      orDefault [] texts? functions = none := by
  unfold config?
  cases orDefault true flag? plugins with
  | none => simp
  | some plugin =>
      cases orDefault [] texts? categories with
      | none => simp
      | some category =>
          cases orDefault [] texts? functions with
          | none => simp
          | some function => simp

end Tree

open ProcessFormula.Config.Tree

/-- The standard layers, each of which can be read. What they say about functions is a table. -/
structure StandardLayers (files : Files) (environment : List (String × String)) where
  toml : Tree
  yaml : Tree
  json : Tree
  readsToml : fileLayer? .toml files "config/formula.toml" = some toml
  readsYaml : fileLayer? .yaml files "config/formula.yaml" = some yaml
  readsJson : fileLayer? .json files "config/formula.json" = some json
  sections : ∀ layer ∈ [Environment.tree environment, json, yaml, toml], layer.HasSection

namespace StandardLayers

variable {files : Files} {environment : List (String × String)}

def highestFirst (layers : StandardLayers files environment) : List Tree :=
  [Environment.tree environment, layers.json, layers.yaml, layers.toml]

/-- What the layers say about a setting: what the highest one that sets it says. -/
def winner? (layers : StandardLayers files environment) (key : String) : Option Tree :=
  Tree.winner? key layers.highestFirst

theorem rooted (layers : StandardLayers files environment) :
    ∀ layer ∈ layers.highestFirst, layer.Rooted := by
  simp only [highestFirst, List.forall_mem_cons]
  exact ⟨Environment.rooted_tree environment, rooted_fileLayer? layers.readsJson,
    rooted_fileLayer? layers.readsYaml, rooted_fileLayer? layers.readsToml, List.forall_mem_nil _⟩

/-- Loading the standard layers comes down to the highest layer that sets each setting. -/
theorem loadStandard_eq (layers : StandardLayers files environment) :
    loadStandard files environment =
      match config? (layers.winner? "discover_plugins") (layers.winner? "disabled_categories")
        (layers.winner? "disabled_functions") with
      | some config => .ok config
      | none => .error (.unusable none) := by
  have hlayers : ∀ layer ∈ layers.highestFirst.reverse, layer.Rooted ∧ layer.HasSection := by
    intro layer hlayer
    have hmem := List.mem_reverse.mp hlayer
    exact ⟨layers.rooted layer hmem, layers.sections layer hmem⟩
  have hsetting := setting?_foldl hlayers rooted_empty hasSection_empty
  have halike : ∀ key, Alike ((layers.highestFirst.reverse.foldl merge empty).setting? key)
      (layers.winner? key) := by
    intro key
    have h := (hsetting key).2
    rwa [List.reverse_reverse, show empty.setting? key = none from rfl, Option.or_none] at h
  have hmerged : ofLayers? layers.highestFirst.reverse =
      config? (layers.winner? "discover_plugins") (layers.winner? "disabled_categories")
        (layers.winner? "disabled_functions") := by
    unfold ofLayers?
    rw [registryConfig?_eq (hsetting "").1]
    exact config?_congr (halike _) (halike _) (halike _)
  have hfiles : (standardFiles.mapM fun file => fileLayer? file.1 files file.2) =
      some [layers.toml, layers.yaml, layers.json] := by
    simp [standardFiles, layers.readsToml, layers.readsYaml, layers.readsJson]
  unfold loadStandard
  rw [hfiles]
  simp only [Option.bind_some]
  rw [← hmerged]
  rfl

end StandardLayers

/-- A file that holds text is read in its format. -/
theorem fileLayer?_of_text {format : Format} {files : Files} {path text : String}
    (h : files path = some text.toUTF8.data.toList) :
    fileLayer? format files path = format.read? text := by
  have hbytes : (⟨text.toUTF8.data.toList.toArray⟩ : ByteArray) = text.toUTF8 := by
    rw [Array.toArray_toList]
  unfold fileLayer?
  simp only [h, hbytes]
  simp [String.fromUTF8?, text.isValidUTF8, String.fromUTF8]

def settingKeys : List String := ["discover_plugins", "disabled_categories", "disabled_functions"]

/-- Layers override each other setting by setting. A configuration is loaded if each of its settings
is what the highest layer that sets it says, as a whole, or the default if none does. Loading fails
just if what such a layer says is of the wrong type. Nothing else in the layers has an effect: the
same is loaded from any layers whose highest ones say the same about the settings. -/
theorem loadStandard_by_setting {files : Files} {environment : List (String × String)}
    (layers : StandardLayers files environment) :
    (∀ config, loadStandard files environment = .ok config ↔
      (layers.winner? "discover_plugins").elim (some true) flag? = some config.discoverPlugins ∧
      (layers.winner? "disabled_categories").elim (some []) texts? =
        some config.disabledCategories ∧
      (layers.winner? "disabled_functions").elim (some []) texts? =
        some config.disabledFunctions) ∧
    (loadStandard files environment = .error (.unusable none) ↔
      (∃ t, layers.winner? "discover_plugins" = some t ∧ t.flag? = none) ∨
      (∃ t, layers.winner? "disabled_categories" = some t ∧ t.texts? = none) ∨
      ∃ t, layers.winner? "disabled_functions" = some t ∧ t.texts? = none) ∧
    ∀ (files' : Files) (environment' : List (String × String))
      (layers' : StandardLayers files' environment'),
      (∀ key ∈ settingKeys, layers'.winner? key = layers.winner? key) →
        loadStandard files' environment' = loadStandard files environment := by
  have hload := layers.loadStandard_eq
  refine ⟨?_, ?_, ?_⟩
  · intro config
    simp only [← orDefault_eq_elim]
    rw [← config?_eq_some_iff, hload]
    split
    · next found hfound => rw [hfound, Except.ok.injEq, Option.some.injEq]
    · next hnone => simp [hnone]
  · simp only [← orDefault_eq_none_iff true, ← orDefault_eq_none_iff []]
    rw [← config?_eq_none_iff, hload]
    split
    · next found hfound => simp [hfound]
    · next hnone => simp [hnone]
  · intro files' environment' layers' hsame
    simp only [settingKeys, List.forall_mem_cons] at hsame
    obtain ⟨hplugins, hcategories, hfunctions, -⟩ := hsame
    rw [layers'.loadStandard_eq, hload, hplugins, hcategories, hfunctions]

/-- The list in JSON replaces what stands in TOML, where it is not even a list; without the file in
TOML the same is loaded. There is no file in YAML, and the environment is empty. -/
theorem loadStandard_by_setting_replaced :
    let toml := "[functions]\ndisabled_functions='MAX'"
    let json :=
      "\x7b\"functions\":\x7b\"discover_plugins\":false,\"disabled_functions\":[\"MIN\"]\x7d\x7d"
    let jsonOnly : Files := fun path =>
      if path = "config/formula.json" then some json.toUTF8.data.toList else none
    let files : Files := fun path =>
      if path = "config/formula.toml" then some toml.toUTF8.data.toList else jsonOnly path
    loadStandard files [] = .ok ⟨false, [], ["MIN"]⟩ ∧
      loadStandard jsonOnly [] = loadStandard files [] := by
  have hreadToml : Toml.ofText? "[functions]\ndisabled_functions='MAX'" =
      some (.table [("functions", .table [("disabled_functions", .text "MAX")])]) := by
    cbv
  have hreadJson : ofJsonText?
      "\x7b\"functions\":\x7b\"discover_plugins\":false,\"disabled_functions\":[\"MIN\"]\x7d\x7d" =
      some (.table [("functions", .table [("discover_plugins", .flag false),
        ("disabled_functions", .list [.text "MIN"])])]) := by
    cbv
  intro toml json jsonOnly files
  have htoml : fileLayer? .toml files "config/formula.toml" = Toml.ofText? toml :=
    fileLayer?_of_text (by simp [files])
  have hjson : fileLayer? .json files "config/formula.json" = ofJsonText? json :=
    fileLayer?_of_text (by simp [files, jsonOnly])
  have hjsonOnly : fileLayer? .json jsonOnly "config/formula.json" = ofJsonText? json :=
    fileLayer?_of_text (by simp [jsonOnly])
  have hyaml : fileLayer? .yaml files "config/formula.yaml" = some .empty := by
    simp [fileLayer?, files, jsonOnly]
  let layers : StandardLayers files [] :=
    ⟨_, _, _, htoml.trans hreadToml, hyaml, hjson.trans hreadJson, by
      simp only [List.forall_mem_cons]
      exact ⟨hasSection_empty, hasSection_of_table rfl, hasSection_empty, hasSection_of_table rfl,
        List.forall_mem_nil _⟩⟩
  let layers' : StandardLayers jsonOnly [] :=
    ⟨.empty, .empty, _, by simp [fileLayer?, jsonOnly], by simp [fileLayer?, jsonOnly],
      hjsonOnly.trans hreadJson, by
      simp only [List.forall_mem_cons]
      exact ⟨hasSection_empty, hasSection_of_table rfl, hasSection_empty, hasSection_empty,
        List.forall_mem_nil _⟩⟩
  obtain ⟨hload, -, hsame⟩ := loadStandard_by_setting layers
  have hwinners : ∀ key ∈ settingKeys, layers'.winner? key = layers.winner? key := by
    simp only [settingKeys, List.forall_mem_cons]
    exact ⟨rfl, rfl, rfl, List.forall_mem_nil _⟩
  exact ⟨(hload _).mpr ⟨rfl, rfl, rfl⟩, hsame jsonOnly [] layers' hwinners⟩

end ProcessFormula.Config
