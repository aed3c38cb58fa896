import ProcessFormula.Config.Load
import ProcessFormula.Proofs.Config.Keys

/-!
Whatever format a configuration is written in, it is a table, and no table in it has a key twice.
Files may well write a key twice; the reader refuses it or the last entry counts.
-/

namespace ProcessFormula.Config

/-- A configuration: a table of entries, none of whose tables has a key twice. -/
def Tree.Rooted (t : Tree) : Prop := ∃ entries, t = .table entries ∧ Distinct Tree.Keyed entries

namespace Tree

theorem Rooted.keyed {t : Tree} (h : t.Rooted) : t.Keyed := by
  obtain ⟨entries, rfl, h⟩ := h
  exact .ofEntries h

theorem rooted_empty : Rooted empty := ⟨[], rfl, .nil⟩

theorem Keyed.rooted {entries : List (String × Tree)} (h : Keyed (.table entries)) :
    Rooted (.table entries) :=
  ⟨entries, rfl, h.entries⟩

theorem Rooted.merge {lower upper : Tree} (hlower : lower.Rooted) (hupper : upper.Rooted) :
    (merge lower upper).Rooted := by
  have hkeyed := hlower.keyed.merge hupper.keyed
  obtain ⟨entries, rfl, -⟩ := hlower
  obtain ⟨entries', rfl, -⟩ := hupper
  exact hkeyed.rooted

/-! ### JSON -/

mutual

/-- Of equal names in a JSON object the last one counts, so no table has a key twice. -/
theorem keyed_ofJson? : ∀ (j : Json) (depth : Nat) (t : Tree), ofJson? depth j = some t → t.Keyed
  | .null, depth, t, h => by
      obtain rfl := Option.some.inj h
      exact .other
  | .bool b, depth, t, h => by
      obtain rfl := Option.some.inj h
      exact .flag b
  | .number literal, depth, t, h => by
      obtain ⟨_, _, rfl⟩ := Option.map_eq_some_iff.mp h
      exact .other
  | .string s, depth, t, h => by
      obtain rfl := Option.some.inj h
      exact .text s
  | .brokenString, depth, t, h => by cases h
  | .array items, depth, t, h => by
      unfold ofJson? at h
      split at h
      · cases h
      · obtain ⟨ts, hts, rfl⟩ := Option.map_eq_some_iff.mp h
        exact .list (keyed_ofItems? items (depth - 1) ts hts)
  | .object members, depth, t, h => by
      unfold ofJson? at h
      split at h
      · cases h
      · obtain ⟨entries, hentries, rfl⟩ := Option.map_eq_some_iff.mp h
        exact .ofEntries (keyed_ofMembers? members (depth - 1) [] entries .nil hentries)

theorem keyed_ofItems? : ∀ (items : List Json) (depth : Nat) (ts : List Tree),
    ofItems? depth items = some ts → ∀ t ∈ ts, t.Keyed
  | [], depth, ts, h => by
      obtain rfl := Option.some.inj h
      exact List.forall_mem_nil _
  | j :: rest, depth, ts, h => by
      unfold ofItems? at h
      obtain ⟨t, ht, h⟩ := Option.bind_eq_some_iff.mp h
      obtain ⟨ts', hts', h⟩ := Option.bind_eq_some_iff.mp h
      obtain rfl := Option.some.inj h
      have hitem := keyed_ofJson? j depth t ht
      exact List.forall_mem_cons.mpr ⟨hitem, keyed_ofItems? rest depth ts' hts'⟩

/-- Members are added one by one, and a name that is there already is replaced. -/
theorem keyed_ofMembers? : ∀ (members : List (String × Json)) (depth : Nat)
    (entries entries' : List (String × Tree)), Distinct Keyed entries →
    ofMembers? depth entries members = some entries' → Distinct Keyed entries'
  | [], depth, entries, entries', hentries, h => by
      obtain rfl := Option.some.inj h
      exact hentries
  | (key, j) :: rest, depth, entries, entries', hentries, h => by
      unfold ofMembers? at h
      obtain ⟨t, ht, h⟩ := Option.bind_eq_some_iff.mp h
      apply keyed_ofMembers? rest depth _ entries' _ h
      rw [put_eq]
      exact hentries.put key (keyed_ofJson? j depth t ht)

end

theorem rooted_ofJsonText? {text : String} {t : Tree} (h : ofJsonText? text = some t) :
    t.Rooted := by
  unfold ofJsonText? at h
  split at h
  · next members _ =>
    have hkeyed := keyed_ofJson? _ _ t h
    unfold ofJson? at h
    split at h
    · cases h
    · obtain ⟨entries, _, rfl⟩ := Option.map_eq_some_iff.mp h
      exact hkeyed.rooted
  · cases h

end Tree

/-! ### Readers -/

section

variable {α β γ : Type} {good : α → Prop} {good' : β → Prop} {read : Option (α × List Char)}

/-- Whatever is read has the property. -/
def Delivers (good : α → Prop) (read : Option (α × List Char)) : Prop :=
  ∀ a rest, read = some (a, rest) → good a

namespace Delivers

theorem nothing : Delivers good none :=
  fun _ _ h => nomatch h

theorem anything : Delivers (fun _ => True) read :=
  fun _ _ _ => trivial

theorem found {a : α} (ha : good a) (rest : List Char) : Delivers good (some (a, rest)) := by
  intro b rest' h
  obtain ⟨rfl, -⟩ := Prod.mk.inj (Option.some.inj h)
  exact ha

theorem map {f : α × List Char → β × List Char} (hread : Delivers good read)
    (hf : ∀ r, good r.1 → good' (f r).1) : Delivers good' (read.map f) := by
  intro b rest h
  obtain ⟨r, hr, heq⟩ := Option.map_eq_some_iff.mp h
  have hgood := hf r (hread r.1 r.2 hr)
  rwa [heq] at hgood

/-- What is read behind a step has the property whenever the rest of the reader has it. -/
theorem bind {x : Option γ} {f : γ → Option (β × List Char)}
    (hmore : ∀ c, x = some c → Delivers good' (f c)) : Delivers good' (x >>= f) := by
  intro b rest h
  obtain ⟨c, hc, h⟩ := Option.bind_eq_some_iff.mp h
  exact hmore c hc b rest h

end Delivers

end

/-! ### TOML -/

namespace Toml

/-- Tables under construction are updated like all others. -/
theorem put_eq (key : String) (node : Node) (entries : List (String × Node)) :
    put key node entries = putAt key node entries := by
  induction entries with
  | nil => rfl
  | cons entry rest ih => rw [put, putAt, ih]

theorem trees_eq (entries : List (String × Node)) :
    trees entries = entries.map fun entry => (entry.1, entry.2.tree) := by
  induction entries with
  | nil => rw [trees, List.map_nil]
  | cons entry rest ih => rw [trees, ih, List.map_cons]

theorem elementTrees_eq (elements : List (List (String × Node))) :
    elementTrees elements = elements.map fun entries => .table (trees entries) := by
  induction elements with
  | nil => rw [elementTrees, List.map_nil]
  | cons entries rest ih => rw [elementTrees, ih, List.map_cons]

inductive Node.Keyed : Node → Prop
  | leaf {t : Tree} (h : t.Keyed) : Keyed (.leaf t)
  | table {origin : Origin} {entries : List (String × Node)} (keys : (entries.map Prod.fst).Nodup)
      (values : ∀ entry ∈ entries, Keyed entry.2) : Keyed (.table origin entries)
  | tables {elements : List (List (String × Node))}
      (keys : ∀ entries ∈ elements, (entries.map Prod.fst).Nodup)
      (values : ∀ entries ∈ elements, ∀ entry ∈ entries, Keyed entry.2) : Keyed (.tables elements)

namespace Node.Keyed

theorem ofEntries {origin : Origin} {entries : List (String × Node)}
    (h : Distinct Keyed entries) : Keyed (.table origin entries) :=
  .table h.keys h.values

theorem entries {origin : Origin} {entries : List (String × Node)}
    (h : Keyed (.table origin entries)) : Distinct Keyed entries := by
  cases h with
  | table keys values => exact ⟨keys, values⟩

theorem ofElements {elements : List (List (String × Node))}
    (h : ∀ entries ∈ elements, Distinct Keyed entries) : Keyed (.tables elements) :=
  .tables (fun entries hentries => (h entries hentries).keys)
    fun entries hentries => (h entries hentries).values

theorem elements {elements : List (List (String × Node))} (h : Keyed (.tables elements)) :
    ∀ entries ∈ elements, Distinct Keyed entries := by
  cases h with
  | tables keys values =>
      exact fun entries hentries => ⟨keys entries hentries, values entries hentries⟩

theorem distinct_trees {entries : List (String × Node)} (keys : (entries.map Prod.fst).Nodup)
    (values : ∀ entry ∈ entries, entry.2.tree.Keyed) : Distinct Tree.Keyed (trees entries) where
  keys := by
    rw [trees_eq, List.map_map]
    exact keys
  values := by
    rw [trees_eq]
    exact List.forall_mem_map.mpr values

/-- The finished configuration of a document whose tables have distinct keys. -/
theorem tree {node : Node} (h : node.Keyed) : node.tree.Keyed := by
  induction h with
  | leaf h => rwa [Node.tree]
  | table keys values ih =>
      rw [Node.tree]
      exact .ofEntries (distinct_trees keys ih)
  | tables keys values ih =>
      rw [Node.tree, elementTrees_eq]
      apply Tree.Keyed.list
      intro t ht
      obtain ⟨entries, hentries, rfl⟩ := List.mem_map.mp ht
      exact .ofEntries (distinct_trees (keys entries hentries) (ih entries hentries))

end Node.Keyed

/-- The step leaves the keys of every table distinct. -/
def Keeps (change : List (String × Node) → Option (List (String × Node))) : Prop :=
  ∀ entries entries', Distinct Node.Keyed entries → change entries = some entries' →
    Distinct Node.Keyed entries'

theorem Distinct.putNode {entries : List (String × Node)} (h : Distinct Node.Keyed entries)
    (key : String) {node : Node} (hnode : node.Keyed) :
    Distinct Node.Keyed (put key node entries) := by
  rw [put_eq]
  exact h.put key hnode

theorem keeps_define (key : String) {node : Node} (hnode : node.Keyed) :
    Keeps (define key node) := by
  intro entries entries' hentries h
  unfold define at h
  split at h
  · cases h
  · obtain rfl := Option.some.inj h
    exact Distinct.putNode hentries key hnode

theorem keeps_openTable (key : String) : Keeps (openTable key) := by
  intro entries entries' hentries h
  unfold openTable at h
  split at h
  · obtain rfl := Option.some.inj h
    exact Distinct.putNode hentries key (.ofEntries .nil)
  · next inner hinner =>
    obtain rfl := Option.some.inj h
    have hkeyed := hentries.lookup hinner
    exact Distinct.putNode hentries key (.ofEntries hkeyed.entries)
  · cases h

theorem keeps_openElement (key : String) : Keeps (openElement key) := by
  intro entries entries' hentries h
  unfold openElement at h
  split at h
  · obtain rfl := Option.some.inj h
    apply Distinct.putNode hentries key
    exact .ofElements (List.forall_mem_singleton.mpr .nil)
  · next elements helements =>
    obtain rfl := Option.some.inj h
    have hkeyed := hentries.lookup helements
    apply Distinct.putNode hentries key
    apply Node.Keyed.ofElements
    exact List.forall_mem_append.mpr ⟨hkeyed.elements, List.forall_mem_singleton.mpr .nil⟩
  · cases h

/-- The last one of a list of tables is replaced. -/
theorem keyed_replaceLast {elements before : List (List (String × Node))}
    {last last' : List (String × Node)} (h : Node.Keyed (.tables elements))
    (hlast : elements.reverse = last :: before)
    (hlast' : Distinct Node.Keyed last → Distinct Node.Keyed last') :
    Node.Keyed (.tables (before.reverse ++ [last'])) := by
  have hall : ∀ entries ∈ last :: before, Distinct Node.Keyed entries := by
    rw [← hlast]
    exact fun entries hentries => h.elements entries (List.mem_reverse.mp hentries)
  obtain ⟨hfirst, hrest⟩ := List.forall_mem_cons.mp hall
  have hbefore : ∀ entries ∈ before.reverse, Distinct Node.Keyed entries :=
    fun entries hentries => hrest entries (List.mem_reverse.mp hentries)
  apply Node.Keyed.ofElements
  exact List.forall_mem_append.mpr ⟨hbefore, List.forall_mem_singleton.mpr (hlast' hfirst)⟩

/-- A change at the end of a path keeps the keys distinct if it does so where it happens. Tables
that are missing on the way are new and have one key. -/
theorem Keeps.descend {change : List (String × Node) → Option (List (String × Node))}
    (hchange : Keeps change) (origin : Origin) (path : List String) :
    Keeps (descend origin change path) := by
  induction path with
  | nil => exact hchange
  | cons key path ih =>
      intro entries entries' hentries h
      unfold Toml.descend at h
      split at h
      · obtain ⟨inner, hinner, rfl⟩ := Option.map_eq_some_iff.mp h
        exact Distinct.putNode hentries key (.ofEntries (ih [] inner .nil hinner))
      · next old inner hold =>
        split at h
        · obtain ⟨inner', hinner, rfl⟩ := Option.map_eq_some_iff.mp h
          have hkeyed := (hentries.lookup hold).entries
          exact Distinct.putNode hentries key (.ofEntries (ih inner inner' hkeyed hinner))
        · cases h
      · next elements helements =>
        split at h
        · cases h
        · split at h
          · next last before hlast =>
            obtain ⟨last', hlast', rfl⟩ := Option.map_eq_some_iff.mp h
            apply Distinct.putNode hentries key
            exact keyed_replaceLast (hentries.lookup helements) hlast
              fun hkeyed => ih last last' hkeyed hlast'
          · cases h
      · cases h

theorem Keeps.within {change : List (String × Node) → Option (List (String × Node))}
    (hchange : Keeps change) (path : List String) : Keeps (within change path) := by
  induction path with
  | nil => exact hchange
  | cons key path ih =>
      intro entries entries' hentries h
      unfold Toml.within at h
      split at h
      · next origin inner hold =>
        obtain ⟨inner', hinner, rfl⟩ := Option.map_eq_some_iff.mp h
        have hkeyed := (hentries.lookup hold).entries
        exact Distinct.putNode hentries key (.ofEntries (ih inner inner' hkeyed hinner))
      · next elements helements =>
        split at h
        · next last before hlast =>
          obtain ⟨last', hlast', rfl⟩ := Option.map_eq_some_iff.mp h
          apply Distinct.putNode hentries key
          exact keyed_replaceLast (hentries.lookup helements) hlast
            fun hkeyed => ih last last' hkeyed hlast'
        · cases h
      · cases h

theorem delivers_word (s : List Char) : Delivers Tree.Keyed (word s) := by
  unfold word
  simp only
  -- Which word was read does not matter, only what it stands for.
  generalize Option.getD _ _ = read
  split
  · exact .found (.flag true) _
  · split
    · exact .found (.flag false) _
    · split
      · exact .found .other _
      · split
        · exact .found (.ofEntries .nil) _
        · exact .nothing

/-- What is read with so much fuel has distinct keys: values, the items of arrays and the entries of
inline tables. -/
structure ReadsKeyed (fuel : Nat) : Prop where
  value : ∀ depth s node rest, value fuel depth s = some (node, rest) → node.Keyed
  items : ∀ depth s ts rest, items fuel depth s = some (ts, rest) → ∀ t ∈ ts, t.Keyed
  entries : ∀ depth table s table' rest, Distinct Node.Keyed table →
    entries fuel depth table s = some (table', rest) → Distinct Node.Keyed table'

section

variable {fuel : Nat} (h : ReadsKeyed fuel)
include h

/-- One level of values, given those one level further in. -/
theorem delivers_value (depth : Nat) (s : List Char) :
    Delivers Node.Keyed (value (fuel + 1) depth s) := by
  unfold Toml.value
  split
  · exact .nothing
  · exact .nothing
  · split
    · exact .found (.leaf (.list (List.forall_mem_nil _))) _
    · exact Delivers.map (h.items _ _) fun _ hts => .leaf (.list hts)
  · split
    · exact .found (.ofEntries .nil) _
    · exact Delivers.map (fun _ rest => h.entries _ _ _ _ rest .nil) fun _ htable => .ofEntries htable
  · split
    · exact Delivers.anything.map fun _ _ => .leaf (.text _)
    · exact (delivers_word s).map fun _ ht => .leaf ht

theorem delivers_items (depth : Nat) (s : List Char) :
    Delivers (fun ts => ∀ t ∈ ts, t.Keyed) (items (fuel + 1) depth s) := by
  unfold Toml.items
  apply Delivers.bind
  rintro ⟨item, behind⟩ hitem
  have hkeyed := (h.value _ _ _ _ hitem).tree
  have hlast : ∀ t ∈ [item.tree], t.Keyed := List.forall_mem_singleton.mpr hkeyed
  simp only
  split
  · split
    · exact .found hlast _
    · exact Delivers.map (h.items _ _) fun _ hts => List.forall_mem_cons.mpr ⟨hkeyed, hts⟩
  · exact .found hlast _
  · exact .nothing

theorem delivers_entries (depth : Nat) {table : List (String × Node)}
    (htable : Distinct Node.Keyed table) (s : List Char) :
    Delivers (Distinct Node.Keyed) (entries (fuel + 1) depth table s) := by
  unfold Toml.entries
  apply Delivers.bind
  rintro ⟨path, behind⟩ -
  simp only
  split
  · apply Delivers.bind
    rintro ⟨node, behind'⟩ hnode
    apply Delivers.bind
    intro added hadded
    have hdefine := keeps_define (path.getLast?.getD "") (h.value _ _ _ _ hnode)
    have hkeyed := (hdefine.descend .dotted path.dropLast) table added htable hadded
    split
    · exact fun table' rest => h.entries _ _ _ table' rest hkeyed
    · exact .found hkeyed _
    · exact .nothing
  · exact .nothing

end

/-- Values, items and entries with any amount of fuel, by induction on it. -/
theorem readsKeyed (fuel : Nat) : ReadsKeyed fuel := by
  induction fuel with
  | zero =>
      constructor
      · intro depth s node rest h
        cases h
      · intro depth s ts rest h
        cases h
      · intro depth table s table' rest _ h
        cases h
  | succ fuel ih =>
      constructor
      · exact delivers_value ih
      · exact delivers_items ih
      · intro depth table s table' rest htable
        exact delivers_entries ih depth htable s table' rest

/-- Line by line the document keeps its keys distinct. -/
theorem distinct_lines (fuel : Nat) : ∀ current root s root', Distinct Node.Keyed root →
    lines fuel current root s = some root' → Distinct Node.Keyed root' := by
  induction fuel with
  | zero =>
      intro current root s root' _ h
      cases h
  | succ fuel ih =>
      intro current root s root' hroot h
      unfold lines at h
      split at h
      · obtain rfl := Option.some.inj h
        exact hroot
      · obtain ⟨⟨isElement, path, rest⟩, _, h⟩ := Option.bind_eq_some_iff.mp h
        simp only at h
        obtain ⟨opened, hopened, h⟩ := Option.bind_eq_some_iff.mp h
        have hchange : Keeps (if isElement then openElement (path.getLast?.getD "")
            else openTable (path.getLast?.getD "")) := by
          split
          · exact keeps_openElement _
          · exact keeps_openTable _
        exact ih _ _ _ _ ((hchange.descend .path path.dropLast) root opened hroot hopened) h
      · obtain ⟨⟨path, rest⟩, _, h⟩ := Option.bind_eq_some_iff.mp h
        simp only at h
        split at h
        · obtain ⟨⟨node, behind⟩, hnode, h⟩ := Option.bind_eq_some_iff.mp h
          simp only at h
          obtain ⟨next, _, h⟩ := Option.bind_eq_some_iff.mp h
          obtain ⟨added, hadded, h⟩ := Option.bind_eq_some_iff.mp h
          have hdefine := keeps_define (path.getLast?.getD "") ((readsKeyed _).value _ _ _ _ hnode)
          have hkeeps := (hdefine.descend .dotted path.dropLast).within current
          exact ih _ _ _ _ (hkeeps root added hroot hadded) h
        · cases h

/-- So TOML always gives a table in which no key stands twice. -/
theorem rooted_ofText? {text : String} {t : Tree} (h : ofText? text = some t) : t.Rooted := by
  obtain ⟨root, hroot, rfl⟩ := Option.map_eq_some_iff.mp h
  have hdistinct := distinct_lines _ _ _ _ _ .nil hroot
  have hkeyed : (Node.table .header root).tree.Keyed := (Node.Keyed.ofEntries hdistinct).tree
  rw [Node.tree] at hkeyed
  exact hkeyed.rooted

end Toml

/-! ### YAML -/

namespace Yaml

theorem keyed_plainTree (word : List Char) : (plainTree word).Keyed := by
  simp only [plainTree]
  split
  · exact .flag _
  · split
    · exact .other
    · exact .text _

theorem Scalar.keyed_tree (s : Scalar) : s.tree.Keyed := by
  unfold Scalar.tree
  split
  · exact keyed_plainTree s.text
  · exact .text _

/-- A word that has to be a number, or nothing at all, is no table. -/
theorem keyed_number {fits : Bool} {t : Tree}
    (h : (if fits then some Tree.other else none) = some t) :
    t.Keyed := by
  split at h
  · obtain rfl := Option.some.inj h
    exact .other
  · cases h

theorem Scalar.keyed_tree? {s : Scalar} {tag : Option Tag} {t : Tree} (h : s.tree? tag = some t) :
    t.Keyed := by
  cases tag with
  | none =>
      obtain rfl := Option.some.inj h
      exact s.keyed_tree
  | some tag =>
      simp only [Scalar.tree?] at h
      split at h
      · cases h
      · split at h
        · obtain ⟨b, _, rfl⟩ := Option.map_eq_some_iff.mp h
          exact .flag b
        · split at h
          · exact keyed_number h
          · split at h
            · exact keyed_number h
            · split at h
              · exact keyed_number h
              · split at h
                · obtain rfl := Option.some.inj h
                  exact s.keyed_tree
                · obtain rfl := Option.some.inj h
                  exact .text _

namespace Node

structure Yields {α : Type} (good : α → Prop) (x : StateT Nat Option α) : Prop where
  result : ∀ left a left', x.run left = some (a, left') → good a

section

variable {α β : Type} {good : α → Prop} {good' : β → Prop}

theorem Yields.bind {x : StateT Nat Option α} {f : α → StateT Nat Option β}
    (hmore : ∀ a, Yields good' (f a)) : Yields good' (x >>= f) := by
  constructor
  intro left b left' h
  obtain ⟨⟨a, between⟩, _, h⟩ := Option.bind_eq_some_iff.mp h
  exact (hmore a).result between b left' h

/-- A step may rely on what the step before it yields. -/
theorem Yields.bindGood {x : StateT Nat Option α} {f : α → StateT Nat Option β}
    (hx : Yields good x) (hmore : ∀ a, good a → Yields good' (f a)) : Yields good' (x >>= f) := by
  constructor
  intro left b left' h
  obtain ⟨⟨a, between⟩, ha, h⟩ := Option.bind_eq_some_iff.mp h
  exact (hmore a (hx.result left a between ha)).result between b left' h

theorem Yields.pure {a : α} (ha : good a) : Yields good (pure a) := by
  constructor
  intro left a' left' h
  obtain ⟨rfl, -⟩ := Prod.mk.inj (Option.some.inj h)
  exact ha

theorem yields_failure : Yields good failure := by
  constructor
  intro left a left' h
  cases h

theorem yields_lift {x : Option α} (h : ∀ a, x = some a → good a) :
    Yields good (monadLift x : StateT Nat Option α) := by
  constructor
  intro left a left' hrun
  obtain ⟨b, hb, hrun⟩ := Option.bind_eq_some_iff.mp hrun
  obtain ⟨rfl, -⟩ := Prod.mk.inj (Option.some.inj hrun)
  exact h b hb

theorem yields_foldlM {step : β → α → StateT Nat Option β} {items : List α}
    (hstep : ∀ b, good' b → ∀ a ∈ items, Yields good' (step b a)) {b : β} (hb : good' b) :
    Yields good' (items.foldlM step b) := by
  induction items generalizing b with
  | nil => exact .pure hb
  | cons a rest ih =>
      rw [List.foldlM_cons]
      apply Yields.bindGood (hstep b hb a List.mem_cons_self)
      intro b' hb'
      exact ih (fun b hb a ha => hstep b hb a (List.mem_cons_of_mem _ ha)) hb'

theorem yields_mapM {read : β → StateT Nat Option α} {items : List β}
    (hread : ∀ b ∈ items, Yields good (read b)) :
    Yields (fun as => ∀ a ∈ as, good a) (items.mapM read) := by
  induction items with
  | nil => exact .pure (List.forall_mem_nil _)
  | cons b rest ih =>
      rw [List.mapM_cons]
      apply Yields.bindGood (hread b List.mem_cons_self)
      intro a ha
      apply Yields.bindGood (ih fun b hb => hread b (List.mem_cons_of_mem _ hb))
      intro as has
      exact .pure (List.forall_mem_cons.mpr ⟨ha, has⟩)

end

theorem yields_putEntry {found : Anchored} {read : Node Nat → StateT Nat Option Tree}
    (hread : ∀ node, Yields Tree.Keyed (read node)) {table : List (String × Tree)}
    (htable : Distinct Tree.Keyed table) (entry : Node Nat × Node Nat) :
    Yields (Distinct Tree.Keyed) (putEntry found read table entry) := by
  apply Yields.bind
  intro key
  apply Yields.bindGood (hread entry.2)
  intro t ht
  apply Yields.pure
  rw [Tree.put_eq]
  exact htable.put key ht

theorem yields_table {found : Anchored} {read : Node Nat → StateT Nat Option Tree}
    (hread : ∀ node, Yields Tree.Keyed (read node)) (entries : List (Node Nat × Node Nat)) :
    Yields (Distinct Tree.Keyed) (entries.foldlM (putEntry found read) []) :=
  yields_foldlM (fun _ htable entry _ => yields_putEntry hread htable entry) .nil

/-- By induction on the depth, no matter how anchors and references share the nodes. -/
theorem yields_tree (found : Anchored) (depth : Nat) :
    ∀ node, Yields Tree.Keyed (tree found depth node) := by
  induction depth with
  | zero =>
      intro node
      unfold tree
      apply Yields.bind
      intro target
      split
      · exact yields_lift fun t ht => Scalar.keyed_tree? ht
      · exact yields_failure
  | succ depth ih =>
      intro node
      unfold tree
      apply Yields.bind
      intro target
      split
      · exact yields_lift fun t ht => Scalar.keyed_tree? ht
      · split
        · apply Yields.bindGood (yields_mapM fun node _ => ih node)
          intro ts hts
          exact .pure (.list hts)
        · exact yields_failure
      · split
        · apply Yields.bindGood (yields_table ih _)
          intro table htable
          exact .pure (.ofEntries htable)
        · exact yields_failure
      · exact yields_failure

theorem rooted_configuration? {root : Node String} {t : Tree}
    (h : root.configuration? = some t) : t.Rooted := by
  obtain ⟨⟨numbered, numbers⟩, _, h⟩ := Option.bind_eq_some_iff.mp h
  simp only at h
  split at h
  · next entries _ =>
    obtain ⟨⟨table, left⟩, htable, rfl⟩ := Option.map_eq_some_iff.mp h
    exact ⟨table, rfl, (yields_table (yields_tree _ _) entries).result _ _ _ htable⟩
  · split at h
    · obtain rfl := Option.some.inj h
      exact Tree.rooted_empty
    · cases h
  · cases h

end Node

/-- So YAML always gives a table in which no key stands twice. -/
theorem rooted_ofText? {text : String} {t : Tree} (h : ofText? text = some t) : t.Rooted := by
  simp only [ofText?, Option.bind_eq_bind] at h
  generalize plainLineEnds _ = chars at h
  split at h
  · obtain ⟨tokens, _, h⟩ := Option.bind_eq_some_iff.mp h
    obtain ⟨root, _, h⟩ := Option.bind_eq_some_iff.mp h
    split at h
    · exact Node.rooted_configuration? h
    · obtain rfl := Option.some.inj h
      exact Tree.rooted_empty
  · cases h

end Yaml

/-! ### The environment -/

namespace Environment

theorem keyed_bare (s : List Char) : (bare s).Keyed := by
  simp only [bare]
  split
  · exact .other
  · exact .text _

/-- What is read with so much fuel has distinct keys: values, the items of lists and the entries of
tables. -/
structure ReadsKeyed (fuel : Nat) : Prop where
  value : ∀ s t rest, value fuel s = some (t, rest) → t.Keyed
  items : ∀ s ts rest, items fuel s = some (ts, rest) → ∀ t ∈ ts, t.Keyed
  entries : ∀ table s table' rest, Distinct Tree.Keyed table →
    entries fuel table s = some (table', rest) → Distinct Tree.Keyed table'

section

variable {fuel : Nat} (h : ReadsKeyed fuel)
include h

theorem delivers_value (s : List Char) : Delivers Tree.Keyed (value (fuel + 1) s) := by
  unfold Environment.value
  split
  · exact .found (.flag true) _
  · exact .found (.flag false) _
  · exact Delivers.map (fun _ rest => h.entries _ _ _ rest .nil) fun _ htable => .ofEntries htable
  · exact Delivers.map (h.items _) fun _ hts => .list hts
  · exact Delivers.anything.map fun _ _ => .text _
  · split
    · exact .found (.text _) _
    · exact .nothing
  · exact .found (keyed_bare _) _

theorem delivers_items (s : List Char) :
    Delivers (fun ts => ∀ t ∈ ts, t.Keyed) (items (fuel + 1) s) := by
  unfold Environment.items
  split
  · exact .nothing
  · exact .found (List.forall_mem_nil _) _
  · next fuel' hfuel _ =>
    cases hfuel
    apply Delivers.bind
    rintro ⟨item, behind⟩ hitem
    have hkeyed := h.value _ _ _ hitem
    simp only
    split
    · exact Delivers.map (h.items _) fun _ hts => List.forall_mem_cons.mpr ⟨hkeyed, hts⟩
    · exact .found (List.forall_mem_singleton.mpr hkeyed) _
    · exact .nothing

theorem delivers_entries {table : List (String × Tree)} (htable : Distinct Tree.Keyed table)
    (s : List Char) : Delivers (Distinct Tree.Keyed) (entries (fuel + 1) table s) := by
  unfold Environment.entries
  split
  · exact .nothing
  · exact .found htable _
  · next fuel' hfuel _ =>
    cases hfuel
    apply Delivers.bind
    rintro ⟨key, behind⟩ -
    apply Delivers.bind
    rintro ⟨t, behind'⟩ ht
    have hput := htable.put key (h.value _ _ _ ht)
    rw [← Tree.put_eq] at hput
    simp only
    split
    · exact fun table' rest => h.entries _ _ table' rest hput
    · exact .found hput _
    · exact .nothing

end

/-- Values, items and entries of an environment variable, by induction on the fuel. -/
theorem readsKeyed (fuel : Nat) : ReadsKeyed fuel := by
  induction fuel with
  | zero =>
      constructor
      · intro s t rest h
        cases h
      · intro s ts rest h
        cases h
      · intro table s table' rest _ h
        cases h
  | succ fuel ih =>
      constructor
      · exact delivers_value ih
      · exact delivers_items ih
      · intro table s table' rest htable
        exact delivers_entries ih htable s table' rest

theorem keyed_entry (text : String) : (entry text).Keyed := by
  unfold entry
  split
  · next t ht => exact (readsKeyed _).value _ _ _ ht
  · exact .text text

theorem splitOnAux_ne_nil (s sep : String) (b i j : String.Pos.Raw) (r : List String) :
    s.splitOnAux sep b i j r ≠ [] := by
  fun_induction String.splitOnAux s sep b i j r with
  | case1 => simp
  | case2 => assumption
  | case3 => assumption
  | case4 => assumption

/-- The path of a variable has a key at least. -/
theorem path?_ne_nil {name : String} {path : List String} (h : path? name = some path) :
    path ≠ [] := by
  simp only [path?] at h
  split at h
  · split at h
    · cases h
    · obtain rfl := Option.some.inj h
      exact splitOnAux_ne_nil _ _ _ _ _ _
  · cases h

theorem rooted_nest {path : List String} (hpath : path ≠ []) {t : Tree} (ht : t.Keyed) :
    (Tree.nest path t).Rooted := by
  cases path with
  | nil => exact absurd rfl hpath
  | cons key path => exact (Tree.Keyed.nest ht (key :: path)).rooted

theorem rooted_foldl {layers : List Tree} (hlayers : ∀ layer ∈ layers, layer.Rooted) {t : Tree}
    (ht : t.Rooted) : (layers.foldl Tree.merge t).Rooted := by
  induction layers generalizing t with
  | nil => exact ht
  | cons layer rest ih =>
      apply ih fun layer hlayer => hlayers layer (List.mem_cons_of_mem _ hlayer)
      exact ht.merge (hlayers layer List.mem_cons_self)

/-- And so does the environment, each variable of which is a small table laid over those before it.
-/
theorem rooted_tree (settings : List (String × String)) : (tree settings).Rooted := by
  apply rooted_foldl _ Tree.rooted_empty
  intro layer hlayer
  obtain ⟨setting, _, hsetting⟩ := List.mem_filterMap.mp hlayer
  obtain ⟨path, hpath, rfl⟩ := Option.map_eq_some_iff.mp hsetting
  exact rooted_nest (path?_ne_nil hpath) (keyed_entry setting.2)

end Environment

/-- A file contributes a configuration, whatever its format and whether or not it is there. -/
theorem rooted_fileLayer? {format : Format} {files : Files} {path : String} {t : Tree}
    (h : fileLayer? format files path = some t) : t.Rooted := by
  unfold fileLayer? at h
  split at h
  · obtain rfl := Option.some.inj h
    exact Tree.rooted_empty
  · obtain ⟨text, _, h⟩ := Option.bind_eq_some_iff.mp h
    cases format with
    | toml => exact Toml.rooted_ofText? h
    | yaml => exact Yaml.rooted_ofText? h
    | json => exact Tree.rooted_ofJsonText? h

end ProcessFormula.Config
