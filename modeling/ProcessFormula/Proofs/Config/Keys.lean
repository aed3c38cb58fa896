import Mathlib.Data.List.Nodup
import ProcessFormula.Config.Tree

/-!
No table of a configuration has a key twice. Tables are made by putting entries at their keys, and
laying one tree over another keeps the keys of every table distinct.
-/

namespace ProcessFormula.Config

/-- No key stands twice, and every value has the property. -/
structure Distinct {α : Type} (good : α → Prop) (entries : List (String × α)) : Prop where
  keys : (entries.map Prod.fst).Nodup
  values : ∀ entry ∈ entries, good entry.2

/-- The entries with one more, which takes the place of the first one with its key. -/
def putAt {α : Type} (key : String) (a : α) : List (String × α) → List (String × α)
  | [] => [(key, a)]
  | (k, old) :: rest => if k = key then (key, a) :: rest else (k, old) :: putAt key a rest

section

variable {α : Type} {good : α → Prop} {entries : List (String × α)} {key : String} {a : α}

/-- An update is seen under its own key only. -/
theorem lookup_putAt (key' : String) (entries : List (String × α)) :
    (putAt key a entries).lookup key' = if key' = key then some a else entries.lookup key' := by
  induction entries with
  | nil =>
      by_cases h : key' = key
      · simp [putAt, h]
      · simp [putAt, h]
  | cons entry rest ih =>
      obtain ⟨k, old⟩ := entry
      unfold putAt
      split
      · next hk =>
        subst hk
        by_cases h : key' = k
        · simp [h]
        · simp [h, List.lookup_cons, beq_eq_false_iff_ne.mpr h]
      · next hk =>
        rw [List.lookup_cons, List.lookup_cons, ih]
        by_cases h : key' = k
        · subst h
          simp [hk]
        · simp [beq_eq_false_iff_ne.mpr h]

theorem mem_putAt {entry : String × α} (h : entry ∈ putAt key a entries) :
    entry = (key, a) ∨ entry ∈ entries := by
  induction entries with
  | nil => exact .inl (List.mem_singleton.mp h)
  | cons first rest ih =>
      obtain ⟨k, old⟩ := first
      unfold putAt at h
      split at h
      · rcases List.mem_cons.mp h with h | h
        · exact .inl h
        · exact .inr (List.mem_cons_of_mem _ h)
      · rcases List.mem_cons.mp h with h | h
        · exact .inr (h ▸ List.mem_cons_self)
        · exact (ih h).imp_right (List.mem_cons_of_mem _)

namespace Distinct

theorem nil : Distinct good [] := ⟨List.nodup_nil, List.forall_mem_nil _⟩

theorem head {entry : String × α} (h : Distinct good (entry :: entries)) : good entry.2 :=
  h.values entry List.mem_cons_self

theorem tail {entry : String × α} (h : Distinct good (entry :: entries)) :
    Distinct good entries where
  keys := (List.nodup_cons.mp h.keys).2
  values e he := h.values e (List.mem_cons_of_mem _ he)

/-- An update leaves the keys distinct, since it replaces what its key has. -/
theorem put (h : Distinct good entries) (key : String) (ha : good a) :
    Distinct good (putAt key a entries) where
  keys := by
    induction entries with
    | nil => exact List.nodup_singleton key
    | cons entry rest ih =>
        obtain ⟨k, old⟩ := entry
        obtain ⟨hk, hrest⟩ := List.nodup_cons.mp h.keys
        unfold putAt
        split
        · next heq => exact heq ▸ h.keys
        · next hne =>
          apply List.nodup_cons.mpr
          refine ⟨?_, ih h.tail⟩
          intro hmem
          obtain ⟨entry, hentry, rfl⟩ := List.mem_map.mp hmem
          rcases mem_putAt hentry with rfl | hentry
          · exact hne rfl
          · exact hk (List.mem_map.mpr ⟨entry, hentry, rfl⟩)
  values entry hentry := by
    rcases mem_putAt hentry with rfl | hentry
    · exact ha
    · exact h.values entry hentry

theorem lookup (h : Distinct good entries) (ha : entries.lookup key = some a) : good a := by
  induction entries with
  | nil => cases ha
  | cons entry rest ih =>
      obtain ⟨k, old⟩ := entry
      rw [List.lookup_cons] at ha
      split at ha
      · obtain rfl := Option.some.inj ha
        exact h.head
      · exact ih h.tail ha

/-- The key of the first entry stands nowhere behind it. -/
theorem lookup_tail {entry : String × α} (h : Distinct good (entry :: entries)) :
    entries.lookup entry.1 = none := by
  apply List.lookup_eq_none_iff.mpr
  intro other hother
  have hfirst := (List.nodup_cons.mp h.keys).1
  apply bne_iff_ne.mpr
  intro heq
  exact hfirst (heq ▸ List.mem_map_of_mem hother)

end Distinct

end

namespace Tree

theorem put_eq (key : String) (t : Tree) (entries : List (String × Tree)) :
    put key t entries = putAt key t entries := by
  induction entries with
  | nil => rfl
  | cons entry rest ih => rw [put, putAt, ih]

/-- No table in the tree has a key twice. -/
inductive Keyed : Tree → Prop
  | flag (b : Bool) : Keyed (.flag b)
  | text (s : String) : Keyed (.text s)
  | other : Keyed .other
  | list {items : List Tree} (h : ∀ t ∈ items, Keyed t) : Keyed (.list items)
  | table {entries : List (String × Tree)} (keys : (entries.map Prod.fst).Nodup)
      (values : ∀ entry ∈ entries, Keyed entry.2) : Keyed (.table entries)

namespace Keyed

theorem ofEntries {entries : List (String × Tree)} (h : Distinct Keyed entries) :
    Keyed (.table entries) :=
  .table h.keys h.values

theorem entries {entries : List (String × Tree)} (h : Keyed (.table entries)) :
    Distinct Keyed entries := by
  cases h with
  | table keys values => exact ⟨keys, values⟩

/-- Entries laid over others leave the keys distinct if entries of the same key can be merged. -/
theorem mergeEntries {upper lower : List (String × Tree)} (hupper : Distinct Keyed upper)
    (hmerge : ∀ entry ∈ upper, ∀ t, Keyed t → Keyed (merge t entry.2))
    (hlower : Distinct Keyed lower) : Distinct Keyed (mergeEntries lower upper) := by
  induction upper generalizing lower with
  | nil => exact hlower
  | cons entry rest ih =>
      obtain ⟨key, t⟩ := entry
      unfold Tree.mergeEntries
      apply ih hupper.tail fun entry hentry => hmerge entry (List.mem_cons_of_mem _ hentry)
      rw [put_eq]
      apply hlower.put key
      split
      · next u hu => exact hmerge _ List.mem_cons_self u (hlower.lookup hu)
      · exact hupper.head

/-- Merging leaves the keys of all tables distinct, by induction on the lower tree. -/
theorem merge {lower upper : Tree} (hlower : Keyed lower) (hupper : Keyed upper) :
    Keyed (merge lower upper) := by
  induction hupper generalizing lower with
  | flag b => exact .flag b
  | text s => exact .text s
  | other => exact .other
  | list h _ => exact .list h
  | table keys values ih =>
      unfold Tree.merge
      split
      · exact .ofEntries (mergeEntries ⟨keys, values⟩ (fun entry hentry t ht => ih entry hentry ht)
          hlower.entries)
      · exact .table keys values

theorem nest {t : Tree} (ht : Keyed t) (path : List String) : Keyed (nest path t) := by
  induction path with
  | nil => exact ht
  | cons key path ih =>
      exact .table (List.nodup_singleton key) (List.forall_mem_singleton.mpr ih)

end Keyed

end Tree

end ProcessFormula.Config
