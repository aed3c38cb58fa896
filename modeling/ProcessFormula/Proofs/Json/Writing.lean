import ProcessFormula.Proofs.Json.Documents

/-!
Both writers write the document that they are given, one without any white space and one with line
ends and indentations between the parts.
-/

namespace ProcessFormula.Json

mutual

/-- Numbers are number literals and strings are texts, all the way down. -/
def Writable : Json → Prop
  | .number literal => NumberText literal.toList
  | .brokenString => False
  | .array items => WritableItems items
  | .object members => WritableMembers members
  | _ => True

def WritableItems : List Json → Prop
  | [] => True
  | j :: rest => j.Writable ∧ WritableItems rest

def WritableMembers : List (String × Json) → Prop
  | [] => True
  | (_, j) :: rest => j.Writable ∧ WritableMembers rest

end

theorem writableItems_iff {items : List Json} :
    WritableItems items ↔ ∀ j ∈ items, j.Writable := by
  induction items with
  | nil => simp [WritableItems]
  | cons j items ih => simp [WritableItems, ih]

/-- The text writes a member, with the given gap behind the colon. -/
def WritesMember (gap text : List Char) (member : String × Json) : Prop :=
  ∃ s, text = '\x22' :: (member.1.toList.flatMap escape ++ '\x22' :: ':' :: (gap ++ s)) ∧
    Writes s member.2

section

variable {lead trail : List Char} (hlead : Blank lead) (htrail : Blank trail)
include hlead htrail

/-- Texts with commas between them are the items of an array. -/
theorem writesItems_separated {texts : List (List Char)} {items : List Json}
    (h : List.Forall₂ Writes texts items) (hsome : items ≠ []) :
    WritesItems (lead ++ ((',' :: lead).intercalate texts ++ (trail ++ [']']))) items := by
  induction h with
  | nil => exact absurd rfl hsome
  | @cons s j texts items hfirst hmore ih =>
      cases hmore with
      | nil => simpa using WritesItems.last hlead hfirst htrail
      | cons hnext hmore =>
          rw [List.intercalate_cons_cons]
          simpa using WritesItems.more hlead hfirst blank_nil (ih (by simp))

theorem writesMembers_separated {gap : List Char} (hgap : Blank gap) {texts : List (List Char)}
    {members : List (String × Json)} (h : List.Forall₂ (WritesMember gap) texts members)
    (hsome : members ≠ []) :
    WritesMembers (lead ++ ((',' :: lead).intercalate texts ++ (trail ++ ['\x7d']))) members := by
  induction h with
  | nil => exact absurd rfl hsome
  | @cons text member texts members hfirst hmore ih =>
      obtain ⟨s, rfl, hs⟩ := hfirst
      cases hmore with
      | nil =>
          have h := @WritesMembers.last lead member.1.toList gap s trail _ hlead hgap hs htrail
          simpa [memberText] using h
      | cons hnext hmore =>
          have h := @WritesMembers.more lead member.1.toList gap s [] _ _ _ hlead hgap hs blank_nil
            (ih (by simp))
          rw [List.intercalate_cons_cons]
          simpa [memberText] using h

end

theorem toList_quote (s : String) :
    (quote s).toList = '\x22' :: (s.toList.flatMap escape ++ ['\x22']) := by
  simp [quote]

/-- A quoted text is a string literal. -/
theorem writes_quote (s : String) : Writes (quote s).toList (.string s) := by
  rw [toList_quote]
  simpa using Writes.string s.toList

theorem writes_number {literal : String} (h : NumberText literal.toList) :
    Writes literal.toList (.number literal) := by
  simpa using Writes.number h

mutual

/-- What the writer writes on one line is a text of the document, by induction on the document. -/
theorem writes_compact (j : Json) (h : j.Writable) : Writes j.compact.toList j := by
  cases j with
  | null => exact .null
  | bool b =>
      rw [compact]
      exact .bool b
  | number literal =>
      rw [compact]
      exact writes_number (by simpa [Writable] using h)
  | string s =>
      rw [compact]
      exact writes_quote s
  | brokenString => simp [Writable] at h
  | array items =>
      have hitems := writes_compactItems items (by simpa [Writable] using h)
      rw [compact]
      cases items with
      | nil => exact .noItems blank_nil
      | cons j items =>
        have h := writesItems_separated blank_nil blank_nil hitems (by simp)
        simpa [String.toList_intercalate] using Writes.array h
  | object members =>
      have hmembers := writes_compactMembers members (by simpa [Writable] using h)
      rw [compact]
      cases members with
      | nil => exact .noMembers blank_nil
      | cons member members =>
        have h := writesMembers_separated blank_nil blank_nil blank_nil hmembers (by simp)
        simpa [String.toList_intercalate] using Writes.object h

theorem writes_compactItems (items : List Json) (h : WritableItems items) :
    List.Forall₂ Writes ((compactItems items).map String.toList) items := by
  cases items with
  | nil => exact .nil
  | cons j items => exact .cons (writes_compact j h.1) (writes_compactItems items h.2)

theorem writes_compactMembers (members : List (String × Json)) (h : WritableMembers members) :
    List.Forall₂ (WritesMember []) ((compactMembers members).map String.toList) members := by
  cases members with
  | nil => exact .nil
  | cons member members =>
      obtain ⟨key, j⟩ := member
      refine .cons ⟨_, ?_, writes_compact j h.1⟩ (writes_compactMembers members h.2)
      simp [toList_quote]

end

theorem blank_newLine (depth : Nat) : Blank (newLine depth).toList := by
  intro c hc
  simp only [newLine, String.toList_append, String.toList_ofList] at hc
  rcases List.mem_append.mp hc with hc | hc
  · obtain rfl : c = '\n' := by simpa using hc
    rfl
  · rw [List.eq_of_mem_replicate hc]
    rfl

theorem blank_space : Blank [' '] := by
  simp [Blank, isSpace]

theorem toList_block {parts : List String} (depth : Nat) (opening closing : String)
    (hsome : parts ≠ []) :
    (block depth opening closing parts).toList =
      opening.toList ++ ((newLine (depth + 1)).toList ++
        ((',' :: (newLine (depth + 1)).toList).intercalate (parts.map String.toList) ++
          ((newLine depth).toList ++ closing.toList))) := by
  simp [block, hsome, String.toList_intercalate]

mutual

/-- And so is what it writes on many lines. -/
theorem writes_pretty (depth : Nat) (j : Json) (h : j.Writable) :
    Writes (j.pretty depth).toList j := by
  cases j with
  | array items =>
      have hitems := writes_prettyItems (depth + 1) items (by simpa [Writable] using h)
      rw [pretty]
      cases items with
      | nil => simpa [prettyItems, block] using Writes.noItems blank_nil
      | cons j items =>
        have h := writesItems_separated (blank_newLine (depth + 1)) (blank_newLine depth) hitems
          (by simp)
        rw [toList_block depth _ _ (by simp [prettyItems])]
        exact Writes.array h
  | object members =>
      have hmembers := writes_prettyMembers (depth + 1) members (by simpa [Writable] using h)
      rw [pretty]
      cases members with
      | nil => simpa [prettyMembers, block] using Writes.noMembers blank_nil
      | cons member members =>
        have h := writesMembers_separated (blank_newLine (depth + 1)) (blank_newLine depth)
          blank_space hmembers (by simp)
        rw [toList_block depth _ _ (by simp [prettyMembers])]
        exact Writes.object h
  | _ => simpa [pretty] using writes_compact _ h

theorem writes_prettyItems (depth : Nat) (items : List Json) (h : WritableItems items) :
    List.Forall₂ Writes ((prettyItems depth items).map String.toList) items := by
  cases items with
  | nil => exact .nil
  | cons j items => exact .cons (writes_pretty depth j h.1) (writes_prettyItems depth items h.2)

theorem writes_prettyMembers (depth : Nat) (members : List (String × Json))
    (h : WritableMembers members) :
    List.Forall₂ (WritesMember [' ']) ((prettyMembers depth members).map String.toList)
      members := by
  cases members with
  | nil => exact .nil
  | cons member members =>
      obtain ⟨key, j⟩ := member
      refine .cons ⟨_, ?_, writes_pretty depth j h.1⟩ (writes_prettyMembers depth members h.2)
      simp [toList_quote]

end

/-- Both writers are undone by the reader. -/
theorem parse?_compact {j : Json} (h : j.Writable) : parse? j.compact = some j :=
  parse?_of_writes (writes_compact j h)

/-- A document is read back from many lines at any depth. -/
theorem parse?_pretty {j : Json} (h : j.Writable) (depth : Nat) :
    parse? (j.pretty depth) = some j :=
  parse?_of_writes (writes_pretty depth j h)

end ProcessFormula.Json
