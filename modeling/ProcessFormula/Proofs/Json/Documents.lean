import ProcessFormula.Proofs.Json.Literals

/-!
What texts write a JSON document, with white space between the parts. The reader takes every such
text back to the document.
-/

namespace ProcessFormula.Json

def Blank (s : List Char) : Prop := ∀ c ∈ s, isSpace c = true

def memberText (lead key gap rest : List Char) : List Char :=
  lead ++ '\x22' :: (key.flatMap escape ++ '\x22' :: ':' :: (gap ++ rest))

mutual

inductive Writes : List Char → Json → Prop
  | null : Writes "null".toList .null
  | bool (b : Bool) : Writes (if b then "true" else "false").toList (.bool b)
  | number {s : List Char} (h : NumberText s) : Writes s (.number (String.ofList s))
  | string (cs : List Char) :
      Writes ('\x22' :: (cs.flatMap escape ++ ['\x22'])) (.string (String.ofList cs))
  | noItems {gap : List Char} (hgap : Blank gap) : Writes ('[' :: (gap ++ [']'])) (.array [])
  | array {s : List Char} {items : List Json} (h : WritesItems s items) :
      Writes ('[' :: s) (.array items)
  | noMembers {gap : List Char} (hgap : Blank gap) :
      Writes ('\x7b' :: (gap ++ ['\x7d'])) (.object [])
  | object {s : List Char} {members : List (String × Json)} (h : WritesMembers s members) :
      Writes ('\x7b' :: s) (.object members)

/-- The text writes the items of an array up to its closing bracket. -/
inductive WritesItems : List Char → List Json → Prop
  | last {lead s trail : List Char} {j : Json} (hlead : Blank lead) (h : Writes s j)
      (htrail : Blank trail) : WritesItems (lead ++ (s ++ (trail ++ [']']))) [j]
  | more {lead s trail t : List Char} {j : Json} {items : List Json} (hlead : Blank lead)
      (h : Writes s j) (htrail : Blank trail) (hmore : WritesItems t items) :
      WritesItems (lead ++ (s ++ (trail ++ ',' :: t))) (j :: items)

/-- The text writes the members of an object up to its closing brace. -/
inductive WritesMembers : List Char → List (String × Json) → Prop
  | last {lead key gap s trail : List Char} {j : Json} (hlead : Blank lead) (hgap : Blank gap)
      (h : Writes s j) (htrail : Blank trail) :
      WritesMembers (memberText lead key gap (s ++ (trail ++ ['\x7d']))) [(String.ofList key, j)]
  | more {lead key gap s trail t : List Char} {j : Json} {members : List (String × Json)}
      (hlead : Blank lead) (hgap : Blank gap) (h : Writes s j) (htrail : Blank trail)
      (hmore : WritesMembers t members) :
      WritesMembers (memberText lead key gap (s ++ (trail ++ ',' :: t)))
        ((String.ofList key, j) :: members)

end

theorem blank_nil : Blank [] := by
  simp [Blank]

theorem skipSpace_append {lead : List Char} (hlead : Blank lead) (s : List Char) :
    skipSpace (lead ++ s) = skipSpace s :=
  List.dropWhile_append_of_pos hlead

theorem skipSpace_mark {lead : List Char} (hlead : Blank lead) (c : Char)
    (hc : isSpace c = false) (s : List Char) : skipSpace (lead ++ c :: s) = c :: s := by
  rw [skipSpace_append hlead]
  simp [skipSpace, hc]

theorem endsNumber_nil : EndsNumber [] := by
  simp [EndsNumber]

theorem EndsNumber.behind {trail : List Char} (htrail : Blank trail) {rest : List Char}
    (hrest : EndsNumber rest) : EndsNumber (trail ++ rest) := by
  cases trail with
  | nil => exact hrest
  | cons c trail =>
      intro c' hc'
      obtain rfl : c = c' := by simpa using hc'
      have hspace := htrail c (by simp)
      simp only [isSpace, Bool.or_eq_true, beq_iff_eq] at hspace
      rcases hspace with ((rfl | rfl) | rfl) | rfl <;> decide

theorem NumberText.head {s : List Char} (h : NumberText s) :
    ∃ c t, s = c :: t ∧ ∀ other : Char, other ≠ '-' → other.isDigit = false → c ≠ other := by
  have hne {c other : Char} (hc : c.isDigit = true) (hother : other.isDigit = false) :
      c ≠ other := by
    rintro rfl
    rw [hc] at hother
    cases hother
  obtain ⟨negative, body, n, rfl, hbody⟩ := h
  obtain @⟨whole, fraction, tail, e, hwhole, -, -, -⟩ := hbody
  cases negative with
  | true => exact ⟨'-', _, rfl, fun other hminus _ => hminus.symm⟩
  | false =>
      obtain ⟨d, whole, rfl⟩ := List.exists_cons_of_ne_nil hwhole.1
      exact ⟨d, _, rfl, fun other _ hother => hne (hwhole.2 d (by simp)) hother⟩

/-- Which characters a document can start with. -/
theorem Writes.head {s : List Char} {j : Json} (h : Writes s j) :
    ∃ c t, s = c :: t ∧ isSpace c = false ∧ c ≠ ']' ∧ c ≠ '\x7d' := by
  cases h with
  | number h =>
      obtain ⟨c, t, rfl, hne⟩ := h.head
      refine ⟨c, t, rfl, ?_, hne ']' (by decide) (by decide), hne '\x7d' (by decide) (by decide)⟩
      simp [isSpace, hne ' ' (by decide) (by decide), hne '\n' (by decide) (by decide),
        hne '\t' (by decide) (by decide), hne '\r' (by decide) (by decide)]
  | bool b => cases b <;> exact ⟨_, _, rfl, by decide, by decide, by decide⟩
  | _ => exact ⟨_, _, rfl, by decide, by decide, by decide⟩

/-- White space in front of a document is skipped, and no more. -/
theorem Writes.skip {s : List Char} {j : Json} (h : Writes s j) {lead : List Char}
    (hlead : Blank lead) (rest : List Char) : skipSpace (lead ++ (s ++ rest)) = s ++ rest := by
  obtain ⟨c, t, rfl, hspace, -⟩ := h.head
  exact skipSpace_mark hlead _ hspace _

/-- A number literal is read to its end, unless what follows could continue it. -/
theorem value_number {s : List Char} (h : NumberText s) {fuel : Nat} {text rest : List Char}
    (htext : skipSpace text = s ++ rest) (hrest : EndsNumber rest) :
    value (fuel + 1) text = some (.number (String.ofList s), rest) := by
  have hread := numberLiteral_append h hrest
  obtain ⟨c, t, rfl, hne⟩ := h.head
  rw [List.cons_append] at htext hread
  simp only [value, htext]
  split
  · next heq => exact absurd (List.cons.inj heq).1 (hne _ (by decide) (by decide))
  · next heq => exact absurd (List.cons.inj heq).1 (hne _ (by decide) (by decide))
  · next heq => exact absurd (List.cons.inj heq).1 (hne _ (by decide) (by decide))
  · next heq => exact absurd (List.cons.inj heq).1 (hne _ (by decide) (by decide))
  · next heq => exact absurd (List.cons.inj heq).1 (hne _ (by decide) (by decide))
  · next heq => exact absurd (List.cons.inj heq).1 (hne _ (by decide) (by decide))
  · rw [hread]
    rfl

theorem WritesItems.head {s : List Char} {items : List Json} (h : WritesItems s items) :
    ∃ lead c t, s = lead ++ c :: t ∧ Blank lead ∧ isSpace c = false ∧ c ≠ ']' := by
  cases h with
  | last hlead h _ | more hlead h _ _ =>
      obtain ⟨c, t, rfl, hspace, hne, -⟩ := h.head
      exact ⟨_, c, _, rfl, hlead, hspace, hne⟩

theorem WritesMembers.head {s : List Char} {members : List (String × Json)}
    (h : WritesMembers s members) : ∃ lead t, s = lead ++ '\x22' :: t ∧ Blank lead := by
  cases h with
  | last hlead _ _ _ | more hlead _ _ _ _ => exact ⟨_, _, rfl, hlead⟩

def membersBehind (fuel : Nat) (member : String × Json) (rest : List Char) :
    Option (List (String × Json) × List Char) :=
  match skipSpace rest with
  | ',' :: t => (members fuel t).map fun r => (member :: r.1, r.2)
  | '\x7d' :: t => some ([member], t)
  | _ => none

/-- The first member is read as its name and its content. -/
theorem members_eq {before : List Char} (hbefore : Blank before) (key : List Char) {fuel : Nat}
    {text rest : List Char} {j : Json} (hvalue : value fuel text = some (j, rest)) :
    members (fuel + 1) (memberText before key [] text) =
      membersBehind fuel (String.ofList key, j) rest := by
  obtain ⟨ps, hps, hpieces⟩ := pieces_escaped key (':' :: text)
  have hcolon : skipSpace (':' :: text) = ':' :: text := rfl
  rw [memberText, List.nil_append, members, skipSpace_mark hbefore _ rfl]
  simp only [hpieces, joinPieces_of_writes hps, hcolon, hvalue, Option.bind_eq_bind,
    Option.bind_some]
  rfl

section

variable {lead s trail rest : List Char} {fuel : Nat} {j : Json}
  (hread : ∀ rest, EndsNumber rest → value fuel (lead ++ (s ++ rest)) = some (j, rest))
  (htrail : Blank trail)
include hread htrail

/-- The value of an item or a member ends where its mark stands. -/
theorem value_behind {c : Char} (hc : c ∈ [',', ']', '\x7d']) (t : List Char) :
    value fuel (lead ++ (s ++ (trail ++ c :: t))) = some (j, trail ++ c :: t) := by
  have hmarks : ∀ c ∈ [',', ']', '\x7d'],
      c.isDigit = false ∧ c ≠ '.' ∧ c ≠ 'e' ∧ c ≠ 'E' := by simp
  refine hread _ (EndsNumber.behind htrail fun c' hc' => ?_)
  obtain rfl : c = c' := by simpa using hc'
  exact hmarks c hc

theorem items_last :
    items (fuel + 1) (lead ++ (s ++ (trail ++ [']'])) ++ rest) = some ([j], rest) := by
  have hvalue := value_behind hread htrail (show ']' ∈ _ by decide) rest
  have htext : lead ++ (s ++ (trail ++ [']'])) ++ rest =
      lead ++ (s ++ (trail ++ ']' :: rest)) := by simp
  rw [htext, items, hvalue]
  simp only [Option.bind_eq_bind, Option.bind_some, skipSpace_mark htrail ']' rfl]

theorem items_more {t : List Char} :
    items (fuel + 1) (lead ++ (s ++ (trail ++ ',' :: t)) ++ rest) =
      (items fuel (t ++ rest)).map fun r => (j :: r.1, r.2) := by
  have hvalue := value_behind hread htrail (show ',' ∈ _ by decide) (t ++ rest)
  have htext : lead ++ (s ++ (trail ++ ',' :: t)) ++ rest =
      lead ++ (s ++ (trail ++ ',' :: (t ++ rest))) := by simp
  rw [htext, items, hvalue]
  simp only [Option.bind_eq_bind, Option.bind_some, skipSpace_mark htrail ',' rfl]

variable {before : List Char} (hbefore : Blank before) (key : List Char)
include hbefore

theorem members_last :
    members (fuel + 1) (memberText before key lead (s ++ (trail ++ ['\x7d'])) ++ rest) =
      some ([(String.ofList key, j)], rest) := by
  have hvalue := value_behind hread htrail (show '\x7d' ∈ _ by decide) rest
  have htext : memberText before key lead (s ++ (trail ++ ['\x7d'])) ++ rest =
      memberText before key [] (lead ++ (s ++ (trail ++ '\x7d' :: rest))) := by
    simp [memberText]
  simp only [htext, members_eq hbefore key hvalue, membersBehind,
    skipSpace_mark htrail '\x7d' rfl]

theorem members_more {t : List Char} :
    members (fuel + 1) (memberText before key lead (s ++ (trail ++ ',' :: t)) ++ rest) =
      (members fuel (t ++ rest)).map fun r => ((String.ofList key, j) :: r.1, r.2) := by
  have hvalue := value_behind hread htrail (show ',' ∈ _ by decide) (t ++ rest)
  have htext : memberText before key lead (s ++ (trail ++ ',' :: t)) ++ rest =
      memberText before key [] (lead ++ (s ++ (trail ++ ',' :: (t ++ rest)))) := by
    simp [memberText]
  simp only [htext, members_eq hbefore key hvalue, membersBehind,
    skipSpace_mark htrail ',' rfl]

end

theorem exists_fuel {s : List Char} {fuel : Nat} (hsome : s ≠ []) (hfuel : s.length ≤ fuel) :
    ∃ n, fuel = n + 1 := by
  have hpos := List.length_pos_iff.mpr hsome
  exact ⟨fuel - 1, by omega⟩

mutual

/-- A document is read back, whatever white space stands in front of it, if what follows does not
continue a number. -/
theorem value_of_writes {s : List Char} {j : Json} (h : Writes s j) {fuel : Nat}
    (hfuel : s.length ≤ fuel) {lead : List Char} (hlead : Blank lead) {rest : List Char}
    (hrest : EndsNumber rest) : value fuel (lead ++ (s ++ rest)) = some (j, rest) := by
  have hskip := h.skip hlead rest
  obtain ⟨c, t, hc, -⟩ := h.head
  obtain ⟨fuel, rfl⟩ := exists_fuel (by simp [hc]) hfuel
  cases h with
  | null =>
      simp only [value, hskip]
      rfl
  | bool b =>
      simp only [value, hskip]
      cases b <;> rfl
  | number h => exact value_number h hskip hrest
  | string cs =>
      obtain ⟨ps, hps, hread⟩ := pieces_escaped cs rest
      have htext : '\x22' :: (cs.flatMap escape ++ ['\x22']) ++ rest =
          '\x22' :: (cs.flatMap escape ++ '\x22' :: rest) := by simp
      rw [htext] at hskip
      simp only [value, htext, hskip, hread, Option.map_some, joinPieces_of_writes hps]
      rfl
  | @noItems gap hgap =>
      have htext : '[' :: (gap ++ [']']) ++ rest = '[' :: (gap ++ ']' :: rest) := by simp
      rw [htext] at hskip
      simp only [value, htext, hskip, skipSpace_mark hgap ']' rfl]
  | array h =>
      have hread := items_of_writes h (by simpa using hfuel) rest
      obtain ⟨before, c, t, rfl, hbefore, hspace, hne⟩ := h.head
      have hopen : skipSpace (before ++ c :: t ++ rest) = c :: (t ++ rest) := by
        rw [List.append_assoc]
        exact skipSpace_mark hbefore _ hspace _
      rw [List.cons_append] at hskip
      simp only [value, List.cons_append, hskip, hopen]
      split
      · next heq => exact absurd (List.cons.inj heq).1 hne
      · rw [hread]
        rfl
  | @noMembers gap hgap =>
      have htext : '\x7b' :: (gap ++ ['\x7d']) ++ rest = '\x7b' :: (gap ++ '\x7d' :: rest) := by
        simp
      rw [htext] at hskip
      simp only [value, htext, hskip, skipSpace_mark hgap '\x7d' rfl]
  | object h =>
      have hread := members_of_writes h (by simpa using hfuel) rest
      obtain ⟨before, t, rfl, hbefore⟩ := h.head
      have hopen : skipSpace (before ++ '\x22' :: t ++ rest) = '\x22' :: (t ++ rest) := by
        rw [List.append_assoc]
        exact skipSpace_mark hbefore _ rfl _
      rw [List.cons_append] at hskip
      simp only [value, List.cons_append, hskip, hopen, hread]
      rfl

/-- The items of an array are read one by one, by induction on the text. -/
theorem items_of_writes {s : List Char} {js : List Json} (h : WritesItems s js) {fuel : Nat}
    (hfuel : s.length ≤ fuel) (rest : List Char) : items fuel (s ++ rest) = some (js, rest) := by
  obtain ⟨fuel, rfl⟩ := exists_fuel (by cases h <;> simp) hfuel
  cases h with
  | last hlead h htrail =>
      simp only [List.length_append, List.length_cons] at hfuel
      exact items_last (fun _ => value_of_writes h (by omega) hlead) htrail
  | more hlead h htrail hmore =>
      simp only [List.length_append, List.length_cons] at hfuel
      rw [items_more (fun _ => value_of_writes h (by omega) hlead) htrail,
        items_of_writes hmore (by omega) rest]
      rfl

/-- So are the members of an object. -/
theorem members_of_writes {s : List Char} {ms : List (String × Json)} (h : WritesMembers s ms)
    {fuel : Nat} (hfuel : s.length ≤ fuel) (rest : List Char) :
    members fuel (s ++ rest) = some (ms, rest) := by
  obtain ⟨fuel, rfl⟩ := exists_fuel (by cases h <;> simp [memberText]) hfuel
  cases h with
  | last hlead hgap h htrail =>
      simp only [memberText, List.length_append, List.length_cons] at hfuel
      exact members_last (fun _ => value_of_writes h (by omega) hgap) htrail hlead _
  | more hlead hgap h htrail hmore =>
      simp only [memberText, List.length_append, List.length_cons] at hfuel
      rw [members_more (fun _ => value_of_writes h (by omega) hgap) htrail hlead,
        members_of_writes hmore (by omega) rest]
      rfl

end

/-- The document that a text writes is the one that is read from it. -/
theorem parse?_of_writes {text : String} {j : Json} (h : Writes text.toList j) :
    parse? text = some j := by
  have hread := value_of_writes h (Nat.le_succ text.toList.length) blank_nil endsNumber_nil
  rw [List.nil_append, List.append_nil, String.length_toList] at hread
  rw [parse?, hread]
  rfl

end ProcessFormula.Json
