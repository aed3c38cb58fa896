import ProcessFormula.Proofs.Formula.Printing

/-!
Texts and names embedded in a formula. A text without backslashes stands between double quotes, with
a backslash in front of each of its own double quotes, and a name stands between quotes that do not
occur in it. Joined by plus signs they are read back exactly as they are, in a sum that grows to the
right.
-/

namespace ProcessFormula

namespace Grammar

open Text Lexeme ProcessFormula.Parser

/-! ### Escaped texts -/

/-- A text with a backslash in front of each double quote. -/
def escape (s : List Char) : List Char :=
  s.flatMap fun c => if c = '\x22' then ['\\', '\x22'] else [c]

theorem StringBody.nil : StringBody [] :=
  ⟨fun _ _ hsplit => by simp at hsplit, by simp⟩

theorem StringBody.plain {body : List Char} (h : StringBody body) {c : Char} (hquote : c ≠ '\x22')
    (hbackslash : c ≠ '\\') : StringBody (c :: body) := by
  constructor
  · intro before after hsplit
    cases before with
    | nil => exact absurd (List.cons.inj hsplit).1 hquote
    | cons d before =>
        have hlast := h.escaped before after (List.cons.inj hsplit).2
        rw [List.getLast?_cons, hlast]
        rfl
  · rw [List.getLast?_cons]
    cases hlast : body.getLast? with
    | none => simpa using hbackslash
    | some last => exact hlast ▸ h.closed

theorem StringBody.quote {body : List Char} (h : StringBody body) :
    StringBody ('\\' :: '\x22' :: body) := by
  constructor
  · intro before after hsplit
    rcases before with _ | ⟨d, _ | ⟨e, before⟩⟩
    · simp at hsplit
    · obtain rfl : '\\' = d := (List.cons.inj hsplit).1
      rfl
    · have hlast := h.escaped before after (List.cons.inj (List.cons.inj hsplit).2).2
      rw [List.getLast?_cons, List.getLast?_cons, hlast]
      rfl
  · rw [List.getLast?_cons, List.getLast?_cons]
    cases hlast : body.getLast? with
    | none => simp
    | some last => exact hlast ▸ h.closed

/-- An escaped text can stand between double quotes. -/
theorem stringBody_escape {s : List Char} (h : '\\' ∉ s) : StringBody (escape s) := by
  induction s with
  | nil => exact .nil
  | cons c s ih =>
      obtain ⟨hc, hs⟩ := List.ne_and_not_mem_of_not_mem_cons h
      rw [escape, List.flatMap_cons]
      split
      · exact (ih hs).quote
      · next hquote => exact (ih hs).plain hquote (Ne.symm hc)

/-- Without its backslashes, an escaped text is the text itself. -/
theorem filter_escape {s : List Char} (h : '\\' ∉ s) : (escape s).filter (· ≠ '\\') = s := by
  induction s with
  | nil => rfl
  | cons c s ih =>
      obtain ⟨hc, hs⟩ := List.ne_and_not_mem_of_not_mem_cons h
      rw [escape, List.flatMap_cons, List.filter_append, ← escape, ih hs]
      split
      · next hquote => simp [hquote]
      · simp [Ne.symm hc]

/-! ### Sums of texts and names -/

/-- A text or the name of a variable, with the quotes between which it stands in a formula. -/
inductive Embedded where
  | text (s : String) (hs : '\\' ∉ s.toList)
  | name (quote : Char) (n : String) (hquote : quote = '\x27' ∨ quote = '\x60')
      (hn : quote ∉ n.toList)

structure Joint where
  before : List Char
  after : List Char
  blankBefore : solid before = []
  blankAfter : solid after = []

namespace Embedded

def written : Embedded → List Char
  | .text s _ => '\x22' :: (escape s.toList ++ ['\x22'])
  | .name quote n _ _ => quote :: (n.toList ++ [quote])

def token : Embedded → Token
  | .text s _ => .text s
  | .name _ n _ _ => .quoted n

def leaf (now : Timestamp) : Embedded → Expr String
  | .text s _ => .constant (.text now s)
  | .name _ n _ _ => .var n

/-- A written text or name is one lexeme, whatever follows it. -/
theorem reads (e : Embedded) (rest : List Char) :
    Reads .operand (e.written ++ rest) e.token (skipBlanks rest) := by
  cases e with
  | text s hs =>
      have hreads := reads_text (stringBody_escape hs) (filter_escape hs) rest
      simpa [written, token] using hreads
  | name quote n hquote hn =>
      have hreads := reads_quoted hquote hn rest
      simpa [written, token] using hreads

theorem next_token (e : Embedded) : e.token.next = .operator := by
  cases e <;> rfl

theorem startsSolid_written (e : Embedded) (rest : List Char) :
    StartsSolid (e.written ++ rest) := by
  cases e with
  | text => exact startsSolid_cons.mpr (by decide)
  | name quote n hquote hn =>
      refine startsSolid_cons.mpr ?_
      rcases hquote with rfl | rfl <;> decide

theorem derives {scope : Scope} (hknown : ∀ name, scope.knows name = true) (e : Embedded) :
    Derives scope 0 .unary [e.token] (e.leaf scope.now) := by
  cases e with
  | text s hs => exact .plain (.text s)
  | name quote n hquote hn => exact .plain (.unsigned (.quoted (hknown n)))

theorem height_leaf (now : Timestamp) (e : Embedded) : (e.leaf now).height = 1 := by
  cases e <;> rfl

end Embedded

def writtenSummands (more : List (Joint × Embedded)) : List Char :=
  more.flatMap fun (joint, next) => joint.before ++ '+' :: (joint.after ++ next.written)

def sumText (first : Embedded) (more : List (Joint × Embedded)) : String :=
  String.ofList (first.written ++ writtenSummands more)

def addSummands (now : Timestamp) (tree : Expr String) (more : List (Joint × Embedded)) :
    Expr String :=
  more.foldl (fun tree summand => .binary .add tree (summand.2.leaf now)) tree

/-- The tree of a sum: it leans to the left, and its leaves are the texts and names in order. -/
def sumTree (now : Timestamp) (first : Embedded) (more : List (Joint × Embedded)) : Expr String :=
  addSummands now (first.leaf now) more

def summandRow (more : List (Joint × Embedded)) : List Token :=
  more.flatMap fun summand => [.operator .add, summand.2.token]

theorem writtenSummands_cons (joint : Joint) (next : Embedded) (more : List (Joint × Embedded)) :
    writtenSummands ((joint, next) :: more) =
      joint.before ++ '+' :: (joint.after ++ (next.written ++ writtenSummands more)) := by
  simp [writtenSummands]

/-- A written sum is read as its summands with plus signs between them. -/
theorem lexes_sum (first : Embedded) (more : List (Joint × Embedded)) :
    Lexes .operand (first.written ++ writtenSummands more) (first.token :: summandRow more)
      .operator [] := by
  refine .cons (first.reads _) ?_
  rw [first.next_token]
  induction more with
  | nil => exact .nil
  | cons summand more ih =>
      obtain ⟨joint, next⟩ := summand
      have hplus : StartsSolid ('+' :: (joint.after ++ (next.written ++ writtenSummands more))) :=
        startsSolid_cons.mpr (by decide)
      have hreads := lone_plus.reads_cons (joint.after ++ (next.written ++ writtenSummands more))
      rw [skipBlanks_append joint.blankAfter (next.startsSolid_written _)] at hreads
      rw [writtenSummands_cons, skipBlanks_append joint.blankBefore hplus]
      exact .cons hreads (.cons (next.reads _) (next.next_token ▸ ih))

/-- Summands are added to a chain one after the other, by induction on their list. -/
theorem derives_addSummands {scope : Scope} (hknown : ∀ name, scope.knows name = true)
    (more : List (Joint × Embedded)) {row : List Token} {tree : Expr String}
    (h : Derives scope 0 (.chain .sum) row tree) :
    Derives scope 0 (.chain .sum) (row ++ summandRow more) (addSummands scope.now tree more) := by
  induction more generalizing row tree with
  | nil => simpa [summandRow, addSummands] using h
  | cons summand more ih =>
      have hsum : Derives scope 0 (.chain .sum) (row ++ .operator .add :: [summand.2.token])
          (.binary .add tree (summand.2.leaf scope.now)) :=
        @Derives.chain scope 0 .add _ _ _ _ h (.single (summand.2.derives hknown))
      have hmore := ih hsum
      rwa [List.append_assoc] at hmore

/-- Each summand adds one to the height. -/
theorem height_addSummands (now : Timestamp) (more : List (Joint × Embedded)) {tree : Expr String}
    (h : 1 ≤ tree.height) : (addSummands now tree more).height = tree.height + more.length := by
  induction more generalizing tree with
  | nil => rfl
  | cons summand more ih =>
      have hsum : (Expr.binary .add tree (summand.2.leaf now)).height = tree.height + 1 := by
        rw [Expr.height, summand.2.height_leaf, Nat.max_eq_left h]
      have hmore := @ih (.binary .add tree (summand.2.leaf now)) (by omega)
      rw [hsum] at hmore
      rw [List.length_cons, Nat.add_comm more.length, ← Nat.add_assoc, ← hmore]
      rfl

/-- A sum of up to 256 texts and names is a sentence. -/
theorem sentence_sum {scope : Scope} (hknown : ∀ name, scope.knows name = true) (first : Embedded)
    (more : List (Joint × Embedded)) (hmore : more.length < 256) :
    Sentence scope (sumText first more) (sumTree scope.now first more) := by
  refine ⟨first.token :: summandRow more, ?_, ?_, ?_⟩
  · rw [sumText, String.toList_ofList, skipBlanks_of_startsSolid (first.startsSolid_written _)]
    exact lexes_sum first more
  · have hfirst : Derives scope 0 (.chain .sum) [first.token] (first.leaf scope.now) :=
      .single (.single (first.derives hknown))
    exact .chains (.single (.single (derives_addSummands hknown more hfirst)))
  · have hheight := first.height_leaf scope.now
    rw [sumTree, height_addSummands _ _ (Nat.le_of_eq hheight.symm), hheight, Nat.add_comm]
    exact hmore

end Grammar

/-- A text that a constant holds, whatever its alarm, has no backslash. -/
def Expr.WithoutBackslash : Expr String → Prop
  | .constant value => ∀ s, value.payload = .text s → '\\' ∉ s.toList
  | _ => True

namespace Formula

open Grammar

/-- A sum of up to 256 texts and names is compiled to the sum of just these texts and names. No text
in a compiled formula contains a backslash. -/
theorem compile_embedded (registry : Registry) (now : Timestamp) (offered : List Variable)
    (store : Store) :
    (∀ (first : Embedded) (more : List (Joint × Embedded)), more.length < 256 →
      ∃ f store', compile registry now .autoDetect offered (sumText first more) store =
          .ok (f, store') ∧
        f.tree = sumTree now first more) ∧
    ∀ mode text f store', compile registry now mode offered text store = .ok (f, store') →
      f.tree.Everywhere Expr.WithoutBackslash := by
  constructor
  · intro first more hmore
    have hsentence : Sentence (scope registry now .autoDetect offered) (sumText first more)
        (sumTree now first more) := sentence_sum (fun _ => rfl) first more hmore
    exact ⟨_, _, compile_of_parse (parse_of_sentence hsentence) store, root_map_name⟩
  · intro mode text f store' hcompile
    have hfrom := (sentence_of_parse (parse_of_compile hcompile).1).fromText
    refine hfrom.imp fun e he => ?_
    cases e with
    | constant value =>
        intro read hread
        obtain ⟨time, x, rfl⟩ | ⟨time, s, rfl, hs⟩ := he
        · cases hread
        · obtain rfl := Payload.text.inj hread
          exact hs
    | var | unary | binary | conditional | call => trivial

/-- Quotes, operators, blanks and line breaks are kept. -/
theorem compile_embedded_quotes :
    (∃ f store', compile .builtinsOnly ⟨0, 0⟩ .autoDetect []
        "\x22say \\\x22+\\\x22 'now'\x22 \n+\x60level > 1\x60" .empty = .ok (f, store') ∧
      f.tree = .binary .add (.constant (.text ⟨0, 0⟩ "say \x22+\x22 'now'")) (.var "level > 1")) ∧
    ∃ f store', compile .builtinsOnly ⟨0, 0⟩ .fixed [] "\x22a\\b\x22" .empty = .ok (f, store') ∧
      f.tree.Everywhere Expr.WithoutBackslash := by
  constructor
  · have hsum := (compile_embedded .builtinsOnly ⟨0, 0⟩ [] .empty).1
      (.text "say \x22+\x22 'now'" (by decide))
      [(⟨" \n".toList, [], by decide, rfl⟩, .name '\x60' "level > 1" (.inr rfl) (by decide))]
      (by decide)
    exact hsum
  · have hcompiles : (compile .builtinsOnly ⟨0, 0⟩ .fixed [] "\x22a\\b\x22" .empty).isOk = true := by
      decide +kernel
    obtain ⟨_, hcompile⟩ := exists_of_isOk hcompiles
    exact ⟨_, _, hcompile, (compile_embedded .builtinsOnly ⟨0, 0⟩ [] .empty).2 _ _ _ _ hcompile⟩

end Formula

end ProcessFormula
