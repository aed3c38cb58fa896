import ProcessFormula.Proofs.Grammar.Faults

/-!
The limits of the parser on nesting and on height. Every expression is read with some levels of
nesting left to it. They and the levels that the text in front of the expression leaves open always
add up to one more than the limit, so the parser refuses an expression for its nesting exactly where
one level too many would be opened. It refuses one for its height exactly when the tree that it has
just completed is one too tall, and then no smaller part of that tree was too tall.
-/

namespace ProcessFormula.Grammar

open Text Lexeme ProcessFormula.Parser

variable {scope : Scope} {depth levels : Nat} {s t u : Input} {e : Failure}

/-- Why reading an expression fails that may still open some levels: at its own fault, because a
tree is too tall, or where one level more than these would be opened. -/
inductive Explained (scope : Scope) (levels : Nat) (s : Input) : Failure → Prop
  | own {e : Failure} (h : e.fault.isLocal = true) : Explained scope levels s e
  | tall {depth : Nat} {unread : Input} (h : TooTall scope depth s unread) :
      Explained scope levels s ⟨.tooDeep maxHeight, unread⟩
  | deep {before : List Token} {mark : Token} {t : Input}
      (hlead : Lexes .operand s (before ++ [mark]) .operand t) (hbefore : Opens levels before)
      (hmark : Opens 1 [mark]) : Explained scope levels s ⟨.tooDeep maxNesting, t⟩

/-- What fails behind an opened level fails with one level less. -/
theorem Explained.behind (h : Explained scope levels u e) {lead : List Token}
    (hlead : Lexes .operand s lead .operand u) (hopens : Opens 1 lead) :
    Explained scope (levels + 1) s e := by
  cases h with
  | own h => exact .own h
  | tall h => exact .tall (h.behind hlead)
  | deep hlead' hbefore hmark =>
      have hlead'' := hlead.append hlead'
      rw [← List.append_assoc] at hlead''
      have hopens' := hopens.append hbefore
      rw [Nat.add_comm] at hopens'
      exact .deep hlead'' hopens' hmark

/-- A failure has one of three reasons, by induction on the levels that are left. Where a level more
would be needed, that expression is begun as the first behind the mark that opens it. -/
theorem explained_expression (levels : Nat) :
    ∀ depth, depth + levels = maxNesting → ∀ s e, StartsSolid s →
      expression scope (levels + 1) s = .error e → Explained scope levels s e := by
  induction levels with
  | zero =>
      intro depth hdepth s e hs he
      cases accounts_expression hdepth s e hs he with
      | own h => exact .own h
      | tall h => exact .tall h
      | begins hlead hbefore hmark he =>
          obtain rfl := Except.error.inj he
          exact .deep hlead hbefore hmark
      | goesOn _ _ hsome _ =>
          obtain ⟨u, p, hp⟩ := hsome
          cases hp
  | succ levels ih =>
      intro depth hdepth s e hs he
      cases accounts_expression hdepth s e hs he with
      | own h => exact .own h
      | tall h => exact .tall h
      | begins hlead hbefore hmark he =>
          have hmore := ih (depth + 1) (by omega) _ e (hlead.startsSolid hs) he
          exact hmore.behind hlead (by simpa using hbefore.append hmark)
      | goesOn hlead hopens _ he =>
          have hmore := ih (depth + 1) (by omega) _ e (hlead.startsSolid hs) he
          exact hmore.behind hlead hopens

/-- A formula is refused for a limit where it goes beyond that limit. -/
theorem explained_formula {text : List Char} {limit : Nat} {unread : Input}
    (he : formula scope text = .error ⟨.tooDeep limit, unread⟩) :
    Explained scope maxNesting (skipBlanks text) ⟨.tooDeep limit, unread⟩ := by
  rcases bind_eq_error_iff.mp he with he | ⟨p, -, he⟩
  · exact explained_expression maxNesting 0 (Nat.zero_add _) _ _ (startsSolid_skipBlanks text) he
  · split at he
    · cases he
    · cases he

/-! ### The expressions that are read -/

/-- The reader, but for one text with which it fails. -/
def failingAt (t : Input) (failure : Failure) (reader : Reader) : Reader :=
  fun u => if u = t then .error failure else reader u

/-- In the course of reading an expression from `s`, one with `levels` levels left to it is begun at
`t`: whatever failure there would be with that one is the failure of the whole. -/
def Begins (scope : Scope) (levels : Nat) (s t : Input) : Prop :=
  ∀ failure, logical scope (failingAt t failure (expression scope levels)) s = .error failure

/-- In the course of reading a formula, an expression with `levels` levels left to it is begun at
the unread text. -/
inductive During (scope : Scope) (text : List Char) : Nat → Input → Prop
  | whole : During scope text (maxNesting + 1) (skipBlanks text)
  | begun {levels : Nat} {s t : Input} (h : During scope text (levels + 1) s)
      (hbegins : Begins scope levels s t) : During scope text levels t

theorem ok_of_failingAt {failure : Failure} {reader : Reader} {p : Parsed u}
    (hp : failingAt t failure reader u = .ok p) : reader u = .ok p := by
  unfold failingAt at hp
  split at hp
  · cases hp
  · exact hp

/-- A failure that no reader has of its own. -/
def foreign : Failure := ⟨.unreadable "", []⟩

/-- No reader fails with a failure that is not its own. -/
theorem expression_ne_foreign (hlevels : depth + levels = maxNesting) (hs : StartsSolid s) :
    expression scope levels s ≠ .error foreign := by
  intro he
  cases levels with
  | zero => cases he
  | succ levels =>
      -- The level of this expression is one deeper than that of the expression that begins it.
      have hexplained := explained_expression levels (depth + 1) (by omega) s foreign hs he
      generalize hforeign : foreign = e at hexplained
      cases hexplained with
      | own h =>
          rw [← hforeign] at h
          cases h
      | tall | deep => cases hforeign

/-- A failure that only one expression has shows that this expression was begun. -/
theorem eq_of_failingAt_foreign (hlevels : depth + levels = maxNesting) (hu : StartsSolid u)
    (h : failingAt t foreign (expression scope levels) u = .error foreign) : u = t := by
  by_contra hne
  rw [failingAt, if_neg hne] at h
  exact expression_ne_foreign hlevels hu h

/-- Exactly one level is opened between the start of an expression and the start of another that is
begun in the course of reading it. -/
theorem Begins.lead (h : Begins scope levels s t) (hlevels : depth + levels = maxNesting)
    (hs : StartsSolid s) : ∃ lead, Lexes .operand s lead .operand t ∧ Opens 1 lead := by
  have hsound : Sound (failingAt t foreign (expression scope levels)) (DerivesNested scope depth) :=
    fun u p hu hp => sound_nested hlevels u p hu (ok_of_failingAt hp)
  have haccounted := accounts_logical hsound
    (fun u p hp => expression_settled levels u p (ok_of_failingAt hp)) s foreign hs (h foreign)
  generalize hforeign : foreign = e at haccounted
  cases haccounted with
  | own h =>
      rw [← hforeign] at h
      cases h
  | tall => cases hforeign
  | begins hlead hbefore hmark he =>
      subst hforeign
      obtain rfl := eq_of_failingAt_foreign hlevels (hlead.startsSolid hs) he
      exact ⟨_, hlead, by simpa using hbefore.append hmark⟩
  | goesOn hlead hopens _ he =>
      subst hforeign
      obtain rfl := eq_of_failingAt_foreign hlevels (hlead.startsSolid hs) he
      exact ⟨_, hlead, hopens⟩

/-- The levels left to an expression and those that are open where it begins add up to one more than
the limit. -/
theorem During.opens {text : List Char} (h : During scope text levels t) :
    ∃ row, Lexes .operand (skipBlanks text) row .operand t ∧
      ∃ opened, Opens opened row ∧ opened + levels = maxNesting + 1 := by
  induction h with
  | whole => exact ⟨[], .nil, 0, opens_nil, Nat.zero_add _⟩
  | @begun levels s t _ hbegins ih =>
      obtain ⟨row, hrow, opened, hopens, hopened⟩ := ih
      have hs : StartsSolid s := hrow.startsSolid (startsSolid_skipBlanks text)
      have hlevels : opened + levels = maxNesting := by omega
      obtain ⟨lead, hlead, hopens'⟩ := hbegins.lead hlevels hs
      exact ⟨row ++ lead, hrow.append hlead, opened + 1, hopens.append hopens', by omega⟩

/-- A failure of an expression that is begun is the failure of the formula. -/
theorem During.fails {text : List Char} (h : During scope text levels t)
    (he : expression scope levels t = .error e) : formula scope text = .error e := by
  induction h with
  | whole => exact bind_eq_error he
  | @begun levels s t _ hbegins ih =>
      have hsame : failingAt t e (expression scope levels) = expression scope levels := by
        funext u
        unfold failingAt
        split
        · next hu => rw [hu, he]
        · rfl
      refine ih ?_
      rw [← hbegins e, hsame]
      rfl

end ProcessFormula.Grammar
