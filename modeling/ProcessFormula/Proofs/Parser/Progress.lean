import ProcessFormula.Proofs.Grammar.Squeezing
import ProcessFormula.Proofs.Parser.Recording

/-!
The parser never reads backwards and never stands still. What is recorded about a run moves through
the text in one direction, each reader that returns and each round of a loop has read at least one
character, and the reader of operands is called at most once for each character and once more at the
end.

The bound rests on one measure, the unread text. A reader that succeeds has read at least as many
characters as it called the reader of operands, and one that fails may have called it once more.
-/

namespace ProcessFormula.Parser

open Lexeme Text Grammar Recorded

/-- Reading went from `s` on to `rest`, by one character at least. -/
def Advances (s rest : Input) : Prop := rest <:+ s ∧ rest.length < s.length

/-- A call reads nothing. Everything else that happens reads at least one character. -/
def Event.Advances : Event → Prop
  | calls _ _ => True
  | returns _ s rest | goesRound _ s rest | passes s rest => Parser.Advances s rest

def primaryCalls (events : List Event) : Nat := events.countP Event.isPrimaryCall

theorem primaryCalls_append (events others : List Event) :
    primaryCalls (events ++ others) = primaryCalls events + primaryCalls others :=
  List.countP_append

/-! ### Events in order -/

/-- The events lead from `s` on to `t`, both of them rests of the text. -/
structure Orderly (text s : Input) (events : List Event) (t : Input) : Prop where
  inside : s <:+ text
  starts : ∀ event ∈ events, event.start <:+ text
  between : ∀ event ∈ events, event.unread <:+ s ∧ t <:+ event.unread
  forward : events.Pairwise fun event later => later.unread <:+ event.unread
  advances : ∀ event ∈ events, event.Advances
  reaches : t <:+ s

namespace Orderly

variable {text s t u : Input} {events others : List Event}

theorem nil (inside : s <:+ text) (reaches : t <:+ s) : Orderly text s [] t where
  inside := inside
  starts := List.forall_mem_nil _
  between := List.forall_mem_nil _
  forward := List.Pairwise.nil
  advances := List.forall_mem_nil _
  reaches := reaches

theorem single (event : Event) (inside : s <:+ text) (start : event.start <:+ text)
    (advances : event.Advances) (reaches : event.unread <:+ s) :
    Orderly text s [event] event.unread where
  inside := inside
  starts := List.forall_mem_singleton.mpr start
  between := List.forall_mem_singleton.mpr ⟨reaches, List.suffix_rfl⟩
  forward := List.pairwise_singleton _ _
  advances := List.forall_mem_singleton.mpr advances
  reaches := reaches

theorem append (h : Orderly text s events t) (h' : Orderly text t others u) :
    Orderly text s (events ++ others) u where
  inside := h.inside
  starts := List.forall_mem_append.mpr ⟨h.starts, h'.starts⟩
  between event hevent := by
    rcases List.mem_append.mp hevent with hevent | hevent
    · obtain ⟨hs, ht⟩ := h.between event hevent
      exact ⟨hs, h'.reaches.trans ht⟩
    · obtain ⟨ht, hu⟩ := h'.between event hevent
      exact ⟨ht.trans h.reaches, hu⟩
  forward := by
    apply List.pairwise_append.mpr
    refine ⟨h.forward, h'.forward, ?_⟩
    intro event hevent later hlater
    exact (h'.between later hlater).1.trans (h.between event hevent).2
  advances := List.forall_mem_append.mpr ⟨h.advances, h'.advances⟩
  reaches := h'.reaches.trans h.reaches

end Orderly

/-! ### Runs -/

/-- A run that begins in front of `s` is in order. It may call the reader of operands once for each
character that it reads, less `spare` of them; a run that fails may call it once more. -/
inductive Marches (text s : Input) (spare : Nat) {α : Type} (stops : α → Input) : Recorded α → Prop
  | ok {events : List Event} {a : α} (orderly : Orderly text s events (stops a))
      (few : primaryCalls events + spare + (stops a).length ≤ s.length) :
      Marches text s spare stops ⟨events, .ok a⟩
  | error {events : List Event} {e : Failure} {t : Input} (orderly : Orderly text s events t)
      (few : primaryCalls events + spare + t.length ≤ s.length + 1) :
      Marches text s spare stops ⟨events, .error e⟩

namespace Marches

variable {text s t : Input} {spare : Nat} {α β : Type} {stops : α → Input} {stops' : β → Input}

theorem pure {a : α} (inside : s <:+ text) (hstop : stops a = s) :
    Marches text s 0 stops (pure a) := by
  subst hstop
  apply Marches.ok (.nil inside List.suffix_rfl)
  simp [primaryCalls]

theorem fail (inside : s <:+ text) (hspare : spare ≤ 1) (e : Failure) :
    Marches text s spare stops (silent (.error e)) := by
  apply Marches.error (.nil inside List.suffix_rfl)
  simp only [primaryCalls, List.countP_nil]
  omega

/-- What happens first comes first, and makes room for calls or takes room away. -/
theorem after (spare : Nat) {events : List Event} {spare' : Nat} {y : Recorded α}
    (orderly : Orderly text s events t)
    (few : primaryCalls events + spare' + t.length ≤ s.length + spare)
    (hmore : Marches text t spare stops y) :
    Marches text s spare' stops ⟨events ++ y.events, y.result⟩ := by
  cases hmore with
  | ok orderly' few' =>
      apply Marches.ok (orderly.append orderly')
      rw [primaryCalls_append]
      omega
  | error orderly' few' =>
      apply Marches.error (orderly.append orderly')
      rw [primaryCalls_append]
      omega

theorem bind {x : Recorded α} {f : α → Recorded β} (h : Marches text s spare stops x)
    (hmore : ∀ a, x.result = .ok a → stops a <:+ s → Marches text (stops a) 0 stops' (f a)) :
    Marches text s spare stops' (x >>= f) := by
  cases h with
  | error orderly few => exact .error orderly few
  | ok orderly few => exact after 0 orderly few (hmore _ rfl orderly.reaches)

theorem record (spare : Nat) {events : List Event} {spare' : Nat} {y : Recorded α}
    (orderly : Orderly text s events t)
    (few : primaryCalls events + spare' + t.length ≤ s.length + spare)
    (hmore : Marches text t spare stops y) :
    Marches text s spare' stops (record events >>= fun _ => y) :=
  after spare orderly few hmore

/-- A mark that is passed makes room for one call. -/
theorem passes (spare : Nat) {rest : Input} {spare' : Nat} {y : Recorded α} (inside : s <:+ text)
    (h : Advances s rest) (hspare : spare' ≤ spare + 1) (hmore : Marches text rest spare stops y) :
    Marches text s spare' stops (Recorded.record [.passes s rest] >>= fun _ => y) := by
  apply record spare (Orderly.single (.passes s rest) inside inside h h.1) _ hmore
  have hquiet : primaryCalls [.passes s rest] = 0 := rfl
  have hlength := h.2
  simp only [hquiet, Event.unread]
  omega

/-- A round of a loop over operators or arguments is written down where it ends. -/
theorem round {first rest : Input} {loop : Loop} {y : Recorded α} (start : first <:+ text)
    (inside : s <:+ text) (h : Advances first rest) (hrest : rest <:+ s)
    (hmore : Marches text rest spare stops y) :
    Marches text s spare stops
      (Recorded.record [.goesRound loop first rest] >>= fun _ => y) := by
  apply record spare (Orderly.single (.goesRound loop first rest) inside start h hrest) _ hmore
  have hquiet : primaryCalls [.goesRound loop first rest] = 0 := rfl
  have hlength := hrest.length_le
  simp only [hquiet, Event.unread]
  omega

/-- A step in which nothing is read. -/
theorem silent {x : Except Failure β} {f : β → Recorded α} (inside : s <:+ text)
    (hspare : spare ≤ 1) (hmore : ∀ b, x = .ok b → Marches text s spare stops (f b)) :
    Marches text s spare stops (silent x >>= f) := by
  cases x with
  | error e => exact fail inside hspare e
  | ok b => exact hmore b rfl

/-- A last step in which nothing is read. -/
theorem settle {x : Except Failure α} (inside : s <:+ text)
    (hstop : ∀ a, x = .ok a → stops a = s) : Marches text s 0 stops (Recorded.silent x) := by
  cases x with
  | error e => exact fail inside (Nat.zero_le 1) e
  | ok a => exact pure inside (hstop a rfl)

/-- A reader stops at a later place of the same text. -/
theorem suffix {x : Recorded α} (h : Marches text s spare stops x) {a : α}
    (ha : x.result = .ok a) : stops a <:+ s := by
  cases h with
  | ok orderly few =>
      obtain rfl := Except.ok.inj ha
      exact orderly.reaches
  | error orderly few => cases ha

end Marches

/-! ### Lexemes -/

theorem skipBlanks_suffix (s : Input) : skipBlanks s <:+ s := List.dropWhile_suffix isBlank

theorem skipBlanks_cons_of_blank {c : Char} (hc : isBlank c = true) (s : Input) :
    skipBlanks (c :: s) = skipBlanks s :=
  List.dropWhile_cons_of_pos hc

theorem accept_suffix {c : Char} {s : Input} {rest : Shorter s} (h : accept c s = some rest) :
    rest.1 <:+ s := by
  unfold accept at h
  split at h
  · cases h
  · next d s =>
    split at h
    · obtain rfl := Option.some.inj h
      exact (skipBlanks_suffix s).trans (List.suffix_cons d s)
    · cases h

theorem accept_advances {c : Char} {s : Input} {rest : Shorter s} (h : accept c s = some rest) :
    Advances s rest.1 :=
  ⟨accept_suffix h, rest.2⟩

theorem skip_suffix (c : Char) (s : Input) : skip c s <:+ s := by
  unfold skip
  split
  · next rest hrest => exact accept_suffix hrest
  · exact List.suffix_rfl

/-! ### Loops over characters -/

/-- Events in order, none of which is a call of the reader of operands. -/
structure Quiet (text s : Input) (events : List Event) (t : Input) : Prop
    extends Orderly text s events t where
  quiet : primaryCalls events = 0

namespace Quiet

variable {text t : Input} {events : List Event} {loop : Loop} {c : Char} {s : Input}

theorem nil (inside : s <:+ text) (reaches : t <:+ s) : Quiet text s [] t :=
  ⟨.nil inside reaches, List.countP_nil⟩

/-- A round reads the character in front, and what the loop skips behind it. -/
theorem round {rest : Input} (inside : c :: s <:+ text) (hrest : rest <:+ s)
    (h : Quiet text rest events t) :
    Quiet text (c :: s) (.goesRound loop (c :: s) rest :: events) t := by
  have hsuffix : rest <:+ c :: s := hrest.trans (List.suffix_cons c s)
  have hlength : rest.length < (c :: s).length := Nat.lt_succ_of_le hrest.length_le
  have hround : Orderly text (c :: s) [.goesRound loop (c :: s) rest] rest :=
    .single (.goesRound loop (c :: s) rest) inside inside ⟨hsuffix, hlength⟩ hsuffix
  exact ⟨hround.append h.toOrderly, h.quiet⟩

/-- A round of a loop that skips the blanks behind the character it reads. -/
theorem solidRound (hc : isBlank c = false) (inside : skipBlanks (c :: s) <:+ text)
    (h : skipBlanks s <:+ text → Quiet text (skipBlanks s) events t) :
    Quiet text (skipBlanks (c :: s)) (.goesRound loop (c :: s) (skipBlanks s) :: events) t := by
  rw [skipBlanks_of_startsSolid (startsSolid_cons.mpr hc)] at inside ⊢
  apply round inside (skipBlanks_suffix s)
  exact h ((skipBlanks_suffix s).trans ((List.suffix_cons c s).trans inside))

theorem behind {first : Input} (inside : first <:+ text) (hs : s <:+ first)
    (h : Quiet text s events t) : Quiet text first events t :=
  ⟨(Orderly.nil inside hs).append h.toOrderly, h.quiet⟩

end Quiet

theorem Marches.rounds (spare : Nat) {text s t : Input} {spare' : Nat} {α : Type}
    {stops : α → Input} {events : List Event} {y : Recorded α} (h : Quiet text s events t)
    (hspare : spare' + t.length ≤ s.length + spare) (hmore : Marches text t spare stops y) :
    Marches text s spare' stops (Recorded.record events >>= fun _ => y) := by
  apply record spare h.toOrderly _ hmore
  rw [h.quiet]
  omega

section

variable {text : Input}

/-- Reading a bare name goes through its characters one by one and calls no reader. -/
theorem quiet_nameRounds {s : Input} (inside : skipBlanks s <:+ text) :
    Quiet text (skipBlanks s) (nameRounds s) (bareName s).2 := by
  fun_induction bareName s with
  | case1 => exact .nil inside List.suffix_rfl
  | case2 c s hc name rest hs ih =>
      rw [hs] at ih
      simp only [nameRounds, hc, if_true]
      exact .solidRound (isBlank_of_isNameChar hc) inside ih
  | case3 c s hc hblank ih =>
      rw [skipBlanks_cons_of_blank hblank] at inside ⊢
      simp only [nameRounds, hc, hblank, if_true]
      exact ih inside
  | case4 c s hc hblank =>
      rw [skipBlanks_of_startsSolid (startsSolid_cons.mpr (eq_false_of_ne_true hblank))] at inside ⊢
      simp only [nameRounds, hc, hblank]
      exact .nil inside List.suffix_rfl

/-- So does reading a number. -/
theorem quiet_numberRounds (afterMark : Bool) {s : Input} (inside : skipBlanks s <:+ text) :
    Quiet text (skipBlanks s) (numberRounds afterMark s) (numberRun afterMark s).2 := by
  fun_induction numberRun afterMark s with
  | case1 => exact .nil inside List.suffix_rfl
  | case2 afterMark c s hc digits rest hs ih =>
      rw [hs] at ih
      simp only [numberRounds, hc, if_true]
      exact .solidRound (isBlank_of_continuesNumber hc) inside ih
  | case3 afterMark c s hc hblank ih =>
      rw [skipBlanks_cons_of_blank hblank] at inside ⊢
      simp only [numberRounds, hc, hblank, if_true]
      exact ih inside
  | case4 afterMark c s hc hblank =>
      rw [skipBlanks_of_startsSolid (startsSolid_cons.mpr (eq_false_of_ne_true hblank))] at inside ⊢
      simp only [numberRounds, hc, hblank]
      exact .nil inside List.suffix_rfl

/-- The loop over a string ends behind its closing quote or at the end of the text. -/
theorem quiet_stringRounds (escaped : Bool) {s : Input} (inside : s <:+ text) :
    Quiet text s (stringRounds escaped s) ((stringBody escaped s).elim [] Prod.snd) := by
  induction s generalizing escaped with
  | nil => exact .nil inside List.suffix_rfl
  | cons c s ih =>
      unfold stringRounds stringBody
      split
      · exact .nil inside ((skipBlanks_suffix s).trans (List.suffix_cons c s))
      · have hnext := ih (c == '\\') ((List.suffix_cons c s).trans inside)
        apply Quiet.round inside List.suffix_rfl
        split
        · next hbackslash =>
          rwa [beq_iff_eq.mpr hbackslash] at hnext ⊢
        · next hbackslash =>
          rw [beq_eq_false_iff_ne.mpr hbackslash] at hnext ⊢
          rwa [Option.elim_map]

theorem quiet_quotedRounds (c : Char) {s : Input} (inside : s <:+ text) :
    Quiet text s (quotedRounds c s) ((upTo c s).elim [] Prod.snd) := by
  induction s with
  | nil => exact .nil inside List.suffix_rfl
  | cons d s ih =>
      unfold quotedRounds upTo
      split
      · exact .nil inside ((skipBlanks_suffix s).trans (List.suffix_cons d s))
      · apply Quiet.round inside List.suffix_rfl
        rw [Option.elim_map]
        exact ih ((List.suffix_cons d s).trans inside)

end

/-! ### Operands -/

section

variable {text : Input} {scope : Scope} {nested : Recording.Recorder}

/-- Wherever the reader begins in the text, its run is in order. -/
def Orders (text : Input) (reader : Recording.Recorder) : Prop :=
  ∀ s, s <:+ text → Marches text s 0 (fun p : Parsed s => p.rest) (reader s)

/-- A closing parenthesis is read forward and without calling a reader of operands. -/
theorem marches_closeParenthesis {s : Input} (inside : s <:+ text) :
    Marches text s 0 (fun rest : Shorter s => rest.1) (Recording.closeParenthesis s) := by
  apply Marches.silent inside (Nat.zero_le 1)
  intro rest hrest
  have hpast : Advances s rest.1 := by
    unfold closeParenthesis at hrest
    split at hrest
    · next hclose =>
      obtain rfl := Except.ok.inj hrest
      exact accept_advances hclose
    · cases hrest
  apply Marches.passes 0 inside hpast (Nat.zero_le 1)
  exact .pure (hpast.1.trans inside) rfl

theorem marches_number {c : Char} {s : Input} (hc : startsNumber c = true)
    (inside : c :: s <:+ text) :
    Marches text (c :: s) 1 (fun p : Operand (c :: s) => p.rest) (Recording.number c s hc) := by
  have hskip : skipBlanks (c :: s) <:+ c :: s := skipBlanks_suffix _
  have hrounds := (quiet_numberRounds false (hskip.trans inside)).behind inside hskip
  have hlength := length_numberRun_lt c s hc
  apply Marches.rounds 0 hrounds (by omega)
  apply Marches.settle (hrounds.reaches.trans inside)
  intro p hp
  simp only [number] at hp
  split at hp
  · obtain rfl := Except.ok.inj hp
    rfl
  · cases hp

theorem marches_string {c : Char} {s : Input} (inside : c :: s <:+ text) :
    Marches text (c :: s) 1 (fun p : Operand (c :: s) => p.rest) (Recording.string c s) := by
  have hs : s <:+ c :: s := List.suffix_cons c s
  have hrounds := quiet_stringRounds false (hs.trans inside)
  apply Marches.passes 0 inside ⟨hs, Nat.lt_succ_self _⟩ (Nat.le_refl 1)
  apply Marches.rounds 0 hrounds (by have := hrounds.reaches.length_le; omega)
  apply Marches.settle (hrounds.reaches.trans (hs.trans inside))
  intro p hp
  unfold string at hp
  split at hp
  · next r hr =>
    obtain rfl := Except.ok.inj hp
    simp only [hr, Option.elim_some]
  · cases hp

theorem marches_quotedName {c : Char} {s : Input} (inside : c :: s <:+ text) :
    Marches text (c :: s) 1 (fun p : Operand (c :: s) => p.rest)
      (Recording.quotedName scope c s) := by
  have hs : s <:+ c :: s := List.suffix_cons c s
  have hrounds := quiet_quotedRounds c (hs.trans inside)
  apply Marches.passes 0 inside ⟨hs, Nat.lt_succ_self _⟩ (Nat.le_refl 1)
  apply Marches.rounds 0 hrounds (by have := hrounds.reaches.length_le; omega)
  apply Marches.settle (hrounds.reaches.trans (hs.trans inside))
  intro p hp
  unfold quotedName at hp
  split at hp
  · next r hr =>
    obtain ⟨tree, _, hp⟩ := bind_eq_ok.mp hp
    obtain rfl := Except.ok.inj hp
    simp only [hr, Option.elim_some]
  · cases hp

theorem marches_arguments (hnested : Orders text nested) {s : Input} (inside : s <:+ text) :
    Marches text s 0 (fun a : Arguments s => a.rest) (Recording.arguments nested s) := by
  induction s using Recording.arguments.induct with
  | case1 s ih =>
      rw [Recording.arguments]
      apply (hnested s inside).bind
      intro first _ hfirst
      have hround : Advances s first.rest := ⟨hfirst, first.shorter⟩
      have hinside : first.rest <:+ text := hfirst.trans inside
      split
      · exact .round inside hinside hround List.suffix_rfl (.pure hinside rfl)
      · next rest hcomma =>
        have hrest : rest.1 <:+ first.rest := accept_suffix hcomma
        apply Marches.round inside hinside ⟨hrest.trans hfirst, Nat.lt_trans rest.2 first.shorter⟩
          hrest
        apply (ih first rest (hrest.trans hinside)).bind
        intro more _ hmore
        exact .pure (hmore.trans (hrest.trans hinside)) rfl

theorem marches_parenthesised (hnested : Orders text nested) {s : Input} {inner : Shorter s}
    (inside : s <:+ text) (hinner : inner.1 <:+ s) :
    Marches text s 1 (fun p : Operand s => p.rest) (Recording.parenthesised nested s inner) := by
  have hin : inner.1 <:+ text := hinner.trans inside
  apply Marches.passes 0 inside ⟨hinner, inner.2⟩ (Nat.le_refl 1)
  apply (hnested inner.1 hin).bind
  intro p _ hp
  apply (marches_closeParenthesis (hp.trans hin)).bind
  intro rest _ hrest
  exact .pure (hrest.trans (hp.trans hin)) rfl

theorem marches_namedBehind (hnested : Orders text nested) {name : String} {s : Input}
    (behind : Shorter s) (inside : behind.1 <:+ text) :
    Marches text behind.1 0 (fun p : Operand s => p.rest)
      (Recording.namedBehind scope nested name behind) := by
  unfold Recording.namedBehind
  split
  · apply Marches.silent inside (Nat.zero_le 1)
    intro tree _
    exact .pure inside rfl
  · next inner hopen =>
    have hinner : inner.1 <:+ text := (accept_suffix hopen).trans inside
    apply Marches.passes 0 inside (accept_advances hopen) (Nat.zero_le 1)
    split
    · next rest hclose =>
      have hrest : rest.1 <:+ text := (accept_suffix hclose).trans hinner
      apply Marches.passes 0 hinner (accept_advances hclose) (Nat.zero_le 1)
      apply Marches.silent hrest (Nat.zero_le 1)
      intro tree _
      exact .pure hrest rfl
    · apply (marches_arguments hnested hinner).bind
      intro args _ hargs
      apply (marches_closeParenthesis (hargs.trans hinner)).bind
      intro rest _ hrest
      have hend : rest.1 <:+ text := hrest.trans (hargs.trans hinner)
      apply Marches.silent hend (Nat.zero_le 1)
      intro tree _
      exact .pure hend rfl

theorem marches_named (hnested : Orders text nested) {s : Input} (inside : s <:+ text) :
    Marches text s 1 (fun p : Operand s => p.rest) (Recording.named scope nested s) := by
  have hskip : skipBlanks s <:+ s := skipBlanks_suffix s
  have hrounds := (quiet_nameRounds (hskip.trans inside)).behind inside hskip
  have hname : (bareName s).2 <:+ text := hrounds.reaches.trans inside
  have hle := hrounds.reaches.length_le
  unfold Recording.named
  by_cases hempty : (bareName s).1 = []
  · simp only [hempty, dif_pos]
    apply Marches.rounds 1 hrounds (by omega)
    exact .fail hname (Nat.le_refl 1) _
  · simp only [hempty, dif_neg, not_false_eq_true]
    have hlength := length_bareName_lt s hempty
    apply Marches.rounds 0 hrounds (by omega)
    exact marches_namedBehind hnested ⟨(bareName s).2, hlength⟩ hname

theorem marches_unsigned (hnested : Orders text nested) {s : Input} (inside : s <:+ text) :
    Marches text s 1 (fun p : Operand s => p.rest) (Recording.unsigned scope nested s) := by
  cases s with
  | nil => exact .fail inside (Nat.le_refl 1) _
  | cons c rest =>
      simp only [Recording.unsigned]
      split
      · exact marches_quotedName inside
      · split
        · exact marches_string inside
        · split
          · next hc => exact marches_number hc inside
          · split
            · next inner hopen =>
              exact marches_parenthesised hnested inside (accept_suffix hopen)
            · exact marches_named hnested inside

/-! ### Operators -/

/-- Where a reader is called and where it returns is in order. The call may be one of those that
are counted. -/
theorem orders_traced {level : Nonterminal} {reader : Recording.Recorder}
    (h : ∀ s, s <:+ text →
      Marches text s (primaryCalls [.calls level s]) (fun p : Parsed s => p.rest) (reader s)) :
    Orders text (Recording.traced level reader) := by
  intro s inside
  have hcall : Orderly text s [.calls level s] s :=
    .single (.calls level s) inside inside trivial List.suffix_rfl
  apply Marches.record (primaryCalls [.calls level s]) hcall (by omega)
  apply (h s inside).bind
  intro p _ hp
  have hrest : p.rest <:+ text := hp.trans inside
  have hreturn : Orderly text p.rest [.returns level s p.rest] p.rest :=
    .single (.returns level s p.rest) hrest inside ⟨hp, p.shorter⟩ List.suffix_rfl
  have hquiet : primaryCalls [.returns level s p.rest] = 0 := rfl
  apply Marches.record 0 hreturn (by omega)
  exact .pure hrest rfl

theorem orders_primary (hnested : Orders text nested) :
    Orders text (Recording.primary scope nested) := by
  apply orders_traced
  intro s inside
  split
  · apply (marches_unsigned hnested inside).bind
    intro p _ hp
    exact .pure (hp.trans inside) rfl
  · next inner hminus =>
    have hinner : inner.1 <:+ text := (accept_suffix hminus).trans inside
    apply Marches.passes 1 inside (accept_advances hminus) (Nat.le_succ 1)
    apply (marches_unsigned hnested hinner).bind
    intro p _ hp
    apply Marches.silent (hp.trans hinner) (Nat.zero_le 1)
    intro tree _
    exact .pure (hp.trans hinner) rfl

theorem orders_unary (hnested : Orders text nested) :
    Orders text (Recording.unary scope nested) := by
  apply orders_traced
  intro s inside
  split
  · exact orders_primary hnested s inside
  · next inner hmark =>
    have hinner : inner.1 <:+ text := (accept_suffix hmark).trans inside
    apply Marches.passes 0 inside (accept_advances hmark) (Nat.zero_le 1)
    apply (orders_primary hnested inner.1 hinner).bind
    intro p _ hp
    apply Marches.silent (hp.trans hinner) (Nat.zero_le 1)
    intro tree _
    exact .pure (hp.trans hinner) rfl

/-- Behind an operator stands a rest of the text in front of which the operator stands. -/
def PassesOperator (operator : (s : Input) → Except Failure (Operator s)) : Prop :=
  ∀ s op rest, operator s = .ok (some (op, rest)) → rest.1 <:+ s

theorem single_suffix {c : Char} {op op' : BinaryOp} {s : Input} {rest : Shorter s}
    (h : single c op s = some (op', rest)) : rest.1 <:+ s := by
  obtain ⟨rest', haccept, heq⟩ := Option.map_eq_some_iff.mp h
  obtain ⟨-, rfl⟩ := Prod.mk.inj heq
  exact accept_suffix haccept

theorem doubled_suffix {c : Char} {op op' : BinaryOp} {s : Input} {rest : Shorter s}
    (h : doubled c op s = some (op', rest)) : rest.1 <:+ s := by
  obtain ⟨rest', haccept, heq⟩ := Option.map_eq_some_iff.mp h
  obtain ⟨-, rfl⟩ := Prod.mk.inj heq
  exact (skip_suffix c rest'.1).trans (accept_suffix haccept)

theorem maybeEquals_suffix {c : Char} {alone orEqual op : BinaryOp} {s : Input} {rest : Shorter s}
    (h : maybeEquals c alone orEqual s = some (op, rest)) : rest.1 <:+ s := by
  obtain ⟨rest', haccept, heq⟩ := Option.map_eq_some_iff.mp h
  split at heq
  · next more hmore =>
    obtain ⟨-, rfl⟩ := Prod.mk.inj heq
    exact (accept_suffix hmore).trans (accept_suffix haccept)
  · obtain ⟨-, rfl⟩ := Prod.mk.inj heq
    exact accept_suffix haccept

theorem withEquals_suffix {c : Char} {op op' : BinaryOp} {expected : Expected} {s : Input}
    {rest : Shorter s} (h : withEquals c op expected s = .ok (some (op', rest))) :
    rest.1 <:+ s := by
  unfold withEquals at h
  split at h
  · cases h
  · next rest' haccept =>
    split at h
    · next more hmore =>
      obtain ⟨-, rfl⟩ := Prod.mk.inj (Option.some.inj (Except.ok.inj h))
      exact (accept_suffix hmore).trans (accept_suffix haccept)
    · cases h

theorem passesOperator_product : PassesOperator productOperator := by
  intro s op rest h
  rcases Option.or_eq_some_iff.mp (Except.ok.inj h) with h | ⟨-, h⟩
  · rcases Option.or_eq_some_iff.mp h with h | ⟨-, h⟩
    · exact single_suffix h
    · exact single_suffix h
  · exact single_suffix h

theorem passesOperator_sum : PassesOperator sumOperator := by
  intro s op rest h
  rcases Option.or_eq_some_iff.mp (Except.ok.inj h) with h | ⟨-, h⟩
  · exact single_suffix h
  · exact single_suffix h

theorem passesOperator_compare : PassesOperator compareOperator := by
  intro s op rest h
  obtain ⟨ne, hne, h⟩ := bind_eq_ok.mp h
  obtain ⟨eq, heq, h⟩ := bind_eq_ok.mp h
  rcases Option.or_eq_some_iff.mp (Except.ok.inj h) with h | ⟨-, h⟩
  · rcases Option.or_eq_some_iff.mp h with h | ⟨-, h⟩
    · rcases Option.or_eq_some_iff.mp h with h | ⟨-, h⟩
      · exact withEquals_suffix (hne.trans (congrArg _ h))
      · exact withEquals_suffix (heq.trans (congrArg _ h))
    · exact maybeEquals_suffix h
  · exact maybeEquals_suffix h

theorem junctionOperator_suffix {s : Input} {op : BinaryOp} {rest : Shorter s}
    (h : junctionOperator s = some (op, rest)) : rest.1 <:+ s := by
  rcases Option.or_eq_some_iff.mp h with h | ⟨-, h⟩
  · exact doubled_suffix h
  · exact doubled_suffix h

theorem marches_chainFrom {level : Nonterminal}
    {operator : (s : Input) → Except Failure (Operator s)} {operand : Recording.Recorder}
    (hoperator : PassesOperator operator) (hoperand : Orders text operand) {s : Input}
    (left : Parsed s) (inside : left.rest <:+ text) :
    Marches text left.rest 0 (fun p : Parsed s => p.rest)
      (Recording.chainFrom level operator operand left) := by
  induction left using Recording.chainFrom.induct with
  | case1 left ih =>
      rw [Recording.chainFrom]
      apply Marches.silent inside (Nat.zero_le 1)
      rintro (_ | ⟨op, rest⟩) hfound
      · exact .pure inside rfl
      · have hrest : rest.1 <:+ left.rest := hoperator _ _ _ hfound
        apply Marches.passes 0 inside ⟨hrest, rest.2⟩ (Nat.zero_le 1)
        apply (hoperand rest.1 (hrest.trans inside)).bind
        intro right _ hright
        have hround : Advances left.rest right.rest :=
          ⟨hright.trans hrest, Nat.lt_trans right.shorter rest.2⟩
        have hinside : right.rest <:+ text := hround.1.trans inside
        apply Marches.silent hinside (Nat.zero_le 1)
        intro tree _
        apply Marches.round inside hinside hround List.suffix_rfl
        exact ih rest right tree hinside

/-- A chain of operators whose call is not one of those that are counted. -/
theorem orders_chain {level : Nonterminal} (hlevel : ∀ s, primaryCalls [.calls level s] = 0)
    {operator : (s : Input) → Except Failure (Operator s)} {operand : Recording.Recorder}
    (hoperator : PassesOperator operator) (hoperand : Orders text operand) :
    Orders text (Recording.chain level operator operand) := by
  apply orders_traced
  intro s inside
  rw [hlevel]
  apply (hoperand s inside).bind
  intro left _ hleft
  exact marches_chainFrom hoperator hoperand left (hleft.trans inside)

theorem orders_product (hnested : Orders text nested) :
    Orders text (Recording.product scope nested) :=
  orders_chain (fun _ => rfl) passesOperator_product (orders_unary hnested)

theorem orders_sum (hnested : Orders text nested) :
    Orders text (Recording.sum scope nested) :=
  orders_chain (fun _ => rfl) passesOperator_sum (orders_product hnested)

theorem orders_compare (hnested : Orders text nested) :
    Orders text (Recording.compare scope nested) :=
  orders_chain (fun _ => rfl) passesOperator_compare (orders_sum hnested)

theorem marches_logicalFrom (hnested : Orders text nested) {s : Input} (left : Parsed s)
    (inside : left.rest <:+ text) :
    Marches text left.rest 0 (fun p : Parsed s => p.rest)
      (Recording.logicalFrom scope nested left) := by
  induction left using Recording.logicalFrom.induct with
  | case1 left op rest hop ih =>
      rw [Recording.logicalFrom]
      simp only [hop]
      have hrest : rest.1 <:+ left.rest := junctionOperator_suffix hop
      apply Marches.passes 0 inside ⟨hrest, rest.2⟩ (Nat.zero_le 1)
      apply (orders_compare hnested rest.1 (hrest.trans inside)).bind
      intro right _ hright
      have hround : Advances left.rest right.rest :=
        ⟨hright.trans hrest, Nat.lt_trans right.shorter rest.2⟩
      have hinside : right.rest <:+ text := hround.1.trans inside
      apply Marches.silent hinside (Nat.zero_le 1)
      intro tree _
      apply Marches.round inside hinside hround List.suffix_rfl
      exact ih right tree hinside
  | case2 left hop hmark =>
      rw [Recording.logicalFrom]
      simp only [hop, hmark]
      exact .pure inside rfl
  | case3 left hop rest hmark ih =>
      rw [Recording.logicalFrom]
      simp only [hop, hmark]
      have hrest : rest.1 <:+ left.rest := accept_suffix hmark
      apply Marches.passes 0 inside ⟨hrest, rest.2⟩ (Nat.zero_le 1)
      apply (orders_compare hnested rest.1 (hrest.trans inside)).bind
      intro thenBranch _ hthen
      have hinside : thenBranch.rest <:+ text := hthen.trans (hrest.trans inside)
      split
      · exact .fail hinside (Nat.zero_le 1) _
      · next afterColon hcolon =>
        have hafter : afterColon.1 <:+ text := (accept_suffix hcolon).trans hinside
        apply Marches.passes 0 hinside (accept_advances hcolon) (Nat.zero_le 1)
        apply (hnested afterColon.1 hafter).bind
        intro elseBranch _ helse
        have hround : Advances left.rest elseBranch.rest :=
          ⟨helse.trans ((accept_suffix hcolon).trans (hthen.trans hrest)),
            Nat.lt_trans elseBranch.shorter
              (Nat.lt_trans afterColon.2 (Nat.lt_trans thenBranch.shorter rest.2))⟩
        have hend : elseBranch.rest <:+ text := hround.1.trans inside
        apply Marches.silent hend (Nat.zero_le 1)
        intro tree _
        apply Marches.round inside hend hround List.suffix_rfl
        exact ih thenBranch afterColon elseBranch tree hend

theorem orders_logical (hnested : Orders text nested) :
    Orders text (Recording.logical scope nested) := by
  apply orders_traced
  intro s inside
  apply (orders_compare hnested s inside).bind
  intro left _ hleft
  exact marches_logicalFrom hnested left (hleft.trans inside)

theorem orders_recorder (hnested : Orders text nested) (level : Nonterminal) :
    Orders text (level.recorder scope nested) := by
  cases level with
  | logical => exact orders_logical hnested
  | compare => exact orders_compare hnested
  | sum => exact orders_sum hnested
  | product => exact orders_product hnested
  | unary => exact orders_unary hnested
  | primary => exact orders_primary hnested

end

/-! ### Whole texts -/

theorem orders_expression (text : Input) (scope : Scope) (levels : Nat) :
    Orders text (Recording.expression scope levels) := by
  induction levels with
  | zero =>
      intro s inside
      exact .fail inside (Nat.zero_le 1) _
  | succ levels ih => exact orders_logical ih

/-- A run over a whole text that succeeds has read all of it. -/
theorem marches_formula (scope : Scope) (text : Input) :
    Marches text (skipBlanks text) 0 (fun _ => []) (Recording.formula scope text) := by
  have inside : skipBlanks text <:+ text := skipBlanks_suffix text
  apply (orders_expression text scope (maxNesting + 1) (skipBlanks text) inside).bind
  intro p _ hp
  split
  · next hend => exact .pure (hp.trans inside) (List.isEmpty_iff.mp hend).symm
  · exact .fail (hp.trans inside) (Nat.zero_le 1) _

theorem Marches.orderly {text s : Input} {spare : Nat} {α : Type} {stops : α → Input}
    {x : Recorded α} (h : Marches text s spare stops x) : ∃ t, Orderly text s x.events t := by
  cases h with
  | ok orderly few => exact ⟨_, orderly⟩
  | error orderly few => exact ⟨_, orderly⟩

theorem Marches.primaryCalls_le {text s : Input} {spare : Nat} {α : Type} {stops : α → Input}
    {x : Recorded α} (h : Marches text s spare stops x) :
    primaryCalls x.events ≤ s.length + 1 := by
  cases h with
  | ok orderly few =>
      simp only
      omega
  | error orderly few =>
      simp only
      omega

/-- A reader of any level that returns has read at least one character. -/
theorem reader_advances {scope : Scope} {levels : Nat} {level : Nonterminal} {s : Input}
    {p : Parsed s} (h : level.reader scope (expression scope levels) s = .ok p) :
    Advances s p.rest := by
  rw [← Recording.erase_expression, ← Nonterminal.erase_recorder] at h
  have horders : Orders s (level.recorder scope (Recording.expression scope levels)) :=
    orders_recorder (orders_expression s scope levels) level
  exact ⟨(horders s List.suffix_rfl).suffix h, p.shorter⟩

/-- The record begins with the call of the reader of logical expressions on the whole text. -/
theorem head?_parse (scope : Scope) (text : String) :
    (Recording.parse scope text).1.head? = some (.calls .logical (skipBlanks text.toList)) := by
  obtain ⟨more, hmore⟩ := events_bind
    (Recording.expression scope (maxNesting + 1) (skipBlanks text.toList)) fun p =>
      if p.rest.isEmpty then pure p.tree
      else silent (.error ⟨.trailingInput (String.ofList p.rest), p.rest⟩)
  have hformula : (Recording.parse scope text).1 = _ := hmore
  rw [hformula, Recording.expression, Recording.logical, Recording.events_traced]
  rfl

/-- Parsing always makes progress and ends, whether or not the text is a formula. The recorded run
is that of the parser, from the first call on, and its rounds over characters are those in which a
lexeme is read. Its cursor stays in the text and never goes back, everything that happens but a call
reads at least one character, and so does every reader on every text where it succeeds. The reader
of operands is called at most once for each character and once more. -/
theorem parse_progresses (scope : Scope) (text : String) :
    (Recording.parse scope text).2 = parse scope text ∧
      (Recording.parse scope text).1.head? = some (.calls .logical (skipBlanks text.toList)) ∧
      RoundsRead ∧
      (∀ event ∈ (Recording.parse scope text).1, event.start <:+ text.toList ∧
        event.unread <:+ text.toList ∧ event.Advances) ∧
      ((Recording.parse scope text).1.Pairwise fun event later => later.unread <:+ event.unread) ∧
      (∀ (level : Nonterminal) (levels : Nat) (s : Input) (p : Parsed s),
        level.reader scope (expression scope levels) s = .ok p → Advances s p.rest) ∧
      primaryCalls (Recording.parse scope text).1 ≤ text.toList.length + 1 := by
  have hrun := marches_formula scope text.toList
  obtain ⟨_, orderly⟩ := hrun.orderly
  have hevents : ∀ event ∈ (Recording.parse scope text).1, event.start <:+ text.toList ∧
      event.unread <:+ text.toList ∧ event.Advances := by
    intro event hevent
    have hunread := (orderly.between event hevent).1.trans orderly.inside
    exact ⟨orderly.starts event hevent, hunread, orderly.advances event hevent⟩
  have hcalls := hrun.primaryCalls_le
  have hblanks := length_skipBlanks_le text.toList
  exact ⟨Recording.parse_snd scope text, head?_parse scope text, rounds_read, hevents, orderly.forward,
    fun _ _ _ _ => reader_advances, hcalls.trans (Nat.succ_le_succ hblanks)⟩

/-- Two opening parentheses call the reader of operands three times, so the bound is reached, and
two double quotes are read as an operand. -/
theorem parse_progresses_parentheses :
    let scope : Scope := ⟨fun _ => false, fun _ => none, ⟨0, 0⟩⟩
    primaryCalls (Recording.parse scope "((").1 = 3 ∧
      primaryCalls (Recording.parse scope "((").1 ≤ "((".toList.length + 1 ∧
      ∃ p, Nonterminal.primary.reader scope (expression scope 0) ['\x22', '\x22'] = .ok p ∧
        Advances ['\x22', '\x22'] p.rest := by
  intro scope
  obtain ⟨_, _, _, _, _, hadvances, hcalls⟩ := parse_progresses scope "(("
  exact ⟨by rfl, hcalls, _, rfl, hadvances .primary 0 _ _ rfl⟩

end ProcessFormula.Parser
