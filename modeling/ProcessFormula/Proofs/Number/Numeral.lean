import ProcessFormula.Proofs.Grammar.Literal
import ProcessFormula.Proofs.Number.Bits
import ProcessFormula.Proofs.Number.Digits

/-!
The layouts with a point write every finite double as a sign and a numeral. A numeral is a decimal
literal of the narrowest kind: there are digits in front of the point, not with a needless zero, and
behind it.
-/

namespace ProcessFormula

open Grammar (Exponent)

def fractionText (fraction : List Char) : List Char :=
  if fraction = [] then [] else '.' :: fraction

/-- A number without a sign, written the way that JSON asks for. -/
inductive Numeral : List Char → Decimal → Prop
  | intro {whole fraction tail : List Char} {e : Int} (hwhole : Grammar.Digits whole)
      (hlead : whole = ['0'] ∨ whole.head? ≠ some '0')
      (hfraction : ∀ c ∈ fraction, c.isDigit = true) (htail : Exponent tail e) :
      Numeral (whole ++ fractionText fraction ++ tail)
        ⟨Decimal.ofDigits (whole ++ fraction), e - fraction.length⟩

namespace Numeral

/-- A numeral is a literal of the grammar, with the same value. -/
theorem literal {s : List Char} {d : Decimal} (h : Numeral s d) : Grammar.Literal s d := by
  obtain @⟨whole, fraction, tail, e, hwhole, hlead, hfraction, htail⟩ := h
  unfold fractionText
  split
  · next hnone =>
    subst hnone
    simpa using Grammar.Literal.whole hwhole htail
  · have hdigits : Grammar.Digits (whole ++ fraction) := by
      refine ⟨by simp [hwhole.1], fun c hc => ?_⟩
      rcases List.mem_append.mp hc with hc | hc
      · exact hwhole.2 c hc
      · exact hfraction c hc
    simpa using Grammar.Literal.pointed hdigits htail

theorem digits {whole : List Char} (hwhole : Grammar.Digits whole)
    (hlead : whole = ['0'] ∨ whole.head? ≠ some '0') :
    Numeral whole ⟨Decimal.ofDigits whole, 0⟩ := by
  simpa [fractionText] using @Numeral.intro whole [] [] 0 hwhole hlead (by simp) .absent

theorem pointed {whole fraction : List Char} (hwhole : Grammar.Digits whole)
    (hlead : whole = ['0'] ∨ whole.head? ≠ some '0') (hfraction : Grammar.Digits fraction) :
    Numeral (whole ++ '.' :: fraction)
      ⟨Decimal.ofDigits (whole ++ fraction), -(fraction.length : Int)⟩ := by
  simpa [fractionText, hfraction.1] using Numeral.intro hwhole hlead hfraction.2 .absent

end Numeral

namespace Layout

/-- The layouts that mark whole numbers with a point and a zero. -/
structure Pointed (l : Layout) : Prop where
  wholeMark : l.wholeMark = ".0"
  exponentMark : l.exponentMark = "e" ∨ l.exponentMark = "e+"

theorem tree_pointed : tree.Pointed := ⟨rfl, .inl rfl⟩

theorem json_pointed : json.Pointed := ⟨rfl, .inr rfl⟩

/-- A number below one, whose first digit stands behind some zeros. -/
theorem numeral_small {digits : List Char} (hdigits : Grammar.Digits digits) (zeros : Nat) :
    Numeral ('0' :: '.' :: (List.replicate zeros '0' ++ digits))
      (Digits.decimal ⟨digits, -(zeros : Int)⟩) := by
  have hfraction : Grammar.Digits (List.replicate zeros '0' ++ digits) := by
    refine ⟨by simp [hdigits.1], fun c hc => ?_⟩
    rcases List.mem_append.mp hc with hc | hc
    · rw [List.eq_of_mem_replicate hc]
      rfl
    · exact hdigits.2 c hc
  have hvalue : Decimal.ofDigits (['0'] ++ (List.replicate zeros '0' ++ digits)) =
      Decimal.ofDigits digits := by
    have hzeros : ['0'] ++ (List.replicate zeros '0' ++ digits) =
        List.replicate (zeros + 1) '0' ++ digits := by
      simp [List.replicate_succ]
    rw [hzeros, Decimal.ofDigits_zeros_append]
  have hexponent : -(((List.replicate zeros '0' ++ digits).length : Nat) : Int) =
      -(zeros : Int) - digits.length := by
    simp
    omega
  have h := Numeral.pointed Decimal.digits_zero (.inl rfl) hfraction
  rw [hvalue, hexponent] at h
  exact h

/-- A number with the point between its digits. -/
theorem numeral_split {digits : List Char} (hdigits : Grammar.Digits digits)
    (hhead : digits.head? ≠ some '0') {point : Nat} (hpos : 0 < point)
    (hlt : point < digits.length) :
    Numeral (digits.take point ++ '.' :: digits.drop point) (Digits.decimal ⟨digits, point⟩) := by
  have hwhole : Grammar.Digits (digits.take point) :=
    ⟨by simp [hdigits.1, hpos.ne'], fun c hc => hdigits.2 c (List.mem_of_mem_take hc)⟩
  have hfraction : Grammar.Digits (digits.drop point) :=
    ⟨by simpa using hlt, fun c hc => hdigits.2 c (List.mem_of_mem_drop hc)⟩
  have hlead : (digits.take point).head? ≠ some '0' := by
    rw [List.head?_take, if_neg hpos.ne']
    exact hhead
  have hexponent : (point : Int) - digits.length = -((digits.drop point).length : Int) := by
    rw [List.length_drop]
    omega
  have h := Numeral.pointed hwhole (.inr hlead) hfraction
  rw [List.take_append_drop, ← hexponent] at h
  exact h

variable {l : Layout} (hl : l.Pointed) {d : Digits} (hd : d.Normal)
include hd

/-- A whole number, with some zeros behind its digits. -/
theorem numeral_whole (zeros : Nat) (hpoint : d.point = (d.digits.length + zeros : Nat)) :
    ∃ n, Numeral (d.digits ++ List.replicate zeros '0' ++ ['.', '0']) n ∧
      d.decimal.PaddedTo n := by
  have hwhole : Grammar.Digits (d.digits ++ List.replicate zeros '0') := by
    refine ⟨by simp [hd.digits.1], fun c hc => ?_⟩
    rcases List.mem_append.mp hc with hc | hc
    · exact hd.digits.2 c hc
    · rw [List.eq_of_mem_replicate hc]
      rfl
  have hlead : (d.digits ++ List.replicate zeros '0').head? ≠ some '0' := by
    rw [List.head?_append, Option.or_of_isSome (List.isSome_head?.mpr hd.digits.1)]
    exact hd.head
  have hzeros : d.digits ++ List.replicate zeros '0' ++ ['0'] =
      d.digits ++ List.replicate (zeros + 1) '0' := by
    rw [List.replicate_succ', List.append_assoc]
  refine ⟨_, Numeral.pointed hwhole (.inr hlead) Decimal.digits_zero, zeros + 1, ?_, ?_⟩
  · simp only [hzeros, Decimal.ofDigits_append_zeros, Digits.decimal]
  · simp only [Digits.decimal, hpoint, List.length_singleton]
    omega

include hl

private theorem numeral_positional :
    ∃ n, Numeral (l.positionalText d).toList n ∧ d.decimal.PaddedTo n := by
  obtain ⟨digits, point⟩ := d
  obtain ⟨hdigits, hhead⟩ : Grammar.Digits digits ∧ digits.head? ≠ some '0' := ⟨hd.digits, hd.head⟩
  match point with
  | .negSucc k =>
      refine ⟨_, ?_, .refl _⟩
      have htext : (l.positionalText ⟨digits, .negSucc k⟩).toList =
          '0' :: '.' :: (List.replicate (k + 1) '0' ++ digits) := by
        show ("0." ++ String.ofList (List.replicate (k + 1) '0' ++ digits)).toList = _
        simp
      rw [htext]
      exact numeral_small hdigits (k + 1)
  | .ofNat 0 =>
      refine ⟨_, ?_, .refl _⟩
      have htext : (l.positionalText ⟨digits, .ofNat 0⟩).toList = '0' :: '.' :: digits := by
        show ("0." ++ String.ofList digits).toList = _
        simp
      rw [htext]
      exact numeral_small hdigits 0
  | .ofNat (k + 1) =>
      have htext : l.positionalText ⟨digits, .ofNat (k + 1)⟩ =
          if digits.length ≤ k + 1 then
            String.ofList (digits.take (k + 1) ++
              List.replicate (k + 1 - digits.length) '0') ++ l.wholeMark
          else
            String.ofList (digits.take (k + 1) ++
              List.replicate (k + 1 - digits.length) '0') ++ "." ++
                String.ofList (digits.drop (k + 1)) := rfl
      rw [htext]
      split
      · next hlong =>
        obtain ⟨zeros, hzeros⟩ := Nat.exists_eq_add_of_le hlong
        obtain ⟨n, hn, hvalue⟩ := numeral_whole hd zeros (congrArg Int.ofNat hzeros)
        have hcount : k + 1 - digits.length = zeros := by omega
        exact ⟨n, by simpa [hl.wholeMark, hcount, List.take_of_length_le hlong] using hn, hvalue⟩
      · next hshort =>
        have hcount : k + 1 - digits.length = 0 := by omega
        have hn := numeral_split hdigits hhead (Nat.succ_pos k) (Nat.lt_of_not_le hshort)
        exact ⟨_, by simpa [hcount] using hn, .refl _⟩

omit hd in
private theorem exponent_text (n : Int) :
    Exponent ((if n < 0 then "e-" else l.exponentMark) ++ toString n.natAbs).toList n := by
  have hsize := Decimal.digits_toDigits n.natAbs
  have hvalue := Decimal.ofDigits_toDigits n.natAbs
  split
  · next hnegative =>
    have h := Exponent.minus (.inl rfl) hsize
    have hn : -((n.natAbs : Nat) : Int) = n := by omega
    rw [hvalue, hn] at h
    simpa using h
  · next hpositive =>
    have hn : ((n.natAbs : Nat) : Int) = n := by omega
    rcases hl.exponentMark with hmark | hmark
    · have h := Exponent.unsigned (.inl rfl) hsize
      rw [hvalue, hn] at h
      simpa [hmark] using h
    · have h := Exponent.plus (.inl rfl) hsize
      rw [hvalue, hn] at h
      simpa [hmark] using h

private theorem numeral_exponent :
    ∃ n, Numeral (l.exponentText d).toList n ∧ d.decimal.PaddedTo n := by
  obtain ⟨digits, point⟩ := d
  obtain ⟨c, rest, rfl⟩ : ∃ c rest, digits = c :: rest := List.exists_cons_of_ne_nil hd.digits.1
  have hdigits : ∀ x ∈ c :: rest, x.isDigit = true := hd.digits.2
  have hlead : [c].head? ≠ some '0' := hd.head
  have hfirst : Grammar.Digits [c] := ⟨by simp, by simpa using hdigits c⟩
  have hrest : ∀ x ∈ rest, x.isDigit = true := fun x hx => hdigits x (by simp [hx])
  have h := Numeral.intro hfirst (.inr hlead) hrest (exponent_text hl (point - 1))
  have hvalue : (⟨Decimal.ofDigits ([c] ++ rest), point - 1 - rest.length⟩ : Decimal) =
      Digits.decimal ⟨c :: rest, point⟩ := by
    simp only [Digits.decimal, List.singleton_append, List.length_cons, Decimal.mk.injEq, true_and]
    omega
  rw [hvalue] at h
  refine ⟨_, ?_, .refl _⟩
  have htext : (l.exponentText ⟨c :: rest, point⟩).toList = [c] ++ fractionText rest ++
      ((if point - 1 < 0 then "e-" else l.exponentMark) ++ toString (point - 1).natAbs).toList := by
    cases rest <;> simp [exponentText, fractionText]
  rw [htext]
  exact h

theorem numeral_normal (positional : Bool) :
    ∃ n, Numeral (if positional then l.positionalText d else l.exponentText d).toList n ∧
      d.decimal.PaddedTo n := by
  cases positional with
  | false => exact numeral_exponent hl hd
  | true => exact numeral_positional hl hd

end Layout

namespace Decimal

/-- The search for the shortest decimal ends with one that reads back, or where it started. -/
theorem shortest_cases (tie : Tie) (d : Decimal) (bits : Nat) :
    (shortest tie d bits).magnitude = bits ∨ shortest tie d bits = d := by
  dsimp only [shortest]
  generalize hsearch : List.findSome? _ (List.range 17) = found
  cases found with
  | none => exact .inr rfl
  | some c =>
      obtain ⟨n, -, hfind⟩ := List.exists_of_findSome?_eq_some hsearch
      exact .inl (by simpa using List.find?_some hfind)

theorem coefficient_exact_pos {mantissa : Nat} (hpos : 0 < mantissa) (exponent : Int) :
    0 < (exact mantissa exponent).coefficient := by
  cases exponent with
  | ofNat k => exact Nat.mul_pos hpos (Nat.pow_pos (by decide))
  | negSucc k => exact Nat.mul_pos hpos (Nat.pow_pos (by decide))

/-- The shortest decimal of a double that is not zero is not zero. -/
theorem coefficient_shortest_pos (tie : Tie) {d : Decimal} (hpos : 0 < d.coefficient) {bits : Nat}
    (hbits : bits ≠ 0) : 0 < (shortest tie d bits).coefficient := by
  rcases shortest_cases tie d bits with hread | hsame
  · apply Nat.pos_of_ne_zero
    intro hzero
    apply hbits
    rw [← hread, magnitude, if_pos hzero]
  · rw [hsame]
    exact hpos

end Decimal

namespace Layout

/-- A finite double is written as its sign and a numeral, which for a number other than zero is the
shortest decimal that reads back, up to zeros at the end. -/
theorem text_of_read {l : Layout} (hl : l.Pointed) {x : Float} {negative : Bool} {mantissa : Nat}
    {exponent : Int} (h : Binary64.read x = .finite negative mantissa exponent) :
    ∃ s n, (l.text x).toList = (if negative then ['-'] else []) ++ s ∧ Numeral s n ∧
      if mantissa = 0 then n.coefficient = 0
      else (Decimal.shortest l.tie (Decimal.exact mantissa exponent)
        (Binary64.magnitude x)).significant.decimal.PaddedTo n := by
  by_cases hzero : mantissa = 0
  · have hn := Numeral.pointed Decimal.digits_zero (.inl rfl) Decimal.digits_zero
    refine ⟨_, _, ?_, hn, ?_⟩
    · simp [text, h, hzero, hl.wholeMark]
      cases negative <;> rfl
    · simp [hzero, Decimal.ofDigits]
  · have hbits := Binary64.magnitude_ne_zero_of_read h hzero
    have hpos := Decimal.coefficient_shortest_pos l.tie
      (Decimal.coefficient_exact_pos (Nat.pos_of_ne_zero hzero) exponent) hbits
    obtain ⟨n, hn, hvalue⟩ := numeral_normal hl (Decimal.significant_normal hpos)
      (l.positional ((Decimal.shortest l.tie (Decimal.exact mantissa exponent)
        (Binary64.magnitude x)).significant.point - 1))
    refine ⟨_, n, ?_, hn, by simpa [hzero] using hvalue⟩
    simp only [text, h, if_neg hzero, String.toList_append]
    cases negative <;> simp

end Layout

end ProcessFormula
