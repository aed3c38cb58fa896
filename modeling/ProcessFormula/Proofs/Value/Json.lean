import ProcessFormula.Proofs.Json.Writing
import ProcessFormula.Value.Json

/-!
Reading back the JSON form of a value never gives a different value. An integer comes back as it is,
whatever its width. A double comes back if it does so alone, and one that is not finite makes the
whole value unreadable.
-/

namespace ProcessFormula

namespace Json

theorem ofNat_eq (n : Nat) : ofNat n = ofInt n := rfl

theorem toList_toString (n : Int) :
    (toString n).toList = (if n < 0 then ['-'] else []) ++ Nat.toDigits 10 n.natAbs := by
  cases n with
  | ofNat n => simp [Int.toString_eq_repr, Int.repr, Nat.repr_eq_ofList_toDigits]
  | negSucc n =>
      simp [Int.toString_eq_repr, Int.repr, Nat.repr_eq_ofList_toDigits, Int.negSucc_lt_zero]

theorem numberText_toString (n : Int) : NumberText (toString n).toList := by
  have hlead : Nat.toDigits 10 n.natAbs = ['0'] ∨ (Nat.toDigits 10 n.natAbs).head? ≠ some '0' := by
    rcases Nat.eq_zero_or_pos n.natAbs with hzero | hpos
    · left
      rw [hzero]
      rfl
    · exact .inr (Decimal.head?_toDigits_ne hpos)
  refine ⟨decide (n < 0), _, _, ?_, .digits (Decimal.digits_toDigits n.natAbs) hlead⟩
  simpa using toList_toString n

theorem writable_ofInt (n : Int) : (ofInt n).Writable := numberText_toString n

theorem writable_ofNat (n : Nat) : (ofNat n).Writable := numberText_toString n

/-- Every double is written as a number of the format. -/
theorem writable_ofFloat (x : Float) : (ofFloat x).Writable := by
  unfold ofFloat
  split
  · next hfinite =>
    obtain ⟨negative, mantissa, exponent, hread⟩ := Binary64.isFinite_iff.mp hfinite
    obtain ⟨s, n, htext, hs, -⟩ := Layout.text_of_read Layout.json_pointed hread
    exact ⟨negative, s, n, htext, hs⟩
  · trivial

theorem ofText_toString (n : Int) :
    Literal.ofText (toString n).toList =
      ⟨decide (n < 0), Nat.toDigits 10 n.natAbs, [], 0, true⟩ := by
  have hdigits := Decimal.digits_toDigits n.natAbs
  have hspan : (Nat.toDigits 10 n.natAbs).span Char.isDigit = (Nat.toDigits 10 n.natAbs, []) := by
    simpa using Grammar.spanDigits hdigits.2 (show ∀ c ∈ ([] : List Char).head?, _ by simp)
  rw [toList_toString]
  by_cases hnegative : n < 0
  · simp only [Literal.ofText, if_pos hnegative, List.cons_append, List.nil_append, hspan,
      decide_eq_true hnegative]
    rfl
  · obtain ⟨d, rest, hd⟩ := List.exists_cons_of_ne_nil hdigits.1
    have hminus : d ≠ '-' := by
      rintro rfl
      have hdigit := hdigits.2 '-' (by simp [hd])
      cases hdigit
    rw [hd] at hspan
    simp only [if_neg hnegative, hd, List.nil_append, decide_eq_false hnegative]
    unfold Literal.ofText
    split
    next negative body hsign =>
    split at hsign
    · next hstart => exact absurd (List.cons.inj hstart).1 hminus
    · cases hsign
      simp only [hspan]
      rfl

/-- A whole number in the range of the format is read back. -/
theorem integer?_ofInt {n : Int} (hleast : -(2 ^ 63) ≤ n) (hgreatest : n < 2 ^ 64) :
    (ofInt n).integer? = some n := by
  simp only [ofInt, integer?, ofText_toString, Decimal.ofDigits_toDigits, Nat.pow_eq]
  rw [if_neg (by decide)]
  by_cases hnegative : n < 0
  · have hsize : (n.natAbs : Int) = -n := by omega
    rw [if_pos (decide_eq_true hnegative), if_pos ⟨by omega, by omega⟩, hsize, Int.neg_neg]
  · have hsize : (n.natAbs : Int) = n := by omega
    rw [if_neg (by rwa [decide_eq_true_iff]), if_pos (by omega), hsize]

/-- A whole number in the bounds of a field is read back. -/
theorem integerIn?_ofInt {least greatest n : Int} (hleast : -(2 ^ 63) ≤ least)
    (hgreatest : greatest < 2 ^ 64) (hlow : least ≤ n) (hhigh : n ≤ greatest) :
    (ofInt n).integerIn? least greatest = some n := by
  rw [integerIn?, integer?_ofInt (by omega) (by omega)]
  simp [hlow, hhigh]

theorem int64?_ofInt (n : Int64) : (ofInt n.toInt).int64? = some n := by
  have hleast : Int64.minValue.toInt = -(2 ^ 63) := rfl
  have hgreatest : Int64.maxValue.toInt = 2 ^ 63 - 1 := rfl
  have hlow := n.le_toInt
  have hhigh := n.toInt_lt
  rw [int64?, hleast, hgreatest, integerIn?_ofInt (by decide) (by decide) hlow (by omega)]
  simp

theorem uint64?_ofNat (n : UInt64) : (ofNat n.toNat).uint64? = some n := by
  have hgreatest : ((UInt64.size - 1 : Nat) : Int) = 2 ^ 64 - 1 := rfl
  have hhigh := n.toNat_lt
  rw [uint64?, ofNat_eq, hgreatest, integerIn?_ofInt (by decide) (by decide) (by omega) (by omega)]
  simp

theorem uint32?_ofNat (n : UInt32) : (ofNat n.toNat).uint32? = some n := by
  have hgreatest : ((UInt32.size - 1 : Nat) : Int) = 2 ^ 32 - 1 := rfl
  have hhigh := n.toNat_lt
  rw [uint32?, ofNat_eq, hgreatest, integerIn?_ofInt (by decide) (by decide) (by omega) (by omega)]
  simp

theorem uint8?_ofNat (n : UInt8) : (ofNat n.toNat).uint8? = some n := by
  have hhigh := n.toNat_lt
  rw [uint8?, ofNat_eq, integerIn?_ofInt (by decide) (by decide) (by omega) (by omega)]
  simp

section

variable {α : Type} {write : α → Json} {read? : Json → Option α} {xs : List α}

/-- A list is read back if its entries are. -/
theorem list?_map (h : ∀ x ∈ xs, read? (write x) = some x) :
    list? read? (.array (xs.map write)) = some xs := by
  show (xs.map write).mapM read? = some xs
  induction xs with
  | nil => rfl
  | cons x xs ih =>
      have hrest := ih fun y hy => h y (by simp [hy])
      simp [h x (by simp), hrest]

/-- A list with an entry that cannot be read back is not read back. -/
theorem list?_map_eq_none {x : α} (hx : x ∈ xs) (h : read? (write x) = none) :
    list? read? (.array (xs.map write)) = none := by
  show (xs.map write).mapM read? = none
  induction xs with
  | nil => cases hx
  | cons y ys ih =>
      rcases List.mem_cons.mp hx with rfl | hx
      · simp [h]
      · simp [ih hx]

end

/-- The number comes back when it is written alone and read alone. -/
def ReadsBack (x : Float) : Prop := (parse? (ofFloat x).compact).bind float? = some x

theorem float?_of_readsBack {x : Float} (h : ReadsBack x) : (ofFloat x).float? = some x := by
  rwa [ReadsBack, parse?_compact (writable_ofFloat x)] at h

/-- A double that is not finite is not read back. -/
theorem float?_of_not_finite {x : Float} (h : x.isFinite = false) : (ofFloat x).float? = none := by
  simp [ofFloat, h, float?]

end Json

namespace Payload

def floats : Payload → List Float
  | .scalar x => [x]
  | .array data _ => data
  | .statistics s => [s.average, s.stdDev, s.min, s.max]
  | _ => []

/-- A payload is written with numbers of the format. -/
theorem writable_toJson (p : Payload) : p.toJson.Writable := by
  cases p <;>
    simp [toJson, Json.Writable, Json.WritableMembers, Json.writableItems_iff,
      Json.writable_ofFloat, Json.writable_ofInt, Json.writable_ofNat]

/-- A payload is read back if its numbers are. -/
theorem ofJson?_toJson {p : Payload} (h : ∀ x ∈ p.floats, (Json.ofFloat x).float? = some x) :
    ofJson? p.toJson = some p := by
  cases p with
  | scalar x => simp [toJson, ofJson?, ofContent?, h x (by simp [floats])]
  | text s => rfl
  | choice index choices =>
      have hchoices : Json.list? Json.string? (.array (choices.map .string)) = some choices :=
        Json.list?_map fun _ _ => rfl
      simp [toJson, ofJson?, ofContent?, Json.fields?, Json.int64?_ofInt, hchoices]
  | array data shape =>
      have hdata : Json.list? Json.float? (.array (data.map .ofFloat)) = some data :=
        Json.list?_map h
      have hshape : Json.list? Json.uint64? (.array (shape.map fun n => .ofNat n.toNat)) =
          some shape := Json.list?_map fun n _ => Json.uint64?_ofNat n
      simp [toJson, ofJson?, ofContent?, Json.fields?, hdata, hshape]
  | choiceArray indexes choices =>
      have hindexes : Json.list? Json.int64? (.array (indexes.map fun i => .ofInt i.toInt)) =
          some indexes := Json.list?_map fun i _ => Json.int64?_ofInt i
      have hchoices : Json.list? Json.string? (.array (choices.map .string)) = some choices :=
        Json.list?_map fun _ _ => rfl
      simp [toJson, ofJson?, ofContent?, Json.fields?, hindexes, hchoices]
  | statistics s =>
      simp [floats] at h
      simp [toJson, ofJson?, ofContent?, Json.fields?, h, Json.uint32?_ofNat]
  | image i =>
      have hdata : Json.list? Json.uint8? (.array (i.data.map fun b => .ofNat b.toNat)) =
          some i.data := Json.list?_map fun b _ => Json.uint8?_ofNat b
      simp [toJson, ofJson?, ofContent?, Json.fields?, hdata, Json.uint32?_ofNat, Json.caseName?,
        PixelFormat.ofKey?_key]

/-- A payload with a number that is not read back is not read back. -/
theorem ofJson?_toJson_eq_none {p : Payload} {x : Float} (hx : x ∈ p.floats)
    (h : (Json.ofFloat x).float? = none) : ofJson? p.toJson = none := by
  cases p with
  | scalar y =>
      obtain rfl : x = y := by simpa [floats] using hx
      simp [toJson, ofJson?, ofContent?, h]
  | array data shape =>
      have hdata : Json.list? Json.float? (.array (data.map .ofFloat)) = none :=
        Json.list?_map_eq_none hx h
      simp [toJson, ofJson?, ofContent?, Json.fields?, hdata]
  | statistics s =>
      simp [floats] at hx
      rcases hx with rfl | rfl | rfl | rfl <;>
        simp [toJson, ofJson?, ofContent?, Json.fields?, h]
  | _ => cases hx

end Payload

namespace Value

theorem writable_toJson (v : Value) : v.toJson.Writable := by
  simp [toJson, Json.Writable, Json.WritableMembers, v.payload.writable_toJson,
    Json.writable_ofInt, Json.writable_ofNat]

theorem alarmOfJson?_toJson (a : Alarm) :
    alarmOfJson? (.object [("severity", .string a.severity.label), ("status", .string a.status)]) =
      some a := by
  simp [alarmOfJson?, Json.fields?, Json.caseName?, Severity.ofLabel?_label, Json.string?]

theorem timeOfJson?_toJson (t : Timestamp) :
    timeOfJson? (.object [("secs", .ofInt t.seconds.toInt),
      ("nanos", .ofNat t.nanoseconds.toNat)]) = some t := by
  simp [timeOfJson?, Json.fields?, Json.int64?_ofInt, Json.uint32?_ofNat]

theorem ofJson?_toJson (v : Value) :
    ofJson? v.toJson = (Payload.ofJson? v.payload.toJson).map fun p => { v with payload := p } := by
  simp only [ofJson?, toJson, Json.fields?]
  simp [alarmOfJson?_toJson, timeOfJson?_toJson]
  cases Payload.ofJson? v.payload.toJson <;> rfl

/-- A value whose doubles come back alone comes back as a whole, from either layout, and one with a
double that is not finite does not come back at all. -/
theorem ofJsonText?_toJson (v : Value) :
    ((∀ x ∈ v.payload.floats, x.isFinite = true ∧ Json.ReadsBack x) →
        ofJsonText? v.toJson.compact = some v ∧ ofJsonText? (v.toJson.pretty 0) = some v) ∧
      ((∃ x ∈ v.payload.floats, x.isFinite = false) →
        ofJsonText? v.toJson.compact = none ∧ ofJsonText? (v.toJson.pretty 0) = none) := by
  rw [ofJsonText?, ofJsonText?, Json.parse?_compact v.writable_toJson,
    Json.parse?_pretty v.writable_toJson 0, Option.bind_some, ofJson?_toJson, and_self, and_self]
  constructor
  · intro h
    have hfloats : ∀ x ∈ v.payload.floats, (Json.ofFloat x).float? = some x :=
      fun x hx => Json.float?_of_readsBack (h x hx).2
    rw [Payload.ofJson?_toJson hfloats]
    rfl
  · rintro ⟨x, hx, hinfinite⟩
    rw [Payload.ofJson?_toJson_eq_none hx (Json.float?_of_not_finite hinfinite)]
    rfl

/-- Levels and an alarm text with marks that need an escape come back; a level without a number does
not. -/
theorem ofJsonText?_toJson_level :
    let levels : Value := ⟨.array [1.5, -0.0] [2], ⟨.minor, "\x22low\x22\n"⟩, ⟨42, 7⟩⟩
    let unknown : Value := ⟨.scalar Binary64.nan, .disconnected, ⟨42, 7⟩⟩
    (ofJsonText? levels.toJson.compact = some levels ∧
        ofJsonText? (levels.toJson.pretty 0) = some levels) ∧
      ofJsonText? unknown.toJson.compact = none ∧ ofJsonText? (unknown.toJson.pretty 0) = none := by
  intro levels unknown
  have hfinite : ∀ x ∈ levels.payload.floats, x.isFinite = true ∧ Json.ReadsBack x := by
    intro x hx
    obtain rfl | rfl : x = 1.5 ∨ x = -0.0 := by simpa [levels, Payload.floats] using hx
    · exact ⟨by decide +kernel, by unfold Json.ReadsBack; decide +kernel⟩
    · exact ⟨by decide +kernel, by unfold Json.ReadsBack; decide +kernel⟩
  have hinfinite : ∃ x ∈ unknown.payload.floats, x.isFinite = false :=
    ⟨Binary64.nan, by simp [unknown, Payload.floats], by decide +kernel⟩
  exact ⟨(ofJsonText?_toJson levels).1 hfinite, (ofJsonText?_toJson unknown).2 hinfinite⟩

end Value

end ProcessFormula
