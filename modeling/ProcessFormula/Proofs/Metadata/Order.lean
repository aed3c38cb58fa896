import Mathlib.Data.List.Forall2
import ProcessFormula.Proofs.Metadata.Combining

/-!
Values that carry the same data under metadata that may be worse: a severity of a higher rank or a
later time. Combining the metadata of worse values gives worse metadata.
-/

namespace ProcessFormula

/-- The rank of the worse of two alarms is the higher rank. -/
theorem Alarm.rank_worst (a b : Alarm) :
    (a.worst b).severity.rank = max a.severity.rank b.severity.rank := by
  unfold worst
  split <;> omega

/-- If neither of two times is later than its counterpart, the later of them is not. -/
theorem Timestamp.not_before_latest {s s' t t' : Timestamp} (hs : ¬ s'.before s = true)
    (ht : ¬ t'.before t = true) : ¬ (s'.latest t').before (s.latest t) = true := by
  unfold latest
  split <;> split <;> simp only [before_iff] at * <;> omega

/-- The second value has at least the severity rank and at least the time of the first. -/
structure Value.WorsensTo (v w : Value) : Prop where
  rank : v.alarm.severity.rank ≤ w.alarm.severity.rank
  time : ¬ w.time.before v.time = true

theorem Value.WorsensTo.refl (v : Value) : v.WorsensTo v :=
  ⟨Nat.le_refl _, by rw [Timestamp.before_iff]; omega⟩

/-- The metadata of two values combined. -/
theorem Value.WorsensTo.combined {a a' b b' v w : Value} (ha : a.WorsensTo a')
    (hb : b.WorsensTo b') (halarm : v.alarm = a.alarm.worst b.alarm)
    (halarm' : w.alarm = a'.alarm.worst b'.alarm) (htime : v.time = a.time.latest b.time)
    (htime' : w.time = a'.time.latest b'.time) : v.WorsensTo w := by
  constructor
  · have := ha.rank
    have := hb.rank
    rw [halarm, halarm', Alarm.rank_worst, Alarm.rank_worst]
    omega
  · rw [htime, htime']
    exact Timestamp.not_before_latest ha.time hb.time

/-- The second value has the data of the first. If the metadata counts, it has got worse. -/
structure Value.Follows (counts : Prop) (v w : Value) : Prop where
  payload : v.payload = w.payload
  metadata : counts → v.WorsensTo w

abbrev FollowsAll (counts : Prop) : List Value → List Value → Prop :=
  List.Forall₂ (Value.Follows counts)

section

variable {counts : Prop} {a b : Value} {args args' : List Value}

theorem Value.Follows.refl (v : Value) : v.Follows counts v :=
  ⟨rfl, fun _ => .refl v⟩

/-- Values with the same payload stand for the same number. -/
theorem Value.Follows.toFloat (h : a.Follows counts b) : a.toFloat = b.toFloat := by
  rw [Value.toFloat, Value.toFloat, h.payload]

theorem Value.Follows.isTrue (h : a.Follows counts b) : a.isTrue = b.isTrue := by
  rw [Value.isTrue, Value.isTrue, h.toFloat]

theorem Value.Follows.toText (h : a.Follows counts b) : a.toText = b.toText := by
  rw [Value.toText, Value.toText, h.payload]

theorem Value.Follows.asText? (h : a.Follows counts b) : a.asText? = b.asText? := by
  rw [Value.asText?, Value.asText?, h.payload]

theorem Value.Follows.isText (h : a.Follows counts b) : a.isText = b.isText := by
  rw [Value.isText, Value.isText, h.asText?]

/-- A new payload on both sides leaves the order of the metadata as it is. -/
theorem Value.Follows.withPayload (h : a.Follows counts b) (payload : Payload) :
    (a.withPayload payload).Follows counts (b.withPayload payload) :=
  ⟨rfl, fun hcounts => ⟨(h.metadata hcounts).rank, (h.metadata hcounts).time⟩⟩

theorem FollowsAll.map_toFloat (h : FollowsAll counts args args') :
    args.map Value.toFloat = args'.map Value.toFloat := by
  induction h with
  | nil => rfl
  | cons hfirst _ ih => rw [List.map_cons, List.map_cons, hfirst.toFloat, ih]

theorem FollowsAll.map_toText (h : FollowsAll counts args args') :
    args.map Value.toText = args'.map Value.toText := by
  induction h with
  | nil => rfl
  | cons hfirst _ ih => rw [List.map_cons, List.map_cons, hfirst.toText, ih]

/-- Metadata folded over worse and worse values. -/
theorem FollowsAll.foldl (h : FollowsAll counts args args') (hcounts : counts)
    (hab : a.WorsensTo b) (payload payload' : Payload) :
    Value.WorsensTo
      ⟨payload, (args.map (·.alarm)).foldl Alarm.worst a.alarm,
        (args.map (·.time)).foldl Timestamp.latest a.time⟩
      ⟨payload', (args'.map (·.alarm)).foldl Alarm.worst b.alarm,
        (args'.map (·.time)).foldl Timestamp.latest b.time⟩ := by
  induction h generalizing a b with
  | nil => exact ⟨hab.rank, hab.time⟩
  | @cons c d _ _ hfirst _ ih =>
      exact @ih ⟨a.payload, a.alarm.worst c.alarm, a.time.latest c.time⟩
        ⟨b.payload, b.alarm.worst d.alarm, b.time.latest d.time⟩
        (hab.combined (hfirst.metadata hcounts) rfl rfl rfl rfl)

/-- What is derived from values that got worse got worse itself. -/
theorem FollowsAll.derived (hab : a.Follows counts b) (h : FollowsAll counts args args')
    (now now' : Timestamp) (payload : Payload) :
    (Value.derived now payload (a :: args)).Follows counts
      (Value.derived now' payload (b :: args')) :=
  ⟨rfl, fun hcounts => h.foldl hcounts (hab.metadata hcounts) payload payload⟩

end

end ProcessFormula
