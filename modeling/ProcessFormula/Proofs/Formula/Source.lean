import ProcessFormula.Formula.Source
import ProcessFormula.Proofs.Formula.Compiling

/-!
Compiling from a source of bytes. What comes out depends on the bytes and on the failure of the
source, and not on the pieces in which the bytes arrive: a character may be spread over several
pieces. Bytes that are the UTF-8 form of a text are compiled as that text.
-/

namespace ProcessFormula

/-- The bytes are the UTF-8 form of a text. -/
def Encodes (bytes : List UInt8) (text : String) : Prop :=
  text.toList.flatMap String.utf8EncodeChar = bytes

instance (bytes : List UInt8) (text : String) : Decidable (Encodes bytes text) :=
  inferInstanceAs (Decidable (_ = _))

namespace ByteSource

variable {s : ByteSource} {text : String}

/-- A text has one encoding. -/
theorem encodes_iff {bytes : List UInt8} :
    Encodes bytes text ↔ text.toByteArray = ⟨bytes.toArray⟩ := by
  have hbytes : (⟨bytes.toArray⟩ : ByteArray) = bytes.toByteArray :=
    ByteArray.ext List.data_toByteArray.symm
  rw [hbytes, ← String.utf8Encode_toList, List.utf8Encode, List.toByteArray_inj, Encodes]

/-- The text that is read from a source is the one that its bytes encode. -/
theorem decoded?_eq_some_iff : s.decoded? = some text ↔ Encodes s.bytes text := by
  rw [encodes_iff, decoded?, String.fromUTF8?]
  split
  · next hvalid => rw [Option.some_inj, ← String.toByteArray_inj, String.fromUTF8, eq_comm]
  · next hinvalid =>
      refine ⟨fun h => absurd h (by simp), fun h => absurd ?_ hinvalid⟩
      rw [← h]
      exact text.isValidUTF8

/-- Bytes that encode no text are not decoded. -/
theorem decoded?_eq_none_iff : s.decoded? = none ↔ ∀ text, ¬ Encodes s.bytes text := by
  simp only [Option.eq_none_iff_forall_ne_some, ne_eq, decoded?_eq_some_iff]

/-- The pieces matter only through the bytes that they hold together. -/
theorem text_congr {t : ByteSource} (hbytes : t.bytes = s.bytes) (hfailure : t.failure = s.failure) :
    t.text = s.text := by
  rw [ByteSource.text, ByteSource.text, decoded?, decoded?, hbytes, hfailure]

end ByteSource

namespace Formula

/-- The variables that do not count change nothing. -/
theorem compile_callers (registry : Registry) (now : Timestamp) (mode : BindingMode)
    (offered : List Variable) (text : String) (store : Store) :
    compile registry now mode (callers mode offered) text store =
      compile registry now mode offered text store := by
  cases mode <;> rfl

/-- A source whose bytes encode a text gives what the text gives, if it does not fail; if it fails,
the error shows the text and says why the source failed. Bytes that encode no text are an error
that shows no text. Two sources with the same bytes and the same failure give the same result. -/
theorem compileSource_eq_compile (registry : Registry) (now : Timestamp) (mode : BindingMode)
    (offered : List Variable) (chunks : List (List UInt8)) (store : Store) :
    (∀ text, Encodes chunks.flatten text →
      compileSource registry now mode offered ⟨chunks, none⟩ store =
        compile registry now mode (callers mode offered) text store ∧
      ∀ reason, compileSource registry now mode offered ⟨chunks, some reason⟩ store =
        .error ⟨.unreadable reason, text, 0⟩) ∧
    ((∀ text, ¬ Encodes chunks.flatten text) → ∀ failure,
      compileSource registry now mode offered ⟨chunks, failure⟩ store =
        .error ⟨.unreadable (failure.getD "stream did not contain valid UTF-8"), "", 0⟩) ∧
    ∀ other failure, other.flatten = chunks.flatten →
      compileSource registry now mode offered ⟨other, failure⟩ store =
        compileSource registry now mode offered ⟨chunks, failure⟩ store := by
  refine ⟨fun text htext => ?_, fun hnone failure => ?_, fun other failure hother => ?_⟩
  · have hread (failure : Option String) :
        (⟨chunks, failure⟩ : ByteSource).decoded? = some text :=
      ByteSource.decoded?_eq_some_iff.mpr htext
    constructor
    · rw [compile_callers, compileSource, ByteSource.text, hread]
      rfl
    · intro reason
      rw [compileSource, ByteSource.text, hread]
      rfl
  · have hread : (⟨chunks, failure⟩ : ByteSource).decoded? = none :=
      ByteSource.decoded?_eq_none_iff.mpr hnone
    rw [compileSource, ByteSource.text, hread]
    cases failure <;> rfl
  · have htext : (⟨other, failure⟩ : ByteSource).text = (⟨chunks, failure⟩ : ByteSource).text :=
      ByteSource.text_congr hother rfl
    rw [compileSource, compileSource, htext]

/-- A letter of two bytes may arrive in two pieces. If only its first byte arrives before the source
fails, there is no text to show. -/
theorem compileSource_eq_compile_split :
    compileSource .builtinsOnly ⟨0, 0⟩ .autoDetect [] ⟨[[0x27, 0xC3], [0xA9, 0x27]], none⟩ .empty =
      compile .builtinsOnly ⟨0, 0⟩ .autoDetect [] "'é'" .empty ∧
    compileSource .builtinsOnly ⟨0, 0⟩ .autoDetect [] ⟨[[0x27, 0xC3]], some "cable unplugged"⟩ .empty =
      .error ⟨.unreadable "cable unplugged", "", 0⟩ := by
  constructor
  · exact ((compileSource_eq_compile _ _ _ _ _ _).1 "'é'" (by decide +kernel)).1
  · refine (compileSource_eq_compile _ _ _ _ _ _).2.1 ?_ (some "cable unplugged")
    exact (ByteSource.decoded?_eq_none_iff (s := ⟨[[0x27, 0xC3]], none⟩)).mp (by decide +kernel)

end Formula

end ProcessFormula
