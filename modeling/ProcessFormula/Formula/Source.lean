import ProcessFormula.Formula.Compile

/-!
Formula text that arrives as bytes, in pieces, from a source that may fail before its end.
-/

namespace ProcessFormula

/-- What a source delivers: its bytes in pieces, and then its end or the reason why it failed. -/
structure ByteSource where
  chunks : List (List UInt8)
  failure : Option String

namespace ByteSource

def bytes (s : ByteSource) : List UInt8 := s.chunks.flatten

def decoded? (s : ByteSource) : Option String := String.fromUTF8? ⟨s.bytes.toArray⟩

/-- The whole text. The failure of the source counts before that of its bytes; the error shows what
was read if that much is text. -/
def text (s : ByteSource) : Except CompileError String :=
  match s.failure, s.decoded? with
  | none, some text => .ok text
  | none, none => .error ⟨.unreadable "stream did not contain valid UTF-8", "", 0⟩
  | some reason, read => .error ⟨.unreadable reason, read.getD "", 0⟩

end ByteSource

namespace Formula

def compileSource (registry : Registry) (now : Timestamp) (mode : BindingMode)
    (offered : List Variable) (source : ByteSource) (store : Store) :
    Except CompileError (Formula × Store) := do
  let text ← source.text
  compile registry now mode offered text store

end Formula

end ProcessFormula
