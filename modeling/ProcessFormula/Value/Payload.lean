import ProcessFormula.Number.Layout

/-!
The data of a process value. Whatever has no reading as a number reads as NaN, and equality lets NaN
equal itself, so that a value always equals itself.
-/

namespace ProcessFormula

inductive PixelFormat where
  | mono8
  | mono16
  | rgb8
  | rgba8
  deriving DecidableEq

def PixelFormat.title : PixelFormat → String
  | .mono8 => "Mono8"
  | .mono16 => "Mono16"
  | .rgb8 => "Rgb8"
  | .rgba8 => "Rgba8"

structure Statistics where
  average : Float
  stdDev : Float
  min : Float
  max : Float
  count : UInt32

structure Image where
  data : List UInt8
  width : UInt32
  height : UInt32
  format : PixelFormat
  deriving DecidableEq

/-- What a value holds. A choice is an index into a list of labels; it may lie outside the list. -/
inductive Payload where
  | scalar (x : Float)
  | text (s : String)
  | choice (index : Int64) (choices : List String)
  | array (data : List Float) (shape : List UInt64)
  | choiceArray (indexes : List Int64) (choices : List String)
  | statistics (s : Statistics)
  | image (i : Image)

def sameNumbers : List Float → List Float → Bool
  | [], [] => true
  | a :: as, b :: bs => Binary64.same a b && sameNumbers as bs
  | _, _ => false

def Statistics.same (a b : Statistics) : Bool :=
  Binary64.same a.average b.average && Binary64.same a.stdDev b.stdDev &&
    Binary64.same a.min b.min && Binary64.same a.max b.max && a.count == b.count

def choiceNumber (index : Int64) : Float := Binary64.ofInt index.toInt

/-- The label of a choice, or its index if there is no such label. -/
def choiceLabel (choices : List String) (index : Int64) : String :=
  let outside := toString index.toInt
  if index < 0 then outside else choices[index.toInt.toNat]?.getD outside

namespace Payload

/-- Equality in which NaN equals itself and zero equals negative zero. -/
def same : Payload → Payload → Bool
  | .scalar a, .scalar b => Binary64.same a b
  | .text a, .text b => a == b
  | .choice i c, .choice j d => i == j && c == d
  | .array a s, .array b t => s == t && sameNumbers a b
  | .choiceArray i c, .choiceArray j d => i == j && c == d
  | .statistics a, .statistics b => a.same b
  | .image a, .image b => a == b
  | _, _ => false

/-- The number that arithmetic and comparison see. -/
def toFloat : Payload → Float
  | .scalar x => x
  | .text _ => Binary64.nan
  | .choice index _ => choiceNumber index
  | .array data _ => data.head?.getD Binary64.nan
  | .choiceArray indexes _ => (indexes.head?.map choiceNumber).getD Binary64.nan
  | .statistics s => s.average
  | .image _ => Binary64.nan

def bracketed (entries : List String) : String := "[" ++ ", ".intercalate entries ++ "]"

/-- The form in which the data is shown and concatenated. -/
def toText : Payload → String
  | .scalar x => Layout.plain.text x
  | .text s => s
  | .choice index choices => choiceLabel choices index
  | .array data _ => bracketed (data.map Layout.plain.text)
  | .choiceArray indexes choices => bracketed (indexes.map (choiceLabel choices))
  | .statistics s => Layout.plain.text s.average
  | .image i => s!"Image {i.width}x{i.height} {i.format.title}"

end Payload

end ProcessFormula
