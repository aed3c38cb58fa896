import ProcessFormula.CommandLine.Run
import Std.Time.DateTime.Timestamp

/-!
The command line program. It collects what the program may see and hands out what it leaves behind.
-/

namespace ProcessFormula.CommandLine

/-- The bytes of a file. A relative path counts from the current directory or, failing that, from
the nearest one above it that has the file. -/
def readFile? (path : String) : IO (Option (List UInt8)) := do
  let directories := if path.startsWith "/" then 1 else 64
  let mut place := path
  for _ in [0:directories] do
    try
      return some (← IO.FS.readBinFile place).toList
    catch _ => place := "../" ++ place
  return none

def environment : IO (List (String × String)) := do
  let bytes ← try IO.FS.readBinFile "/proc/self/environ" catch _ => pure ByteArray.empty
  let entries := ((String.fromUTF8? bytes).getD "").splitOn "\x00"
  return entries.filterMap fun entry =>
    let (name, behind) := entry.toList.span (· != '=')
    behind.tail?.map fun value => (String.ofList name, String.ofList value)

def currentMoment : IO Moment := do
  let elapsed := (← Std.Time.Timestamp.now).val
  let now := ⟨Int64.ofInt elapsed.second.val, UInt32.ofNat elapsed.nano.val.toNat⟩
  let numerator ← IO.rand 0 (Nat.pow 2 53 - 1)
  return ⟨now, Float.ofNat numerator / Float.ofNat (Nat.pow 2 53)⟩

/-- Runs the program in the process that it was started in. A formula has fewer calls than
characters, so that there is a moment for each of them. -/
def perform (arguments : List String) : IO UInt32 := do
  let start ← currentMoment
  let moments ← (List.range (String.join arguments).length).mapM fun _ => currentMoment
  let files ← (wantedFiles arguments).mapM fun path => return (path, ← readFile? path)
  let outcome := run arguments {
    files := fun path => (files.lookup path).join
    environment := ← environment
    isTerminal := ← (← IO.getStdout).isTty
    clock := fun _ => start.now
    now := start.now
    moments := fun i => moments.getD i start }
  IO.print outcome.output
  IO.eprint outcome.errors
  return outcome.exitCode

end ProcessFormula.CommandLine

def main (arguments : List String) : IO UInt32 :=
  ProcessFormula.CommandLine.perform arguments
