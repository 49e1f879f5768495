import ListCalc.Command
import Std.Time.DateTime.Timestamp

/-!
# Program

Reads the arguments and the file, hands lines of the standard input to the command as it asks for
them, and prints what the command leaves behind.  A batch that turns out to need a further line is
performed again with that line; the dialogue goes turn by turn in the same way.
-/

namespace ListCalc

/-- A clock that stands at the present second. -/
def currentClock : IO Clock := do
  let now ← Std.Time.Timestamp.now
  return ⟨now.toSecondsSinceUnixEpoch.val.toNat, []⟩

/-- The bytes of the next line of a stream; there are none at its end. -/
partial def readLineBytes (stream : IO.FS.Stream) (line : ByteArray) : IO ByteArray := do
  let byte ← stream.read 1
  if byte.isEmpty then return line
  let line := line ++ byte
  if byte == ⟨#[10]⟩ then return line else readLineBytes stream line

/-- What is printed for arguments that are not well formed. -/
def usage : String :=
  "usage: xp [--log FILTER] [tokenize FILE | parse FILE | run FILE | eval SOURCE | repl]\n"

/-- Prints to a stream, at once. -/
def printTo (stream : IO.FS.Stream) (s : String) : IO Unit := do
  stream.putStr s
  stream.flush

/-- Performs a batch command with as much input as it asks for. -/
partial def performBatch (command : Command) (file? : Option (List UInt8)) (clock : Clock)
    (stdin : List UInt8) : IO Command.Report := do
  let report := command.perform file? stdin clock
  if !report.starved then return report
  let line ← readLineBytes (← IO.getStdin) .empty
  if line.isEmpty then return report
  performBatch command file? clock (stdin ++ line.toList)

/-- Takes a turn of the dialogue, with further lines for as long as it asks for them. -/
partial def takeTurn (w : World) : IO Turn := do
  let result := turn w
  let after := match result with
    | .next w   => w
    | .stop _ w => w
  if !after.input.exhausted then return result
  let line ← readLineBytes (← IO.getStdin) .empty
  if line.isEmpty then return result
  takeTurn { w with input := { w.input with rest := w.input.rest ++ line.toList } }

/-- The dialogue on the standard streams. -/
partial def converse (w : World) : IO Nat := do
  printTo (← IO.getStdout) "> "
  let result ← takeTurn { w with clock := ← currentClock }
  let (status?, w) := match result with
    | .next w        => (none, w)
    | .stop status w => (some status, w)
  printTo (← IO.getStdout) (String.ofList (w.out.text.toList.drop 2))
  printTo (← IO.getStderr) w.err.text
  match status? with
  | some status => return status
  | none        =>
    converse { w with
      input := { w.input with exhausted := false }
      out := .fresh .accepts
      err := .fresh .accepts }

end ListCalc

open ListCalc in
/-- Performs what the arguments ask for; the result is the exit status. -/
def main (args : List String) : IO UInt32 := do
  match Command.ofArgs? args with
  | none =>
    printTo (← IO.getStderr) usage
    return UInt32.ofNat Command.usageStatus
  | some .dialogue =>
    return UInt32.ofNat (← converse (Command.freshWorld [] (← currentClock)))
  | some command =>
    let file? ← match command.path? with
      | some path =>
        try pure (some (← IO.FS.readBinFile path).toList)
        catch _ => pure none
      | none => pure none
    let report ← performBatch command file? (← currentClock) []
    printTo (← IO.getStdout) report.out
    printTo (← IO.getStderr) report.err
    return UInt32.ofNat report.status
