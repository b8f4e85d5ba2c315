import StackMachine.Command.Perform
import Std.Time.DateTime

/-!
# The program

The commands in the environment of the operating system.
-/

namespace StackMachine

namespace Host

/-- The failure that an error of the system tells of, for a path.  The error numbers 20,
22, 28 and 36 stand for a part of a path that is no directory, a path that holds U+0000, a
full device and a name that is too long; a directory where a file is wanted is told apart by
what was tried. -/
def failure (path : Text) (directory : FileFailure) : IO.Error → FileFailure
  | .noFileOrDirectory .. => .missing path
  | .inappropriateType _ number _ => if number = 20 then .notDirectory path else directory
  | .invalidArgument _ number message =>
    if number = 36 then .nameTooLong path
    else if number = 22 ∧ 0 ∈ path then .holdsNull path
    else .other (Text.ofString message)
  | .resourceExhausted _ number message =>
    if number = 28 then .full else .other (Text.ofString message)
  | e => .other (Text.ofString (toString e))

/-- An action with its error as a failure. -/
def attempt {α : Type} (path : Text) (directory : FileFailure) (action : IO α) :
    IO (Except FileFailure α) := do
  try
    return .ok (← action)
  catch e => return .error (failure path directory e)

/-- The bytes of a stream up to its end. -/
partial def readAll (stream : IO.FS.Stream) (seen : ByteArray) : IO ByteArray := do
  let bytes ← stream.read 65536
  if bytes.isEmpty then return seen else readAll stream (seen ++ bytes)

/-- Opens a file for writing.  What is written is passed on at once. -/
def openNew (path : Text) : IO (Except FileFailure (Bytes → IO (Except FileFailure Unit))) :=
  attempt path (.directoryOpened path) do
    let handle ← IO.FS.Handle.mk (Text.toString path) .write
    return fun bytes => attempt path .directoryRead do
      handle.write ⟨bytes⟩
      handle.flush

/-- Whether a file can be looked up: whatever keeps it from being opened, it is there unless
it is missing, lies under something that is no directory or has a name that cannot be. -/
def fileExists (path : Text) : IO Bool := do
  match ← attempt path .directoryRead (IO.FS.Handle.mk (Text.toString path) .read) with
  | .error (.missing _) => return false
  | .error (.notDirectory _) => return false
  | .error (.nameTooLong _) => return false
  | .error (.holdsNull _) => return false
  | _ => return true

/-- A random identifier of 122 bits, written in groups of hexadecimal digits. -/
def randomId : IO Text := do
  let bytes ← IO.getRandomBytes 16
  let mark (b : UInt8) (index : Nat) : UInt8 :=
    if index = 6 then (b &&& 0x0F) ||| 0x40
    else if index = 8 then (b &&& 0x3F) ||| 0x80
    else b
  let digits : Text := bytes.data.toList.zipIdx.flatMap fun (b, index) =>
    let n := (mark b index).toNat
    [CodeUnit.hexDigit (n / 16), CodeUnit.hexDigit (n % 16)]
  let group (start size : Nat) : Text := (digits.drop start).take size
  return Text.join "-" [group 0 8, group 8 4, group 12 4, group 16 4, group 20 12]

instance : Environment IO where
  fileExists := fileExists
  read path := attempt path .directoryRead do
    return (← (← IO.FS.Handle.mk (Text.toString path) .read).readBinToEnd).data
  openNew := openNew
  input := attempt [] .directoryRead do
    return (← readAll (← IO.getStdin) .empty).data
  workDirectory := return Text.ofString (toString (← IO.currentDir))
  homeDirectory := return Text.ofString ((← IO.getEnv "HOME").getD "/")
  now := return (← Std.Time.Timestamp.now).toMillisecondsSinceUnixEpoch.val
  runId := randomId

/-- More steps than any run takes that is waited for. -/
def patience : Nat := 0x4000000000000000

end Host

end StackMachine

open StackMachine

/-- Runs the program on its arguments and exits with the code of the command. -/
def main (arguments : List String) : IO UInt32 := do
  let outcome : Option Command.Outcome ←
    Command.execute Host.patience (arguments.map Text.ofString)
  match outcome with
  | some o =>
    (← IO.getStdout).putStr (Text.toString o.stdout)
    (← IO.getStderr).putStr (Text.toString o.stderr)
    return o.code.toUInt32
  | none => return 0
