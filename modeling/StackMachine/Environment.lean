import StackMachine.Files.Store

/-!
# Environments

What the commands need from around them: files, a clock and names for runs.  An
environment is a monad with these operations.  `World` is an environment in memory, where
every operation is a function.
-/

namespace StackMachine

/-- The operations that an environment offers. -/
class Environment (m : Type → Type) where
  /-- Whether there is anything at a path. -/
  fileExists : Text → m Bool
  /-- The bytes of the file at a path. -/
  read : Text → m (Except FileFailure Bytes)
  /-- Makes the file at a path an empty one; the result writes to it. -/
  openNew : Text → m (Except FileFailure (Bytes → m (Except FileFailure Unit)))
  /-- The bytes that are given to the program as its input. -/
  input : m (Except FileFailure Bytes)
  /-- The directory where paths start. -/
  workDirectory : m Text
  /-- The directory of the user. -/
  homeDirectory : m Text
  /-- The time, in milliseconds since the beginning of 1970. -/
  now : m Int
  /-- A name for a run. -/
  runId : m Text

/-- An environment in memory.  Its clock goes on by a millisecond with each reading. -/
structure World where
  files : Store
  work : Location
  home : Location
  input : Bytes
  clock : Int
  runId : Text
deriving Repr

namespace World

/-- The absolute path of a place. -/
def pathOf (place : Location) : Text :=
  if place = [] then [Store.separator] else place.flatMap fun part => Store.separator :: part

/-- Writes to the file at a place. -/
def writeAt (place : Location) (bytes : Bytes) : StateM World (Except FileFailure Unit) :=
  fun world =>
    let (result, files) := world.files.append place bytes
    (result, { world with files })

/-- Makes the file at a path an empty one. -/
def openNew (path : Text) :
    StateM World (Except FileFailure (Bytes → StateM World (Except FileFailure Unit))) :=
  fun world =>
    match world.files.openNew world.work path with
    | .ok (place, files) => (.ok (writeAt place), { world with files })
    | .error failure => (.error failure, world)

instance : Environment (StateM World) where
  fileExists path := fun world => (world.files.contains world.work path, world)
  read path := fun world => (world.files.read world.work path, world)
  openNew := openNew
  input := fun world => (.ok world.input, world)
  workDirectory := fun world => (pathOf world.work, world)
  homeDirectory := fun world => (pathOf world.home, world)
  now := fun world => (world.clock, { world with clock := world.clock + 1 })
  runId := fun world => (world.runId, world)

end World

end StackMachine
