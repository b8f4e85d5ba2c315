import StackMachine.Files.Failure
import StackMachine.Text.Utf8

/-!
# File stores

A store is a tree of directories and files, given by what stands at each place.  A path is
followed part by part from the directory where it starts; every part but the last has to
be a directory.  Files are read as a whole, opened anew, which empties them, and written
to at their end.
-/

namespace StackMachine

/-- A place in a tree: the names that lead to it from the root. -/
abbrev Location := List Text

/-- What stands at a place. -/
inductive Entry where
  | directory
  | file (bytes : Bytes)
  /-- A device that swallows what is written to it, or has no room for it. -/
  | device (full : Bool)
deriving DecidableEq, Repr

/-- The entry after bytes are written to it, and whether that failed. -/
def Entry.write (bytes : Bytes) : Entry → Except FileFailure Unit × Entry
  | directory => (.error (.other "EBADF: bad file descriptor, write"), directory)
  | file old => (.ok (), file (old ++ bytes))
  | device true => (.error .full, device true)
  | device false => (.ok (), device false)

/-- The entries of a tree, each with its place. -/
abbrev Store := List (Location × Entry)

namespace Store

/-- The entry at a place; at the root there is always a directory. -/
def entry? (store : Store) (place : Location) : Option Entry :=
  if place = [] then some .directory else store.lookup place

/-- The store with an entry at a place. -/
def put (store : Store) (place : Location) (entry : Entry) : Store :=
  match store with
  | [] => [(place, entry)]
  | (p, e) :: r => if p = place then (place, entry) :: r else (p, e) :: put r place entry

/-! ### Paths -/

/-- The mark between the parts of a path. -/
def separator : CodeUnit := CodeUnit.ofChar '/'

/-- The greatest number of bytes of a name. -/
def longestName : Nat := 255

/-- The greatest number of bytes of a path. -/
def longestPath : Nat := 4095

/-- The place to which the parts of a path lead from a place.  There need not be an entry
there, but all places on the way are directories. -/
def follow (store : Store) (path : Text) (place : Location) :
    List Text → Except FileFailure Location
  | [] => .ok place
  | part :: r =>
    match store.entry? place with
    | none => .error (.missing path)
    | some .directory =>
      if part = [] ∨ part = Text.ofString "." then follow store path place r
      else if part = Text.ofString ".." then follow store path place.dropLast r
      else if longestName < (Utf8.encode part).length then .error (.nameTooLong path)
      else follow store path (place ++ [part]) r
    | some _ => .error (.notDirectory path)

/-- Why a path can lead nowhere, whatever there is in a tree: it holds U+0000, is too long or
is empty. -/
def refusal? (path : Text) : Option FileFailure :=
  if 0 ∈ path then some (.holdsNull path)
  else if longestPath < (Utf8.encode path).length then some (.nameTooLong path)
  else if path = [] then some (.missing path)
  else none

/-- The parts of a path.  In the names of files there are no lone surrogates. -/
def parts (path : Text) : List Text :=
  List.splitOn separator path.repaired

/-- The place where some parts of a path lead that starts at a directory, or at the root if
it begins with the separator. -/
def followFrom (store : Store) (start : Location) (path : Text) (parts : List Text) :
    Except FileFailure Location :=
  match refusal? path with
  | some failure => .error failure
  | none => store.follow path (if path.head? = some separator then [] else start) parts

/-- The place of a path that starts at a directory. -/
def locate (store : Store) (start : Location) (path : Text) : Except FileFailure Location :=
  store.followFrom start path (parts path)

/-- Whether there is anything at a path. -/
def contains (store : Store) (start : Location) (path : Text) : Bool :=
  match store.locate start path with
  | .ok place => (store.entry? place).isSome
  | .error _ => false

/-! ### Operations -/

/-- The bytes of the file at a path. -/
def read (store : Store) (start : Location) (path : Text) : Except FileFailure Bytes := do
  match store.entry? (← store.locate start path) with
  | none => .error (.missing path)
  | some .directory => .error .directoryRead
  | some (.file bytes) => .ok bytes
  | some (.device _) => .ok #[]

/-- The parts before the name of a path that ends with a name and the separator.  The part
that stands for the name makes sure that those before it lead to a directory. -/
def partsAbove? (path : Text) : Option (List Text) :=
  match (parts path).reverse with
  | [] :: r =>
    match r.dropWhile (· = []) with
    | [] => none
    | name :: above =>
      if name = Text.ofString "." ∨ name = Text.ofString ".." then none
      else some (above.reverse ++ [Text.ofString "."])
  | _ => none

/-- The place of a path at which a file is to be opened.  A name with the separator after it
is that of a directory, whatever there is at it. -/
def locateNew (store : Store) (start : Location) (path : Text) :
    Except FileFailure Location := do
  match partsAbove? path with
  | none => store.locate start path
  | some above =>
    let _ ← store.followFrom start path above
    .error (.directoryOpened path)

/-- The store with an empty file at a path, and the place of it. -/
def openNew (store : Store) (start : Location) (path : Text) :
    Except FileFailure (Location × Store) := do
  let place ← store.locateNew start path
  match store.entry? place with
  | some .directory => .error (.directoryOpened path)
  | some (.device _) => .ok (place, store)
  | _ => .ok (place, store.put place (.file #[]))

/-- The store after bytes are written to what stands at a place, and whether that failed. -/
def append (place : Location) (bytes : Bytes) : Store → Except FileFailure Unit × Store
  | [] => (.ok (), [])
  | (p, e) :: r =>
    if p = place then
      let (result, e) := e.write bytes
      (result, (p, e) :: r)
    else
      let (result, r) := append place bytes r
      (result, (p, e) :: r)

end Store

end StackMachine
