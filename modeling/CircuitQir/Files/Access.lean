import CircuitQir.Files.Path
import CircuitQir.Files.Tree
/-!
# Making, writing and reading files

Paths start at the top of the tree. All segments of a path but the last have to lead through
directories that exist, also when the path leads back out of one, and names and paths must not be
too long. A request that fails leaves the tree as it is, except that `makeDirectories` keeps the
directories it has made before the one that fails.
-/

namespace CircuitQir

/-- Why a path cannot be used as asked. -/
inductive FileError where
  | missing
  | alreadyExists
  | notADirectory
  | isADirectory
  | nameTooLong
  | nulCharacter
deriving DecidableEq, Repr

namespace FileError

/-- The text of an error. -/
def message : FileError → String
  | missing => "No such file or directory (os error 2)"
  | alreadyExists => "File exists (os error 17)"
  | notADirectory => "Not a directory (os error 20)"
  | isADirectory => "Is a directory (os error 21)"
  | nameTooLong => "File name too long (os error 36)"
  | nulCharacter => "file name contained an unexpected NUL byte"

end FileError

namespace FileTree

/-! ## Finding the way -/

/-- The longest path, in bytes. -/
def pathLimit : Nat := 4095

/-- The longest name, in bytes. -/
def nameLimit : Nat := 255

/-- Checks that a path can be looked for at all. -/
def checkPath (p : Path) : Except FileError Unit :=
  if p.toString.toList.contains '\x00' then .error .nulCharacter
  else if pathLimit < p.toString.utf8ByteSize then .error .nameTooLong
  else if p.toString.isEmpty then .error .missing
  else .ok ()

namespace Place

/-- What lies at a place under a name, if something does. -/
def look (p : Place) (name : String) : Except FileError (Option Place) :=
  if nameLimit < name.utf8ByteSize then .error .nameTooLong else .ok (p.down? name)

/-- Takes a step from a place. There is no way on from a file. -/
def move (p : Place) (step : Path.Step) : Except FileError Place :=
  if p.here.isDirectory then
    match step with
    | .stay => .ok p
    | .up => .ok p.up
    | .down name =>
      match p.look name with
      | .error e => .error e
      | .ok none => .error .missing
      | .ok (some q) => .ok q
  else .error .notADirectory

end Place

/-- The place that a path leads to. -/
def find (t : FileTree) (p : Path) : Except FileError Place := do
  checkPath p
  p.steps.foldlM Place.move (Place.top t)

/-- The directory that a path leads to but for its last step, and that step. A path without steps
stays at the top. -/
def approach (t : FileTree) (p : Path) : Except FileError (Place × Path.Step) := do
  checkPath p
  let place ← p.steps.dropLast.foldlM Place.move (Place.top t)
  if place.here.isDirectory then return (place, p.steps.getLast?.getD .stay)
  throw .notADirectory

/-- Whether a path leads to a directory. -/
def hasDirectory (t : FileTree) (p : Path) : Bool :=
  match t.find p with
  | .ok place => place.here.isDirectory
  | .error _ => false

/-! ## Directories -/

/-- Makes a directory in one that exists. -/
def makeDirectory (t : FileTree) (p : Path) : Except FileError FileTree := do
  match ← t.approach p with
  | (place, .down name) =>
    if (← place.look name).isSome then throw .alreadyExists
    return (place.put name empty).whole
  | _ => throw .alreadyExists

/-- Makes a directory unless there is one. -/
def ensureDirectory (t : FileTree) (p : Path) : Except FileError FileTree :=
  match t.makeDirectory p with
  | .ok t => .ok t
  | .error e => if t.hasDirectory p then .ok t else .error e

/-- Makes the directory of the first path, after those of the others if it needs them. -/
def makeLadder (t : FileTree) : List Path → FileTree × Except FileError Unit
  | [] => (t, .ok ())
  | p :: ps =>
    match t.makeDirectory p with
    | .error .missing =>
      match makeLadder t ps with
      | (t, .error e) => (t, .error e)
      | (t, .ok ()) =>
        match t.ensureDirectory p with
        | .ok t => (t, .ok ())
        | .error e => (t, .error e)
    | _ =>
      match t.ensureDirectory p with
      | .ok t => (t, .ok ())
      | .error e => (t, .error e)

/-- Makes a directory, and those it lies in, as far as they are missing. -/
def makeDirectories (t : FileTree) (p : Path) : FileTree × Except FileError Unit :=
  if p.toString.isEmpty then (t, .ok ()) else t.makeLadder p.ladder

/-! ## Files -/

/-- Writes a file, over the one that may be there. -/
def write (t : FileTree) (p : Path) (bytes : List UInt8) : Except FileError FileTree := do
  match ← t.approach p with
  | (place, .down name) =>
    match ← place.look name with
    | some ⟨directory _, _⟩ => throw .isADirectory
    | _ => return (place.put name (file bytes)).whole
  | _ => throw .isADirectory

/-- The bytes of a file. -/
def read (t : FileTree) (p : Path) : Except FileError (List UInt8) := do
  match (← t.find p).here with
  | file bytes => return bytes
  | directory _ => throw .isADirectory

end FileTree

end CircuitQir
