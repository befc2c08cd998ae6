import CircuitQir.Files.Access
import CircuitQir.Lowering.Artifacts
/-!
# Directories for artifacts

A directory that keeps every artifact in a file of its own, named for the program and the kind of
artifact. It is a sink whose state is the tree of files around it.
-/

namespace CircuitQir

/-- A directory for artifacts, by the path that leads to it. -/
structure ArtifactDirectory where
  root : Path
deriving DecidableEq, Repr

namespace ArtifactDirectory

/-- Makes the directory, and those it lies in, as far as they are missing. -/
def create (t : FileTree) (root : Path) : FileTree × Except FileError ArtifactDirectory :=
  match t.makeDirectories root with
  | (t, .ok ()) => (t, .ok ⟨root⟩)
  | (t, .error e) => (t, .error e)

/-- The path of the file for an artifact. -/
def pathFor (d : ArtifactDirectory) (name : String) (a : Artifact) : Path :=
  d.root.join (Path.ofString (name ++ "." ++ a.extension))

/-- Writes the file for an artifact. -/
def persist (d : ArtifactDirectory) (t : FileTree) (name : String) (a : Artifact) :
    Except FileError FileTree :=
  t.write (d.pathFor name a) a.contents

/-- The directory as a place where artifacts are kept. -/
def sink (d : ArtifactDirectory) : Sink FileTree where
  persist t name a :=
    match d.persist t name a with
    | .ok t => (t, .ok ())
    | .error e => (t, .error e.message)

end ArtifactDirectory

end CircuitQir
