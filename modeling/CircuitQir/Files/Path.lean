/-!
# Paths

A path is kept as it is written: its segments are what stands between the slashes, and some of
them may be blank. `Path.steps` says where it leads, `Path.ladder` which directories are needed on
the way, and `Path.below?` how it is written as seen from another path.
-/

namespace CircuitQir

/-- What stands between the slashes of a path. One that starts with a slash has an empty first
segment, and one that ends with a slash an empty last one. -/
structure Path where
  segments : List String
deriving DecidableEq, Repr

namespace Path

/-- One move along a path. -/
inductive Step where
  | stay
  | up
  | down (name : String)
deriving DecidableEq, Repr

def ofString (s : String) : Path := ⟨(s.toList.splitOn '/').map String.ofList⟩

def toString (p : Path) : String := "/".intercalate p.segments

/-- Whether the path starts with a slash. -/
def isAbsolute (p : Path) : Bool :=
  match p.segments with
  | "" :: _ :: _ => true
  | _ => false

/-- A path that goes on from another one, or stands for itself if it starts with a slash. -/
def join (p q : Path) : Path :=
  if q.isAbsolute then q
  else if p.segments.getLast? = some "" then ⟨p.segments.dropLast ++ q.segments⟩
  else ⟨p.segments ++ q.segments⟩

/-- The move that a segment stands for. An empty one is only a second slash. -/
def step? (segment : String) : Option Step :=
  if segment = "" then none
  else if segment = "." then some .stay
  else if segment = ".." then some .up
  else some (.down segment)

def steps (p : Path) : List Step := p.segments.filterMap step?

/-! ## Parts of a path -/

/-- Whether a segment neither leads up nor down. -/
def isBlank (segment : String) : Bool := segment = "" || segment = "."

/-- The path without blank segments at its ends. -/
def trim (p : Path) : Path :=
  ⟨((p.segments.dropWhile isBlank).reverse.dropWhile isBlank).reverse⟩

/-- The path as seen from another one with which it starts. -/
def below? (base p : Path) : Option Path :=
  if base.segments.isPrefixOf p.segments then
    some (trim ⟨p.segments.drop base.segments.length⟩)
  else none

/-- The ends of a list of segments that start with a segment that is not blank. -/
def significantTails : List String → List (List String)
  | [] => []
  | s :: rest =>
    if isBlank s then significantTails rest else (s :: rest) :: significantTails rest

/-- The path, and behind it all shorter ones that lead to what it lies in, the longest first. Blank
segments at their ends are left out, except at the end of the path itself. -/
def ladder (p : Path) : List Path :=
  p :: ((significantTails p.segments.reverse).drop 1).map fun tail => ⟨tail.reverse⟩

end Path

end CircuitQir
