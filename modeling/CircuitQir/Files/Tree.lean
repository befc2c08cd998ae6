/-!
# Trees of files

A tree is a file or a directory with trees in it, and a `Place` is a part of a tree together with
the directories around it. `child?_put` says what a directory holds after a change, and
`Place.whole_top` that taking a tree for a place loses nothing of it.
-/

namespace CircuitQir

/-- A file, or a directory with what lies in it by name. -/
inductive FileTree where
  | file (bytes : List UInt8)
  | directory (entries : List (String × FileTree))

namespace FileTree

/-- A directory with nothing in it. -/
def empty : FileTree := directory []

def isDirectory : FileTree → Bool
  | directory _ => true
  | file _ => false

/-- What lies in a directory under a name. -/
def child? (t : FileTree) (name : String) : Option FileTree :=
  match t with
  | directory entries => entries.lookup name
  | file _ => none

/-- Puts something into a directory, in place of what has the name. Nothing can be put into a
file. -/
def put (t : FileTree) (name : String) (child : FileTree) : FileTree :=
  match t with
  | directory entries => directory ((name, child) :: entries.filter fun e => e.1 != name)
  | file bytes => file bytes

theorem lookup_filter_ne {α : Type} {name other : String} (h : other ≠ name) :
    (entries : List (String × α)) →
      (entries.filter fun e => e.1 != name).lookup other = entries.lookup other
  | [] => rfl
  | (key, value) :: rest => by
    cases hk : key != name with
    | true => simp [List.lookup_cons, hk, lookup_filter_ne h rest]
    | false =>
      have hkey : key = name := by simpa using hk
      have ho : (other == key) = false := by simpa [hkey] using h
      simp [List.lookup_cons, hk, ho, lookup_filter_ne h rest]

theorem child?_put (name other : String) (child : FileTree) (entries : List (String × FileTree)) :
    ((directory entries).put name child).child? other =
      if other = name then some child else (directory entries).child? other := by
  show ((name, child) :: entries.filter fun e => e.1 != name).lookup other = _
  by_cases h : other = name
  · simp [h]
  · have hb : (other == name) = false := by simpa using h
    rw [if_neg h, List.lookup_cons, hb]
    exact lookup_filter_ne h entries

/-! ## Places -/

/-- A part of a tree. The directories around it come innermost first, each with the name under
which the way leads on. -/
structure Place where
  here : FileTree
  around : List (FileTree × String)

namespace Place

/-- The whole of a tree. -/
def top (t : FileTree) : Place := ⟨t, []⟩

/-- A tree put back into the directories around it. -/
def rebuild (t : FileTree) : List (FileTree × String) → FileTree
  | [] => t
  | (outer, name) :: rest => rebuild (outer.put name t) rest

/-- The tree that a place is a part of. -/
def whole (p : Place) : FileTree := rebuild p.here p.around

theorem whole_top (t : FileTree) : (top t).whole = t := rfl

/-- The directory around a place. The top lies in itself. -/
def up (p : Place) : Place :=
  match p.around with
  | [] => p
  | (outer, _) :: rest => ⟨outer, rest⟩

/-- What lies at a place under a name. -/
def down? (p : Place) (name : String) : Option Place :=
  (p.here.child? name).map fun t => ⟨t, (p.here, name) :: p.around⟩

/-- Puts something into the directory at a place. -/
def put (p : Place) (name : String) (child : FileTree) : Place := ⟨p.here.put name child, p.around⟩

end Place

end FileTree

end CircuitQir
