import CircuitQir.Json.Token
/-!
# What a text says as far as it is JSON

A `Tree` holds everything that stands in a text before the place where it stops being JSON. So
a reader that walks a tree from left to right meets a value of the wrong shape and a broken text
in the order in which they stand in the text.

The tree is built by a machine that takes one token at a time and keeps the lists and objects
that are open. When a token does not fit, or none is left, what is open goes into the tree as it
is, marked as not closed.
-/

namespace CircuitQir.Json

/-- A value, or as much of one as there is. -/
inductive Tree where
  /-- The text breaks where a value should start. -/
  | broken
  | null
  | bool (b : Bool)
  | number (n : Option Number)
  | string (s : Option String)
  /-- A list. If it is not closed, the text breaks behind its last element. -/
  | array (items : List Tree) (closed : Bool)
  /-- An object. A key whose value is missing has the value `broken`. If the object is not
  closed, the text breaks behind its last member. -/
  | object (members : List (Option String × Tree)) (closed : Bool)
deriving Repr, Inhabited

/-- A list or object that is open, its latest part first. -/
inductive Frame where
  | array (items : List Tree)
  | object (members : List (Option String × Tree))
  /-- An object that awaits the value of a key. -/
  | member (members : List (Option String × Tree)) (key : Option String)
deriving Inhabited

/-- What the machine waits for. -/
inductive Expected where
  | value
  /-- An element, or the end of a list just begun. -/
  | firstItem
  | key
  /-- A key, or the end of an object just begun. -/
  | firstKey
  | colon
  /-- A comma, or the end of the innermost list or object. -/
  | next
deriving DecidableEq

/-- A document: its value, and whether something follows the value. -/
structure Document where
  tree : Tree
  trailing : Bool
deriving Inhabited

/-- The machine between two tokens. -/
inductive Machine where
  | running (frames : List Frame) (expected : Expected)
  /-- The value of the document is complete. -/
  | complete (tree : Tree)
  | finished (document : Document)

namespace Machine

def start : Machine := running [] .value

/-- The tree when the text breaks, given a value that is begun if there is one. -/
def unwind (begun : Option Tree) : List Frame → Tree
  | [] => begun.getD .broken
  | .array items :: frames => unwind (some (.array (begun.toList ++ items).reverse false)) frames
  | .object members :: frames => unwind (some (.object members.reverse false)) frames
  | .member members key :: frames =>
    unwind (some (.object ((key, begun.getD .broken) :: members).reverse false)) frames

/-- Ends with a broken text. -/
def stop (frames : List Frame) : Machine := finished ⟨unwind none frames, false⟩

/-- Puts a complete value where it belongs. -/
def place (value : Tree) : List Frame → Machine
  | [] => complete value
  | .array items :: frames => running (.array (value :: items) :: frames) .next
  | .member members key :: frames => running (.object ((key, value) :: members) :: frames) .next
  | .object members :: frames => stop (.object members :: frames)

/-- Takes a token that starts a value, or is one. -/
def startValue (frames : List Frame) : Token → Machine
  | .null => place .null frames
  | .bool b => place (.bool b) frames
  | .number n => place (.number n) frames
  | .string s => place (.string s) frames
  | .openBracket => running (.array [] :: frames) .firstItem
  | .openBrace => running (.object [] :: frames) .firstKey
  | _ => stop frames

/-- Takes one token. -/
def step : Machine → Token → Machine
  | running frames .value, t => startValue frames t
  | running (.array items :: frames) .firstItem, .closeBracket =>
    place (.array items.reverse true) frames
  | running frames .firstItem, t => startValue frames t
  | running (.object members :: frames) .firstKey, .closeBrace =>
    place (.object members.reverse true) frames
  | running (.object members :: frames) .firstKey, .string key =>
    running (.member members key :: frames) .colon
  | running (.object members :: frames) .key, .string key =>
    running (.member members key :: frames) .colon
  | running frames .colon, .colon => running frames .value
  | running (.array items :: frames) .next, .comma => running (.array items :: frames) .value
  | running (.array items :: frames) .next, .closeBracket =>
    place (.array items.reverse true) frames
  | running (.object members :: frames) .next, .comma =>
    running (.object members :: frames) .key
  | running (.object members :: frames) .next, .closeBrace =>
    place (.object members.reverse true) frames
  | running frames _, _ => stop frames
  | complete tree, _ => finished ⟨tree, true⟩
  | finished d, _ => finished d

/-- The document when no token is left. -/
def finish : Machine → Document
  | running frames _ => ⟨unwind none frames, false⟩
  | complete tree => ⟨tree, false⟩
  | finished d => d

end Machine

/-- The document that a text is, as far as it is one. -/
def documentOf (text : String) : Document :=
  ((tokens text.toList).foldl Machine.step Machine.start).finish

mutual

/-- Whether a value is complete, whatever its numbers and strings are worth. -/
def Tree.isWellFormed : Tree → Bool
  | .broken => false
  | .array items closed => closed && allWellFormed items
  | .object members closed => closed && allMembersWellFormed members
  | _ => true

/-- Whether all elements of a list are complete. -/
def allWellFormed : List Tree → Bool
  | [] => true
  | t :: ts => t.isWellFormed && allWellFormed ts

/-- Whether all values of an object are complete. -/
def allMembersWellFormed : List (Option String × Tree) → Bool
  | [] => true
  | (_, t) :: ts => t.isWellFormed && allMembersWellFormed ts

end

end CircuitQir.Json
