/-!
# Profiles

The profile that a program declares to honour.
-/

namespace CircuitQir

inductive Profile where
  | base
  | adaptive
  | custom
deriving DecidableEq, Repr, Inhabited

namespace Profile

def all : List Profile := [base, adaptive, custom]

/-- The name of a profile in options. -/
def name : Profile → String
  | base => "base"
  | adaptive => "adaptive"
  | custom => "custom"

/-- The name of a profile in a program. -/
def tag : Profile → String
  | base => "base_profile"
  | adaptive => "adaptive_profile"
  | custom => "custom"

/-- The spellings under which a profile is known to users. -/
def spellings : Profile → List String
  | base => ["base_profile", "Base", "base"]
  | adaptive => ["adaptive_profile", "Adaptive", "adaptive"]
  | custom => ["custom", "Custom"]

/-- The profile that a user names. -/
def ofSpelling? (s : String) : Option Profile := all.find? (·.spellings.contains s)

end Profile

end CircuitQir
