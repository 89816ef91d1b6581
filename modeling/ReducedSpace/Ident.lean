/-!
# Identifiers of variables and equations

A model numbers its variables and its equations from zero, and a block of equations goes on
numbering past the end of the model for what it adds. `VarId` and `ConId` are these numbers: two
types, so that a variable is never read where an equation is meant.
-/

namespace ReducedSpace

/-- The number of a variable, in a model or in a block over it. -/
structure VarId where
  index : Nat
  deriving DecidableEq, Repr

/-- The number of an equation, in a model or in a block over it. -/
structure ConId where
  index : Nat
  deriving DecidableEq, Repr

namespace VarId

/-- A variable is written `v` and its number. -/
def name (v : VarId) : String :=
  "v" ++ toString v.index

end VarId

namespace ConId

/-- An equation is written `c` and its number. -/
def name (c : ConId) : String :=
  "c" ++ toString c.index

end ConId

end ReducedSpace
