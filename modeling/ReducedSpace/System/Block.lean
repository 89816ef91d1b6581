import ReducedSpace.System.Error
import ReducedSpace.System.Model

/-!
# Blocks of equations

A block selects equations of a model and may add *auxiliary* variables and equations that the model
never sees. Auxiliary numbers go on where those of the model end, so they cannot collide with them.

The variables of a block are *structural*: those that its equations mention. The ones that are fixed
in the model are constants to it; the others are its *primal* variables.
-/

namespace ReducedSpace

/-- One equation of a block. -/
structure Row (α : Type) where
  id : ConId
  name : String
  body : Expr α
  deriving Repr

/-- A free variable that exists only in a block. -/
structure AuxVariable (α : Type) where
  name : String
  value : α
  deriving Repr

/-- Selected equations of a model, followed by auxiliary ones. -/
structure Block (α : Type) where
  model : Model α
  rows : List (Row α)
  auxVariables : List (AuxVariable α)
  deriving Repr

namespace Block

variable {α : Type}

/-! ### Building a block -/

/-- The row of a model's equation. -/
def modelRow (m : Model α) (c : ConId) : Except SystemError (Row α) :=
  match m.equations[c.index]? with
  | some e => .ok ⟨c, e.name, e.body⟩
  | none => .error (.unknownConstraint c)

/-- The block of the given equations of a model, in the given order. -/
def ofModel (m : Model α) (cs : List ConId) : Except SystemError (Block α) := do
  return ⟨m, ← cs.mapM (modelRow m), []⟩

/-- Add an auxiliary variable. -/
def addVariable (b : Block α) (name : String) (value : α) : VarId × Block α :=
  (⟨b.model.numVariables + b.auxVariables.length⟩,
    { b with auxVariables := b.auxVariables ++ [⟨name, value⟩] })

/-- Whether a number belongs to a variable of the model or of the block. -/
def knowsVariable (b : Block α) (v : VarId) : Bool :=
  v.index < b.model.numVariables + b.auxVariables.length

/-- The number of auxiliary equations. -/
def numAuxEquations (b : Block α) : Nat :=
  b.rows.countP fun r => b.model.numEquations ≤ r.id.index

/-- Add the auxiliary equation `body = 0`, if all its variables are known. -/
def addEquation (b : Block α) (name : String) (body : Expr α) :
    Except SystemError (ConId × Block α) :=
  match body.vars.find? fun v => !b.knowsVariable v with
  | some v => .error (.unknownVariable v)
  | none =>
    let id := ⟨b.model.numEquations + b.numAuxEquations⟩
    .ok (id, { b with rows := b.rows ++ [⟨id, name, body⟩] })

/-! ### Variables -/

/-- The variables that the equations mention, in the order of their first occurrence. -/
def vars (b : Block α) : List VarId :=
  b.rows.foldl (fun seen r => r.body.vars.foldl noteVariable seen) []

/-- Whether a variable is fixed in the model. Auxiliary variables are free. -/
def isFixed (b : Block α) (v : VarId) : Bool :=
  b.model.holds v

/-- The variables that are not fixed. -/
def primals (b : Block α) : List VarId :=
  b.vars.filter fun v => !b.isFixed v

/-- The value of a variable of the model or of the block. -/
def value (b : Block α) (v : VarId) : Except Fault α :=
  if v.index < b.model.numVariables then b.model.value v
  else AuxVariable.value <$> nth b.auxVariables (v.index - b.model.numVariables)

def variableName (b : Block α) (v : VarId) : Except Fault String :=
  if v.index < b.model.numVariables then b.model.variableName v
  else AuxVariable.name <$> nth b.auxVariables (v.index - b.model.numVariables)

/-! ### Equations -/

/-- The equations, in order. -/
def equations (b : Block α) : List ConId :=
  b.rows.map Row.id

/-- The bodies of the equations, in order. -/
def bodies (b : Block α) : List (Expr α) :=
  b.rows.map Row.body

/-- The row of an equation; of several rows of one equation, the first. -/
def row? (b : Block α) (c : ConId) : Option (Row α) :=
  b.rows.find? fun r => r.id = c

end Block

end ReducedSpace
