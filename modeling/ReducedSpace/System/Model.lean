import ReducedSpace.Expression.Basic

/-!
# Models

A `Model α` is a list of variables, each with a value and a flag that says whether it is fixed, and
a list of equations `body = 0`. Variables and equations are only ever added, so their numbers stay
valid, and a body may mention variables that are added later or never.

Reading or writing what the model does not have faults. `Model.setValues` writes in order, so a
fault in the middle leaves the earlier values written; it returns the model as well as the outcome.
-/

namespace ReducedSpace

/-- A variable of a model. -/
structure Variable (α : Type) where
  name : String
  value : α
  fixed : Bool
  deriving Repr

/-- The equation `body = 0`. -/
structure Equation (α : Type) where
  name : String
  body : Expr α
  deriving Repr

/-- Variables and equations. -/
structure Model (α : Type) where
  vars : List (Variable α)
  equations : List (Equation α)
  deriving Repr

namespace Model

variable {α : Type}

/-- The model without variables and equations. -/
def empty : Model α :=
  ⟨[], []⟩

def numVariables (m : Model α) : Nat :=
  m.vars.length

def numEquations (m : Model α) : Nat :=
  m.equations.length

/-- All variables, in order. -/
def variableIds (m : Model α) : List VarId :=
  (List.range m.numVariables).map VarId.mk

/-- All equations, in order. -/
def equationIds (m : Model α) : List ConId :=
  (List.range m.numEquations).map ConId.mk

def hasVariable (m : Model α) (v : VarId) : Bool :=
  v.index < m.numVariables

def hasEquation (m : Model α) (c : ConId) : Bool :=
  c.index < m.numEquations

/-! ### Growing a model -/

/-- Add a free variable. -/
def addVariable (m : Model α) (name : String) (value : α) : VarId × Model α :=
  (⟨m.numVariables⟩, { m with vars := m.vars ++ [⟨name, value, false⟩] })

/-- Add the equation `body = 0`. -/
def addEquation (m : Model α) (name : String) (body : Expr α) : ConId × Model α :=
  (⟨m.numEquations⟩, { m with equations := m.equations ++ [⟨name, body⟩] })

/-- Add the equation `lhs = rhs`, as `lhs - rhs = 0`. -/
def addEquality (m : Model α) (name : String) (lhs rhs : Expr α) : ConId × Model α :=
  m.addEquation name (lhs - rhs)

/-! ### Variables -/

/-- A variable with all it carries. -/
def lookup (m : Model α) (v : VarId) : Except Fault (Variable α) :=
  nth m.vars v.index

def value (m : Model α) (v : VarId) : Except Fault α :=
  Variable.value <$> m.lookup v

def isFixed (m : Model α) (v : VarId) : Except Fault Bool :=
  Variable.fixed <$> m.lookup v

def variableName (m : Model α) (v : VarId) : Except Fault String :=
  Variable.name <$> m.lookup v

/-- The values of several variables. -/
def values (m : Model α) (vs : List VarId) : Except Fault (List α) :=
  vs.mapM m.value

/-- Change one variable. -/
def update (m : Model α) (v : VarId) (f : Variable α → Variable α) : Except Fault (Model α) :=
  if m.hasVariable v then .ok { m with vars := m.vars.modify v.index f }
  else .error (.outOfBounds m.numVariables v.index)

def setValue (m : Model α) (v : VarId) (x : α) : Except Fault (Model α) :=
  m.update v fun a => { a with value := x }

def setFixed (m : Model α) (v : VarId) (fixed : Bool) : Except Fault (Model α) :=
  m.update v fun a => { a with fixed }

/-- Write values one after the other, up to the first variable that does not exist. -/
def assign (m : Model α) : List (VarId × α) → Except Fault Unit × Model α
  | [] => (.ok (), m)
  | (v, x) :: rest =>
    match m.setValue v x with
    | .error f => (.error f, m)
    | .ok m => m.assign rest

/-- Assign values to variables, position by position. Lists of different lengths write nothing. -/
def setValues (m : Model α) (vs : List VarId) (xs : List α) : Except Fault Unit × Model α :=
  if vs.length = xs.length then m.assign (vs.zip xs)
  else (.error (.valueCount vs.length xs.length), m)

/-! ### Holding variables -/

/-- Whether a variable is held: it exists, and is fixed. -/
def holds (m : Model α) (v : VarId) : Bool :=
  m.vars[v.index]?.any Variable.fixed

/-- Give variables the flags that stand beside them; variables that do not exist are passed over. -/
def mark (m : Model α) (flags : List (VarId × Bool)) : Model α :=
  { m with
    vars := flags.foldl
      (fun acc (v, fixed) => acc.modify v.index fun a => { a with fixed }) m.vars }

/-! ### Equations -/

def equation (m : Model α) (c : ConId) : Except Fault (Equation α) :=
  nth m.equations c.index

def equationName (m : Model α) (c : ConId) : Except Fault String :=
  Equation.name <$> m.equation c

def body (m : Model α) (c : ConId) : Except Fault (Expr α) :=
  Equation.body <$> m.equation c

/-- The variables that an equation mentions. -/
def equationVariables (m : Model α) (c : ConId) : Except Fault (List VarId) :=
  Expr.vars <$> m.body c

/-- The value of the body of an equation at the current values. -/
def residual [Scalar α] (m : Model α) (c : ConId) : Except Fault α := do
  (← m.body c).eval m.value

/-- The residuals of several equations. -/
def residuals [Scalar α] (m : Model α) (cs : List ConId) : Except Fault (List α) :=
  cs.mapM m.residual

end Model

end ReducedSpace
