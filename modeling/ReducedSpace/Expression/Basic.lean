import ReducedSpace.Expression.Op

/-!
# Expressions

An `Expr α` is a tree of elementary operations over variables and constants of type `α`. It carries
structure only.

* `Expr.eval` is its value where the variables have values.
* `Expr.vars` are the variables that occur in it, each once, in the order in which a reader
  meets them from left to right. The set is *structural*: in `x - x` the variable `x` occurs.
* The operators `+ - * / -` and the functions `powf`, `powi`, `sqrt`, `exp`, `ln`, `sin`, `cos`,
  `tanh` and `sum` build expressions. They put every operation over as many arguments as it has.
  The constructors allow more; such a node does what `Op.value` says.
-/

namespace ReducedSpace

/-- The variables met so far, and `v` behind them unless it is one of them. -/
def noteVariable (seen : List VarId) (v : VarId) : List VarId :=
  if v ∈ seen then seen else seen ++ [v]

/-- A scalar expression. -/
inductive Expr (α : Type) where
  /-- A variable. -/
  | var (v : VarId)
  /-- A constant. -/
  | const (c : α)
  /-- An operation on one argument. -/
  | unary (op : Op) (arg : Expr α)
  /-- An operation on two arguments. -/
  | binary (op : Op) (lhs rhs : Expr α)
  /-- An integer power. -/
  | powi (base : Expr α) (n : Int32)
  deriving BEq, Repr

namespace Expr

variable {α : Type}

/-! ### Building expressions -/

instance : Add (Expr α) := ⟨binary .add⟩

instance : Sub (Expr α) := ⟨binary .sub⟩

instance : Mul (Expr α) := ⟨binary .mul⟩

instance : Div (Expr α) := ⟨binary .div⟩

instance : Neg (Expr α) := ⟨unary .neg⟩

def powf (base exponent : Expr α) : Expr α := binary .powf base exponent

def sqrt (e : Expr α) : Expr α := unary .sqrt e

def exp (e : Expr α) : Expr α := unary .exp e

def ln (e : Expr α) : Expr α := unary .ln e

def sin (e : Expr α) : Expr α := unary .sin e

def cos (e : Expr α) : Expr α := unary .cos e

def tanh (e : Expr α) : Expr α := unary .tanh e

/-- The sum of the given terms, added from the left. Without terms it is the constant zero. -/
def sum [Zero α] : List (Expr α) → Expr α
  | [] => const 0
  | first :: rest => rest.foldl (· + ·) first

/-! ### Variables -/

/-- The occurrences of variables, from left to right. -/
def occurrences : Expr α → List VarId
  | var v => [v]
  | const _ => []
  | unary _ a | powi a _ => a.occurrences
  | binary _ a b => a.occurrences ++ b.occurrences

/-- The variables met so far, and behind them those that are met first in the expression. -/
def collect : Expr α → List VarId → List VarId
  | var v, seen => noteVariable seen v
  | const _, seen => seen
  | unary _ a, seen | powi a _, seen => a.collect seen
  | binary _ a b, seen => b.collect (a.collect seen)

/-- The variables that occur, in the order of their first occurrence. -/
def vars (e : Expr α) : List VarId :=
  e.collect []

/-- Whether a variable occurs. -/
def contains (v : VarId) : Expr α → Bool
  | var w => w == v
  | const _ => false
  | unary _ a | powi a _ => a.contains v
  | binary _ a b => a.contains v || b.contains v

/-! ### Value -/

/-- The value under a valuation of the variables. Arguments are evaluated from the left, so that of
several variables without a value the leftmost one is reported. An operation on one argument gets
zero as its second argument, and no operation gets a second word. -/
def eval [Scalar α] (value : VarId → Except Fault α) : Expr α → Except Fault α
  | var v => value v
  | const c => .ok c
  | unary op a => do
    op.value (← a.eval value) 0 noSlot
  | binary op a b => do
    let x ← a.eval value
    let y ← b.eval value
    op.value x y noSlot
  | powi a n => do
    Scalar.powi (← a.eval value) n

end Expr

end ReducedSpace
