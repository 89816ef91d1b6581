import ReducedSpace.Ident

/-!
# Faults

Two things can go wrong. A *fault* is a broken obligation of the caller: a position past the end of
a vector, a vector of the wrong length, an equation that names a variable nobody owns. An *error* is
an outcome the library promises to report, such as a singular Jacobian. Every definition that can
fault says so in its type, so that "this call never faults" is a statement about its result.

* `Fault` lists the obligations, and `Fault.message` words them.
* `Failure ε` is a fault or an error of type `ε`.
* `nth` and `slot` are the checked look-ups of a list and of an array.
-/

namespace ReducedSpace

/-- A broken obligation of the caller. -/
inductive Fault where
  /-- Position `index` was read in a vector of `length` entries. -/
  | outOfBounds (length index : Nat)
  /-- A leaf of an expression was evaluated as if it were an operation. -/
  | leafOperation
  /-- An exponent was lowered below the least representable one. -/
  | exponentOverflow
  /-- A variable was listed twice among the inputs of a tape. -/
  | duplicateInput (v : VarId)
  /-- A tape was given more or fewer values than it has inputs. -/
  | inputCount
  /-- A direction has more or fewer entries than the tape has inputs. -/
  | directionCount
  /-- A tape was given more or fewer seeds than it has outputs. -/
  | seedCount
  /-- A column of a second derivative was asked for that no input has. -/
  | columnRange (column inputs : Nat)
  /-- An entry lies outside its matrix. -/
  | entryRange (row col rows cols : Nat)
  /-- Values are assigned to a list of variables of another length. -/
  | valueCount (targets values : Nat)
  /-- A matrix to be factorized is not square. -/
  | notSquare (rows cols : Nat)
  /-- A right-hand side has another length than the factorized matrix. -/
  | rhsLength (found dimension : Nat)
  /-- A block of right-hand sides has another number of rows than the factorized matrix. -/
  | rhsRows (dimension : Nat)
  /-- A derivative block has another shape than its place asks for. -/
  | blockShape
  /-- The two halves of a Jacobian have different numbers of rows. -/
  | halvesDiffer (inputRows externalRows : Nat)
  /-- The curvatures of the external equations are not one for each of them. -/
  | curvatureCount
  deriving DecidableEq, Repr

/-- The wording of a fault. -/
def Fault.message : Fault → String
  | .outOfBounds length index =>
    s!"index out of bounds: the len is {length} but the index is {index}"
  | .leafOperation =>
    "internal error: entered unreachable code: " ++
      "Input/Const should not be re-evaluated via eval_forward"
  | .exponentOverflow => "attempt to subtract with overflow"
  | .duplicateInput v => "duplicate tape input " ++ v.name
  | .inputCount => "wrong number of inputs"
  | .directionCount => "wrong number of directions"
  | .seedCount => "seeds length must match number of outputs"
  | .columnRange column inputs => s!"column {column} out of range for {inputs} inputs"
  | .entryRange row col rows cols =>
    s!"entry ({row}, {col}) out of bounds for {rows}x{cols} matrix"
  | .valueCount targets values =>
    s!"vars length ({targets}) must equal values length ({values})"
  | .notSquare rows cols => s!"LU needs a square matrix, got {rows}x{cols}"
  | .rhsLength found dimension =>
    s!"rhs length ({found}) must equal matrix dimension ({dimension})"
  | .rhsRows dimension => s!"rhs must have {dimension} rows"
  | .blockShape => "unexpected block shape"
  | .halvesDiffer inputRows externalRows => s!"jgx has {inputRows} rows, jgy has {externalRows}"
  | .curvatureCount => "need one curvature block per external equation"

/-- Why an operation gave no result: a fault of its caller, or an error of its own. -/
inductive Failure (ε : Type) where
  | fault (cause : Fault)
  | error (cause : ε)
  deriving DecidableEq, Repr

/-- The same failure, its error read as another one. -/
def Failure.map {ε ε' : Type} (f : ε → ε') : Failure ε → Failure ε'
  | .fault cause => .fault cause
  | .error cause => .error (f cause)

/-- An outcome that is an error at worst, where a fault could arise as well. -/
def Failure.lift {ε α : Type} (r : Except ε α) : Except (Failure ε) α :=
  r.mapError .error

/-- An outcome whose error is one of several causes of another one. -/
def Failure.within {ε ε' α : Type} (f : ε → ε') (r : Except (Failure ε) α) :
    Except (Failure ε') α :=
  r.mapError (Failure.map f)

/-- What can only fault may be used where an error could arise as well. -/
instance {ε : Type} : MonadLift (Except Fault) (Except (Failure ε)) where
  monadLift x := x.mapError .fault

/-! ### Checked look-ups -/

section

variable {α : Type}

/-- The entry of a list at a position. -/
def nth (xs : List α) (i : Nat) : Except Fault α :=
  match xs[i]? with
  | some x => .ok x
  | none => .error (.outOfBounds xs.length i)

/-- The entry of an array at a position. -/
def slot (xs : Array α) (i : Nat) : Except Fault α :=
  match xs[i]? with
  | some x => .ok x
  | none => .error (.outOfBounds xs.size i)

/-- A sequence of two computations succeeds if both do, the second on the result of the first. -/
theorem bind_eq_ok {ε β : Type} {x : Except ε α} {f : α → Except ε β} {b : β} :
    (x >>= f) = .ok b ↔ ∃ a, x = .ok a ∧ f a = .ok b := by
  cases x <;> simp [bind, Except.bind]

theorem nth_eq_ok {xs : List α} {i : Nat} {x : α} : nth xs i = .ok x ↔ xs[i]? = some x := by
  unfold nth
  cases xs[i]? <;> simp

theorem slot_eq_ok {xs : Array α} {i : Nat} {x : α} : slot xs i = .ok x ↔ xs[i]? = some x := by
  unfold slot
  cases xs[i]? <;> simp

end

end ReducedSpace
