/-
`com.sun.javafx.fxml.expression`: the trees that expressions are parsed into, and the
operators with their priorities.
-/
import Mathlib.Data.List.Basic

namespace JavaFX

/-- `KeyPath`: the keys of a path, outermost first. -/
abbrev KeyPath (K : Type) := List K

inductive UnaryOperator
  | negate
  | not
deriving DecidableEq, Repr

inductive BinaryOperator
  | multiply
  | divide
  | modulo
  | add
  | subtract
  | greaterThan
  | greaterThanOrEqualTo
  | lessThan
  | lessThanOrEqualTo
  | equalTo
  | notEqualTo
  | and
  | or
deriving DecidableEq, Repr

def maxPriority : Nat := 6

def UnaryOperator.getPriority : UnaryOperator → Nat
  | .negate => 6
  | .not => 6

def BinaryOperator.getPriority : BinaryOperator → Nat
  | .multiply | .divide | .modulo => 5
  | .add | .subtract => 4
  | .greaterThan | .greaterThanOrEqualTo | .lessThan | .lessThanOrEqualTo => 3
  | .equalTo | .notEqualTo => 2
  | .and => 1
  | .or => 0

/-- An expression whose keys are of type `K` and whose literals are of type `V`. -/
inductive Expression (K V : Type)
  | literal (value : V)
  | «variable» (keyPath : KeyPath K)
  | unary (operator : UnaryOperator) (operand : Expression K V)
  | binary (operator : BinaryOperator) (left right : Expression K V)
deriving DecidableEq, Repr

/-- `getArguments()`: the key paths, from left to right. -/
def Expression.getArguments {K V : Type} : Expression K V → List (KeyPath K)
  | .literal _ => []
  | .variable keyPath => [keyPath]
  | .unary _ operand => operand.getArguments
  | .binary _ left right => left.getArguments ++ right.getArguments

end JavaFX
