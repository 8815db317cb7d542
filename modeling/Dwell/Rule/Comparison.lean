import Dwell.Rule.Operand

/-!
# Tests

A test compares two operands. It is true or false, or one of its sides could not be read; the
left side is read first, and the right one only if the left one could be.
-/

namespace Dwell

inductive Comparator where
  | lt
  | le
  | gt
  | ge
  | eq
  | ne
  deriving DecidableEq, Repr

namespace Comparator

def all : List Comparator := [lt, le, gt, ge, eq, ne]

def symbol : Comparator → String
  | lt => "<"
  | le => "<="
  | gt => ">"
  | ge => ">="
  | eq => "=="
  | ne => "!="

/-- The comparator a symbol stands for. -/
def ofSymbol? (s : String) : Option Comparator :=
  all.find? (·.symbol == s)

def holds : Comparator → Float → Float → Bool
  | lt, a, b => a < b
  | le, a, b => a ≤ b
  | gt, a, b => b < a
  | ge, a, b => b ≤ a
  | eq, a, b => a == b
  | ne, a, b => a != b

theorem ofSymbol?_symbol (c : Comparator) : ofSymbol? c.symbol = some c := by
  cases c <;> rfl

end Comparator

inductive Side where
  | left
  | right
  deriving DecidableEq, Repr

inductive Outcome where
  | isTrue
  | isFalse
  | unread (side : Side)
  deriving DecidableEq, Repr

structure Comparison where
  left : Operand
  comparator : Comparator
  right : Operand

namespace Comparison

def side (c : Comparison) : Side → Operand
  | .left => c.left
  | .right => c.right

def outcome (c : Comparison) (host : Host) (frame : Frame) : Outcome :=
  match c.left.value? host frame with
  | none => .unread .left
  | some a => match c.right.value? host frame with
    | none => .unread .right
    | some b => if c.comparator.holds a b then .isTrue else .isFalse

/-- The sources that evaluating the test asks, in order. -/
def reads (c : Comparison) (host : Host) (frame : Frame) : List SourceRead :=
  c.left.reads host ++
    if (c.left.value? host frame).isSome then c.right.reads host else []

def text (c : Comparison) : String :=
  c.left.text ++ c.comparator.symbol ++ c.right.text

end Comparison

end Dwell
