import AuthSchema.Text.Range

/-! Permission expressions: names, arrows, the empty expression and their combinations. -/

namespace AuthSchema

/-- A relation or permission named inside an expression. -/
structure NameRef where
  /-- The name as written. -/
  name : String
  /-- Where the name is written. -/
  range : Range
  deriving DecidableEq, Repr, Inhabited

/-- An arrow follows a relation to the objects it holds, and asks for a name there. -/
structure Arrow where
  /-- The relation to follow. -/
  left : NameRef
  /-- The name to look up in the objects reached. -/
  right : NameRef
  /-- The whole arrow. -/
  range : Range
  deriving DecidableEq, Repr, Inhabited

/-- The ways to combine two sets of subjects. -/
inductive Operator where
  /-- Subjects of either side. -/
  | union
  /-- Subjects of both sides. -/
  | intersection
  /-- Subjects of the left side that are not on the right side. -/
  | exclusion
  deriving DecidableEq, Repr, Inhabited

/-- The expression of a permission, where parentheses shape the tree and leave no node. -/
inductive Expr where
  /-- The subjects of a relation or permission of the same definition. -/
  | reference (name : NameRef)
  /-- The subjects found by following a relation. -/
  | arrow (arrow : Arrow)
  /-- No subjects. -/
  | nil (range : Range)
  /-- Two sets of subjects combined. -/
  | binary (operator : Operator) (left right : Expr) (range : Range)
  deriving DecidableEq, Repr, Inhabited

/-- Where an expression is written, from its first to its last token. -/
def Expr.range : Expr → Range
  | .reference written => written.range
  | .arrow written => written.range
  | .nil range => range
  -- Both operands lie inside, with any parentheses around them.
  | .binary _ _ _ range => range

end AuthSchema
