import AuthSchema.Parse.Production
import AuthSchema.Schema.Expr

/-!
The productions of permission expressions.

* An expression is terms joined by `+` and `-`, grouped from the left.
* A term is factors joined by `&`, grouped from the left.
* A factor is a name, an arrow, `nil`, or an expression in parentheses.
-/

namespace AuthSchema.Parse

open Production

/-- An expression together with the stretch of text it takes, its parentheses included. -/
structure Operand where
  /-- The tree, in which parentheses leave no node. -/
  expr : Expr
  /-- The text from the first to the last token, parentheses included. -/
  extent : Range
  deriving DecidableEq, Repr

/-- Combines the operand on the left with an operator and the operand on its right. -/
def Operand.combine (left : Operand) (step : Operator × Operand) : Operand :=
  -- Parentheses of both operands count, though neither leaves a node.
  let extent : Range := ⟨left.extent.start, step.2.extent.stop⟩
  ⟨.binary step.1 left.expr step.2.expr extent, extent⟩

/-- The operators that join terms. -/
def termOperator : TokenKind → Option Operator
  | .plus => some .union
  | .minus => some .exclusion
  | _ => none

/-- The operator that joins factors, and so binds tighter. -/
def factorOperator : TokenKind → Option Operator
  | .ampersand => some .intersection
  | _ => none

/-- Operands joined by operators of one rank, grouped from the left. -/
def chain (operator : TokenKind → Option Operator) (operand : Production Operand) :
    Production Operand := do
  let first ← operand
  let more ← many operator operand
  -- Each operator takes all that was read before it as its left operand.
  pure (more.foldl Operand.combine first)

/-- A name inside an expression. -/
def nameRef (expected : Expectation) : Production NameRef := do
  let token ← take .identifier expected
  pure ⟨token.text, token.range⟩

/-- A name, or an arrow from one name to another. -/
def nameOrArrow : Production Operand := do
  let left ← nameRef .operand
  -- A name is an operand by itself, and only an arrow asks for a second one.
  match ← take? .arrow with
  | none => pure ⟨.reference left, left.range⟩
  | some _ =>
    let right ← nameRef .operandAfterArrow
    let range := left.range.cover right.range
    pure ⟨.arrow ⟨left, right, range⟩, range⟩

/-- An expression in parentheses, after its opening one, where deeper nesting is still allowed. -/
def parenthesized (nested : Option (Production Operand)) (opening : Token) :
    Production Operand := do
  match nested with
  -- The parenthesis is taken already, and the error stands at it.
  | none => fail (.tooDeep opening)
  | some expression =>
    let inner ← expression
    let closing ← takeSign .rightParen
    pure ⟨inner.expr, ⟨opening.range.start, closing.range.stop⟩⟩

/-- A factor, given how to read what stands in its parentheses. -/
def factor (nested : Option (Production Operand)) : Production Operand := do
  -- One token tells which of the three it is.
  match ← take? .nil with
  | some token => pure ⟨.nil token.range, token.range⟩
  | none =>
    match ← take? .leftParen with
    | some opening => parenthesized nested opening
    | none => nameOrArrow

/-- A term, given how to read what stands in parentheses. -/
def term (nested : Option (Production Operand)) : Production Operand :=
  chain factorOperator (factor nested)

/-- An expression in which the given number of parentheses may be open at once. -/
def expression : Nat → Production Operand
  -- With no parenthesis left to open, one that comes is an error.
  | 0 => chain termOperator (term none)
  | depth + 1 => chain termOperator (term (some (expression depth)))

/-- The number of parentheses that may be open at once. -/
def maxNesting : Nat :=
  128

end AuthSchema.Parse
