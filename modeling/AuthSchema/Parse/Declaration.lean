import AuthSchema.Parse.Expression
import AuthSchema.Schema.Member

/-!
The productions of declarations.

* A definition starts with `definition`, a path and an opening brace.
* A relation is `relation`, a name, a colon and its types, separated by `|`.
* A permission is `permission`, a name, an equals sign and an expression.
* A type is a path, and then `#` and a name, or `:` and a star, or nothing.
* A path is a name, or two names with a slash between them and no blank around it.
-/

namespace AuthSchema.Parse

open Production

/-- A path and where it is written. -/
def path (expected : Expectation) : Production (String × Range) := do
  let first ← take .identifier expected
  match ← take? .slash with
  | none => pure (first.text, first.range)
  | some slash =>
    let second ← take .identifier .typeNameAfterSlash
    -- The three tokens of a path stand side by side in the text.
    if first.isAdjacent slash && slash.isAdjacent second then
      pure (joinPath first second, first.range.cover second.range)
    else
      fail (.spacedPath first second)

/-- A type that a relation admits. -/
def typeRef : Production SubjectType := do
  let (name, pathRange) ← path .typeName
  match ← take? .hash with
  | some _ =>
    let relation ← take .identifier .relationNameAfterHash
    pure ⟨name, pathRange, some relation.text, some relation.range, false,
      ⟨pathRange.start, relation.range.stop⟩⟩
  | none =>
    match ← take? .colon with
    | some _ =>
      let star ← take .star .starAfterColon
      pure ⟨name, pathRange, none, none, true, ⟨pathRange.start, star.range.stop⟩⟩
    | none => pure ⟨name, pathRange, none, none, false, pathRange⟩

/-- The sign that leads to one more type. -/
def typeSeparator : TokenKind → Option Unit
  | .pipe => some ()
  | _ => none

/-- A relation, after its keyword. -/
def relation (keyword : Token) : Production Relation := do
  let name ← take .identifier .relationName
  let _ ← takeSign .colon
  let first ← typeRef
  let more := (← many typeSeparator typeRef).map Prod.snd
  -- A relation ends where its last type ends.
  let last := more.getLastD first
  pure ⟨name.text, name.range, ⟨keyword.range.start, last.range.stop⟩, first :: more⟩

/-- A permission, after its keyword. -/
def permission (keyword : Token) : Production Permission := do
  let name ← take .identifier .permissionName
  let _ ← takeSign .equals
  let operand ← expression maxNesting
  -- A permission ends where its expression ends, closing parentheses included.
  pure ⟨name.text, name.range, ⟨keyword.range.start, operand.extent.stop⟩, operand.expr⟩

/-- What stands before the body of a definition. -/
structure Header where
  /-- The declared path. -/
  name : String
  /-- Where the path is written. -/
  nameRange : Range
  /-- The text from the keyword to the opening brace. -/
  range : Range
  deriving DecidableEq, Repr

/-- The header of a definition, after its keyword. -/
def header (keyword : Token) : Production Header := do
  let (name, nameRange) ← path .definitionName
  let brace ← takeSign .leftBrace
  pure ⟨name, nameRange, ⟨keyword.range.start, brace.range.stop⟩⟩

end AuthSchema.Parse
