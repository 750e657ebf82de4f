import AuthSchema.Schema.Member

/-! The references of a schema: every place where a declared name is used, in document order. -/

namespace AuthSchema

/-- Where in a schema a reference can stand. -/
inductive ReferenceContext where
  /-- Among the types that a relation admits. -/
  | relation
  /-- In the expression of a permission. -/
  | permission
  deriving DecidableEq, Repr, Inhabited

/-- A reference as it is written. -/
inductive Reference where
  /-- A type that a relation admits. -/
  | type (written : SubjectType)
  /-- A name on its own, or on the left of an arrow. -/
  | name (written : NameRef)
  /-- The name on the right of an arrow. -/
  | arrowTarget (written : Arrow)
  deriving DecidableEq, Repr, Inhabited

namespace Reference

/-- Types stand in relations, and names stand in permissions. -/
def context : Reference → ReferenceContext
  | .type _ => .relation
  | .name _ | .arrowTarget _ => .permission

/-- Where the reference itself is written. -/
def range : Reference → Range
  | .type written => written.range
  | .name written => written.range
  -- The left name is a reference of its own, and so is left out here.
  | .arrowTarget written => written.right.range

/-- The path or the name that is written. -/
def text : Reference → String
  | .type written => written.path
  | .name written => written.name
  | .arrowTarget written => written.right.name

end Reference

/-- A reference together with the definition it is written in. -/
structure Site where
  /-- The reference. -/
  reference : Reference
  /-- The definition around it. -/
  enclosing : Definition
  deriving DecidableEq, Repr

/-- The references of an expression, from left to right. -/
def Expr.references : Expr → List Reference
  | .reference written => [.name written]
  -- Each side of an arrow is a reference of its own.
  | .arrow written => [.name written.left, .arrowTarget written]
  | .nil _ => []
  | .binary _ left right _ => left.references ++ right.references

/-- The references of a relation are its types, and those of a permission stand in its expression. -/
def Member.references : Member → List Reference
  | .relation declared => declared.subjectTypes.map .type
  | .permission declared => declared.expression.references

/-- The references written in a definition, member by member. -/
def Definition.sites (definition : Definition) : List Site :=
  -- Members are taken in document order, relations and permissions together.
  (definition.members.flatMap Member.references).map (⟨·, definition⟩)

namespace Schema

/-- All references of a schema, in document order. -/
def sites (schema : Schema) : List Site :=
  schema.definitions.flatMap Definition.sites

/-- The first reference that covers a position. -/
def siteAt? (schema : Schema) (position : Position) : Option Site :=
  -- Ranges of references do not overlap in what is read, so the first is the only one.
  schema.sites.find? (·.reference.range.contains position)

end Schema

end AuthSchema
