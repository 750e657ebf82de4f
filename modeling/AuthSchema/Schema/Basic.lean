import AuthSchema.Schema.Expr

/-! The tree of a schema: definitions with their relations and permissions, and where each is written. -/

namespace AuthSchema

/-- A type of subjects that a relation admits, such as `user`, `group#member` or `user:*`. -/
structure SubjectType where
  /-- The path of the definition it names. -/
  path : String
  /-- Where the path is written. -/
  pathRange : Range
  /-- The relation or permission named after a hash, where there is one. -/
  suffix : Option String
  /-- Where that relation or permission is written. -/
  suffixRange : Option Range
  /-- Whether every object of the type is admitted at once. -/
  wildcard : Bool
  /-- The whole reference. -/
  range : Range
  deriving DecidableEq, Repr, Inhabited

/-- A relation, with the types of subjects that may hold it. -/
structure Relation where
  /-- The declared name. -/
  name : String
  /-- Where the name is written. -/
  nameRange : Range
  /-- The whole declaration. -/
  range : Range
  /-- The admitted types of subjects, in document order. -/
  subjectTypes : List SubjectType
  deriving DecidableEq, Repr, Inhabited

/-- A permission, computed by an expression. -/
structure Permission where
  /-- The declared name. -/
  name : String
  /-- Where the name is written. -/
  nameRange : Range
  /-- The whole declaration. -/
  range : Range
  /-- The subjects that have the permission. -/
  expression : Expr
  deriving DecidableEq, Repr, Inhabited

/-- A type of objects, with its relations and its permissions. -/
structure Definition where
  /-- The declared path. -/
  name : String
  /-- Where the path is written. -/
  nameRange : Range
  /-- The whole declaration. -/
  range : Range
  /-- The relations, in document order. -/
  relations : List Relation
  /-- The permissions, in document order. -/
  permissions : List Permission
  deriving DecidableEq, Repr, Inhabited

/-- A schema is its definitions, in document order. -/
structure Schema where
  /-- The definitions, in document order. -/
  definitions : List Definition
  deriving DecidableEq, Repr, Inhabited

/-- A schema without definitions. -/
def Schema.isEmpty (schema : Schema) : Bool :=
  schema.definitions.isEmpty

end AuthSchema
