import AuthSchema.Schema.Basic

/-! The members of a definition: its relations and permissions taken together. -/

namespace AuthSchema

/-- A relation or a permission of a definition. -/
inductive Member where
  /-- A relation. -/
  | relation (declared : Relation)
  /-- A permission. -/
  | permission (declared : Permission)
  deriving DecidableEq, Repr, Inhabited

namespace Member

/-- The declared name. -/
def name : Member → String
  | .relation declared => declared.name
  | .permission declared => declared.name

/-- Where the name is written. -/
def nameRange : Member → Range
  | .relation declared => declared.nameRange
  | .permission declared => declared.nameRange

/-- The whole declaration. -/
def range : Member → Range
  | .relation declared => declared.range
  | .permission declared => declared.range

/-- The member as a relation, when it is one. -/
def relation? : Member → Option Relation
  | .relation declared => some declared
  | .permission _ => none

/-- The member as a permission, when it is one. -/
def permission? : Member → Option Permission
  | .relation _ => none
  | .permission declared => some declared

end Member

namespace Definition

/-- The first relation of a name, or else the first permission of that name. -/
def lookup? (definition : Definition) (name : String) : Option Member :=
  -- Relations answer before permissions, wherever either is written.
  ((definition.relations.find? (·.name = name)).map Member.relation).or
    ((definition.permissions.find? (·.name = name)).map Member.permission)

/-- Relations and permissions in document order, a relation first where both start together. -/
def members (definition : Definition) : List Member :=
  -- Relations stand first in what is sorted, and so stay first where both start together.
  Range.sortByStart Member.range
    (definition.relations.map Member.relation ++ definition.permissions.map Member.permission)

end Definition

end AuthSchema
