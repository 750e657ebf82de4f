import AuthSchema.Reference.Resolution

/-! Going from a reference under the cursor to the declarations it stands for. -/

namespace AuthSchema

/-- A declaration to go to. -/
structure NavigationTarget where
  /-- The declared name. -/
  name : String
  /-- Where the name is written. -/
  nameRange : Range
  /-- The whole declaration. -/
  range : Range
  deriving DecidableEq, Repr

/-- A definition as a target. -/
def Definition.target (definition : Definition) : NavigationTarget :=
  ⟨definition.name, definition.nameRange, definition.range⟩

/-- A relation or permission as a target. -/
def Member.target (member : Member) : NavigationTarget :=
  ⟨member.name, member.nameRange, member.range⟩

/-- The reference under the cursor, and the declarations it stands for. -/
structure Navigation where
  /-- Where the reference is written. -/
  origin : Range
  /-- Its declarations, of which only an arrow has several. -/
  targets : List NavigationTarget
  deriving DecidableEq, Repr

namespace Resolution

/-- Where a type leads, which depends on whether the cursor is on its path or after its hash. -/
def navigateType (written : SubjectType) (found : ResolvedType) (position : Position) :
    Option Navigation :=
  -- Every other position of the type leads from its path, that of a sign as well.
  match written.suffixRange.filter (·.contains position) with
  | none => some ⟨written.pathRange, [found.definition.target]⟩
  | some suffix => found.relation?.map fun member => ⟨suffix, [member.target]⟩

/-- Where a reference leads from a position inside it. -/
def navigate? (position : Position) : Resolution → Option Navigation
  -- A type that is not defined leads nowhere, from its suffix as little as from its path.
  | .type written found => found.bind (navigateType written · position)
  | .name written found => found.map fun member => ⟨written.range, [member.target]⟩
  | .arrowTarget written found =>
    -- An arrow leads to the name in every definition that declares it.
    if found.isResolved then some ⟨written.right.range, found.targets.map Member.target⟩ else none

end Resolution

/-- The declarations of the reference at a position. -/
def Schema.navigate? (schema : Schema) (position : Position) : Option Navigation :=
  (schema.siteAt? position).bind fun site => (schema.resolve site).navigate? position

end AuthSchema
