import AuthSchema.Diagnostic.Basic

/-! Checks of a whole schema: declarations that cannot be found, and references to nothing. -/

namespace AuthSchema

/--
The members of a definition that cannot be found under their names.

The members seen so far stand newest first, and the newest of a name speaks for it.
-/
def Definition.duplicateMembers (definition : Definition) (seen : List Member) :
    List Member → List Diagnostic
  | [] => []
  | member :: later =>
    match seen.find? (·.name = member.name) with
    -- The first member of a name is none too many.
    | none => definition.duplicateMembers (member :: seen) later
    | some existing =>
      -- Whichever of the two is not found under the name is the duplicate.
      if (definition.lookup? member.name).map (·.range) = some member.range then
        .duplicateMember existing member definition ::
          definition.duplicateMembers (member :: seen) later
      else
        .duplicateMember member existing definition :: definition.duplicateMembers seen later

namespace Schema

/-- The diagnostic of a definition whose path an earlier one has taken. -/
def duplicateDefinition? (schema : Schema) (definition : Definition) (index : Nat) :
    Option Diagnostic :=
  -- The first definition of a path is the one that is found, and every later one is reported.
  if schema.isVisible index then none
  else (schema.definition? definition.name).map (.duplicateDefinition definition ·)

/-- Reports the definitions and members that cannot be found under their names. -/
def checkDeclarations (schema : Schema) : List Diagnostic :=
  schema.definitions.zipIdx.flatMap fun (definition, index) =>
    (schema.duplicateDefinition? definition index).toList ++
      definition.duplicateMembers [] definition.members

end Schema

/-- Reports an arrow by what blocks it, or by the definitions that lack its right side. -/
def Arrow.diagnostic? (written : Arrow) : ArrowReach → Option Diagnostic
  | .blocked .permissionSource => some (.invalidArrowSource written)
  -- The name on the left, or the types of its relation, are reported where they are written.
  | .blocked .undeclaredSource | .blocked .undefinedTypes => none
  | .reached branches => Diagnostic.arrowTarget? written (.reached branches)

/-- The diagnostic of a reference, where there is one. -/
def ResolvedSite.diagnostic? (site : ResolvedSite) : Option Diagnostic :=
  match site.resolution with
  | .type written none => some (.undefinedType written)
  | .type written (some found) =>
    -- A name after the hash is looked up only where its type is defined.
    if written.suffix.isSome && found.relation?.isNone then
      some (.undefinedSuffix written found.definition)
    else
      none
  | .name written none => some (.undefinedMember written site.enclosing)
  | .name _ (some _) => none
  | .arrowTarget written found => written.diagnostic? found

/-- The checks of a schema. -/
inductive CheckPass where
  /-- Declarations that cannot be found under their names. -/
  | declarations
  /-- References to something that is not declared. -/
  | references
  deriving DecidableEq, Repr, Inhabited

namespace Schema

/-- Reports the references to something that is not declared. -/
def checkReferences (schema : Schema) : List Diagnostic :=
  schema.resolvedSites.filterMap ResolvedSite.diagnostic?

/-- What one check reports, in the order in which it finds it. -/
def runPass (schema : Schema) : CheckPass → List Diagnostic
  | .declarations => schema.checkDeclarations
  | .references => schema.checkReferences

/-- What several checks report, sorted by where it starts. -/
def runPasses (schema : Schema) (passes : List CheckPass) : List Diagnostic :=
  Range.sortByStart Diagnostic.range (passes.flatMap schema.runPass)

/-- What all checks report, sorted by where it starts. -/
def check (schema : Schema) : List Diagnostic :=
  schema.runPasses [.declarations, .references]

end Schema

end AuthSchema
