import AuthSchema.Parse.SyntaxError
import AuthSchema.Reference.Resolution

/-! Diagnostics: what is wrong with a schema, where, and which other places explain it. -/

namespace AuthSchema

/-- How serious a diagnostic is. -/
inductive Severity where
  /-- The schema cannot be used as it is. -/
  | error
  /-- The schema can be used but is probably not meant so. -/
  | warning
  deriving DecidableEq, Repr, Inhabited

/-- The number that editors use for a severity. -/
def Severity.editorCode : Severity → Nat
  | .error => 1
  | .warning => 2

/-- A further place that explains a diagnostic. -/
structure RelatedPlace where
  /-- The place. -/
  range : Range
  /-- What is to be seen there. -/
  message : String
  deriving DecidableEq, Repr

/-- A message about a stretch of text. -/
structure Diagnostic where
  /-- The stretch of text. -/
  range : Range
  /-- How serious it is. -/
  severity : Severity
  /-- The stable code of the problem, where it has one. -/
  code? : Option String
  /-- What is wrong. -/
  message : String
  /-- Further places that explain it. -/
  related : List RelatedPlace
  deriving DecidableEq, Repr

/-- The kinds of problems that diagnostics report. -/
inductive Problem where
  /-- A type reference names no definition. -/
  | undefinedType
  /-- A name is not declared in the definition in which it is looked up. -/
  | undefinedMember
  /-- No type that an arrow reaches declares the name on its right. -/
  | undefinedArrowTarget
  /-- An arrow follows a permission. -/
  | invalidArrowSource
  /-- A path is defined more than once. -/
  | duplicateDefinition
  /-- A name is declared more than once in a definition. -/
  | duplicateMember
  /-- The text is not a schema. -/
  | syntaxError
  /-- Some of the types that an arrow reaches do not declare the name on its right. -/
  | partialArrowTarget
  deriving DecidableEq, Repr, Inhabited

namespace Problem

/-- The stable code of a problem. -/
def code : Problem → String
  | .undefinedType => "E0001"
  | .undefinedMember => "E0002"
  | .undefinedArrowTarget => "E0003"
  | .invalidArrowSource => "E0004"
  | .duplicateDefinition => "E0005"
  | .duplicateMember => "E0006"
  | .syntaxError => "E0100"
  | .partialArrowTarget => "W0001"

/-- Every problem is an error, except for an arrow that leads somewhere but not everywhere. -/
def severity : Problem → Severity
  | .partialArrowTarget => .warning
  | _ => .error

/-- The diagnostic that reports a problem. -/
def report (problem : Problem) (range : Range) (message : String)
    (related : List RelatedPlace) : Diagnostic :=
  -- Code and severity go with the problem, and the rest with the place.
  ⟨range, problem.severity, some problem.code, message, related⟩

end Problem

/-- A name as it is shown in messages. -/
def quoted (name : String) : String :=
  "`" ++ name ++ "`"

/-- Several names as they are shown in messages. -/
def quotedList (names : List String) : String :=
  ", ".intercalate (names.map quoted)

namespace Diagnostic

/-- A type reference that names no definition. -/
def undefinedType (written : SubjectType) : Diagnostic :=
  -- Only the path is at fault, and a suffix is not looked at without it.
  Problem.undefinedType.report written.pathRange ("undefined type " ++ quoted written.path) []

/-- A type reference whose definition does not declare the name after the hash. -/
def undefinedSuffix (written : SubjectType) (definition : Definition) : Diagnostic :=
  -- A reference without a place for that name is marked as a whole.
  Problem.undefinedMember.report (written.suffixRange.getD written.range)
    (quoted definition.name ++ " has no relation or permission " ++
      quoted (written.suffix.getD ""))
    [⟨definition.nameRange, quoted definition.name ++ " declared here"⟩]

/-- A name that the definition around it does not declare. -/
def undefinedMember (written : NameRef) (enclosing : Definition) : Diagnostic :=
  Problem.undefinedMember.report written.range
    ("undefined relation or permission " ++ quoted written.name ++ " in " ++
      quoted enclosing.name) []

/-- An arrow that follows a permission. -/
def invalidArrowSource (written : Arrow) : Diagnostic :=
  -- The left name is at fault, though the report is about the whole arrow.
  Problem.invalidArrowSource.report written.left.range
    (quoted written.left.name ++ " is a permission; arrows can only follow relations") []

/-- The definitions that an arrow reaches and that do not declare the name on its right, if any. -/
def arrowTarget? (written : Arrow) (reach : ArrowReach) : Option Diagnostic :=
  -- Types that are not defined are not reached, and so are not listed.
  let names := reach.missing.map (·.definition.name)
  if names.isEmpty then
    none
  -- One type with the name is enough for the arrow to be of use.
  else if reach.isResolved then
    some (Problem.partialArrowTarget.report written.right.range
      (quoted written.right.name ++ " is not defined on " ++ quotedList names) [])
  else
    some (Problem.undefinedArrowTarget.report written.right.range
      ("no type reachable through " ++ quoted written.left.name ++ " has " ++
        quoted written.right.name ++ " (checked " ++ quotedList names ++ ")") [])

/-- A definition whose path is already defined. -/
def duplicateDefinition (duplicate existing : Definition) : Diagnostic :=
  Problem.duplicateDefinition.report duplicate.nameRange
    ("duplicate definition: " ++ quoted duplicate.name ++ " is already defined")
    [⟨existing.nameRange, "previous definition of " ++ quoted existing.name⟩]

/-- A member that cannot be found, because another one answers for its name. -/
def duplicateMember (shadowed resolved : Member) (definition : Definition) : Diagnostic :=
  Problem.duplicateMember.report shadowed.nameRange
    (quoted shadowed.name ++ " is declared more than once in " ++ quoted definition.name)
    [⟨resolved.nameRange, quoted resolved.name ++ " resolves to this declaration"⟩]

/-- A syntax error as a diagnostic. -/
def ofSyntaxError (error : SyntaxError) : Diagnostic :=
  Problem.syntaxError.report error.range error.message []

end Diagnostic

end AuthSchema
