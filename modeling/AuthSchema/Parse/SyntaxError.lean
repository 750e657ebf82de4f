import AuthSchema.Token.Basic

/-! Syntax errors: what the grammar asked for, what stood there instead, and how that is worded. -/

namespace AuthSchema

/-- What must come next at some point of the grammar. -/
inductive Expectation where
  /-- A token of one kind, named by its sign or keyword. -/
  | token (kind : TokenKind)
  /-- The path of a definition. -/
  | definitionName
  /-- A member of a body, or the end of the body. -/
  | memberOrClose
  /-- The name of a relation. -/
  | relationName
  /-- The path of an admitted type. -/
  | typeName
  /-- The second part of a path. -/
  | typeNameAfterSlash
  /-- The relation of a type reference. -/
  | relationNameAfterHash
  /-- The star of a wildcard. -/
  | starAfterColon
  /-- The name of a permission. -/
  | permissionName
  /-- An operand of an expression. -/
  | operand
  /-- The name that an arrow looks up. -/
  | operandAfterArrow
  deriving DecidableEq, Repr, Inhabited

/-- The words by which messages name what was expected. -/
def Expectation.describe : Expectation → String
  | .token kind => kind.describe
  | .definitionName => "definition name"
  | .memberOrClose => "`relation`, `permission` or `\x7d`"
  | .relationName => "relation name"
  | .typeName => "type name"
  | .typeNameAfterSlash => "type name after `/`"
  | .relationNameAfterHash => "relation name after `#`"
  | .starAfterColon => "`*` after `:`"
  | .permissionName => "permission name"
  | .operand => "relation or permission name"
  | .operandAfterArrow => "relation or permission name after `->`"

/-- Why a text is not a schema. -/
inductive SyntaxError.Cause where
  /-- Text that is no token at all. -/
  | unknownToken (text : String)
  /-- A token that cannot stand here. -/
  | unexpected (expected : Expectation) (found : String)
  /-- The text ends too early. -/
  | unexpectedEnd (expected : Expectation)
  /-- A path with blanks or comments around its slash. -/
  | spacedPath (path : String)
  /-- More open parentheses than are allowed. -/
  | nestedTooDeeply
  deriving DecidableEq, Repr, Inhabited

/-- A syntax error with the stretch of text that it is about. -/
structure SyntaxError where
  /-- Why the text was refused. -/
  cause : SyntaxError.Cause
  /-- The stretch of text at fault. -/
  range : Range
  deriving DecidableEq, Repr, Inhabited

namespace SyntaxError

/-- The wording of each cause. -/
def Cause.message : Cause → String
  | .unknownToken text => "unrecognized input `" ++ text ++ "`"
  -- What was found is quoted as it stands in the text.
  | .unexpected expected found =>
    "expected " ++ expected.describe ++ ", found `" ++ found ++ "`"
  | .unexpectedEnd expected => "unexpected end of input, expected " ++ expected.describe
  | .spacedPath path => "whitespace is not allowed inside type path `" ++ path ++ "`"
  | .nestedTooDeeply => "expression is nested too deeply"

/-- The message alone, for callers that show the place themselves. -/
def message (error : SyntaxError) : String :=
  error.cause.message

/-- The message followed by the place. -/
def display (error : SyntaxError) : String :=
  error.message ++ " at " ++ error.range.display

end SyntaxError

end AuthSchema
