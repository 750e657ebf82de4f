import AuthSchema.Text.Place
import AuthSchema.Text.Range

/-! Tokens of an authorization schema: their kinds, their text and where they stand. -/

namespace AuthSchema

/-- What a token is, regardless of where it stands. -/
inductive TokenKind where
  /-- The keyword that opens a definition. -/
  | definition
  /-- The keyword that opens a relation. -/
  | relation
  /-- The keyword that opens a permission. -/
  | permission
  /-- The keyword of the empty expression. -/
  | nil
  /-- A name that is not a keyword. -/
  | identifier
  /-- The sign of union. -/
  | plus
  /-- The sign of intersection. -/
  | ampersand
  /-- The sign of exclusion. -/
  | minus
  /-- The sign that follows a relation to the objects it holds. -/
  | arrow
  /-- The sign before the types of a relation, and before a wildcard. -/
  | colon
  /-- The sign before the expression of a permission. -/
  | equals
  /-- The opening of a body. -/
  | leftBrace
  /-- The end of a body. -/
  | rightBrace
  /-- The opening of a nested expression. -/
  | leftParen
  /-- The end of a nested expression. -/
  | rightParen
  /-- The sign before the relation of a type reference. -/
  | hash
  /-- The sign between two allowed types. -/
  | pipe
  /-- The wildcard. -/
  | star
  /-- The sign inside a two-part path. -/
  | slash
  /-- Text that no token starts with, or a comment that never ends. -/
  | unknown
  deriving DecidableEq, Repr, Inhabited

namespace TokenKind

/-- The words by which messages name a kind of token. -/
def describe : TokenKind → String
  | .definition => "`definition`"
  | .relation => "`relation`"
  | .permission => "`permission`"
  | .nil => "`nil`"
  | .identifier => "identifier"
  | .plus => "`+`"
  | .ampersand => "`&`"
  | .minus => "`-`"
  | .arrow => "`->`"
  | .colon => "`:`"
  | .equals => "`=`"
  | .leftBrace => "`\x7b`"
  | .rightBrace => "`\x7d`"
  | .leftParen => "`(`"
  | .rightParen => "`)`"
  | .hash => "`#`"
  | .pipe => "`|`"
  | .star => "`*`"
  | .slash => "`/`"
  | .unknown => "unknown token"

/-- The keywords that open a declaration. -/
def opensDeclaration : TokenKind → Bool
  | .definition | .relation | .permission => true
  | _ => false

end TokenKind

/-- A piece of text with its kind and the places at its two ends. -/
structure Token where
  /-- What the token is. -/
  kind : TokenKind
  /-- The characters of the token. -/
  text : String
  /-- The boundary before its first character. -/
  start : Place
  /-- The boundary after its last character. -/
  stop : Place
  deriving DecidableEq, Repr, Inhabited

/-- The range of a token, in lines and columns. -/
def Token.range (token : Token) : Range :=
  ⟨token.start.position, token.stop.position⟩

/-- One token directly follows another when no byte lies between them. -/
def Token.isAdjacent (first second : Token) : Bool :=
  -- Comments and blanks count as bytes, and so does a line feed.
  first.stop.offset == second.start.offset

end AuthSchema
