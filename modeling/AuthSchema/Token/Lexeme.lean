import AuthSchema.Token.Basic

/-! The longest lexeme at the head of a text: what it is and how many characters it takes. -/

namespace AuthSchema

/-- Blanks separate tokens: space, tab, carriage return, line feed and form feed. -/
def isBlank (char : Char) : Bool :=
  char == ' ' || char == '\t' || char == '\r' || char == '\n' || char == '\x0c'

/-- Names start with a letter of the Latin alphabet or an underscore. -/
def isNameStart (char : Char) : Bool :=
  char.isAlpha || char == '_'

/-- Names go on with letters, digits and underscores. -/
def isNameChar (char : Char) : Bool :=
  char.isAlphanum || char == '_'

/-- The kind of a complete name, which is a keyword for four of them. -/
def wordKind (word : List Char) : TokenKind :=
  if word = "definition".toList then .definition
  else if word = "relation".toList then .relation
  else if word = "permission".toList then .permission
  else if word = "nil".toList then .nil
  else .identifier

/-- The kind of a character that is a token on its own, whatever follows it. -/
def signKind? : Char → Option TokenKind
  | '+' => some .plus
  | '&' => some .ampersand
  | ':' => some .colon
  | '=' => some .equals
  | '\x7b' => some .leftBrace
  | '\x7d' => some .rightBrace
  | '(' => some .leftParen
  | ')' => some .rightParen
  | '#' => some .hash
  | '|' => some .pipe
  | '*' => some .star
  | _ => none

/-- The number of characters up to and including the first end of a block comment. -/
def blockEnd? : List Char → Option Nat
  | [] => none
  | '*' :: '/' :: _ => some 2
  | _ :: rest => (blockEnd? rest).map (· + 1)

/-- A lexeme at the head of a text, given by its class and its length. -/
structure Lexeme where
  /-- The kind of token, where blanks and comments are none. -/
  kind? : Option TokenKind
  /-- The number of characters that belong to the lexeme after its first one. -/
  more : Nat
  deriving DecidableEq, Repr

namespace Lexeme

/-- The lexeme that starts with a slash, given the characters after the slash. -/
def ofSlash : List Char → Lexeme
  -- A line comment leaves the line feed that ends it.
  | '/' :: rest => ⟨none, 1 + (rest.takeWhile (· != '\n')).length⟩
  | '*' :: rest =>
    match blockEnd? rest with
    | some length => ⟨none, 1 + length⟩
    -- A block comment that never ends takes the rest of the text.
    | none => ⟨some .unknown, 1 + rest.length⟩
  | _ => ⟨some .slash, 0⟩

/-- The lexeme that starts with a dash, given the characters after the dash. -/
def ofDash : List Char → Lexeme
  | '>' :: _ => ⟨some .arrow, 1⟩
  | _ => ⟨some .minus, 0⟩

/-- The name that starts with a character, given the characters after it. -/
def ofName (first : Char) (rest : List Char) : Lexeme :=
  let more := rest.takeWhile isNameChar
  ⟨some (wordKind (first :: more)), more.length⟩

/-- The longest lexeme at the head of a text that is not empty. -/
def ofHead (first : Char) (rest : List Char) : Lexeme :=
  if isBlank first then ⟨none, 0⟩
  else if first = '/' then ofSlash rest
  else if first = '-' then ofDash rest
  else if isNameStart first then ofName first rest
  -- What starts no lexeme stands alone, one character at a time.
  else ⟨some ((signKind? first).getD .unknown), 0⟩

end Lexeme

end AuthSchema
