import AuthSchema.Token.Lexeme

/-! The tokens of a text, without the blanks and comments between them. -/

namespace AuthSchema

/-- The tokens of a text, and the position just past the text. -/
structure TokenStream where
  /-- The tokens in document order. -/
  tokens : List Token
  /-- The position just past the last character. -/
  stop : Position
  deriving DecidableEq, Repr

/-- The tokens of the characters from a place on. -/
def tokensFrom (place : Place) : List Char → List Token
  | [] => []
  | first :: rest =>
    let lexeme := Lexeme.ofHead first rest
    let text := first :: rest.take lexeme.more
    let stop := place.after text
    let later := tokensFrom stop (rest.drop lexeme.more)
    -- Blanks and comments move the place on but leave no token.
    match lexeme.kind? with
    | none => later
    | some kind => ⟨kind, String.ofList text, place, stop⟩ :: later
termination_by text => text.length
decreasing_by simp only [List.length_drop, List.length_cons]; omega

/-- Splits a text into tokens, where text that cannot be recognized is kept as unknown tokens. -/
def tokenize (source : String) : TokenStream :=
  ⟨tokensFrom .origin source.toList, (Place.origin.after source.toList).position⟩

end AuthSchema
