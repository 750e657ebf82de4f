import AuthSchema.Proofs.Text.Coordinates
import AuthSchema.Proofs.Token.Segmentation

/-!
The positions of tokens, by the pointer that can work them out and by the numbers it needs.

* One pointer is asked for the spans of the tokens in turn, and then for the end of the text.
* Its answers are the ranges of the tokens and the position just past the text.
* In a text of less than `Position.maxCoordinate` bytes, no coordinate among them is larger.
-/

namespace AuthSchema

/-- Both coordinates of a position are numbers that editors exchange. -/
def Position.Fits (position : Position) : Prop :=
  position.line ≤ maxCoordinate ∧ position.column ≤ maxCoordinate

namespace TokenStream

/-- What has to be asked to place the tokens of a source: their spans in turn, and its end. -/
def requests (source : String) (stream : TokenStream) : List PlaceRequest :=
  stream.tokens.map (fun token => .range token.start.offset token.stop.offset) ++
    [.position source.utf8ByteSize]

/-- What the tokens have as answers: their ranges in turn, and the position just past the text. -/
def answers (stream : TokenStream) : List (Option PlaceAnswer) :=
  stream.tokens.map (fun token => some (.range token.range)) ++ [some (.position stream.stop)]

end TokenStream

namespace LineTable

variable {source : String}

/-- The position just past the text is looked up at the number of its bytes. -/
theorem position?_utf8ByteSize (source : String) :
    (ofText source).position? source.utf8ByteSize = some (tokenize source).stop := by
  -- The table counts the bytes by passing over the characters.
  have bytes : (ofText source).byteCount = source.utf8ByteSize := by
    rw [← String.utf8Len_toList]
    exact Place.offset_after_origin source.toList
  rw [← bytes]
  exact textStop?_ofText source

/-- Both ends of a range that is looked up are looked up themselves. -/
theorem position?_of_range? {start stop : Nat} {range : Range}
    (looked : (ofText source).range? start stop = some range) :
    (ofText source).position? start = some range.start ∧
      (ofText source).position? stop = some range.stop := by
  rw [range?] at looked
  split at looked
  · -- Each end is looked up on its own, and the range is put together from both.
    simp only [Option.bind_eq_bind, Option.bind_eq_some_iff, Option.pure_def,
      Option.some.injEq] at looked
    obtain ⟨first, atStart, last, atStop, rfl⟩ := looked
    exact ⟨atStart, atStop⟩
  · cases looked

/-- In a short text, all positions that are looked up fit. -/
theorem fits_of_position? (short : source.utf8ByteSize < Position.maxCoordinate) {offset : Nat}
    {found : Position} (looked : (ofText source).position? offset = some found) : found.Fits := by
  -- A coordinate is at most one more than the bytes of the text.
  obtain ⟨line, column⟩ := coordinates_le looked
  exact ⟨by omega, by omega⟩

end LineTable

/-- One pointer that is asked for the spans of the tokens, and then for the end, gives their places. -/
theorem Locator.answers_requests_tokenize (source : String) :
    (Locator.ofText source).answers ((tokenize source).requests source) =
      (tokenize source).answers := by
  -- Wherever the pointer was sent before, it answers as the table of line starts does.
  have stands : (Locator.ofText source).StandsIn source.toList := standsIn_atStart source.toList
  have table : PlaceRequest.answerIn? source.toList = (LineTable.ofText source).answer? :=
    funext fun request => (LineTable.answer?_eq source request).symm
  rw [stands.answers, table, TokenStream.requests, List.map_append, List.map_map]
  refine congrArg₂ (· ++ ·) ?_ ?_
  · -- Each token stands where the table says that its span does.
    refine List.map_congr_left fun token listed => ?_
    have found := (segments_tokenize source).tokens.found token listed
    exact congrArg (Option.map PlaceAnswer.range) found.range_eq
  · exact congrArg (fun found => [Option.map PlaceAnswer.position found])
      (LineTable.position?_utf8ByteSize source)

/-- In a short text, the tokens start and stop at positions that fit, and so does the text. -/
theorem fits_tokenize {source : String} (short : source.utf8ByteSize < Position.maxCoordinate) :
    (∀ token ∈ (tokenize source).tokens, token.range.start.Fits ∧ token.range.stop.Fits) ∧
      (tokenize source).stop.Fits := by
  constructor
  · intro token listed
    have found := (segments_tokenize source).tokens.found token listed
    obtain ⟨atStart, atStop⟩ := LineTable.position?_of_range? found.range_eq
    exact ⟨LineTable.fits_of_position? short atStart, LineTable.fits_of_position? short atStop⟩
  · exact LineTable.fits_of_position? short (LineTable.position?_utf8ByteSize source)

/-- A comment and a character of two bytes stand before the tokens of this text. -/
example :
    (Locator.ofText "//é\na/b").answers ((tokenize "//é\na/b").requests "//é\na/b") =
      [some (.range ⟨⟨2, 1⟩, ⟨2, 2⟩⟩), some (.range ⟨⟨2, 2⟩, ⟨2, 3⟩⟩),
        some (.range ⟨⟨2, 3⟩, ⟨2, 4⟩⟩), some (.position ⟨2, 4⟩)] := by
  decide +kernel

end AuthSchema
