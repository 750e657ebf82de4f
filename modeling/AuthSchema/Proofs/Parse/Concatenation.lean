import AuthSchema.Proofs.Parse.Accept
import AuthSchema.Proofs.Parse.Reread
import AuthSchema.Proofs.Token.Insertion

/-!
Documents that are written one below the other are read one after the other.

* A line feed ends whatever lexeme the first text ends with, a line comment included.
* So the tokens are those of both texts, and the second ones stand further down.
* Their derivations side by side derive the definitions of both, the second ones at lower lines.
-/

namespace AuthSchema

open Grammar

/-- A position some lines further down, in the same column. -/
def Position.lowered (lines : Nat) (position : Position) : Position :=
  ⟨position.line + lines, position.column⟩

/-- A range some lines further down, in the same columns. -/
def Range.lowered (lines : Nat) (range : Range) : Range :=
  ⟨range.start.lowered lines, range.stop.lowered lines⟩

section Tokens

variable {first : Char} {taken rest : List Char} {kind? : Option TokenKind}

/-- A lexeme stays the same when a line feed comes behind the text, unless it never ends. -/
theorem Lexeme.ofHead_append_lineFeed
    (read : Lexeme.ofHead first (taken ++ rest) = ⟨kind?, taken.length⟩)
    (known : kind? ≠ some .unknown) (later : List Char) :
    Lexeme.ofHead first (taken ++ (rest ++ '\n' :: later)) = ⟨kind?, taken.length⟩ := by
  -- What is behind the lexeme decides, and it is either the old text or the line feed.
  cases rest with
  | cons char rest =>
    -- The character behind the lexeme is still the same one.
    exact Lexeme.ofHead_of_follow read (.of_head_eq known rfl)
  | nil =>
    cases kind? with
    | some kind =>
      -- A blank behind a token ends it as the end of the text did.
      have detached : Detached ('\n' :: later) := by simp [Detached, isBlank]
      exact Lexeme.ofHead_of_follow read (.of_detached (by simpa using known) detached)
    | none =>
      -- A line comment went on to the end of the text, and now goes on to the line feed.
      have trivia : Trivia (first :: taken) [] := Lexeme.ofHead_eq_iff.mp read
      have stays : Trivia (first :: taken) ('\n' :: later) := by
        cases trivia with
        | blank listed => exact .blank listed _
        | line oneLine => exact .line oneLine (by simp)
        | block first => exact .block first _
      exact Lexeme.ofHead_eq_iff.mpr stays

/-- The tokens of a text with a line feed behind it come before those of what follows. -/
theorem tokensFrom_append_lineFeed {place : Place} {text : List Char}
    (known : Known (tokensFrom place text)) (later : List Char) :
    tokensFrom place (text ++ '\n' :: later) =
      tokensFrom place text ++ tokensFrom (place.after (text ++ ['\n'])) later := by
  -- The induction goes from lexeme to lexeme, up to the line feed.
  induction place, text using lexeme_induction with
  | nil place =>
    -- A line feed is a blank by itself.
    have feed : Lexeme.ofHead '\n' ([] ++ later) = ⟨none, 0⟩ := rfl
    rw [tokensFrom]
    exact tokensFrom_of_lexeme feed place
  | cons place first taken rest kind? read ih =>
    rw [tokensFrom_of_lexeme read, known_append] at known
    -- All tokens of the text are known, and so this lexeme is no comment that never ends.
    have closed : kind? ≠ some .unknown := by
      intro unknown
      subst unknown
      simp at known
    have onward : place.after (first :: (taken ++ rest) ++ ['\n']) =
        (place.after (first :: taken)).after (rest ++ ['\n']) := by
      rw [← Place.after_append]
      simp
    -- The lexeme is read as before, and the induction goes on behind it.
    rw [List.cons_append, List.append_assoc,
      tokensFrom_of_lexeme (Lexeme.ofHead_append_lineFeed read closed later),
      tokensFrom_of_lexeme read, ih known.2, onward, List.append_assoc]

end Tokens

/-- The place above the first line and before the first column, which all places come after. -/
def Place.bottom : Place :=
  ⟨0, ⟨0, 0⟩⟩

/-- The bottom comes before every place, in bytes as well as in lines. -/
theorem Place.bottom_precedes (place : Place) : Place.bottom.Precedes place where
  position_le := by
    -- The first line is line one, so that no place is on a line before it.
    rw [Position.le_iff]
    show 0 < place.position.line ∨ (0 = place.position.line ∧ 0 ≤ place.position.column)
    omega
  offset_le := Nat.zero_le _

/-- Counted from the bottom, moving down moves every range down and none sideways. -/
theorem Range.moved_bottom (bytes lines : Nat) :
    Range.moved Place.bottom.position (Place.mk bytes ⟨lines, 0⟩).position =
      Range.lowered lines := by
  -- Only a position on the line of the bottom would change its column, and there by nothing.
  have position_eq : ∀ position : Position,
      Place.bottom.position.moved ⟨lines, 0⟩ position = position.lowered lines := by
    intro position
    refine Position.ext rfl ?_
    show (if position.line = 0 then position.column - 0 + 0 else position.column) = position.column
    split <;> rfl
  funext range
  exact congrArg₂ Range.mk (position_eq range.start) (position_eq range.stop)

/-- Where the text below another one is put: behind its bytes and below its lines. -/
def Place.below (source : String) : Place :=
  ⟨source.utf8ByteSize + 1, ⟨source.toList.count '\n' + 1, 0⟩⟩

/-- Text behind a line feed starts at the place that moving it down gives. -/
theorem Place.after_lineFeed (source : String) :
    Place.origin.after (source.toList ++ ['\n']) =
      Place.bottom.moved (Place.below source) Place.origin := by
  -- Bytes and position are counted apart, since they pass over the line feed in different ways.
  have offset_eq : (Place.origin.after (source.toList ++ ['\n'])).offset =
      0 + (source.utf8ByteSize + 1) := by
    rw [Place.offset_after_origin, String.utf8Len_append, String.utf8Len_toList, Nat.zero_add]
    rfl
  have position_eq : (Place.origin.after (source.toList ++ ['\n'])).position =
      ⟨1 + (source.toList.count '\n' + 1), 1⟩ := by
    rw [Place.position_after]
    refine Position.ext ?_ ?_
    · rw [Position.line_after, List.count_append]
      rfl
    · -- The line feed leads to the first column, whatever stands before it.
      rw [Position.after_append]
      rfl
  calc
    Place.origin.after (source.toList ++ ['\n']) =
        ⟨0 + (source.utf8ByteSize + 1), ⟨1 + (source.toList.count '\n' + 1), 1⟩⟩ :=
      congrArg₂ Place.mk offset_eq position_eq
    _ = Place.bottom.moved (Place.below source) Place.origin := rfl

/-- The tokens of two texts, one below the other, are those of the first and then the others. -/
theorem tokenize_append_lineFeed {source : String} (known : Known (tokenize source).tokens)
    (other : String) :
    (tokenize (source ++ "\n" ++ other)).tokens =
      (tokenize source).tokens ++
        (tokenize other).tokens.map (Token.moved .bottom (.below source)) := by
  -- The joined text is taken apart into characters, which is what tokens are found in.
  have split : (source ++ "\n" ++ other).toList = source.toList ++ '\n' :: other.toList := by
    simp
  show tokensFrom .origin (source ++ "\n" ++ other).toList = _
  rw [split, tokensFrom_append_lineFeed known, Place.after_lineFeed,
    tokensFrom_moved (Place.bottom_precedes .origin)]
  rfl

namespace Grammar.SchemaTree

/-- The derivation of two documents, of which the second is below a text. -/
def above (tree : SchemaTree) (source : String) (other : SchemaTree) : SchemaTree :=
  ⟨tree.definitions ++ other.definitions.map (DefinitionTree.moved .bottom (.below source))⟩

variable {tree other : SchemaTree} {source : String}

/-- Two derivations side by side derive the definitions of both, the second ones further down. -/
theorem definitions_above :
    (tree.above source other).schema.definitions =
      tree.schema.definitions ++ other.schema.definitions.map
        (Definition.mapRanges (Range.lowered (source.toList.count '\n' + 1))) := by
  -- Each definition of the second text is moved by itself.
  have moved : ∀ definition ∈ other.definitions,
      (definition.moved .bottom (.below source)).definition =
        definition.definition.mapRanges (Range.lowered (source.toList.count '\n' + 1)) := by
    intro definition _
    rw [← Range.moved_bottom (source.utf8ByteSize + 1)]
    -- No token stands before the bottom, so that all ranges are moved along.
    refine definition.definition_moved _ fun token _ => ?_
    exact ⟨(Place.bottom_precedes token.start).position_le,
      (Place.bottom_precedes token.stop).position_le⟩
  simp only [above, schema, List.map_append, List.map_map]
  exact congrArg _ (List.map_congr_left moved)

/-- Two derivations side by side derive the tokens of both texts, within the same limits. -/
theorem Derives.above {lower : String} (derives : tree.Derives (tokenize source).tokens)
    (derivesLower : other.Derives (tokenize lower).tokens) :
    (tree.above source other).Derives (tokenize (source ++ "\n" ++ lower)).tokens := by
  -- What is derived has no unknown token, and so no comment that never ends.
  have known : Known (tokenize source).tokens := by
    rw [← derives.tokens_eq, SchemaTree.tokens, known_flatMap]
    exact fun definition _ => definition.known
  refine ⟨?_, ?_⟩
  · -- The tokens of a tree are those of its definitions, also when these are moved.
    rw [tokenize_append_lineFeed known, ← derives.tokens_eq, ← derivesLower.tokens_eq]
    simp [SchemaTree.above, SchemaTree.tokens, List.flatMap_map, List.map_flatMap]
  · -- Moving changes neither how deep an expression is nested nor what touches in a path.
    intro definition listed
    rcases List.mem_append.mp listed with here | below
    · exact derives.limits definition here
    · obtain ⟨inner, among, rfl⟩ := List.mem_map.mp below
      exact (derivesLower.limits inner among).moved _ _

end Grammar.SchemaTree

/--
Two texts that can be read can be read with a line feed between them.

What is read is the definitions of the first text, unchanged, and then those of the second text,
lowered by the lines of the first.
-/
theorem parse_append_lineFeed {upper lower : String} {schema other : Schema}
    (accepted : parse upper = .ok schema) (acceptedLower : parse lower = .ok other) :
    parse (upper ++ "\n" ++ lower) = .ok ⟨schema.definitions ++ other.definitions.map
      (Definition.mapRanges (Range.lowered (upper.toList.count '\n' + 1)))⟩ := by
  -- Both texts have derivations, which together derive the joined text.
  obtain ⟨tree, derives, rfl⟩ := exists_derives_of_parse_eq_ok accepted
  obtain ⟨lowerTree, derivesLower, rfl⟩ := exists_derives_of_parse_eq_ok acceptedLower
  rw [parse_eq_ok_of_derives (derives.above derivesLower)]
  exact congrArg (fun definitions => Except.ok (Schema.mk definitions))
    SchemaTree.definitions_above

/-- A definition over two lines, with a comment behind it that nothing ends. -/
def commentedType : String :=
  "definition user \x7b\n\x7d // é"

/-- A definition on one line, with a relation to the other one. -/
def relatedType : String :=
  "definition doc \x7b relation owner: user \x7d"

/-- The comment ends with the line feed, and the second definition is read two lines below. -/
theorem parse_append_lineFeed_commentedType :
    parse commentedType = .ok ⟨[⟨"user", ⟨⟨1, 12⟩, ⟨1, 16⟩⟩, ⟨⟨1, 1⟩, ⟨2, 2⟩⟩, [], []⟩]⟩ ∧
      parse relatedType = .ok ⟨[⟨"doc", ⟨⟨1, 12⟩, ⟨1, 15⟩⟩, ⟨⟨1, 1⟩, ⟨1, 40⟩⟩,
        [⟨"owner", ⟨⟨1, 27⟩, ⟨1, 32⟩⟩, ⟨⟨1, 18⟩, ⟨1, 38⟩⟩,
          [⟨"user", ⟨⟨1, 34⟩, ⟨1, 38⟩⟩, none, none, false, ⟨⟨1, 34⟩, ⟨1, 38⟩⟩⟩]⟩], []⟩]⟩ ∧
      parse (commentedType ++ "\n" ++ relatedType) =
        .ok ⟨[⟨"user", ⟨⟨1, 12⟩, ⟨1, 16⟩⟩, ⟨⟨1, 1⟩, ⟨2, 2⟩⟩, [], []⟩,
          ⟨"doc", ⟨⟨3, 12⟩, ⟨3, 15⟩⟩, ⟨⟨3, 1⟩, ⟨3, 40⟩⟩,
            [⟨"owner", ⟨⟨3, 27⟩, ⟨3, 32⟩⟩, ⟨⟨3, 18⟩, ⟨3, 38⟩⟩,
              [⟨"user", ⟨⟨3, 34⟩, ⟨3, 38⟩⟩, none, none, false, ⟨⟨3, 34⟩, ⟨3, 38⟩⟩⟩]⟩], []⟩]⟩ := by
  -- Both texts are evaluated once, and the theorem joins them without evaluating the third.
  have accepted : parse commentedType =
      .ok ⟨[⟨"user", ⟨⟨1, 12⟩, ⟨1, 16⟩⟩, ⟨⟨1, 1⟩, ⟨2, 2⟩⟩, [], []⟩]⟩ := by
    decide +kernel
  have acceptedLower : parse relatedType = .ok ⟨[⟨"doc", ⟨⟨1, 12⟩, ⟨1, 15⟩⟩, ⟨⟨1, 1⟩, ⟨1, 40⟩⟩,
      [⟨"owner", ⟨⟨1, 27⟩, ⟨1, 32⟩⟩, ⟨⟨1, 18⟩, ⟨1, 38⟩⟩,
        [⟨"user", ⟨⟨1, 34⟩, ⟨1, 38⟩⟩, none, none, false, ⟨⟨1, 34⟩, ⟨1, 38⟩⟩⟩]⟩], []⟩]⟩ := by
    decide +kernel
  exact ⟨accepted, acceptedLower, (parse_append_lineFeed accepted acceptedLower).trans (by rfl)⟩

end AuthSchema
