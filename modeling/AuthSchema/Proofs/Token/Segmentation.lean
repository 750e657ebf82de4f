import AuthSchema.Proofs.Text.LineTable
import AuthSchema.Proofs.Token.Lexical
import AuthSchema.Proofs.Token.Locality

/-!
The tokens of a text are its only segmentation into lexemes.

* Each token stands at its span, is as long as it can be, and has the positions of the line table.
* What lies before, between and behind the tokens is blanks and complete comments.
* No other tokens meet these conditions.
-/

namespace AuthSchema

open String (utf8Len)

/-- Blanks and complete comments one after another, given the text that follows them. -/
inductive Gap : List Char → List Char → Prop where
  | nil (follow : List Char) : Gap [] follow
  -- A line comment depends on what follows it, which may be another piece of the gap.
  | cons {piece gap follow : List Char} (trivia : Trivia piece (gap ++ follow))
    (later : Gap gap follow) : Gap (piece ++ gap) follow

/-- The characters between two byte offsets of a text, and those behind them. -/
def cutBytes? (text : List Char) (start stop : Nat) : Option (List Char × List Char) := do
  -- The later cut comes first, so that the earlier one leaves the characters between them.
  let (before, follow) ← splitBytes? text stop
  let (_, piece) ← splitBytes? before start
  return (piece, follow)

/-- A token that is found in a source, at its span and with the positions of that span. -/
structure Token.FoundIn (source : String) (token : Token) : Prop where
  nonempty : token.start.offset < token.stop.offset
  bounded : token.stop.offset ≤ source.utf8ByteSize
  text : ∃ follow, cutBytes? source.toList token.start.offset token.stop.offset =
      some (token.text.toList, follow) ∧
    Spells token.kind token.text.toList follow
  range_eq : (LineTable.ofText source).range? token.start.offset token.stop.offset =
    some token.range

/-- The spans before, between and behind tokens, from an offset to the end of the text. -/
def gapSpans (byteCount : Nat) : Nat → List Token → List (Nat × Nat)
  | offset, [] => [(offset, byteCount)]
  | offset, token :: later =>
    (offset, token.start.offset) :: gapSpans byteCount token.stop.offset later

/-- Between two offsets of a source lie only blanks and complete comments. -/
def SkippedIn (source : String) (start stop : Nat) : Prop :=
  ∃ gap follow, cutBytes? source.toList start stop = some (gap, follow) ∧ Gap gap follow

/-- Tokens that are a segmentation of a source from an offset on. -/
structure SegmentsFrom (source : String) (offset : Nat) (tokens : List Token) : Prop where
  found : ∀ token ∈ tokens, token.FoundIn source
  reached : ∀ token ∈ tokens, offset ≤ token.start.offset
  before : tokens.Pairwise fun first second => first.stop.offset ≤ second.start.offset
  gaps : ∀ span ∈ gapSpans source.utf8ByteSize offset tokens, SkippedIn source span.1 span.2

/-- A stream of tokens that is a segmentation of a whole source. -/
structure TokenStream.Segments (source : String) (stream : TokenStream) : Prop where
  tokens : SegmentsFrom source 0 stream.tokens
  stop_eq : (LineTable.ofText source).textStop? = some stream.stop

/-- Characters between two offsets are a piece of the text that starts and stops there. -/
theorem cutBytes?_eq_some_iff {text piece follow : List Char} {start stop : Nat} :
    cutBytes? text start stop = some (piece, follow) ↔
      ∃ before, text = before ++ (piece ++ follow) ∧ utf8Len before = start ∧
        utf8Len (before ++ piece) = stop := by
  -- Both cuts are splits at an offset, so that what is left is to join their pieces.
  simp only [cutBytes?, Option.bind_eq_bind, Option.bind_eq_some_iff, Prod.exists,
    splitBytes?_eq_some_iff, Option.pure_def, Option.some.injEq, Prod.mk.injEq]
  constructor
  · rintro ⟨_, _, ⟨rfl, stops⟩, before, _, ⟨rfl, starts⟩, rfl, rfl⟩
    exact ⟨before, List.append_assoc _ _ _, starts, stops⟩
  · rintro ⟨before, rfl, starts, stops⟩
    exact ⟨before ++ piece, follow, ⟨(List.append_assoc _ _ _).symm, stops⟩, before, piece,
      ⟨rfl, starts⟩, rfl, rfl⟩

/-- Two cuts of one text at the same offset are the same. -/
theorem append_inj_of_utf8Len {first second later behind : List Char}
    (same : first ++ later = second ++ behind) (bytes : utf8Len first = utf8Len second) :
    first = second ∧ later = behind := by
  have offset_eq : (Place.origin.after first).offset = (Place.origin.after second).offset := by
    simpa using bytes
  exact Place.append_inj_of_offset same offset_eq

/-- A gap of a source, by the text before it. -/
theorem skippedIn_iff {source : String} {before text : List Char} {stop : Nat}
    (split : source.toList = before ++ text) :
    SkippedIn source (utf8Len before) stop ↔
      ∃ gap follow, text = gap ++ follow ∧ Gap gap follow ∧ utf8Len (before ++ gap) = stop := by
  constructor
  -- The two cuts of the source at the start of the gap are one cut, by their bytes.
  · rintro ⟨gap, follow, cut, skipped⟩
    obtain ⟨lead, source_eq, starts, stops⟩ := cutBytes?_eq_some_iff.mp cut
    obtain ⟨rfl, rfl⟩ := append_inj_of_utf8Len (source_eq.symm.trans split) starts
    exact ⟨gap, follow, rfl, skipped, stops⟩
  · rintro ⟨gap, follow, rfl, skipped, stops⟩
    exact ⟨gap, follow, cutBytes?_eq_some_iff.mpr ⟨before, split, rfl, stops⟩, skipped⟩

/-- Every token has some character. -/
theorem Spells.exists_cons {kind : TokenKind} {text follow : List Char}
    (spells : Spells kind text follow) : ∃ first taken, text = first :: taken := by
  have spelling_ne (kind : TokenKind) : kind.spelling? ≠ some (String.ofList []) := by
    cases kind <;> decide
  -- An empty text would be the spelling of a fixed kind, and no kind is spelled by nothing.
  refine List.ne_nil_iff_exists_cons.mp ?_
  rintro rfl
  cases spells with
  | keyword isKeyword spelled ends => exact spelling_ne kind spelled
  | sign isSign spelled noArrow noComment => exact spelling_ne kind spelled

/-- The range between two cuts of a text goes from one place to the other. -/
theorem LineTable.range?_of_split {source : String} {before text follow : List Char}
    (split : source.toList = before ++ (text ++ follow)) :
    (LineTable.ofText source).range? (utf8Len before) (utf8Len (before ++ text)) =
      some ⟨Position.origin.after before, Position.origin.after (before ++ text)⟩ := by
  -- The stop is a cut of the same text as well, with more of it in front.
  have later : source.toList = before ++ text ++ follow := by
    rw [split, List.append_assoc]
  have inOrder : utf8Len before ≤ utf8Len (before ++ text) := by
    rw [String.utf8Len_append]
    omega
  rw [range?, if_pos inOrder, position?_of_split split, position?_of_split later]
  rfl

/-- A place is the one after a text when both its offset and its position are. -/
theorem Place.eq_after_origin {place : Place} {text : List Char}
    (offset_eq : place.offset = utf8Len text)
    (position_eq : place.position = Position.origin.after text) :
    place = Place.origin.after text := by
  calc
    place = ⟨utf8Len text, Position.origin.after text⟩ := by rw [← offset_eq, ← position_eq]
    _ = ⟨(Place.origin.after text).offset, (Place.origin.after text).position⟩ := by
      rw [Place.offset_after_origin, Place.position_after]
      rfl

/-- A token is found in a source where its text stands and the rules admit it. -/
theorem Token.foundIn_iff {source : String} {token : Token} :
    token.FoundIn source ↔
      ∃ before follow, source.toList = before ++ (token.text.toList ++ follow) ∧
        Spells token.kind token.text.toList follow ∧ token.start = Place.origin.after before ∧
        token.stop = Place.origin.after (before ++ token.text.toList) := by
  constructor
  · -- The table gives each position by the text before it, and so the span decides both places.
    intro found
    obtain ⟨follow, cut, spells⟩ := found.text
    obtain ⟨before, split, starts, stops⟩ := cutBytes?_eq_some_iff.mp cut
    have range_eq := found.range_eq
    rw [← starts, ← stops, LineTable.range?_of_split split, Option.some.injEq] at range_eq
    obtain ⟨start_eq, stop_eq⟩ := Range.mk.inj range_eq
    refine ⟨before, follow, split, spells, ?_, ?_⟩
    · exact Place.eq_after_origin starts.symm start_eq.symm
    · exact Place.eq_after_origin stops.symm stop_eq.symm
  · -- Where the text stands decides the bytes, and the bytes decide the span and its range.
    rintro ⟨before, follow, split, spells, start_eq, stop_eq⟩
    obtain ⟨first, taken, text_eq⟩ := spells.exists_cons
    have positive := first.utf8Size_pos
    have bytes : source.utf8ByteSize =
        utf8Len before + utf8Len token.text.toList + utf8Len follow := by
      rw [← String.utf8Len_toList, split, String.utf8Len_append, String.utf8Len_append]
      omega
    have starts : token.start.offset = utf8Len before := by
      rw [start_eq, Place.offset_after_origin]
    have stops : token.stop.offset = utf8Len (before ++ token.text.toList) := by
      rw [stop_eq, Place.offset_after_origin]
    refine ⟨?_, ?_, ⟨follow, ?_, spells⟩, ?_⟩
    -- A token takes some character, and a character takes some byte.
    · rw [starts, stops, String.utf8Len_append, text_eq, String.utf8Len_cons]
      omega
    · rw [stops, String.utf8Len_append]
      omega
    · exact cutBytes?_eq_some_iff.mpr ⟨before, split, starts.symm, stops.symm⟩
    · rw [starts, stops, LineTable.range?_of_split split, Token.range, start_eq, stop_eq,
        Place.position_after, Place.position_after]
      rfl

section Steps

variable {source : String} {offset : Nat} {token : Token} {later : List Token}

/-- Without tokens, all that is left of the source is one gap. -/
theorem segmentsFrom_nil :
    SegmentsFrom source offset [] ↔ SkippedIn source offset source.utf8ByteSize := by
  constructor
  · -- The one span of no tokens is what is left.
    intro segments
    exact segments.gaps _ (List.mem_singleton_self _)
  · intro skipped
    exact ⟨by simp, by simp, .nil, by simpa [gapSpans] using skipped⟩

/-- A segmentation is a gap, a token behind it, and a segmentation from the end of the token on. -/
theorem segmentsFrom_cons :
    SegmentsFrom source offset (token :: later) ↔
      token.FoundIn source ∧ offset ≤ token.start.offset ∧
        SkippedIn source offset token.start.offset ∧
        SegmentsFrom source token.stop.offset later := by
  constructor
  · rintro ⟨found, reached, before, gaps⟩
    rw [gapSpans] at gaps
    rw [List.forall_mem_cons] at found reached gaps
    rw [List.pairwise_cons] at before
    -- The later tokens are reached from the end of this one, since it comes before them.
    exact ⟨found.1, reached.1, gaps.1, ⟨found.2, before.1, before.2, gaps.2⟩⟩
  · rintro ⟨found, reached, skipped, behind⟩
    refine ⟨List.forall_mem_cons.mpr ⟨found, behind.found⟩, ?_,
      List.pairwise_cons.mpr ⟨behind.reached, behind.before⟩,
      List.forall_mem_cons.mpr ⟨skipped, behind.gaps⟩⟩
    -- Later tokens are reached from this one, which was reached from the offset.
    refine List.forall_mem_cons.mpr ⟨reached, ?_⟩
    intro other listed
    have nonempty := found.nonempty
    have stopped := behind.reached other listed
    omega

end Steps

/-- Tokens of a text from a place on, with the gaps between them. -/
inductive Segmented : Place → List Char → List Token → Prop where
  | done {text : List Char} (gap : Gap text []) (place : Place) : Segmented place text []
  | token {place : Place} {gap text rest : List Char} {kind : TokenKind} {later : List Token}
    (skipped : Gap gap (text ++ rest)) (spells : Spells kind text rest)
    (others : Segmented ((place.after gap).after text) rest later) :
    Segmented place (gap ++ (text ++ rest))
      (⟨kind, String.ofList text, place.after gap, (place.after gap).after text⟩ :: later)

namespace Segmented

variable {place : Place} {text piece : List Char} {tokens : List Token}

/-- Trivia in front of a text belongs to the gap before its first token. -/
theorem skip (segmented : Segmented (place.after piece) text tokens) (trivia : Trivia piece text) :
    Segmented place (piece ++ text) tokens := by
  -- The place is named first, since the cases decide the text and the tokens but not the place.
  generalize moved : place.after piece = behind at segmented
  cases segmented with
  | done gap =>
    exact .done (.cons (by simpa using trivia) gap) place
  | @token _ gap text rest kind later skipped spells others =>
    subst moved
    have joined := (Place.after_append place piece gap).symm
    rw [joined] at others ⊢
    rw [← List.append_assoc]
    exact .token (.cons trivia skipped) spells others

/-- The tokens that are found by lexemes are a segmentation. -/
theorem tokensFrom (place : Place) (text : List Char) :
    Segmented place text (AuthSchema.tokensFrom place text) := by
  -- One lexeme at a time: trivia joins the gap ahead, and anything else is a token of its own.
  induction place, text using lexeme_induction with
  | nil place =>
    rw [AuthSchema.tokensFrom]
    exact .done (.nil []) place
  | cons place first taken rest kind? read ih =>
    have lexeme := Lexeme.ofHead_eq_iff.mp read
    rw [tokensFrom_of_lexeme read]
    cases kind? with
    | none => exact ih.skip lexeme
    | some kind => exact .token (.nil _) lexeme ih

end Segmented

/-- A gap leaves no token. -/
theorem Gap.tokensFrom_eq {gap follow : List Char} (skipped : Gap gap follow) (place : Place) :
    tokensFrom place (gap ++ follow) = tokensFrom (place.after gap) follow := by
  -- A piece is one lexeme without a token, and the pieces behind it are left by induction.
  induction skipped generalizing place with
  | nil follow => rfl
  | @cons piece gap follow trivia later ih =>
    obtain ⟨first, taken, rfl⟩ : ∃ first taken, piece = first :: taken := by
      cases trivia <;> exact ⟨_, _, rfl⟩
    have read := Lexeme.ofHead_of_trivia trivia
    rw [List.append_assoc, List.cons_append, tokensFrom_of_lexeme read, ih, Place.after_append]
    rfl

/-- A segmentation has the tokens that are found by lexemes, and no others. -/
theorem Segmented.eq_tokensFrom {place : Place} {text : List Char} {tokens : List Token}
    (segmented : Segmented place text tokens) : tokens = AuthSchema.tokensFrom place text := by
  -- The rules admit one lexeme at the head of a text, and that is the lexeme that is taken there.
  induction segmented with
  | @done text gap place =>
    have none := gap.tokensFrom_eq place
    rw [List.append_nil] at none
    rw [none, AuthSchema.tokensFrom]
  | @token place gap text rest kind later skipped spells others ih =>
    obtain ⟨first, taken, rfl⟩ := spells.exists_cons
    rw [skipped.tokensFrom_eq, List.cons_append,
      tokensFrom_of_lexeme (Lexeme.ofHead_of_spells spells), ← ih]
    rfl

/-- Tokens with the gaps between them are found in the source whose text they go through. -/
theorem Segmented.segmentsFrom {source : String} {before text : List Char} {place : Place}
    {tokens : List Token} (segmented : Segmented place text tokens)
    (placed : place = Place.origin.after before) (split : source.toList = before ++ text) :
    SegmentsFrom source (utf8Len before) tokens := by
  -- The text before is general, since each token is put in front of those behind it.
  induction segmented generalizing before with
  | @done text gap place =>
    refine segmentsFrom_nil.mpr ((skippedIn_iff split).mpr ?_)
    refine ⟨text, [], (List.append_nil text).symm, gap, ?_⟩
    rw [← split, String.utf8Len_toList]
  | @token place gap text rest kind later skipped spells others ih =>
    have start_eq : place.after gap = Place.origin.after (before ++ gap) := by
      rw [placed, Place.after_append]
    have stop_eq : (place.after gap).after text =
        Place.origin.after (before ++ gap ++ text) := by
      rw [start_eq, ← Place.after_append]
    have inside : source.toList = before ++ gap ++ (text ++ rest) := by
      rw [split, List.append_assoc]
    have behind := ih stop_eq (by rw [inside, List.append_assoc _ text])
    have starts : (place.after gap).offset = utf8Len (before ++ gap) := by
      rw [start_eq, Place.offset_after_origin]
    refine segmentsFrom_cons.mpr ⟨?_, ?_, ?_, ?_⟩
    · refine Token.foundIn_iff.mpr ⟨before ++ gap, rest, ?_⟩
      simp only [String.toList_ofList]
      exact ⟨inside, spells, start_eq, stop_eq⟩
    · show utf8Len before ≤ (place.after gap).offset
      rw [starts, String.utf8Len_append]
      omega
    · exact (skippedIn_iff split).mpr ⟨gap, text ++ rest, rfl, skipped, starts.symm⟩
    · show SegmentsFrom source ((place.after gap).after text).offset later
      rwa [stop_eq, Place.offset_after_origin]

/-- Tokens that are found in a source, with only gaps between them, go through its text. -/
theorem SegmentsFrom.segmented {source : String} {before text : List Char} {tokens : List Token}
    (segments : SegmentsFrom source (utf8Len before) tokens)
    (split : source.toList = before ++ text) :
    Segmented (Place.origin.after before) text tokens := by
  -- The induction is on the tokens, and each of them cuts its gap and its text off the front.
  induction tokens generalizing before text with
  | nil =>
    obtain ⟨gap, follow, rfl, skipped, stops⟩ :=
      (skippedIn_iff split).mp (segmentsFrom_nil.mp segments)
    -- The last gap takes all the bytes that are left.
    obtain rfl : follow = [] := by
      rw [← String.utf8Len_toList, split, ← List.append_assoc,
        String.utf8Len_append (before ++ gap)] at stops
      exact String.utf8Len_eq_zero.mp (by omega)
    rw [List.append_nil]
    exact .done skipped _
  | cons token later ih =>
    obtain ⟨found, _, between, behind⟩ := segmentsFrom_cons.mp segments
    obtain ⟨gap, follow, rfl, skipped, starts⟩ := (skippedIn_iff split).mp between
    obtain ⟨lead, rest, source_eq, spells, start_eq, stop_eq⟩ := Token.foundIn_iff.mp found
    -- The gap before the token ends where the text of the token starts.
    obtain ⟨rfl, rfl⟩ : before ++ gap = lead ∧ follow = token.text.toList ++ rest := by
      refine append_inj_of_utf8Len ?_ ?_
      · rw [List.append_assoc, ← split, source_eq]
      · rw [starts, start_eq, Place.offset_after_origin]
    rw [stop_eq, Place.offset_after_origin] at behind
    have others := ih behind (by rw [source_eq, ← List.append_assoc])
    rw [Place.after_append, Place.after_append] at others
    -- The places of the token are those that passing over the text before it gives.
    have token_eq : token =
        ⟨token.kind, String.ofList token.text.toList, (Place.origin.after before).after gap,
          ((Place.origin.after before).after gap).after token.text.toList⟩ := by
      rw [← Place.after_append .origin before gap, ← Place.after_append, ← start_eq, ← stop_eq,
        String.ofList_toList]
    have whole := Segmented.token skipped spells others
    rwa [← token_eq] at whole

/-- At the end of a text, the table gives the position just past it. -/
theorem LineTable.textStop?_ofText (source : String) :
    (LineTable.ofText source).textStop? = some (tokenize source).stop := by
  -- The whole text is a cut of itself, with nothing behind it.
  have split : source.toList = source.toList ++ [] := (List.append_nil _).symm
  have byteCount_eq : (ofText source).byteCount = utf8Len source.toList :=
    Place.offset_after_origin source.toList
  rw [textStop?, byteCount_eq, position?_of_split split, tokenize, Place.position_after]
  rfl

/-- The tokens that are computed are a segmentation of their source. -/
theorem segments_tokenize (source : String) : (tokenize source).Segments source := by
  -- No text stands before the first token, so that the gaps are counted from the first byte on.
  have split : source.toList = [] ++ source.toList := rfl
  exact ⟨(Segmented.tokensFrom .origin source.toList).segmentsFrom rfl split,
    LineTable.textStop?_ofText source⟩

/--
A stream of tokens is the one of a source exactly when it is a segmentation of it.

So the source has a segmentation, which is the one that is computed, and no other.
-/
theorem segments_iff_eq_tokenize (source : String) (stream : TokenStream) :
    stream.Segments source ↔ stream = tokenize source := by
  constructor
  · intro segments
    have split : source.toList = [] ++ source.toList := rfl
    have tokens_eq : stream.tokens = (tokenize source).tokens :=
      (segments.tokens.segmented split).eq_tokensFrom
    have stop_eq : stream.stop = (tokenize source).stop := by
      have stops := segments.stop_eq
      rw [LineTable.textStop?_ofText, Option.some.injEq] at stops
      exact stops.symm
    calc
      stream = ⟨stream.tokens, stream.stop⟩ := rfl
      _ = tokenize source := by rw [tokens_eq, stop_eq]
  · rintro rfl
    exact segments_tokenize source

end AuthSchema
