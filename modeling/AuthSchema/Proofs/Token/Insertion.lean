import Mathlib.Data.List.Forall2
import AuthSchema.Proofs.Token.Segmentation

/-!
Blanks and comments that are put before a token only shift the tokens behind them.

* A text in front of a token is cut into whole lexemes, and each of them stays the same lexeme
  when a blank comes behind the text.
* What is put in leaves no token, and the tokens behind it keep their kinds and texts.
* Their bytes and lines are shifted by those of what is put in, and so are columns on the line
  where it is put in.
-/

namespace AuthSchema

open String (utf8Len)

/-- Blanks and complete comments, in which a line feed ends every line comment. -/
inductive Spacing : List Char → Prop where
  | nil : Spacing []
  | blank {char : Char} {later : List Char} (listed : char ∈ [' ', '\t', '\r', '\n', '\x0c'])
    (others : Spacing later) : Spacing (char :: later)
  | line {body later : List Char} (oneLine : '\n' ∉ body) (others : Spacing later) :
    Spacing ('/' :: '/' :: (body ++ '\n' :: later))
  | block {body later : List Char} (first : ¬HoldsCommentEnd (body ++ ['*']))
    (others : Spacing later) : Spacing ('/' :: '*' :: (body ++ ['*', '/'] ++ later))

/-- Spacing leaves no token, whatever follows it. -/
theorem Spacing.gap {text : List Char} (spacing : Spacing text) (follow : List Char) :
    Gap text follow := by
  -- The spacing is made of the same pieces as a gap, apart from the line feeds.
  induction spacing with
  | nil => exact .nil follow
  | blank listed others ih => exact .cons (.blank listed _) ih
  | line oneLine others ih =>
    -- The line feed ends the comment, and is a blank of its own.
    have feed : Gap (['\n'] ++ _) follow := .cons (.blank (by simp) _) ih
    refine .cons (.line oneLine ?_) feed
    intro char ahead
    simpa using ahead.symm
  | block first others ih => exact .cons (.block first _) ih

/-- What may stand behind a lexeme in place of what stood there. -/
structure MayReplace (follow other : List Char) : Prop where
  /-- A comment that never ends has nothing behind it. -/
  nonempty : follow ≠ []
  /-- A line comment goes on up to the end of its line. -/
  feeds : '\n' ∈ follow.head? → '\n' ∈ other.head?
  or_blank : ∀ char ∈ other.head?, char ∈ follow.head? ∨ isBlank char

namespace MayReplace

variable {follow other : List Char}

/-- Behind a text that goes on with a lexeme, anything may stand that starts with a blank. -/
theorem of_blank {first blank : Char} {rest later : List Char} (solid : isBlank first = false)
    (isBlank : isBlank blank) : MayReplace (first :: rest) (blank :: later) where
  nonempty := List.cons_ne_nil _ _
  feeds feed := by
    obtain rfl : first = '\n' := by simpa using feed
    cases solid
  or_blank char ahead := by
    obtain rfl : blank = char := by simpa using ahead
    exact .inr isBlank

/-- In front of both, the same text hides what differs behind it. -/
theorem append (may : MayReplace follow other) (text : List Char) :
    MayReplace (text ++ follow) (text ++ other) := by
  cases text with
  -- Where there is a text in front, both start with its first character.
  | nil => exact may
  | cons char text => exact ⟨List.cons_ne_nil _ _, id, fun _ => .inl⟩

/-- What a lexeme must not be followed by is not brought in by what replaces it. -/
theorem not_mem_head (may : MayReplace follow other) {char : Char} (solid : isBlank char = false)
    (absent : char ∉ follow.head?) : char ∉ other.head? := by
  intro ahead
  rcases may.or_blank char ahead with present | blank
  · exact absent present
  · simp [blank] at solid

/-- A name ends behind the same character, or before a blank. -/
theorem not_isNameChar (may : MayReplace follow other)
    (ends : ∀ char ∈ follow.head?, isNameChar char = false) :
    ∀ char ∈ other.head?, isNameChar char = false := by
  intro char ahead
  rcases may.or_blank char ahead with present | blank
  · exact ends char present
  · exact isNameChar_of_isBlank blank

/-- A lexeme stays the same when what follows it is replaced. -/
theorem isLexeme {kind? : Option TokenKind} {text : List Char} (may : MayReplace follow other)
    (lexeme : IsLexeme kind? text follow) : IsLexeme kind? text other := by
  -- The rules look at most at one character behind a lexeme.
  cases kind? with
  | none =>
    have trivia : Trivia text follow := lexeme
    show Trivia text other
    cases trivia with
    | blank listed => exact .blank listed other
    | block first => exact .block first other
    | line oneLine ends =>
      -- Something follows the comment, and so it is the line feed that ends it.
      refine .line oneLine ?_
      obtain ⟨first, rest, rfl⟩ := List.exists_cons_of_ne_nil may.nonempty
      have feed := may.feeds (by simpa using ends first (by simp))
      intro char ahead
      exact Option.some.inj (ahead.symm.trans feed)
  | some kind =>
    have spells : Spells kind text follow := lexeme
    show Spells kind text other
    cases spells with
    -- A name ends before what replaces the text behind it.
    | keyword isKeyword spelled ends => exact .keyword isKeyword spelled (may.not_isNameChar ends)
    | identifier starts goesOn noKeyword ends =>
      exact .identifier starts goesOn noKeyword (may.not_isNameChar ends)
    | sign isSign spelled noArrow noComment =>
      refine .sign isSign spelled ?_ ?_
      · -- A dash is not made an arrow.
        intro isMinus
        exact may.not_mem_head (by decide) (noArrow isMinus)
      · -- A slash is not made a comment.
        intro isSlash
        exact ⟨may.not_mem_head (by decide) (noComment isSlash).1,
          may.not_mem_head (by decide) (noComment isSlash).2⟩
    | stray noBlank noName noSign => exact .stray noBlank noName noSign other
    -- A comment that never ends is followed by nothing.
    | unclosed => exact absurd rfl may.nonempty

end MayReplace

/-- Passing over at least one character takes some bytes. -/
theorem Place.offset_lt_after_cons (place : Place) (char : Char) (text : List Char) :
    place.offset < (place.after (char :: text)).offset := by
  -- Each character takes one byte at least.
  have positive := char.utf8Size_pos
  rw [Place.offset_after, String.utf8Len_cons]
  omega

/-- A text that is cut into whole lexemes, given what follows it, with the tokens that they leave. -/
inductive Lexed (follow : List Char) : Place → List Char → List Token → Prop where
  | nil (place : Place) : Lexed follow place [] []
  | cons {place : Place} {first : Char} {taken rest : List Char} {kind? : Option TokenKind}
    {tokens : List Token} (lexeme : IsLexeme kind? (first :: taken) (rest ++ follow))
    (others : Lexed follow (place.after (first :: taken)) rest tokens) :
    Lexed follow place (first :: (taken ++ rest))
      (leaves place kind? (first :: taken) ++ tokens)

namespace Lexed

variable {follow other text : List Char} {place : Place} {tokens : List Token}

/-- The tokens of a text that is cut into whole lexemes come before those of what follows it. -/
theorem tokensFrom_append (lexed : Lexed follow place text tokens) :
    tokensFrom place (text ++ follow) = tokens ++ tokensFrom (place.after text) follow := by
  -- One lexeme after another, each of which is read as the rules admit it.
  induction lexed with
  | nil place => rfl
  | @cons place first taken rest kind? tokens lexeme others ih =>
    have read := Lexeme.ofHead_eq_iff.mpr lexeme
    have whole : place.after (first :: (taken ++ rest)) =
        (place.after (first :: taken)).after rest :=
      Place.after_append place (first :: taken) rest
    rw [List.cons_append, List.append_assoc, tokensFrom_of_lexeme read, ih, whole,
      List.append_assoc]

/-- A text stays cut into the same lexemes when what follows it is replaced. -/
theorem replace (lexed : Lexed follow place text tokens) (may : MayReplace follow other) :
    Lexed other place text tokens := by
  induction lexed with
  | nil place => exact .nil place
  -- Of the lexemes, all but the last see their own text behind them.
  | cons lexeme others ih => exact .cons ((may.append _).isLexeme lexeme) ih

/-- The tokens take some bytes, and stop where the text does or before. -/
theorem stop_le (lexed : Lexed follow place text tokens) :
    ∀ token ∈ tokens, token.start.offset < token.stop.offset ∧
      token.stop.offset ≤ (place.after text).offset := by
  -- The token of a lexeme stops with it, and the others stop with the rest or before.
  induction lexed with
  | nil place => simp
  | @cons place first taken rest kind? tokens lexeme others ih =>
    have whole : place.after (first :: (taken ++ rest)) =
        (place.after (first :: taken)).after rest :=
      Place.after_append place (first :: taken) rest
    rw [whole]
    intro token listed
    rcases List.mem_append.mp listed with here | behind
    · obtain ⟨kind, rfl, rfl⟩ := Option.map_eq_some_iff.mp (Option.mem_toList.mp here)
      exact ⟨place.offset_lt_after_cons first taken,
        ((Place.Precedes.refl _).after rest).offset_le⟩
    · exact ih token behind

end Lexed

/-- Tokens start at the place from which on they are read, or behind it. -/
theorem precedes_of_mem_tokensFrom {place : Place} {text : List Char} {token : Token}
    (listed : token ∈ tokensFrom place text) : place.Precedes token.start := by
  -- Before a token stands the text of the earlier ones, which is passed over.
  obtain ⟨earlier, later, split⟩ := List.append_of_mem listed
  obtain ⟨before, _, _, starts, _⟩ := exists_of_tokensFrom_eq_append split
  rw [← starts]
  exact (Place.Precedes.refl place).after before

/-- The text in front of a token is cut into whole lexemes. -/
theorem exists_lexed {place : Place} {text front back : List Char} (split : text = front ++ back)
    {token : Token} (listed : token ∈ tokensFrom place text)
    (starts : token.start.offset = (place.after front).offset) :
    ∃ earlier, Lexed back place front earlier := by
  -- One lexeme at a time, which ends before the token starts or else is the token itself.
  induction place, text using lexeme_induction generalizing front with
  | nil place => simp [tokensFrom] at listed
  | cons place first taken rest kind? read ih =>
    cases front with
    | nil => exact ⟨[], .nil place⟩
    | cons head front =>
      obtain ⟨rfl, rest_eq⟩ := List.cons.inj split
      have beyond := place.offset_lt_after_cons first front
      rw [tokensFrom_of_lexeme read, List.mem_append] at listed
      have behind : token ∈ tokensFrom (place.after (first :: taken)) rest := by
        refine listed.resolve_left ?_
        -- The token that the lexeme leaves would start with it, and not behind the whole front.
        intro here
        obtain ⟨kind, rfl, rfl⟩ := Option.map_eq_some_iff.mp (Option.mem_toList.mp here)
        dsimp only at starts
        omega
      have reached := (precedes_of_mem_tokensFrom behind).offset_le
      -- A lexeme that goes on behind the front would hide the start of the token.
      obtain ⟨more, rfl, rfl⟩ : ∃ more, front = taken ++ more ∧ rest = more ++ back := by
        rcases List.append_eq_append_iff.mp rest_eq with within | ⟨more, rfl, rfl⟩
        · exact within
        · have longer : place.after (first :: (front ++ more)) =
              (place.after (first :: front)).after more :=
            Place.after_append place (first :: front) more
          have onward := ((Place.Precedes.refl (place.after (first :: front))).after more).offset_le
          rw [longer] at reached
          obtain rfl := Place.eq_nil_of_offset_after (Nat.le_antisymm (starts ▸ reached) onward)
          exact ⟨[], by simp, rfl⟩
      have whole : place.after (first :: (taken ++ more)) =
          (place.after (first :: taken)).after more :=
        Place.after_append place (first :: taken) more
      obtain ⟨earlier, lexed⟩ := ih rfl behind (by rw [starts, whole])
      exact ⟨_, .cons (Lexeme.ofHead_eq_iff.mp read) lexed⟩

/-- A token that starts where reading starts is the first one, and no blank is there. -/
theorem exists_head_of_start {place : Place} {text : List Char} {token : Token}
    (listed : token ∈ tokensFrom place text) (starts : token.start.offset = place.offset) :
    (tokensFrom place text).head? = some token ∧
      ∃ first rest, text = first :: rest ∧ isBlank first = false := by
  -- The first lexeme is the token, or else all tokens start behind it.
  cases place, text using lexeme_induction with
  | nil place => simp [tokensFrom] at listed
  | cons place first taken rest kind? read ih =>
    rw [tokensFrom_of_lexeme read, List.mem_append] at listed
    -- Behind the first lexeme, no token starts here any more.
    have here : token ∈ leaves place kind? (first :: taken) := by
      refine listed.resolve_right ?_
      intro behind
      have reached := (precedes_of_mem_tokensFrom behind).offset_le
      have beyond := place.offset_lt_after_cons first taken
      omega
    obtain ⟨kind, rfl, rfl⟩ := Option.map_eq_some_iff.mp (Option.mem_toList.mp here)
    refine ⟨by rw [tokensFrom_of_lexeme read]; rfl, first, taken ++ rest, rfl, ?_⟩
    -- A blank leaves no token.
    cases blank : isBlank first with
    | false => rfl
    | true => simp [Lexeme.ofHead, blank] at read

/-- A place behind some text that is put in at a base, where it was and where it is then. -/
structure Place.Shifted (base : Place) (inserted : List Char) (old new : Place) : Prop where
  offset_eq : new.offset = old.offset + utf8Len inserted
  line_eq : new.position.line = old.position.line + inserted.count '\n'
  -- Only what stood on the line of the base moves along its line.
  column_eq : new.position.column =
    if old.position.line = base.position.line then
      old.position.column - base.position.column + (base.position.after inserted).column
    else
      old.position.column

/-- A token behind some text that is put in at a base: the same one, with both ends shifted. -/
structure Token.Shifted (base : Place) (inserted : List Char) (old new : Token) : Prop where
  kind_eq : new.kind = old.kind
  text_eq : new.text = old.text
  start : base.Shifted inserted old.start new.start
  stop : base.Shifted inserted old.stop new.stop

/-- Text that is moved behind what is put in is shifted by it. -/
theorem Place.Precedes.shifted {base place : Place} (reached : base.Precedes place)
    (inserted : List Char) :
    base.Shifted inserted place (base.moved (base.after inserted) place) where
  offset_eq := by
    -- Both offsets are counted from the base, and what is put in comes in between.
    have bytes := reached.offset_le
    simp only [Place.moved, Place.offset_after]
    omega
  line_eq := by
    -- Lines are counted by line feeds, those of what is put in included.
    have lines := Position.le_iff.mp reached.position_le
    simp only [Place.moved, Position.moved, Place.position_after, Position.line_after]
    omega
  column_eq := by
    simp only [Place.moved, Position.moved, Place.position_after]

/-- Moving the tokens of a text behind what is put in shifts each of them. -/
theorem forall₂_shifted_tokensFrom (base : Place) (inserted text : List Char) :
    List.Forall₂ (Token.Shifted base inserted) (tokensFrom base text)
      (tokensFrom (base.after inserted) text) := by
  -- The text behind is the same, and is moved from the base to where the inserted text stops.
  have moved := tokensFrom_moved (.refl base) (base.after inserted) text
  rw [Place.moved_base] at moved
  rw [moved, List.forall₂_map_right_iff, List.forall₂_same]
  intro token listed
  obtain ⟨earlier, later, split⟩ := List.append_of_mem listed
  obtain ⟨_, _, _, _, stops, _⟩ := exists_of_tokensFrom_eq_append split
  have started := precedes_of_mem_tokensFrom listed
  refine ⟨rfl, rfl, started.shifted inserted, ?_⟩
  -- A token stops behind where it starts, and so it is shifted there as well.
  have stopped : base.Precedes token.stop := by
    rw [← stops]
    exact started.after _
  exact stopped.shifted inserted

/--
What tokens a text has before and behind a place where one of them starts.

Spacing that is put in there leaves those before as they are, and shifts those behind.
-/
theorem exists_tokenize_insert {front back inserted : String}
    (starts : ∃ token ∈ (tokenize (front ++ back)).tokens,
      token.start.offset = front.utf8ByteSize)
    (blank : ∃ char ∈ inserted.toList.head?, isBlank char) (spacing : Spacing inserted.toList) :
    ∃ earlier later shifted, (tokenize (front ++ back)).tokens = earlier ++ later ∧
      (tokenize (front ++ inserted ++ back)).tokens = earlier ++ shifted ∧
      (∀ token ∈ earlier, token.stop.offset ≤ front.utf8ByteSize) ∧
      (∃ token ∈ later.head?, token.start.offset = front.utf8ByteSize) ∧
      List.Forall₂ (Token.Shifted (Place.origin.after front.toList) inserted.toList) later
        shifted := by
  -- The place at which the text is put in is the one before the token.
  obtain ⟨token, listed, starts⟩ := starts
  have bytes : (Place.origin.after front.toList).offset = front.utf8ByteSize := by
    rw [Place.offset_after_origin, String.utf8Len_toList]
  rw [← bytes] at starts ⊢
  rw [tokenize, String.toList_append] at listed
  obtain ⟨earlier, lexed⟩ := exists_lexed rfl listed starts
  rw [lexed.tokensFrom_append, List.mem_append] at listed
  -- The token is not among those that stop before it starts, and so it is the first one behind.
  have behind : token ∈ tokensFrom (Place.origin.after front.toList) back.toList := by
    refine listed.resolve_left ?_
    intro before
    have stops := lexed.stop_le token before
    omega
  obtain ⟨first, head, rest, back_eq, solid⟩ := exists_head_of_start behind starts
  obtain ⟨char, ahead, isBlank⟩ := blank
  obtain ⟨more, inserted_eq⟩ := List.head?_eq_some_iff.mp ahead
  -- In front of the token stands a blank now, which no lexeme before it goes on with.
  have may : MayReplace back.toList (inserted.toList ++ back.toList) := by
    rw [back_eq, inserted_eq]
    exact .of_blank solid isBlank
  refine ⟨earlier, _, _, ?_, ?_, fun token before => (lexed.stop_le token before).2,
    ⟨token, first, starts⟩, forall₂_shifted_tokensFrom _ _ back.toList⟩
  · rw [tokenize, String.toList_append]
    exact lexed.tokensFrom_append
  · -- The lexemes in front are the same, and what is put in leaves no token.
    rw [tokenize, String.toList_append, String.toList_append, List.append_assoc]
    dsimp only
    rw [(lexed.replace may).tokensFrom_append, (spacing.gap back.toList).tokensFrom_eq]

end AuthSchema
