import AuthSchema.Proofs.Parse.Span
import AuthSchema.Proofs.Text.Cut
import AuthSchema.Proofs.Token.Boundary

/-!
The tokens of a piece of text depend on the piece alone.

* Every token has its own text at its range.
* A piece that ends with a token keeps its tokens when a blank, or nothing, comes after it.
* The tokens of a piece that is put elsewhere are the same, moved along with it.
-/

namespace AuthSchema

/-- The token that a lexeme at a place leaves, if it leaves one. -/
def leaves (place : Place) (kind? : Option TokenKind) (text : List Char) : List Token :=
  (kind?.map fun kind => ⟨kind, String.ofList text, place, place.after text⟩).toList

/-- A lexeme without a kind leaves no token. -/
@[simp] theorem leaves_none (place : Place) (text : List Char) : leaves place none text = [] :=
  rfl

/-- A lexeme of some kind leaves the token that stands at its place. -/
@[simp] theorem leaves_some (place : Place) (kind : TokenKind) (text : List Char) :
    leaves place (some kind) text = [⟨kind, String.ofList text, place, place.after text⟩] :=
  rfl

/-- A text has the token that its first lexeme leaves, and then those of the rest. -/
theorem tokensFrom_of_lexeme {first : Char} {taken rest : List Char} {kind? : Option TokenKind}
    (read : Lexeme.ofHead first (taken ++ rest) = ⟨kind?, taken.length⟩) (place : Place) :
    tokensFrom place (first :: (taken ++ rest)) =
      leaves place kind? (first :: taken) ++
        tokensFrom (place.after (first :: taken)) rest := by
  -- The characters of the lexeme are set apart already.
  rw [tokensFrom]
  simp only [read, List.take_left, List.drop_left]
  cases kind? <;> rfl

/-- Every text is empty, or a lexeme with the characters that it takes and the text behind it. -/
@[elab_as_elim] theorem lexeme_induction {motive : Place → List Char → Prop}
    (nil : ∀ place, motive place [])
    (cons : ∀ place first taken rest kind?,
      Lexeme.ofHead first (taken ++ rest) = ⟨kind?, taken.length⟩ →
        motive (place.after (first :: taken)) rest → motive place (first :: (taken ++ rest)))
    (place : Place) : (text : List Char) → motive place text
  | [] => nil place
  | first :: rest => by
    have bound := Lexeme.more_ofHead_le first rest
    -- The characters that the lexeme takes are set apart from those behind it.
    have read : Lexeme.ofHead first (rest.take (Lexeme.ofHead first rest).more ++
          rest.drop (Lexeme.ofHead first rest).more) =
        ⟨(Lexeme.ofHead first rest).kind?, (rest.take (Lexeme.ofHead first rest).more).length⟩ := by
      rw [List.take_append_drop, List.length_take_of_le bound]
    -- What is behind the lexeme is shorter, since the lexeme takes one character at least.
    have whole := cons place first _ _ _ read (lexeme_induction nil cons _ _)
    rwa [List.take_append_drop] at whole
termination_by text => text.length
decreasing_by simp only [List.length_drop, List.length_cons]; omega

/-- Before the first token lies a gap, and behind it lies the text of the other tokens. -/
theorem exists_of_tokensFrom_eq_cons {place : Place} {text : List Char} {token : Token}
    {later : List Token} (split : tokensFrom place text = token :: later) :
    ∃ gap rest, text = gap ++ (token.text.toList ++ rest) ∧ place.after gap = token.start ∧
      token.start.after token.text.toList = token.stop ∧
      tokensFrom token.start (token.text.toList ++ rest) = token :: later ∧
      tokensFrom token.stop rest = later := by
  -- Lexemes are passed over up to the first one that leaves a token.
  induction place, text using lexeme_induction with
  | nil place => simp [tokensFrom] at split
  | cons place first taken rest kind? read ih =>
    have whole := tokensFrom_of_lexeme read place
    rw [whole] at split
    cases kind? with
    | none =>
      -- Blanks and comments belong to the gap.
      obtain ⟨gap, behind, rfl, starts, others⟩ := ih split
      refine ⟨first :: (taken ++ gap), behind, by simp, ?_, others⟩
      rw [← List.cons_append, Place.after_append]
      exact starts
    | some kind =>
      -- The first lexeme that is a token is the first token.
      obtain ⟨rfl, rfl⟩ := List.cons.inj split
      refine ⟨[], rest, ?_, rfl, ?_, ?_, rfl⟩
      · simp
      · simp
      · simpa using whole

/-- Before any token lies the text of the earlier ones, and from it on the others are read. -/
theorem exists_of_tokensFrom_eq_append {place : Place} {text : List Char} {token : Token}
    {earlier later : List Token} (split : tokensFrom place text = earlier ++ token :: later) :
    ∃ before rest, text = before ++ (token.text.toList ++ rest) ∧
      place.after before = token.start ∧ token.start.after token.text.toList = token.stop ∧
      tokensFrom token.start (token.text.toList ++ rest) = token :: later := by
  -- The induction is on the tokens in front, each of which is passed over with the gap before it.
  induction earlier generalizing place text with
  | nil =>
    obtain ⟨gap, rest, text_eq, starts, stops, whole, -⟩ := exists_of_tokensFrom_eq_cons split
    exact ⟨gap, rest, text_eq, starts, stops, whole⟩
  | cons first earlier ih =>
    obtain ⟨gap, rest, rfl, firstStarts, firstStops, -, others⟩ :=
      exists_of_tokensFrom_eq_cons split
    obtain ⟨before, behind, rfl, starts, found⟩ := ih others
    refine ⟨gap ++ (first.text.toList ++ before), behind, by simp, ?_, found⟩
    rw [Place.after_append, Place.after_append, firstStarts, firstStops, starts]

/-- Each token of a text stands there between its two places. -/
theorem stands_of_mem_tokenize {source : String} {token : Token}
    (listed : token ∈ (tokenize source).tokens) :
    Stands source token.start token.stop token.text := by
  -- A token stands somewhere among the others.
  obtain ⟨earlier, later, split⟩ := List.append_of_mem listed
  obtain ⟨before, rest, text_eq, starts, stops, -⟩ := exists_of_tokensFrom_eq_append split
  exact ⟨before, rest, text_eq, starts, stops⟩

/-- A token of a text is one of its lexemes. -/
theorem exists_lexeme_of_mem {place : Place} {text : List Char} {token : Token}
    (listed : token ∈ tokensFrom place text) :
    ∃ first taken rest, Lexeme.ofHead first (taken ++ rest) = ⟨some token.kind, taken.length⟩ ∧
      token.text = String.ofList (first :: taken) := by
  -- The token is the one that the first lexeme leaves, or is found behind it.
  induction place, text using lexeme_induction with
  | nil place => simp [tokensFrom] at listed
  | cons place first taken rest kind? read ih =>
    rw [tokensFrom_of_lexeme read, List.mem_append, leaves, Option.mem_toList] at listed
    rcases listed with here | behind
    · obtain ⟨kind, rfl, rfl⟩ := Option.map_eq_some_iff.mp here
      exact ⟨first, taken, rest, read, rfl⟩
    · exact ih behind

/-- A slash token is spelled by one slash. -/
theorem text_of_slash {source : String} {token : Token} (listed : token ∈ (tokenize source).tokens)
    (isSlash : token.kind = .slash) : token.text = "/" := by
  -- The token is a lexeme, and of all lexemes only a slash alone is a slash.
  obtain ⟨first, taken, rest, read, text_eq⟩ := exists_lexeme_of_mem listed
  rw [isSlash] at read
  obtain ⟨rfl, none⟩ := Lexeme.eq_slash_of_ofHead read
  rw [text_eq, List.length_eq_zero_iff.mp none]

/-- Tokens none of which is unknown text. -/
def Known (tokens : List Token) : Prop :=
  ∀ token ∈ tokens, token.kind ≠ .unknown

/-- Whether all tokens are known can be decided one by one. -/
instance (tokens : List Token) : Decidable (Known tokens) :=
  inferInstanceAs (Decidable (∀ token ∈ tokens, token.kind ≠ .unknown))

/-- Among no tokens none is unknown. -/
@[simp] theorem known_nil : Known [] := by
  simp [Known]

/-- The first token is looked at on its own. -/
@[simp] theorem known_cons {token : Token} {tokens : List Token} :
    Known (token :: tokens) ↔ token.kind ≠ .unknown ∧ Known tokens := by
  simp [Known]

/-- Two parts are looked at one by one. -/
@[simp] theorem known_append {first second : List Token} :
    Known (first ++ second) ↔ Known first ∧ Known second := by
  simp [Known, or_imp, forall_and]

/-- The tokens of several items are known when those of each item are. -/
@[simp] theorem known_flatMap {α : Type} {items : List α} {parts : α → List Token} :
    Known (items.flatMap parts) ↔ ∀ item ∈ items, Known (parts item) := by
  simp only [Known, List.mem_flatMap]
  constructor
  · intro all item listed token leaf
    exact all token ⟨item, listed, leaf⟩
  · rintro all token ⟨item, listed, leaf⟩
    exact all item listed token leaf

/-- A piece of text that ends with the last of its tokens, and has them whatever follows a blank. -/
structure Carries (place : Place) (text : List Char) (tokens : List Token) : Prop where
  -- The piece is not empty, so that what stands before it sees its first character only.
  text_ne : text ≠ []
  stop_eq : tokens.getLast?.map Token.stop = some (place.after text)
  tokens_eq : ∀ suffix, Detached suffix →
    tokensFrom place (text ++ suffix) = tokens ++ tokensFrom (place.after text) suffix

namespace Carries

variable {place : Place} {first : Char} {taken rest : List Char}

/-- A lexeme that is a known token carries that token. -/
theorem single {kind : TokenKind}
    (read : Lexeme.ofHead first (taken ++ rest) = ⟨some kind, taken.length⟩)
    (known : kind ≠ .unknown) :
    Carries place (first :: taken) (leaves place (some kind) (first :: taken)) where
  text_ne := List.cons_ne_nil _ _
  stop_eq := rfl
  tokens_eq _ detached :=
    tokensFrom_of_lexeme (Lexeme.ofHead_of_follow read (.of_detached known detached)) place

/-- A lexeme in front of a piece goes on with the same character, whatever follows the piece. -/
theorem cons {kind? : Option TokenKind} {text : List Char} {tokens : List Token}
    (read : Lexeme.ofHead first (taken ++ (text ++ rest)) = ⟨kind?, taken.length⟩)
    (known : kind? ≠ some .unknown) (carries : Carries (place.after (first :: taken)) text tokens) :
    Carries place (first :: (taken ++ text)) (leaves place kind? (first :: taken) ++ tokens) := by
  have stops : place.after (first :: (taken ++ text)) =
      (place.after (first :: taken)).after text := by
    rw [← List.cons_append, Place.after_append]
  refine ⟨List.cons_ne_nil _ _, ?_, ?_⟩
  · -- The piece behind the lexeme has the last token.
    obtain ⟨last, atEnd, stop_eq⟩ := Option.map_eq_some_iff.mp carries.stop_eq
    rw [List.getLast?_append, atEnd, stops, ← stop_eq]
    rfl
  · -- The lexeme sees the first character of the piece, which is the same whatever follows.
    intro suffix detached
    have same : (text ++ suffix).head? = (text ++ rest).head? := by
      obtain ⟨char, behind, rfl⟩ := List.exists_cons_of_ne_nil carries.text_ne
      rfl
    rw [List.cons_append, List.append_assoc, stops,
      tokensFrom_of_lexeme (Lexeme.ofHead_of_follow read (.of_head_eq known same)),
      carries.tokens_eq suffix detached, List.append_assoc]

end Carries

/-- The text up to any token that is known is a piece that carries the tokens up to there. -/
theorem exists_carries {place : Place} {text : List Char} {tokens later : List Token}
    (split : tokensFrom place text = tokens ++ later) (nonempty : tokens ≠ [])
    (known : Known tokens) :
    ∃ piece rest, text = piece ++ rest ∧ Carries place piece tokens := by
  -- One lexeme at a time, up to the one that leaves the last of the tokens.
  induction place, text using lexeme_induction generalizing tokens with
  | nil place => simp_all [tokensFrom]
  | cons place first taken rest kind? read ih =>
    rw [tokensFrom_of_lexeme read] at split
    cases kind? with
    | none =>
      -- Trivia in front belongs to the piece, and leaves no token of it.
      obtain ⟨piece, behind, rfl, carries⟩ := ih split nonempty known
      exact ⟨first :: (taken ++ piece), behind, by simp, .cons read (by simp) carries⟩
    | some kind =>
      -- The first token is left by this lexeme, and is the last one or is followed by others.
      obtain ⟨token, inner, rfl⟩ := List.exists_cons_of_ne_nil nonempty
      obtain ⟨rfl, others⟩ := List.cons.inj split
      obtain ⟨knownHere, knownLater⟩ := known_cons.mp known
      by_cases alone : inner = []
      · subst alone
        exact ⟨first :: taken, rest, rfl, .single read knownHere⟩
      · obtain ⟨piece, behind, rfl, carries⟩ := ih others alone knownLater
        exact ⟨first :: (taken ++ piece), behind, by simp,
          .cons read (by simpa using knownHere) carries⟩

namespace Carries

variable {place : Place} {text : List Char} {tokens : List Token}

/-- A text that stops with the last of its tokens carries them. -/
theorem of_last (tokens_eq : tokensFrom place text = tokens)
    (known : Known tokens)
    (last : tokens.getLast?.map Token.stop = some (place.after text)) :
    Carries place text tokens := by
  have nonempty : tokens ≠ [] := by
    rintro rfl
    simp at last
  obtain ⟨piece, rest, rfl, carries⟩ :=
    exists_carries (tokens_eq.trans (List.append_nil tokens).symm) nonempty known
  -- The piece stops with the last token as well, so that nothing lies behind it.
  have stops : place.after piece = place.after (piece ++ rest) :=
    Option.some.inj (carries.stop_eq.symm.trans last)
  have none : rest = [] := by
    rw [Place.after_append] at stops
    exact Place.eq_nil_of_offset_after (congrArg Place.offset stops.symm)
  rw [none, List.append_nil]
  exact carries

/-- What follows after a space is read from there on. -/
theorem tokensFrom_space (carries : Carries place text tokens) (rest : List Char) :
    tokensFrom place (text ++ ' ' :: rest) =
      tokens ++ tokensFrom (place.after (text ++ [' '])) rest := by
  -- The space is a lexeme that leaves no token.
  have space : Lexeme.ofHead ' ' ([] ++ rest) = ⟨none, 0⟩ := rfl
  rw [carries.tokens_eq _ (detached_space rest), Place.after_append]
  exact congrArg (tokens ++ ·) (tokensFrom_of_lexeme space _)

/-- Two pieces with a space between them carry the tokens of both. -/
theorem append_space {more : List Char} {others : List Token} (carries : Carries place text tokens)
    (further : Carries (place.after (text ++ [' '])) more others) :
    Carries place (text ++ ' ' :: more) (tokens ++ others) := by
  have stops : place.after (text ++ ' ' :: more) = (place.after (text ++ [' '])).after more := by
    rw [← Place.after_append, List.append_assoc, List.singleton_append]
  refine ⟨by simp, ?_, ?_⟩
  · -- The last token is the last one of the second piece.
    obtain ⟨last, atEnd, stop_eq⟩ := Option.map_eq_some_iff.mp further.stop_eq
    rw [List.getLast?_append, atEnd, stops, ← stop_eq]
    rfl
  · -- The first piece ends before a space, and the second one before what is detached.
    intro suffix detached
    rw [List.append_assoc, List.cons_append, carries.tokensFrom_space,
      further.tokens_eq suffix detached, stops, List.append_assoc]

end Carries

/-- A token whose two places are moved. -/
def Token.moved (base target : Place) (token : Token) : Token :=
  { token with start := base.moved target token.start, stop := base.moved target token.stop }

/-- A token that is moved keeps its kind. -/
@[simp] theorem Token.kind_moved (base target : Place) (token : Token) :
    (token.moved base target).kind = token.kind :=
  rfl

/-- A token that is moved keeps its text. -/
@[simp] theorem Token.text_moved (base target : Place) (token : Token) :
    (token.moved base target).text = token.text :=
  rfl

/-- The range of a token is moved along with it. -/
@[simp] theorem Token.range_moved (base target : Place) (token : Token) :
    (token.moved base target).range = token.range.moved base.position target.position :=
  rfl

/-- The tokens of a text that is put elsewhere are moved along with it. -/
theorem tokensFrom_moved {base place : Place} (reached : base.Precedes place) (target : Place)
    (text : List Char) :
    tokensFrom (base.moved target place) text =
      (tokensFrom place text).map (Token.moved base target) := by
  -- The lexemes of a text are the same wherever it stands.
  induction place, text using lexeme_induction with
  | nil place => simp [tokensFrom]
  | cons place first taken rest kind? read ih =>
    rw [tokensFrom_of_lexeme read, tokensFrom_of_lexeme read, List.map_append,
      ← ih (reached.after _), ← Place.moved_after reached]
    cases kind? with
    | none => rfl
    | some kind => rw [leaves_some, ← Place.moved_after reached, leaves_some]; rfl

/-- A piece that is put elsewhere carries its tokens, moved along with it. -/
theorem Carries.moved {base : Place} {text : List Char} {tokens : List Token}
    (carries : Carries base text tokens) (target : Place) :
    Carries target text (tokens.map (Token.moved base target)) := by
  -- The piece stops where its text leads to from the target.
  have stops : base.moved target (base.after text) = target.after text := by
    rw [Place.moved_after (.refl base), Place.moved_base]
  refine ⟨carries.text_ne, ?_, ?_⟩
  · obtain ⟨last, atEnd, stop_eq⟩ := Option.map_eq_some_iff.mp carries.stop_eq
    rw [List.getLast?_map, atEnd, ← stops, ← stop_eq]
    rfl
  · -- What follows the piece is moved along with it.
    intro suffix detached
    have whole := tokensFrom_moved (.refl base) target (text ++ suffix)
    rw [Place.moved_base, carries.tokens_eq suffix detached, List.map_append,
      ← tokensFrom_moved ((Place.Precedes.refl base).after text), stops] at whole
    exact whole

/-- Tokens that do not start or stop before a position. -/
def Behind (base : Position) (tokens : List Token) : Prop :=
  ∀ token ∈ tokens, base ≤ token.range.start ∧ base ≤ token.range.stop

/-- The tokens of a piece stand behind the place at which it starts. -/
theorem Carries.behind {base : Place} {text : List Char} {tokens : List Token}
    (carries : Carries base text tokens) : Behind base.position tokens := by
  intro token listed
  -- Tokens from a place on start there or later, and stop after they start.
  obtain ⟨ordered, starts⟩ := ordered_tokensFrom base (text ++ [])
  rw [carries.tokens_eq [] detached_nil] at ordered starts
  have present := List.mem_append_left (tokensFrom (base.after text) []) listed
  exact ⟨starts token present, (starts token present).trans (ordered.proper token present).le⟩

/-- At the range of some tokens that follow one another stands a piece that carries them. -/
theorem exists_textAt?_carries {source : String} {tokens : List Token} {range : Range}
    (within : tokens <:+: (tokenize source).tokens) (spans : Spans tokens range)
    (known : Known tokens) :
    ∃ (base : Place) (text : String), textAt? source range = some text ∧
      base.position = range.start ∧ Carries base text.toList tokens := by
  -- The first of the tokens tells where the piece starts, and the last one where it stops.
  obtain ⟨earlier, later, split⟩ := within
  obtain ⟨head, atStart, start_eq⟩ := Option.map_eq_some_iff.mp spans.start_eq
  obtain ⟨last, atEnd, stop_eq⟩ := Option.map_eq_some_iff.mp spans.stop_eq
  obtain ⟨inner, rfl⟩ : ∃ inner, tokens = head :: inner := by
    cases tokens <;> simp_all
  rw [List.append_assoc] at split
  obtain ⟨before, rest, source_eq, starts, -, whole⟩ := exists_of_tokensFrom_eq_append split.symm
  obtain ⟨piece, after, text_eq, carries⟩ := exists_carries whole (by simp) known
  -- The piece starts with the first token and stops with the last one, as the range does.
  have stops : last.stop = head.start.after piece := by simpa [atEnd] using carries.stop_eq
  have stands : Stands source head.start last.stop (String.ofList piece) := by
    refine ⟨before, after, ?_, starts, by simpa using stops.symm⟩
    rw [source_eq, text_eq, String.toList_ofList]
  have range_eq : range = ⟨head.start.position, last.stop.position⟩ :=
    congrArg₂ Range.mk start_eq.symm stop_eq.symm
  refine ⟨head.start, String.ofList piece, ?_, start_eq, by simpa using carries⟩
  rw [range_eq]
  exact stands.textAt?_eq

end AuthSchema
