import AuthSchema.Proofs.Token.Boundary

/-!
What lexemes are, by their own characters and by the character behind them.

* Blanks and complete comments leave no token.
* A token is a keyword, another name, a sign, or text that starts no lexeme.
* The lexeme at the head of a text is the one that these rules admit there, and no other.
-/

namespace AuthSchema

/-- The spelling of a kind of token that is spelled in one way only. -/
def TokenKind.spelling? : TokenKind → Option String
  | .definition => some "definition"
  | .relation => some "relation"
  | .permission => some "permission"
  | .nil => some "nil"
  | .plus => some "+"
  | .ampersand => some "&"
  | .minus => some "-"
  | .arrow => some "->"
  | .colon => some ":"
  | .equals => some "="
  | .leftBrace => some "\x7b"
  | .rightBrace => some "\x7d"
  | .leftParen => some "("
  | .rightParen => some ")"
  | .hash => some "#"
  | .pipe => some "|"
  | .star => some "*"
  | .slash => some "/"
  | .identifier | .unknown => none

/-- The kinds of the four names that are keywords. -/
def keywordKinds : List TokenKind :=
  [.definition, .relation, .permission, .nil]

/-- The mark that ends a block comment stands somewhere in a text. -/
def HoldsCommentEnd (text : List Char) : Prop :=
  ['*', '/'] <:+: text

/-- A piece of text that leaves no token, given the text that follows it. -/
inductive Trivia : List Char → List Char → Prop where
  /-- A blank. -/
  | blank {char : Char} (listed : char ∈ [' ', '\t', '\r', '\n', '\x0c']) (follow : List Char) :
    Trivia [char] follow
  /-- A line comment, which goes on up to the next line feed or to the end of the text. -/
  | line {body follow : List Char} (oneLine : '\n' ∉ body)
    (ends : ∀ char ∈ follow.head?, char = '\n') : Trivia ('/' :: '/' :: body) follow
  /-- A block comment, which goes on through the first mark that ends one. -/
  | block {body : List Char} (first : ¬HoldsCommentEnd (body ++ ['*'])) (follow : List Char) :
    Trivia ('/' :: '*' :: (body ++ ['*', '/'])) follow

/-- The text of a token of some kind, given the text that follows it. -/
inductive Spells : TokenKind → List Char → List Char → Prop where
  /-- A keyword, which is not the beginning of a longer name. -/
  | keyword {kind : TokenKind} {text follow : List Char} (isKeyword : kind ∈ keywordKinds)
    (spelled : kind.spelling? = some (String.ofList text))
    (ends : ∀ char ∈ follow.head?, isNameChar char = false) : Spells kind text follow
  /-- A name that is no keyword, as long as it goes on. -/
  | identifier {first : Char} {more follow : List Char} (starts : isNameStart first)
    (goesOn : ∀ char ∈ more, isNameChar char)
    (noKeyword : ∀ kind ∈ keywordKinds, kind.spelling? ≠ some (String.ofList (first :: more)))
    (ends : ∀ char ∈ follow.head?, isNameChar char = false) :
    Spells .identifier (first :: more) follow
  /-- A sign, which is not the beginning of a longer one or of a comment. -/
  | sign {kind : TokenKind} {text follow : List Char} (isSign : kind ∉ keywordKinds)
    (spelled : kind.spelling? = some (String.ofList text))
    (noArrow : kind = .minus → '>' ∉ follow.head?)
    (noComment : kind = .slash → '/' ∉ follow.head? ∧ '*' ∉ follow.head?) :
    Spells kind text follow
  /-- A character alone that is no blank, and that no name and no sign starts with. -/
  | stray {char : Char} (noBlank : char ∉ [' ', '\t', '\r', '\n', '\x0c'])
    (noName : isNameStart char = false)
    (noSign : ∀ kind text, TokenKind.spelling? kind = some (String.ofList text) →
      text.head? ≠ some char)
    (follow : List Char) : Spells .unknown [char] follow
  /-- The beginning of a block comment that never ends, with all the text behind it. -/
  | unclosed {body : List Char} (unended : ¬HoldsCommentEnd body) :
    Spells .unknown ('/' :: '*' :: body) []

/-- Blanks are the five characters that are listed. -/
theorem isBlank_iff {char : Char} :
    isBlank char = true ↔ char ∈ [' ', '\t', '\r', '\n', '\x0c'] := by
  simp [isBlank, or_assoc]

/-- No mark stands in a text without characters. -/
@[simp] theorem not_holdsCommentEnd_nil : ¬HoldsCommentEnd [] := by
  simp [HoldsCommentEnd]

/-- The mark stands at the front, or somewhere behind the first character. -/
theorem holdsCommentEnd_cons {char : Char} {text : List Char} :
    HoldsCommentEnd (char :: text) ↔
      (char = '*' ∧ text.head? = some '/') ∨ HoldsCommentEnd text := by
  -- What holds the mark either starts with it or holds it further on.
  unfold HoldsCommentEnd
  rw [List.infix_cons_iff, List.cons_prefix_cons]
  cases text with
  | nil => simp
  | cons next text => simp [List.cons_prefix_cons, eq_comm]

/-- Without a mark at the front, the comment ends one character later than its rest does. -/
theorem blockEnd?_cons {char : Char} {text : List Char}
    (goesOn : ¬(char = '*' ∧ text.head? = some '/')) :
    blockEnd? (char :: text) = (blockEnd? text).map (· + 1) := by
  -- The definition looks for the mark at the front first, which is not there.
  rw [blockEnd?]
  intro rest star slash
  exact goesOn ⟨star, by rw [slash, List.head?_cons]⟩

/-- A block comment never ends exactly where no mark stands behind its beginning. -/
theorem blockEnd?_eq_none_iff {text : List Char} :
    blockEnd? text = none ↔ ¬HoldsCommentEnd text := by
  -- The induction is on the text, in which the mark is looked for from the front on.
  induction text with
  | nil => simp [blockEnd?]
  | cons char text ih =>
    rw [holdsCommentEnd_cons]
    by_cases closes : char = '*' ∧ text.head? = some '/'
    · -- With a mark at the front both sides are decided.
      obtain ⟨rfl, slash⟩ := closes
      obtain ⟨rest, rfl⟩ := List.head?_eq_some_iff.mp slash
      simp [blockEnd?]
    · rw [blockEnd?_cons closes, Option.map_eq_none_iff, ih]
      rw [not_or]
      exact (and_iff_right closes).symm

/-- A block comment ends with the first mark behind its beginning. -/
theorem blockEnd?_of_first {body : List Char} (first : ¬HoldsCommentEnd (body ++ ['*']))
    (follow : List Char) :
    blockEnd? (body ++ ['*', '/'] ++ follow) = some (body ++ ['*', '/']).length := by
  -- The induction is on what comes before the mark, where no other mark stands.
  induction body with
  | nil => rfl
  | cons char body ih =>
    rw [List.cons_append, holdsCommentEnd_cons, not_or] at first
    -- Whether the mark stands here is told by this character and the next one.
    have goesOn : ¬(char = '*' ∧ (body ++ ['*', '/'] ++ follow).head? = some '/') := by
      cases body with
      | nil => simp
      | cons next body => simpa using first.1
    rw [List.cons_append, List.cons_append, blockEnd?_cons goesOn, ih first.2]
    rfl

/-- Where a block comment ends, the first mark stands. -/
theorem exists_of_blockEnd?_eq_some {taken follow : List Char}
    (ends : blockEnd? (taken ++ follow) = some taken.length) :
    ∃ body, taken = body ++ ['*', '/'] ∧ ¬HoldsCommentEnd (body ++ ['*']) := by
  -- The induction is on the characters up to the end, of which the mark is the last two.
  induction taken with
  | nil => simpa using (blockEnd?_bounds ends).1
  | cons char taken ih =>
    by_cases closes : char = '*' ∧ (taken ++ follow).head? = some '/'
    · -- The mark is here, and the comment is nothing else.
      obtain ⟨rfl, slash⟩ := closes
      obtain ⟨rest, split⟩ := List.head?_eq_some_iff.mp slash
      rw [List.cons_append, split, blockEnd?, Option.some.injEq, List.length_cons] at ends
      obtain ⟨mark, rfl⟩ := List.length_eq_one_iff.mp (by omega : taken.length = 1)
      obtain rfl : mark = '/' := (List.cons.inj split).1
      exact ⟨[], rfl, by simp [holdsCommentEnd_cons]⟩
    · -- The mark is further on, and one character more stands before it.
      rw [List.cons_append, blockEnd?_cons closes, Option.map_eq_some_iff] at ends
      obtain ⟨length, later, same⟩ := ends
      obtain rfl : length = taken.length := by simpa using same
      obtain ⟨body, rfl, first⟩ := ih later
      refine ⟨char :: body, rfl, ?_⟩
      rw [List.cons_append, holdsCommentEnd_cons, not_or]
      refine ⟨?_, first⟩
      cases body with
      | nil => simp
      | cons next body => simpa using closes

/-- What a lexeme is, given its kind, its text and the text that follows. -/
def IsLexeme : Option TokenKind → List Char → List Char → Prop
  | none, text, follow => Trivia text follow
  | some kind, text, follow => Spells kind text follow

/-- What starts a name also goes on with one. -/
theorem isNameChar_of_isNameStart {char : Char} (starts : isNameStart char) :
    isNameChar char := by
  -- Letters and underscores are among the characters of names.
  simp only [isNameStart, isNameChar, Char.isAlphanum, Bool.or_eq_true] at starts ⊢
  rcases starts with letter | underscore
  · exact .inl (.inl letter)
  · exact .inr underscore

/-- What starts a name is no blank, and starts nothing else either. -/
theorem not_isBlank_of_isNameStart {char : Char} (starts : isNameStart char) :
    isBlank char = false ∧ char ≠ '/' ∧ char ≠ '-' := by
  refine ⟨?_, ?_, ?_⟩
  · -- A blank belongs to no name.
    cases blank : isBlank char with
    | false => rfl
    | true => exact absurd (isNameChar_of_isNameStart starts) (by simp [isNameChar_of_isBlank blank])
  · rintro rfl
    revert starts
    decide
  · rintro rfl
    revert starts
    decide

/-- A name is a keyword exactly when it is spelled as one. -/
theorem wordKind_eq_iff {word : List Char} {kind : TokenKind} (isKeyword : kind ∈ keywordKinds) :
    wordKind word = kind ↔ kind.spelling? = some (String.ofList word) := by
  have spelled (text : String) : some text = some (String.ofList word) ↔ word = text.toList := by
    rw [Option.some.injEq, ← String.toList_inj, String.toList_ofList, eq_comm]
  simp only [keywordKinds, List.mem_cons, List.not_mem_nil, or_false] at isKeyword
  -- The keywords are compared one after another, and no two of them are the same.
  rcases isKeyword with rfl | rfl | rfl | rfl
  all_goals
    rw [TokenKind.spelling?, spelled, wordKind]
    constructor
    · intro same
      split_ifs at same
      assumption
    · rintro rfl
      rfl

/-- A name that is no keyword is an identifier. -/
theorem wordKind_of_not_keyword {word : List Char} (noKeyword : wordKind word ∉ keywordKinds) :
    wordKind word = .identifier := by
  -- Only the last branch gives no keyword.
  revert noKeyword
  unfold wordKind
  split_ifs <;> simp [keywordKinds]

/-- What is spelled in one way has the characters of that spelling. -/
theorem toList_of_spelling? {kind : TokenKind} {text : List Char}
    (spelled : kind.spelling? = some (String.ofList text)) :
    kind.spelling?.map String.toList = some text := by
  rw [spelled, Option.map_some, String.toList_ofList]

/-- A keyword is made of the characters that names are made of. -/
theorem isNameStart_of_keyword {kind : TokenKind} {first : Char} {more : List Char}
    (isKeyword : kind ∈ keywordKinds)
    (spelled : kind.spelling? = some (String.ofList (first :: more))) :
    isNameStart first ∧ ∀ char ∈ more, isNameChar char := by
  -- There are four keywords, and the characters of each are looked at.
  simp only [keywordKinds, List.mem_cons, List.not_mem_nil, or_false] at isKeyword
  have text_eq := toList_of_spelling? spelled
  rcases isKeyword with rfl | rfl | rfl | rfl
  all_goals
    obtain ⟨rfl, rfl⟩ := List.cons.inj (Option.some.inj text_eq)
    exact ⟨by decide, List.all_eq_true.mp (by decide)⟩

/-- The kind of a sign of one character is spelled by that character. -/
theorem spelling?_of_signKind? {char : Char} {kind : TokenKind}
    (found : signKind? char = some kind) :
    kind ∉ keywordKinds ∧ kind.spelling? = some (String.ofList [char]) ∧ kind ≠ .minus ∧
      kind ≠ .slash := by
  -- Each sign is listed with its one character.
  unfold signKind? at found
  split at found <;> cases found <;> exact ⟨by decide, rfl, by decide, by decide⟩

/-- What is spelled in one way only starts as names do, or with the character of some sign. -/
theorem starts_of_spelling? {kind : TokenKind} {char : Char} {more : List Char}
    (spelled : kind.spelling? = some (String.ofList (char :: more))) :
    isNameStart char ∨ char = '/' ∨ char = '-' ∨ (signKind? char).isSome := by
  -- All spellings are listed, and the first character of each is looked at.
  have text_eq := toList_of_spelling? spelled
  cases kind <;> simp only [TokenKind.spelling?, Option.map_some, Option.map_none, reduceCtorEq,
    Option.some.injEq] at text_eq <;> obtain ⟨rfl, rfl⟩ := List.cons.inj text_eq <;> decide

namespace Lexeme

variable {kind? : Option TokenKind} {kind : TokenKind} {first : Char} {taken follow : List Char}

/-- What starts as names do is read as a name. -/
theorem ofHead_of_isNameStart (starts : isNameStart first) (rest : List Char) :
    ofHead first rest = ofName first rest := by
  -- The characters that are tried before start no name.
  obtain ⟨noBlank, noSlash, noDash⟩ := not_isBlank_of_isNameStart starts
  simp [ofHead, noBlank, noSlash, noDash, starts]

/-- What is read from a slash on is admitted by the rules. -/
theorem isLexeme_of_ofSlash (read : ofSlash (taken ++ follow) = ⟨kind?, taken.length⟩) :
    IsLexeme kind? ('/' :: taken) follow := by
  cases taken with
  | nil =>
    -- The slash stands alone, and starts neither kind of comment.
    obtain ⟨noSlash, noStar⟩ := alone_of_ofSlash (List.nil_append follow ▸ read)
    rw [List.nil_append, ofSlash_of_alone noSlash noStar, Lexeme.mk.injEq] at read
    obtain ⟨rfl, _⟩ := read
    show Spells .slash ['/'] follow
    exact .sign (by decide) rfl (by simp) fun _ => ⟨noSlash, noStar⟩
  | cons mark taken =>
    by_cases line : mark = '/'
    · -- The comment runs up to a line feed, or up to the end of the text.
      subst line
      simp only [List.cons_append, ofSlash, List.length_cons, Lexeme.mk.injEq] at read
      obtain ⟨rfl, length_eq⟩ := read
      have whole : ((taken ++ follow).takeWhile (· != '\n')).length = taken.length := by omega
      obtain ⟨accepted, stops⟩ := takeWhile_append_of_length whole
      refine .line ?_ ?_
      · -- All characters of the comment were accepted, and a line feed is not.
        intro feeds
        simpa using accepted _ feeds
      · -- The character behind the comment was not accepted, and so is a line feed.
        intro char ahead
        simpa using stops char ahead
    by_cases block : mark = '*'
    · subst block
      simp only [List.cons_append, ofSlash, List.length_cons] at read
      split at read
      · -- The comment goes on through the first mark.
        rename_i length ends
        simp only [Lexeme.mk.injEq] at read
        obtain ⟨rfl, length_eq⟩ := read
        obtain rfl : length = taken.length := by omega
        obtain ⟨body, rfl, first⟩ := exists_of_blockEnd?_eq_some ends
        exact .block first follow
      · -- Without an end, all the text belongs to the comment, and nothing follows it.
        rename_i unended
        simp only [Lexeme.mk.injEq, List.length_append] at read
        obtain ⟨rfl, length_eq⟩ := read
        obtain rfl : follow = [] := List.length_eq_zero_iff.mp (by omega)
        rw [List.append_nil] at unended
        exact .unclosed (blockEnd?_eq_none_iff.mp unended)
    · -- No other character is taken behind a slash.
      rw [ofSlash_of_alone (by simpa using line) (by simpa using block)] at read
      simp at read

/-- What is read from a dash on is admitted by the rules. -/
theorem isLexeme_of_ofDash (read : ofDash (taken ++ follow) = ⟨kind?, taken.length⟩) :
    IsLexeme kind? ('-' :: taken) follow := by
  cases taken with
  | nil =>
    -- The dash stands alone, and starts no arrow.
    have noHead := alone_of_ofDash (List.nil_append follow ▸ read)
    rw [List.nil_append, ofDash_of_alone noHead, Lexeme.mk.injEq] at read
    obtain ⟨rfl, _⟩ := read
    show Spells .minus ['-'] follow
    exact .sign (by decide) rfl (fun _ => noHead) (by simp)
  | cons mark taken =>
    by_cases arrow : mark = '>'
    · -- The arrow takes its head and nothing else.
      subst arrow
      simp only [List.cons_append, ofDash, Lexeme.mk.injEq, List.length_cons] at read
      obtain ⟨rfl, length_eq⟩ := read
      obtain rfl : taken = [] := List.length_eq_zero_iff.mp (by omega)
      show Spells .arrow ['-', '>'] follow
      exact .sign (by decide) rfl (by simp) (by simp)
    · rw [ofDash_of_alone (by simpa using arrow)] at read
      simp at read

/-- What is read as a name is admitted by the rules. -/
theorem isLexeme_of_ofName (starts : isNameStart first)
    (read : ofName first (taken ++ follow) = ⟨kind?, taken.length⟩) :
    IsLexeme kind? (first :: taken) follow := by
  simp only [ofName, Lexeme.mk.injEq] at read
  obtain ⟨rfl, length_eq⟩ := read
  -- The name goes on as long as it can.
  obtain ⟨accepted, stops⟩ := takeWhile_append_of_length length_eq
  rw [takeWhile_append_of_stop accepted stops]
  by_cases isKeyword : wordKind (first :: taken) ∈ keywordKinds
  · exact .keyword isKeyword ((wordKind_eq_iff isKeyword).mp rfl) stops
  · -- A name that is no keyword is spelled as none.
    rw [wordKind_of_not_keyword isKeyword]
    refine .identifier starts accepted ?_ stops
    intro kind listed spelled
    exact isKeyword ((wordKind_eq_iff listed).mpr spelled ▸ listed)

/-- The lexeme at the head of a text is admitted there by the rules. -/
theorem isLexeme_of_ofHead (read : ofHead first (taken ++ follow) = ⟨kind?, taken.length⟩) :
    IsLexeme kind? (first :: taken) follow := by
  -- The cases are those of the first character, in the order in which they are tried.
  unfold ofHead at read
  by_cases blank : isBlank first
  · simp only [blank, if_true, Lexeme.mk.injEq] at read
    obtain ⟨rfl, length_eq⟩ := read
    obtain rfl := List.length_eq_zero_iff.mp length_eq.symm
    exact .blank (isBlank_iff.mp blank) follow
  by_cases slash : first = '/'
  · subst slash
    exact isLexeme_of_ofSlash read
  by_cases dash : first = '-'
  · subst dash
    exact isLexeme_of_ofDash read
  by_cases name : isNameStart first
  · simp only [blank, slash, dash, name] at read
    exact isLexeme_of_ofName name read
  · -- What is left takes its one character, as a sign or as unknown text.
    rw [if_neg blank, if_neg slash, if_neg dash, if_neg name, Lexeme.mk.injEq] at read
    obtain ⟨rfl, length_eq⟩ := read
    obtain rfl := List.length_eq_zero_iff.mp length_eq.symm
    cases found : signKind? first with
    | some kind =>
      obtain ⟨isSign, spelled, noMinus, noSlash⟩ := spelling?_of_signKind? found
      exact .sign isSign spelled (absurd · noMinus) (absurd · noSlash)
    | none =>
      refine .stray ((not_congr isBlank_iff).mp blank) (by simpa using name) ?_ follow
      intro kind text spelled starts
      obtain ⟨more, rfl⟩ := List.head?_eq_some_iff.mp starts
      -- Each way to start a lexeme was tried before.
      simpa [name, slash, dash, found] using starts_of_spelling? spelled

/-- A name that ends before a character that does not go on with it is read as a whole. -/
theorem ofName_of_ends (accepted : ∀ char ∈ taken, isNameChar char)
    (ends : ∀ char ∈ follow.head?, isNameChar char = false) :
    ofName first (taken ++ follow) = ⟨some (wordKind (first :: taken)), taken.length⟩ := by
  rw [ofName, takeWhile_append_of_stop accepted ends]

/-- Trivia that the rules admit is read as such. -/
theorem ofHead_of_trivia (trivia : Trivia (first :: taken) follow) :
    ofHead first (taken ++ follow) = ⟨none, taken.length⟩ := by
  -- Blanks are told by one character, and comments by the two they start with.
  cases trivia with
  | blank listed =>
    rw [ofHead, if_pos (isBlank_iff.mpr listed)]
    rfl
  | @line body follow oneLine ends =>
    -- No character of the comment is a line feed, and the one behind it is.
    have whole : (body ++ follow).takeWhile (· != '\n') = body := by
      refine takeWhile_append_of_stop ?_ ?_
      · intro char listed
        have other : char ≠ '\n' := by
          rintro rfl
          exact oneLine listed
        simpa using other
      · intro char ahead
        simpa using ends char ahead
    show ofSlash ('/' :: (body ++ follow)) = _
    rw [ofSlash, whole, List.length_cons, Nat.add_comm]
  | @block body first =>
    -- The block comment goes on through the first mark.
    show ofSlash ('*' :: (body ++ ['*', '/'] ++ follow)) = _
    simp only [ofSlash, blockEnd?_of_first first follow, List.length_cons, Nat.add_comm]

/-- A token that the rules admit is read as such. -/
theorem ofHead_of_spells (spells : Spells kind (first :: taken) follow) :
    ofHead first (taken ++ follow) = ⟨some kind, taken.length⟩ := by
  cases spells with
  | keyword isKeyword spelled ends =>
    -- A keyword is read as a name, and its kind is told by its spelling.
    obtain ⟨starts, accepted⟩ := isNameStart_of_keyword isKeyword spelled
    rw [ofHead_of_isNameStart starts, ofName_of_ends accepted ends,
      (wordKind_eq_iff isKeyword).mpr spelled]
  | identifier starts accepted noKeyword ends =>
    -- A name that is spelled as no keyword is an identifier.
    have isName : wordKind (first :: taken) = .identifier := by
      refine wordKind_of_not_keyword ?_
      intro listed
      exact noKeyword _ listed ((wordKind_eq_iff listed).mp rfl)
    rw [ofHead_of_isNameStart starts, ofName_of_ends accepted ends, isName]
  | sign isSign spelled noArrow noComment =>
    -- Each sign is listed with its spelling, and only two of them depend on what follows.
    have text_eq := toList_of_spelling? spelled
    cases kind <;> simp only [TokenKind.spelling?, Option.map_some, Option.map_none, reduceCtorEq,
      Option.some.injEq] at text_eq <;> obtain ⟨rfl, rfl⟩ := List.cons.inj text_eq
    case minus => exact ofDash_of_alone (noArrow rfl)
    case slash => exact ofSlash_of_alone (noComment rfl).1 (noComment rfl).2
    case definition | relation | permission | nil => exact absurd (by decide) isSign
    all_goals rfl
  | stray noBlank noName noSign =>
    -- A character that starts no lexeme passes all tests up to the last.
    have notSlash : first ≠ '/' := by
      rintro rfl
      exact noSign .slash ['/'] rfl rfl
    have notDash : first ≠ '-' := by
      rintro rfl
      exact noSign .minus ['-'] rfl rfl
    have noKind : signKind? first = none := by
      refine Option.eq_none_iff_forall_ne_some.mpr ?_
      intro kind found
      exact noSign kind [first] (spelling?_of_signKind? found).2.1 rfl
    have notBlank : isBlank first = false := by
      simpa using (not_congr isBlank_iff).mpr noBlank
    simp [ofHead, notBlank, notSlash, notDash, noName, noKind]
  | @unclosed body unended =>
    -- Without a mark the comment takes all the text there is.
    show ofSlash ('*' :: (body ++ [])) = _
    rw [List.append_nil]
    simp only [ofSlash, blockEnd?_eq_none_iff.mpr unended, List.length_cons, Nat.add_comm]

/-- The lexeme at the head of a text is the one that the rules admit there. -/
theorem ofHead_eq_iff :
    ofHead first (taken ++ follow) = ⟨kind?, taken.length⟩ ↔
      IsLexeme kind? (first :: taken) follow := by
  constructor
  · exact isLexeme_of_ofHead
  · -- What the rules admit is trivia or a token.
    intro lexeme
    cases kind? with
    | none => exact ofHead_of_trivia lexeme
    | some kind => exact ofHead_of_spells lexeme

end Lexeme

end AuthSchema
