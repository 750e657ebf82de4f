import AuthSchema.Token.Stream
import Mathlib.Tactic.SplitIfs

/-!
Where lexemes end: what a lexeme is depends on its own characters and on the one after them.

* A lexeme takes no more characters than there are.
* What follows a lexeme may be replaced by text that starts with the same character, or by a blank.
-/

namespace AuthSchema

/-- Where a run of accepted items takes as many as were set apart, these are the run. -/
theorem takeWhile_append_of_length {α : Type} {accepts : α → Bool} {taken follow : List α}
    (length_eq : ((taken ++ follow).takeWhile accepts).length = taken.length) :
    (∀ item ∈ taken, accepts item) ∧ ∀ item ∈ follow.head?, accepts item = false := by
  -- The induction is on the items that were set apart, each of which has to be accepted.
  induction taken with
  | nil =>
    cases follow with
    | nil => simp
    | cons item follow =>
      by_cases accepted : accepts item
      · -- An accepted item would make the run longer than nothing.
        simp [accepted] at length_eq
      · simpa using accepted
  | cons item taken ih =>
    by_cases accepted : accepts item
    · simp only [List.cons_append, List.takeWhile_cons_of_pos accepted, List.length_cons,
        Nat.add_right_cancel_iff] at length_eq
      simpa [accepted] using ih length_eq
    · -- An item that is not accepted would end the run before it.
      simp [accepted] at length_eq

/-- A run of accepted items ends before the first one that is not accepted. -/
theorem takeWhile_append_of_stop {α : Type} {accepts : α → Bool} {taken follow : List α}
    (accepted : ∀ item ∈ taken, accepts item)
    (stops : ∀ item ∈ follow.head?, accepts item = false) :
    (taken ++ follow).takeWhile accepts = taken := by
  -- All items that were set apart are accepted, so that only what follows can end the run.
  rw [List.takeWhile_append_of_pos accepted]
  cases follow with
  | nil => simp
  | cons item follow => simp [stops item (by simp)]

/-- The end of a block comment takes two characters, all of them in the text. -/
theorem blockEnd?_bounds {text : List Char} {length : Nat} (ends : blockEnd? text = some length) :
    2 ≤ length ∧ length ≤ text.length := by
  -- The mark is found behind one character after another.
  fun_induction blockEnd? text generalizing length with
  | case1 => simp at ends
  | case2 rest =>
    -- The mark itself is two characters.
    obtain rfl : 2 = length := by simpa using ends
    simp
  | case3 char rest _ ih =>
    obtain ⟨later, inner, rfl⟩ := Option.map_eq_some_iff.mp ends
    have bounds := ih inner
    rw [List.length_cons]
    omega

/-- A block comment ends at its end, whatever follows. -/
theorem blockEnd?_of_follow {taken follow : List Char}
    (ends : blockEnd? (taken ++ follow) = some taken.length) (other : List Char) :
    blockEnd? (taken ++ other) = some taken.length := by
  -- Fewer than two characters hold no end, so that two of them are at hand to look at.
  induction taken with
  | nil => simpa using (blockEnd?_bounds ends).1
  | cons char taken ih =>
    cases taken with
    | nil => simpa using (blockEnd?_bounds ends).1
    | cons next taken =>
      by_cases closes : char = '*' ∧ next = '/'
      · obtain ⟨rfl, rfl⟩ := closes
        simpa [blockEnd?] using ends
      · -- The end is not here, and so it is that of the remaining characters.
        have step : ∀ rest, blockEnd? (char :: next :: rest) =
            (blockEnd? (next :: rest)).map (· + 1) := by
          intro rest
          rw [blockEnd?]
          intro _ star slash
          exact closes ⟨star, (List.cons.inj slash).1⟩
        simp only [List.cons_append] at ends ih ⊢
        rw [step] at ends ⊢
        rw [ih (by simpa using ends)]
        rfl

/-- Names do not go on with a blank. -/
theorem isNameChar_of_isBlank {char : Char} (blank : isBlank char) : isNameChar char = false := by
  -- There are five blanks, and none of them is a letter, a digit or an underscore.
  simp only [isBlank, Bool.or_eq_true, beq_iff_eq] at blank
  rcases blank with (((rfl | rfl) | rfl) | rfl) | rfl <;> rfl

/-- A text that starts with a blank, or is empty, so that no lexeme before it goes on into it. -/
def Detached (text : List Char) : Prop :=
  ∀ char ∈ text.head?, isBlank char

/-- Behind a text that ends, nothing goes on. -/
theorem detached_nil : Detached [] := by
  simp [Detached]

/-- A space is a blank. -/
theorem detached_space (text : List Char) : Detached (' ' :: text) := by
  simp [Detached, isBlank]

namespace Lexeme

/-- What may stand after a lexeme of some kind in place of what stood there. -/
structure MayFollow (kind? : Option TokenKind) (follow other : List Char) : Prop where
  /-- A comment that never ends would take whatever follows. -/
  known : kind? ≠ some .unknown
  /-- A line comment goes on up to the end of its line. -/
  same : kind? = none → other.head? = follow.head?
  or_blank : ∀ char ∈ other.head?, char ∈ follow.head? ∨ isBlank char

variable {kind? : Option TokenKind} {first : Char} {taken follow other : List Char}

/-- What starts with the same character may follow any lexeme that is known. -/
theorem MayFollow.of_head_eq (known : kind? ≠ some .unknown) (same : other.head? = follow.head?) :
    MayFollow kind? follow other :=
  -- The first character is the only one that a lexeme looks at behind itself.
  ⟨known, fun _ => same, fun _ ahead => .inl (same ▸ ahead)⟩

/-- A blank, or nothing, may follow any token that is known. -/
theorem MayFollow.of_detached {kind : TokenKind} (known : kind ≠ .unknown)
    (detached : Detached other) : MayFollow (some kind) follow other :=
  ⟨by simpa using known, by simp, fun char ahead => .inr (detached char ahead)⟩

/-- What a lexeme must not be followed by is not brought in by what may follow it. -/
theorem MayFollow.not_mem_head (may : MayFollow kind? follow other) {char : Char}
    (notBlank : isBlank char = false) (absent : char ∉ follow.head?) : char ∉ other.head? := by
  intro ahead
  rcases may.or_blank char ahead with present | blank
  · exact absent present
  · simp [blank] at notBlank

/-- A slash that no comment starts with is a lexeme of its own. -/
theorem ofSlash_of_alone (noSlash : '/' ∉ follow.head?) (noStar : '*' ∉ follow.head?) :
    ofSlash follow = ⟨some .slash, 0⟩ := by
  unfold ofSlash
  split <;> simp_all

/-- A slash that is a lexeme of its own is followed by nothing that makes it a comment. -/
theorem alone_of_ofSlash (read : ofSlash follow = ⟨kind?, 0⟩) :
    '/' ∉ follow.head? ∧ '*' ∉ follow.head? := by
  -- A comment takes at least one more character.
  constructor
  · -- A line comment takes its second slash.
    intro ahead
    cases follow <;> simp_all [ofSlash]
  · intro ahead
    cases follow with
    | nil => simp at ahead
    | cons char follow =>
      -- A block comment takes its star, whether it ends or not.
      obtain rfl : char = '*' := by simpa using ahead
      rw [ofSlash] at read
      split at read <;> simp at read

/-- A lexeme that starts with a slash stays the same when what follows it is replaced. -/
theorem ofSlash_of_follow (read : ofSlash (taken ++ follow) = ⟨kind?, taken.length⟩)
    (may : MayFollow kind? follow other) : ofSlash (taken ++ other) = ⟨kind?, taken.length⟩ := by
  cases taken with
  | nil =>
    -- A slash alone stays alone, since a blank makes no comment of it.
    obtain ⟨noSlash, noStar⟩ := alone_of_ofSlash (List.nil_append follow ▸ read)
    rw [List.nil_append, ofSlash_of_alone noSlash noStar] at read
    rw [List.nil_append,
      ofSlash_of_alone (may.not_mem_head rfl noSlash) (may.not_mem_head rfl noStar)]
    exact read
  | cons mark taken =>
    by_cases line : mark = '/'
    · -- The comment runs up to a line feed, or up to the end of the text.
      subst line
      simp only [List.cons_append, ofSlash, List.length_cons, Lexeme.mk.injEq] at read ⊢
      obtain ⟨rfl, length_eq⟩ := read
      have whole : ((taken ++ follow).takeWhile (· != '\n')).length = taken.length := by omega
      obtain ⟨accepted, stops⟩ := takeWhile_append_of_length whole
      rw [← may.same rfl] at stops
      rw [takeWhile_append_of_stop accepted stops]
      exact ⟨rfl, Nat.add_comm 1 _⟩
    by_cases block : mark = '*'
    · -- The comment ends with its own mark, whatever comes behind.
      subst block
      simp only [List.cons_append, ofSlash, List.length_cons] at read ⊢
      split at read
      · rename_i length ends
        simp only [Lexeme.mk.injEq] at read
        obtain ⟨rfl, length_eq⟩ := read
        obtain rfl : length = taken.length := by omega
        rw [blockEnd?_of_follow ends other]
        simp [Nat.add_comm]
      · -- A comment that never ends is not known.
        simp only [Lexeme.mk.injEq] at read
        exact absurd read.1.symm may.known
    · -- No other character is taken behind a slash.
      rw [ofSlash_of_alone (by simpa using line) (by simpa using block)] at read
      simp at read

/-- A dash that is not followed by a head is a lexeme of its own. -/
theorem ofDash_of_alone (noHead : '>' ∉ follow.head?) : ofDash follow = ⟨some .minus, 0⟩ := by
  unfold ofDash
  split <;> simp_all

/-- A dash that is a lexeme of its own is not followed by a head. -/
theorem alone_of_ofDash (read : ofDash follow = ⟨kind?, 0⟩) : '>' ∉ follow.head? := by
  -- An arrow takes its head.
  intro ahead
  cases follow <;> simp_all [ofDash]

/-- A lexeme that starts with a dash stays the same when what follows it is replaced. -/
theorem ofDash_of_follow (read : ofDash (taken ++ follow) = ⟨kind?, taken.length⟩)
    (may : MayFollow kind? follow other) : ofDash (taken ++ other) = ⟨kind?, taken.length⟩ := by
  cases taken with
  | nil =>
    -- A dash alone stays alone, since a blank makes no arrow of it.
    have noHead := alone_of_ofDash (List.nil_append follow ▸ read)
    rw [List.nil_append, ofDash_of_alone noHead] at read
    rw [List.nil_append, ofDash_of_alone (may.not_mem_head rfl noHead)]
    exact read
  | cons mark taken =>
    by_cases arrow : mark = '>'
    · -- An arrow is complete, whatever follows it.
      subst arrow
      exact read
    · rw [ofDash_of_alone (by simpa using arrow)] at read
      simp at read

/-- A name stays the same when what follows it is replaced. -/
theorem ofName_of_follow (read : ofName first (taken ++ follow) = ⟨kind?, taken.length⟩)
    (may : MayFollow kind? follow other) :
    ofName first (taken ++ other) = ⟨kind?, taken.length⟩ := by
  simp only [ofName, Lexeme.mk.injEq] at read ⊢
  -- The name takes all characters that belong to it, and the one behind them does not.
  obtain ⟨rfl, length_eq⟩ := read
  obtain ⟨accepted, stops⟩ := takeWhile_append_of_length length_eq
  rw [takeWhile_append_of_stop accepted stops, takeWhile_append_of_stop accepted]
  · exact ⟨rfl, rfl⟩
  · -- What stands behind the name now is what stood there before, or a blank.
    intro char ahead
    rcases may.or_blank char ahead with present | blank
    · exact stops char present
    · exact isNameChar_of_isBlank blank

/-- A lexeme stays the same when what follows it is replaced by what may follow it. -/
theorem ofHead_of_follow (read : ofHead first (taken ++ follow) = ⟨kind?, taken.length⟩)
    (may : MayFollow kind? follow other) :
    ofHead first (taken ++ other) = ⟨kind?, taken.length⟩ := by
  unfold ofHead at read ⊢
  -- Blanks and signs are told by their one character, and the others by what follows it.
  by_cases blank : isBlank first
  · simpa [blank] using read
  by_cases slash : first = '/'
  · simp only [slash] at read ⊢
    exact ofSlash_of_follow read may
  by_cases dash : first = '-'
  · simp only [dash] at read ⊢
    exact ofDash_of_follow read may
  by_cases name : isNameStart first
  · simp only [blank, slash, dash, name] at read ⊢
    exact ofName_of_follow read may
  · simpa [blank, slash, dash, name] using read

/-- What starts with a slash takes no more characters than there are. -/
theorem more_ofSlash_le (rest : List Char) : (ofSlash rest).more ≤ rest.length := by
  unfold ofSlash
  split
  · -- A line comment takes its second slash and a run of the rest.
    rename_i rest
    have bound := (List.takeWhile_prefix (l := rest) (· != '\n')).length_le
    rw [List.length_cons]
    dsimp only
    omega
  · -- A block comment takes its star and what goes up to its end, or all of the rest.
    rename_i rest
    rw [List.length_cons]
    split
    · rename_i length ends
      have bound := (blockEnd?_bounds ends).2
      dsimp only
      omega
    · dsimp only
      omega
  · exact Nat.zero_le _

/-- A lexeme takes no more characters than there are. -/
theorem more_ofHead_le (first : Char) (rest : List Char) :
    (ofHead first rest).more ≤ rest.length := by
  -- Each kind of lexeme is a part of the text that it starts.
  unfold ofHead
  split
  · exact Nat.zero_le _
  split
  · exact more_ofSlash_le rest
  split
  · unfold ofDash
    split <;> simp
  split
  · exact (List.takeWhile_prefix isNameChar).length_le
  · exact Nat.zero_le _

/-- Only a slash that stands alone is a slash token. -/
theorem eq_slash_of_ofHead {rest : List Char} {more : Nat}
    (read : ofHead first rest = ⟨some .slash, more⟩) : first = '/' ∧ more = 0 := by
  -- Of all lexemes, only those that start with a slash can be a slash.
  unfold ofHead at read
  split at read
  · simp at read
  split at read
  · rename_i slash
    refine ⟨slash, ?_⟩
    -- Of what starts with a slash, the others are comments.
    unfold ofSlash at read
    split at read
    · simp at read
    · split at read <;> simp at read
    · simpa using read.symm
  split at read
  · -- A dash is a minus sign or an arrow.
    unfold ofDash at read
    split at read <;> simp at read
  split at read
  · -- A name is a keyword or an identifier.
    simp only [ofName, wordKind, Lexeme.mk.injEq, Option.some.injEq] at read
    split_ifs at read <;> simp at read
  · -- No other sign is a slash.
    unfold signKind? at read
    split at read <;> simp at read

end Lexeme

end AuthSchema
