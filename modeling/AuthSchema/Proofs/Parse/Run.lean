import AuthSchema.Parse.Production

/-! How productions run: what a finished run must have read, and what the token ahead decides. -/

namespace AuthSchema

/-- The kind of the token ahead, where there is one. -/
def nextKind (tokens : List Token) : Option TokenKind :=
  tokens.head?.map Token.kind

/-- With no token left, no kind is ahead. -/
@[simp] theorem nextKind_nil : nextKind [] = none :=
  rfl

/-- The kind ahead is that of the first token. -/
@[simp] theorem nextKind_cons (token : Token) (rest : List Token) :
    nextKind (token :: rest) = some token.kind :=
  rfl

/-- A kind is ahead exactly when the first token is of that kind. -/
theorem nextKind_eq_some_iff {tokens : List Token} {kind : TokenKind} :
    nextKind tokens = some kind ↔ ∃ token rest, tokens = token :: rest ∧ token.kind = kind := by
  -- Only the first of the tokens counts, if there is one.
  cases tokens with
  | nil => simp
  | cons token rest => simp

/-- A changed outcome is done exactly when the outcome was, with the value not yet changed. -/
theorem Outcome.map_eq_done_iff {α β : Type} {change : α → β} {outcome : Outcome α} {value : β}
    {rest : List Token} :
    outcome.map change = .done value rest ↔
      ∃ inner, outcome = .done inner rest ∧ change inner = value := by
  -- Only the value changes, so a finished outcome comes from a finished one.
  constructor
  · intro result
    cases outcome with
    | done inner left =>
      cases result
      exact ⟨inner, rfl, rfl⟩
    -- A failed outcome stays failed, whatever the change.
    | failed fault left => cases result
  · rintro ⟨inner, rfl, rfl⟩
    rfl

namespace Production

variable {α β : Type} {tokens rest : List Token}

/-- Two productions in a row finish exactly when both do, the second on what the first one left. -/
theorem run_bind_eq_done_iff {first : Production α} {next : α → Production β} {value : β} :
    (first >>= next).run tokens = .done value rest ↔
      ∃ middle left, first.run tokens = .done middle left ∧
        (next middle).run left = .done value rest := by
  rw [run_bind]
  constructor
  · intro result
    -- The second production only runs where the first one has finished.
    cases ran : first.run tokens with
    | done middle left => exact ⟨middle, left, rfl, by rwa [ran] at result⟩
    | failed fault left =>
      rw [ran] at result
      cases result
  · rintro ⟨middle, left, ran, finished⟩
    rw [ran]
    exact finished

/-- A failure leaves all tokens where they are. -/
@[simp] theorem run_fail (fault : Fault) (tokens : List Token) :
    (fail fault : Production α).run tokens = .failed fault tokens :=
  rfl

/-- A token of the asked kind is taken. -/
theorem run_take?_of_kind {kind : TokenKind} {token : Token} (asked : token.kind = kind) :
    (take? kind).run (token :: rest) = .done (some token) rest :=
  if_pos asked

/-- With another token ahead, or none, nothing is taken. -/
theorem run_take?_of_ne {kind : TokenKind} (other : nextKind tokens ≠ some kind) :
    (take? kind).run tokens = .done none tokens := by
  -- Nothing is taken at the end of the text either.
  cases tokens with
  | nil => rfl
  | cons token rest => exact if_neg fun asked => other (congrArg some asked)

/-- Trying to take a token always finishes, and only the token ahead decides how. -/
theorem run_take?_eq_done_iff {kind : TokenKind} {found : Option Token} :
    (take? kind).run tokens = .done found rest ↔
      (∃ token, found = some token ∧ tokens = token :: rest ∧ token.kind = kind) ∨
        (found = none ∧ tokens = rest ∧ nextKind tokens ≠ some kind) := by
  by_cases ahead : nextKind tokens = some kind
  · -- The token ahead has the asked kind, so that only the first way is open.
    obtain ⟨token, left, rfl, asked⟩ := nextKind_eq_some_iff.mp ahead
    rw [run_take?_of_kind asked]
    constructor
    · intro result
      cases result
      exact .inl ⟨token, rfl, rfl, asked⟩
    · rintro (⟨token, rfl, same, _⟩ | ⟨_, _, other⟩)
      · cases same
        rfl
      · exact absurd ahead other
  · -- Any other token ahead leaves only the second way.
    rw [run_take?_of_ne ahead]
    constructor
    · intro result
      cases result
      exact .inr ⟨rfl, rfl, ahead⟩
    · rintro (⟨token, _, rfl, asked⟩ | ⟨rfl, rfl, _⟩)
      · simp [asked] at ahead
      · rfl

/-- A token of the asked kind is taken, whatever would be expected otherwise. -/
theorem run_take_of_kind {kind : TokenKind} {expected : Expectation} {token : Token}
    (asked : token.kind = kind) :
    (take kind expected).run (token :: rest) = .done token rest := by
  -- The token is tried first, and found.
  rw [take, run_bind, run_take?_of_kind asked]
  rfl

/-- With another token ahead, or none, the production fails and leaves all tokens. -/
theorem run_take_of_ne {kind : TokenKind} {expected : Expectation}
    (other : nextKind tokens ≠ some kind) :
    (take kind expected).run tokens = .failed (.expected expected) tokens := by
  -- Nothing is found, and then the production gives up.
  rw [take, run_bind, run_take?_of_ne other]
  rfl

/-- Taking a token finishes exactly when one of the asked kind is ahead. -/
theorem run_take_eq_done_iff {kind : TokenKind} {expected : Expectation} {token : Token} :
    (take kind expected).run tokens = .done token rest ↔
      tokens = token :: rest ∧ token.kind = kind := by
  constructor
  · intro result
    obtain ⟨found, left, tried, finished⟩ := run_bind_eq_done_iff.mp result
    -- Where no token was found the production fails, so that one was.
    rcases run_take?_eq_done_iff.mp tried with ⟨taken, rfl, rfl, asked⟩ | ⟨rfl, _, _⟩
    · simp only [run_pure, Outcome.done.injEq] at finished
      obtain ⟨rfl, rfl⟩ := finished
      exact ⟨rfl, asked⟩
    · simp at finished
  · rintro ⟨rfl, asked⟩
    exact run_take_of_kind asked

/-- The run of a repetition is the loop that reads it. -/
@[simp] theorem run_many (lead : TokenKind → Option β) (item : Production α)
    (tokens : List Token) : (many lead item).run tokens = readMany lead item tokens :=
  rfl

/-- Repetition ends at once when no lead is ahead. -/
theorem readMany_of_no_lead {lead : TokenKind → Option β} {item : Production α}
    (ends : ∀ kind, nextKind tokens = some kind → lead kind = none) :
    readMany lead item tokens = .done [] tokens := by
  cases tokens with
  | nil => rw [readMany]
  -- The lead decides the branch, and without a token there is no lead.
  | cons token ahead =>
    rw [readMany]
    simp only [ends token.kind rfl]

/-- Repetition reads one item after a lead, and then goes on. -/
theorem readMany_of_lead {lead : TokenKind → Option β} {item : Production α} {sign : Token}
    {tag : β} {value : α} (leads : lead sign.kind = some tag)
    (reads : item.run tokens = .done value rest) :
    readMany lead item (sign :: tokens) =
      (readMany lead item rest).map ((tag, value) :: ·) := by
  rw [readMany]
  simp only [leads]
  -- The run of the item is known, which leaves one of the two branches.
  split
  · rename_i next left result
    rw [reads] at result
    cases result
    rfl
  · rename_i fault left result
    rw [reads] at result
    cases result

/-- A lead without its item is a failure of the whole repetition. -/
theorem readMany_of_failed {lead : TokenKind → Option β} {item : Production α} {sign : Token}
    {tag : β} {fault : Fault} (leads : lead sign.kind = some tag)
    (fails : item.run tokens = .failed fault rest) :
    readMany lead item (sign :: tokens) = .failed fault rest := by
  rw [readMany]
  simp only [leads]
  -- The run of the item is known, which leaves the other branch.
  split
  · rename_i next left result
    rw [fails] at result
    cases result
  · rename_i other left result
    rw [fails] at result
    cases result
    rfl

end Production

end AuthSchema
