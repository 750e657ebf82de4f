import AuthSchema.Parse.SyntaxError

/-! Productions of a grammar: functions that take tokens from the front of a list and never add any. -/

namespace AuthSchema

/-- Why a production stopped, apart from the tokens that lay ahead of it then. -/
inductive Fault where
  /-- The token ahead, or the end of the text, is not what must come next. -/
  | expected (what : Expectation)
  /-- The two parts of a path do not touch its slash. -/
  | spacedPath (first second : Token)
  /-- This parenthesis is nested too deeply. -/
  | tooDeep (opening : Token)
  deriving DecidableEq, Repr

/-- The two names of a path, joined by its slash. -/
def joinPath (first second : Token) : String :=
  first.text ++ "/" ++ second.text

/-- The syntax error of a fault, given the tokens that lay ahead and the position past the text. -/
def Fault.report (fault : Fault) (ahead : List Token) (textStop : Position) : SyntaxError :=
  match fault, ahead with
  -- With no token left, the error stands just past the text.
  | .expected what, [] => ⟨.unexpectedEnd what, .empty textStop⟩
  | .expected what, token :: _ =>
    -- Text that is no token is reported as such, whatever was expected.
    if token.kind = .unknown then ⟨.unknownToken token.text, token.range⟩
    else ⟨.unexpected what token.text, token.range⟩
  | .spacedPath first second, _ =>
    ⟨.spacedPath (joinPath first second), first.range.cover second.range⟩
  | .tooDeep opening, _ => ⟨.nestedTooDeeply, opening.range⟩

/-- What a production comes to, with the tokens it left. -/
inductive Outcome (α : Type) where
  /-- The production found what it reads. -/
  | done (value : α) (rest : List Token)
  /-- The production stopped with tokens still ahead. -/
  | failed (fault : Fault) (rest : List Token)
  deriving DecidableEq, Repr

namespace Outcome

variable {α β : Type}

/-- The tokens that were left, in either case. -/
def rest : Outcome α → List Token
  | .done _ rest => rest
  | .failed _ rest => rest

/-- Changes the value and leaves a fault as it is. -/
def map (change : α → β) : Outcome α → Outcome β
  | .done value rest => .done (change value) rest
  | .failed fault rest => .failed fault rest

/-- What a production that succeeds leaves. -/
@[simp] theorem rest_done (value : α) (rest : List Token) : (done value rest).rest = rest :=
  rfl

/-- What a production that fails leaves. -/
@[simp] theorem rest_failed (fault : Fault) (rest : List Token) :
    (failed fault rest : Outcome α).rest = rest :=
  rfl

/-- A change of the value leaves the same tokens. -/
@[simp] theorem rest_map (change : α → β) (outcome : Outcome α) :
    (outcome.map change).rest = outcome.rest := by
  cases outcome <;> rfl

end Outcome

/-- A reader of tokens that leaves a tail of the tokens it was given, also when it fails. -/
structure Production (α : Type) where
  /-- Reads from the front of a list of tokens. -/
  run : List Token → Outcome α
  /-- What is left is a tail of what was given. -/
  rest_suffix : ∀ tokens, (run tokens).rest <:+ tokens

namespace Production

variable {α β : Type}

/-- A production that succeeds leaves a tail of what it was given. -/
theorem suffix_of_done (production : Production α) {tokens rest : List Token} {value : α}
    (result : production.run tokens = .done value rest) : rest <:+ tokens := by
  simpa only [result, Outcome.rest_done] using production.rest_suffix tokens

/-- A production that fails leaves a tail of what it was given. -/
theorem suffix_of_failed (production : Production α) {tokens rest : List Token} {fault : Fault}
    (result : production.run tokens = .failed fault rest) : rest <:+ tokens := by
  simpa only [result, Outcome.rest_failed] using production.rest_suffix tokens

/-- Runs one production and then another on the tokens that the first one left. -/
def andThen (first : Production α) (next : α → Production β) : Production β where
  run tokens :=
    match first.run tokens with
    | .done value rest => (next value).run rest
    | .failed fault rest => .failed fault rest
  rest_suffix tokens := by
    -- A tail of a tail is a tail.
    cases result : first.run tokens with
    | done value rest =>
      exact ((next value).rest_suffix rest).trans (first.suffix_of_done result)
    | failed fault rest => exact first.suffix_of_failed result

/-- Productions run one after another, and the first fault ends the run. -/
instance : Monad Production where
  pure value := ⟨fun tokens => .done value tokens, fun tokens => List.suffix_refl tokens⟩
  bind := andThen

/-- A value that is there already takes no token. -/
@[simp] theorem run_pure (value : α) (tokens : List Token) :
    (pure value : Production α).run tokens = .done value tokens :=
  rfl

/-- The second production runs on what the first one left, and a fault ends both. -/
theorem run_bind (first : Production α) (next : α → Production β) (tokens : List Token) :
    (first >>= next).run tokens =
      match first.run tokens with
      | .done value rest => (next value).run rest
      | .failed fault rest => .failed fault rest :=
  rfl

/-- Stops without taking a token. -/
def fail (fault : Fault) : Production α where
  run tokens := .failed fault tokens
  rest_suffix tokens := List.suffix_refl tokens

/-- Takes the token ahead if it is of the given kind. -/
def take? (kind : TokenKind) : Production (Option Token) where
  run
    | [] => .done none []
    | token :: rest =>
      if token.kind = kind then .done (some token) rest else .done none (token :: rest)
  rest_suffix
    | [] => List.suffix_refl []
    | token :: rest => by
      dsimp only
      split
      · exact List.suffix_cons token rest
      · exact List.suffix_refl _

/-- Takes a token of the given kind, or says what was expected in its place. -/
def take (kind : TokenKind) (expected : Expectation) : Production Token := do
  match ← take? kind with
  | some token => pure token
  | none => fail (.expected expected)

/-- Takes a sign or keyword, which is expected under its own name. -/
def takeSign (kind : TokenKind) : Production Token :=
  take kind (.token kind)

/-- Reads items for as long as the token ahead leads to one, each with what its lead stands for. -/
def readMany (lead : TokenKind → Option β) (item : Production α) :
    List Token → Outcome (List (β × α))
  | [] => .done [] []
  | token :: ahead =>
    match lead token.kind with
    | none => .done [] (token :: ahead)
    | some tag =>
      match _ : item.run ahead with
      | .done value rest => (readMany lead item rest).map ((tag, value) :: ·)
      | .failed fault rest => .failed fault rest
termination_by tokens => tokens.length
decreasing_by
  -- The lead itself is taken, and the item leaves a tail of the tokens after it.
  exact Nat.lt_succ_of_le (item.suffix_of_done ‹_›).length_le

/-- Repetition leaves a tail of the tokens it was given. -/
theorem readMany_rest_suffix (lead : TokenKind → Option β) (item : Production α)
    (tokens : List Token) : (readMany lead item tokens).rest <:+ tokens := by
  fun_induction readMany lead item tokens with
  | case1 => exact List.suffix_refl _
  | case2 => exact List.suffix_refl _
  | case3 token ahead tag led value rest result ih =>
    -- The later items leave a tail of what the first item left.
    rw [Outcome.rest_map]
    exact (ih.trans (item.suffix_of_done result)).trans (List.suffix_cons token ahead)
  | case4 token ahead tag led fault rest result =>
    exact (item.suffix_of_failed result).trans (List.suffix_cons token ahead)

/-- Repetition as a production: an item after each lead, until no lead is ahead. -/
def many (lead : TokenKind → Option β) (item : Production α) : Production (List (β × α)) where
  run := readMany lead item
  rest_suffix := readMany_rest_suffix lead item

end Production

end AuthSchema
