import AuthSchema.Parse.Basic
import AuthSchema.Proofs.Parse.Run

/-!
The grammar read by a cursor that walks along the tokens of a text.

The cursor is one state for the whole text: how many tokens were taken, where the last of them
stops, how many parentheses are open, and which errors were recorded. Every production changes it
in place, and a production that fails leaves it as it is at that moment.
-/

namespace AuthSchema.Parse

/-- Where a walk stands among the tokens of a text, and what it keeps on its way. -/
structure Cursor where
  /-- All tokens of the text. -/
  tokens : List Token
  /-- The position just past the text. -/
  textStop : Position
  /-- How to go about errors. -/
  options : Options
  /-- The number of tokens that were taken. -/
  index : Nat
  /-- Where the last token that was taken stops. -/
  stop : Position
  /-- The number of parentheses that are open. -/
  depth : Nat
  /-- The errors that were recorded, in document order. -/
  errors : List SyntaxError
  /-- No more tokens were taken than there are. -/
  index_le : index ≤ tokens.length

namespace Cursor

/-- The cursor before the first token. -/
def atStart (options : Options) (stream : TokenStream) : Cursor where
  tokens := stream.tokens
  textStop := stream.stop
  options := options
  index := 0
  stop := .origin
  depth := 0
  errors := []
  index_le := Nat.zero_le _

/-- The tokens that were not taken yet. -/
def ahead (cursor : Cursor) : List Token :=
  cursor.tokens.drop cursor.index

/-- The token ahead, where there is one. -/
def next? (cursor : Cursor) : Option Token :=
  cursor.tokens[cursor.index]?

/-- Takes the token ahead, where there is one. -/
def advance (cursor : Cursor) : Cursor :=
  -- Past the last token the cursor has nowhere to go.
  if inside : cursor.index < cursor.tokens.length then
    { cursor with
      index := cursor.index + 1
      stop := cursor.tokens[cursor.index].range.stop
      index_le := inside }
  else
    cursor

/-- The cursor with another number of open parentheses. -/
def withDepth (cursor : Cursor) (depth : Nat) : Cursor :=
  { cursor with depth }

/-- The cursor with one more error. -/
def withError (cursor : Cursor) (error : SyntaxError) : Cursor :=
  { cursor with errors := cursor.errors ++ [error] }

/-- A recovering walk is over once it has recorded as many errors as it may. -/
def isFull (cursor : Cursor) : Bool :=
  -- A limit of zero leaves room for one error all the same.
  cursor.options.recover && decide (max 1 cursor.options.maxErrors ≤ cursor.errors.length)

/-- The cursor after a number of further tokens. -/
def past : Nat → Cursor → Cursor
  | 0, cursor => cursor
  | count + 1, cursor => past count cursor.advance

section Lemmas

variable (cursor : Cursor) (count : Nat)

/-- The token ahead is the first of those that were not taken. -/
theorem next?_eq : cursor.next? = cursor.ahead.head? := by
  -- The tokens ahead start at the index.
  rw [next?, ahead, List.head?_drop]

/-- Taking a token leaves the tokens of the text as they are. -/
@[simp] theorem advance_tokens : cursor.advance.tokens = cursor.tokens := by
  unfold advance
  split <;> rfl

/-- Taking a token leaves the end of the text as it is. -/
@[simp] theorem advance_textStop : cursor.advance.textStop = cursor.textStop := by
  unfold advance
  split <;> rfl

/-- Taking a token leaves the options as they are. -/
@[simp] theorem advance_options : cursor.advance.options = cursor.options := by
  unfold advance
  split <;> rfl

/-- Taking a token neither opens nor closes a parenthesis. -/
@[simp] theorem advance_depth : cursor.advance.depth = cursor.depth := by
  unfold advance
  split <;> rfl

/-- Taking a token records no error. -/
@[simp] theorem advance_errors : cursor.advance.errors = cursor.errors := by
  unfold advance
  split <;> rfl

/-- Taking a token leaves those behind it, and nothing where there was none. -/
@[simp] theorem ahead_advance : cursor.advance.ahead = cursor.ahead.tail := by
  unfold advance ahead
  split
  · exact List.tail_drop.symm
  -- Past the last token the cursor stays, and nothing was ahead of it.
  · rename_i outside
    rw [List.drop_eq_nil_of_le (Nat.le_of_not_lt outside), List.tail_nil]

variable {cursor}

/-- Taking a token moves the cursor behind it. -/
theorem advance_of_ahead {token : Token} {rest : List Token}
    (front : cursor.ahead = token :: rest) :
    cursor.advance.index = cursor.index + 1 ∧ cursor.advance.stop = token.range.stop := by
  -- A token ahead is one that the index has not come to yet.
  have inside : cursor.index < cursor.tokens.length := by
    have nonempty := congrArg List.length front
    rw [ahead, List.length_drop, List.length_cons] at nonempty
    omega
  have first : cursor.tokens[cursor.index] = token := by
    rw [ahead, List.drop_eq_getElem_cons inside, List.cons.injEq] at front
    exact front.1
  rw [advance, dif_pos inside, ← first]
  exact ⟨rfl, rfl⟩

/-- Taking the token ahead leaves the rest. -/
theorem ahead_advance_of_cons {token : Token} {rest : List Token}
    (front : cursor.ahead = token :: rest) : cursor.advance.ahead = rest := by
  rw [ahead_advance, front, List.tail_cons]

variable (cursor)

/-- Taking no tokens leaves the cursor as it is. -/
@[simp] theorem past_zero : cursor.past 0 = cursor :=
  rfl

/-- Taking one token is an advance. -/
@[simp] theorem past_one : cursor.past 1 = cursor.advance :=
  rfl

/-- Taking some tokens and then more of them is taking them all. -/
theorem past_past (more : Nat) : (cursor.past count).past more = cursor.past (count + more) := by
  -- The cursor is general, since each token that is taken moves it.
  induction count generalizing cursor with
  | zero => rw [past_zero, Nat.zero_add]
  | succ count ih =>
    rw [Nat.succ_add]
    exact ih cursor.advance

/-- Taking tokens leaves the tokens of the text as they are. -/
@[simp] theorem past_tokens : (cursor.past count).tokens = cursor.tokens := by
  -- Each advance keeps them, whichever token it takes.
  induction count generalizing cursor with
  | zero => rfl
  | succ count ih => exact (ih cursor.advance).trans cursor.advance_tokens

/-- Taking tokens leaves the end of the text as it is. -/
@[simp] theorem past_textStop : (cursor.past count).textStop = cursor.textStop := by
  induction count generalizing cursor with
  | zero => rfl
  | succ count ih => exact (ih cursor.advance).trans cursor.advance_textStop

/-- Taking tokens leaves the options as they are. -/
@[simp] theorem past_options : (cursor.past count).options = cursor.options := by
  induction count generalizing cursor with
  | zero => rfl
  | succ count ih => exact (ih cursor.advance).trans cursor.advance_options

/-- Taking tokens neither opens nor closes a parenthesis. -/
@[simp] theorem past_depth : (cursor.past count).depth = cursor.depth := by
  induction count generalizing cursor with
  | zero => rfl
  | succ count ih => exact (ih cursor.advance).trans cursor.advance_depth

/-- Taking tokens records no error. -/
@[simp] theorem past_errors : (cursor.past count).errors = cursor.errors := by
  induction count generalizing cursor with
  | zero => rfl
  | succ count ih => exact (ih cursor.advance).trans cursor.advance_errors

/-- Taking tokens leaves those behind them. -/
@[simp] theorem ahead_past : (cursor.past count).ahead = cursor.ahead.drop count := by
  induction count generalizing cursor with
  | zero => rfl
  | succ count ih =>
    -- The first of the tokens goes with the advance, the others with the rest of the walk.
    rw [past, ih, ahead_advance, List.drop_tail]

/-- Behind a token that was taken, there is less ahead. -/
theorem length_ahead_past_advance {cursor : Cursor} {token : Token} {rest : List Token}
    (front : cursor.ahead = token :: rest) (count : Nat) :
    (cursor.advance.past count).ahead.length < cursor.ahead.length := by
  -- The token in front is gone, and the others that are taken can only leave less.
  rw [ahead_past, ahead_advance_of_cons front, List.length_drop, front, List.length_cons]
  omega

/-- Each token ahead moves the cursor by one. -/
theorem index_past {count : Nat} (within : count ≤ cursor.ahead.length) :
    (cursor.past count).index = cursor.index + count := by
  -- The bound makes sure that a token is there for each advance.
  induction count generalizing cursor with
  | zero => rfl
  | succ count ih =>
    cases front : cursor.ahead with
    | nil => simp [front] at within
    | cons token rest =>
      rw [front, List.length_cons] at within
      rw [past, ih, (advance_of_ahead front).1, Nat.add_right_comm, Nat.add_assoc]
      rw [ahead_advance_of_cons front]
      omega

/-- Taking tokens does not touch the number of open parentheses. -/
theorem past_withDepth (depth : Nat) :
    (cursor.withDepth depth).past count = (cursor.past count).withDepth depth := by
  -- Whether there is a token to take does not depend on the parentheses.
  have step : ∀ cursor : Cursor,
      (cursor.withDepth depth).advance = cursor.advance.withDepth depth := by
    intro cursor
    by_cases inside : cursor.index < cursor.tokens.length
    · simp [advance, withDepth, inside]
    · simp [advance, withDepth, inside]
  induction count generalizing cursor with
  | zero => rfl
  | succ count ih => rw [past, step, ih, past]

/-- Counting a parenthesis and no longer counting it leaves the number as it was. -/
theorem past_restored :
    ((cursor.withDepth (cursor.depth + 1)).past count).withDepth
      (((cursor.withDepth (cursor.depth + 1)).past count).depth - 1) = cursor.past count := by
  -- Once the tokens are taken, the number is set to what it was before them.
  have restored : (cursor.past count).withDepth (cursor.past count).depth = cursor.past count := rfl
  rw [past_depth] at restored
  rw [past_withDepth]
  exact restored

end Lemmas

end Cursor

/--
A walk along the tokens: it changes the cursor, and gives a value or a syntax error.

A walk might also go on forever, and gives nothing then.
-/
abbrev Walk :=
  ExceptT SyntaxError (StateT Cursor Option)

namespace Walk

variable {α β σ : Type}

/-- What a walk from a cursor comes to and where it leaves the cursor, unless it goes on forever. -/
def on (walk : Walk α) (cursor : Cursor) : Option (Except SyntaxError α × Cursor) :=
  walk.run.run cursor

/-- Hands on what a walk comes to, an error included, to be looked at later. -/
abbrev attempt (walk : Walk α) : Walk (Except SyntaxError α) :=
  (Except.ok <$> walk.run : StateT Cursor Option (Except SyntaxError (Except SyntaxError α)))

/-- Giving up leaves the cursor as it is. -/
@[simp] theorem on_throw (error : SyntaxError) (cursor : Cursor) :
    (throw error : Walk α).on cursor = some (.error error, cursor) :=
  rfl

/-- Looking at the cursor leaves it as it is. -/
@[simp] theorem on_get (cursor : Cursor) :
    (get : Walk Cursor).on cursor = some (.ok cursor, cursor) :=
  rfl

/-- A change of the cursor always succeeds. -/
@[simp] theorem on_modify (change : Cursor → Cursor) (cursor : Cursor) :
    (modify change : Walk Unit).on cursor = some (.ok (), change cursor) :=
  rfl

/-- A result that is handed on leaves the cursor as it is. -/
@[simp] theorem on_liftExcept (result : Except SyntaxError α) (cursor : Cursor) :
    (liftExcept result : Walk α).on cursor = some (result, cursor) := by
  -- A value and an error are handed on alike.
  cases result <;> rfl

/-- A second walk goes on where the first one gives a value, and an error ends both. -/
theorem on_bind (walk : Walk α) (next : α → Walk β) (cursor : Cursor) :
    (walk >>= next).on cursor =
      match walk.on cursor with
      | none => none
      | some (.ok value, reached) => (next value).on reached
      | some (.error error, reached) => some (.error error, reached) := by
  -- A walk is a function of the cursor, which is applied and then looked at.
  show (walk.run.run cursor).bind _ = _
  unfold on
  cases walk.run.run cursor with
  | none => rfl
  | some outcome =>
    obtain ⟨result, reached⟩ := outcome
    cases result <;> rfl

/-- What is attempted succeeds with whatever the walk comes to. -/
@[simp] theorem on_attempt (walk : Walk α) (cursor : Cursor) :
    (attempt walk).on cursor =
      (walk.on cursor).map fun outcome => (.ok outcome.1, outcome.2) := by
  -- An attempt fails only where the walk goes on forever.
  show (walk.run.run cursor).bind _ = _
  unfold on
  cases walk.run.run cursor <;> rfl

/-- A change of the value leaves errors and the cursor as they are. -/
@[simp] theorem on_map (change : α → β) (walk : Walk α) (cursor : Cursor) :
    (change <$> walk).on cursor =
      (walk.on cursor).map fun outcome => (outcome.1.map change, outcome.2) := by
  -- A change of the value is a second walk that cannot fail.
  rw [← bind_pure_comp, on_bind]
  cases walk.on cursor with
  | none => rfl
  | some outcome =>
    obtain ⟨result, reached⟩ := outcome
    cases result <;> rfl

/-- The token ahead, where there is one. -/
def next? : Walk (Option Token) :=
  return (← get).next?

/-- Where the token ahead starts, or else where the text ends. -/
def aheadStart : Walk Position := do
  let cursor ← get
  -- With no token left, the end of the text stands in.
  return (cursor.next?.map (·.range.start)).getD cursor.textStop

/-- Where the last token that was taken stops. -/
def lastStop : Walk Position :=
  return (← get).stop

/-- The number of parentheses that are open. -/
def openParens : Walk Nat :=
  return (← get).depth

/-- Looking at where the next token starts leaves the cursor as it is. -/
@[simp] theorem on_aheadStart (cursor : Cursor) :
    aheadStart.on cursor =
      some (.ok ((cursor.next?.map (·.range.start)).getD cursor.textStop), cursor) :=
  rfl

/-- Looking at where the last token stops leaves the cursor as it is. -/
@[simp] theorem on_lastStop (cursor : Cursor) :
    lastStop.on cursor = some (.ok cursor.stop, cursor) :=
  rfl

/-- Looking at the open parentheses leaves the cursor as it is. -/
@[simp] theorem on_openParens (cursor : Cursor) :
    openParens.on cursor = some (.ok cursor.depth, cursor) :=
  rfl

/-- Walks inside one more parenthesis, which is no longer counted whatever comes of the walk. -/
def nested (walk : Walk α) : Walk α := do
  modify fun cursor => cursor.withDepth (cursor.depth + 1)
  let result ← attempt walk
  -- An error waits until the parenthesis is no longer counted.
  modify fun cursor => cursor.withDepth (cursor.depth - 1)
  liftExcept result

/-- Inside a parenthesis the walk sees one more, which is gone behind it whatever it comes to. -/
theorem on_nested (walk : Walk α) (cursor : Cursor) :
    (nested walk).on cursor =
      (walk.on (cursor.withDepth (cursor.depth + 1))).map fun outcome =>
        (outcome.1, outcome.2.withDepth (outcome.2.depth - 1)) := by
  -- The parenthesis is counted before the walk and no longer after it.
  rw [nested, on_bind, on_modify]
  dsimp only
  rw [on_bind, on_attempt]
  cases walk.on (cursor.withDepth (cursor.depth + 1)) with
  | none => rfl
  | some outcome => simp [on_bind]

/-- The error that something else was expected here. -/
def errorHere (expected : Expectation) : Walk SyntaxError := do
  let cursor ← get
  -- The tokens ahead decide whether this is an unknown token, another one, or the end.
  return (Fault.expected expected).report cursor.ahead cursor.textStop

/-- Takes the token ahead if its kind leads on, and gives what it stands for then. -/
def lead? (lead : TokenKind → Option β) : Walk (Option β) := do
  match ← next? with
  | none => return none
  | some token =>
    match lead token.kind with
    | none => return none
    | some tag =>
      modify Cursor.advance
      return some tag

/-- Takes the token ahead if it is of the given kind. -/
def take? (kind : TokenKind) : Walk (Option Token) := do
  match ← next? with
  | none => return none
  | some token =>
    if token.kind = kind then
      modify Cursor.advance
      return some token
    else
      return none

/-- Takes a token of the given kind, or says what was expected in its place. -/
def take (kind : TokenKind) (expected : Expectation) : Walk Token := do
  match ← take? kind with
  | some token => return token
  | none => throw (← errorHere expected)

/-- Takes a sign or keyword, which is expected under its own name. -/
def takeSign (kind : TokenKind) : Walk Token :=
  take kind (.token kind)

section Takes

variable {cursor : Cursor} {kind : TokenKind} {token : Token} {rest : List Token}

/-- Looking at the token ahead leaves the cursor as it is. -/
@[simp] theorem on_next? (cursor : Cursor) :
    next?.on cursor = some (.ok cursor.ahead.head?, cursor) := by
  rw [← Cursor.next?_eq]
  rfl

/-- A token that leads on is taken. -/
theorem on_lead?_of_some {lead : TokenKind → Option β} {tag : β}
    (front : cursor.ahead = token :: rest) (leads : lead token.kind = some tag) :
    (lead? lead).on cursor = some (.ok (some tag), cursor.advance) := by
  -- The lead is the token ahead, which is what the walk looks at.
  rw [lead?, on_bind, on_next?, front]
  simp only [List.head?_cons, leads]
  rfl

/-- With no lead ahead, nothing is taken. -/
theorem on_lead?_of_none {lead : TokenKind → Option β}
    (ends : ∀ kind, nextKind cursor.ahead = some kind → lead kind = none) :
    (lead? lead).on cursor = some (.ok none, cursor) := by
  rw [lead?, on_bind, on_next?]
  -- Either there is no token ahead at all, or there is one of a kind that does not lead on.
  cases front : cursor.ahead with
  | nil => rfl
  | cons token rest =>
    have unled : lead token.kind = none := ends _ (by rw [front, nextKind_cons])
    simp only [List.head?_cons, unled]
    rfl

/-- A token of the asked kind is taken. -/
theorem on_take?_of_kind (front : cursor.ahead = token :: rest) (asked : token.kind = kind) :
    (take? kind).on cursor = some (.ok (some token), cursor.advance) := by
  -- The token ahead is looked at first, and taken since it is of the kind.
  rw [take?, on_bind, on_next?, front]
  simp only [List.head?_cons, if_pos asked]
  rfl

/-- With another token ahead, or none, nothing is taken. -/
theorem on_take?_of_ne (other : nextKind cursor.ahead ≠ some kind) :
    (take? kind).on cursor = some (.ok none, cursor) := by
  rw [take?, on_bind, on_next?]
  -- Either there is no token ahead at all, or there is one of another kind.
  cases front : cursor.ahead with
  | nil => rfl
  | cons token rest =>
    have unasked : token.kind ≠ kind := fun same => other (by rw [front, nextKind_cons, same])
    simp only [List.head?_cons, if_neg unasked]
    rfl

/-- A token of the asked kind is taken, whatever would be expected otherwise. -/
theorem on_take_of_kind {expected : Expectation} (front : cursor.ahead = token :: rest)
    (asked : token.kind = kind) :
    (take kind expected).on cursor = some (.ok token, cursor.advance) := by
  rw [take, on_bind, on_take?_of_kind front asked]
  rfl

/-- With another token ahead, or none, the walk gives up and says what was expected. -/
theorem on_take_of_ne {expected : Expectation} (other : nextKind cursor.ahead ≠ some kind) :
    (take kind expected).on cursor =
      some (.error ((Fault.expected expected).report cursor.ahead cursor.textStop), cursor) := by
  -- Nothing is taken, so the error is about what is still ahead.
  rw [take, on_bind, on_take?_of_ne other]
  rfl

end Takes

/-- A name inside an expression. -/
def nameRef (expected : Expectation) : Walk NameRef := do
  let token ← take .identifier expected
  return ⟨token.text, token.range⟩

/-- A name, or an arrow from one name to another. -/
def nameOrArrow : Walk Expr := do
  let left ← nameRef .operand
  -- Without an arrow behind it, the name stands alone.
  match ← take? .arrow with
  | none => return .reference left
  | some _ =>
    let right ← nameRef .operandAfterArrow
    return .arrow ⟨left, right, left.range.cover right.range⟩

/-- Two operands joined, from a start up to the last token that was taken. -/
def binary (start : Position) (operator : Operator) (left right : Expr) : Walk Expr :=
  -- Parentheses belong to the operands, and so the end is that of the last token.
  return .binary operator left right ⟨start, ← lastStop⟩

/-- A walk that goes on forever. -/
def forever : Walk α :=
  (fun _ => none : StateT Cursor Option (Except SyntaxError α))

/-- What one turn of a loop comes to. -/
inductive Turn (σ : Type) where
  /-- The loop is over. -/
  | leave (last : σ)
  /-- The loop goes on. -/
  | goOn (next : σ)

/-- What a loop comes to from a state and a cursor on, turn after turn. -/
def loopOn (turn : σ → Walk (Turn σ)) (state : σ) (cursor : Cursor) :
    Option (Except SyntaxError σ × Cursor) :=
  match (turn state).on cursor with
  | none => none
  | some (.error error, reached) => some (.error error, reached)
  | some (.ok (.leave last), reached) => some (.ok last, reached)
  | some (.ok (.goOn next), reached) =>
    -- A loop that goes on without taking a token goes on forever.
    if reached.ahead.length < cursor.ahead.length then loopOn turn next reached else none
termination_by cursor.ahead.length

/-- Takes turns until one of them ends the loop. -/
def loop (turn : σ → Walk (Turn σ)) (state : σ) : Walk σ :=
  (loopOn turn state : StateT Cursor Option (Except SyntaxError σ))

section Loop

variable {turn : σ → Walk (Turn σ)} {state : σ} {cursor reached : Cursor}

/-- A turn that gives up ends the loop with its error. -/
theorem on_loop_of_error {error : SyntaxError}
    (ran : (turn state).on cursor = some (.error error, reached)) :
    (loop turn state).on cursor = some (.error error, reached) := by
  -- The first turn is the only one.
  show loopOn turn state cursor = _
  rw [loopOn, ran]

/-- A turn that leaves ends the loop with its last state. -/
theorem on_loop_of_leave {last : σ}
    (ran : (turn state).on cursor = some (.ok (.leave last), reached)) :
    (loop turn state).on cursor = some (.ok last, reached) := by
  show loopOn turn state cursor = _
  rw [loopOn, ran]

/-- After a turn that takes a token, a loop goes on. -/
theorem on_loop_of_goOn {next : σ} (ran : (turn state).on cursor = some (.ok (.goOn next), reached))
    (moved : reached.ahead.length < cursor.ahead.length) :
    (loop turn state).on cursor = (loop turn next).on reached := by
  -- The loop from the new state is what is left of it.
  show loopOn turn state cursor = loopOn turn next reached
  rw [loopOn, ran]
  exact if_pos moved

end Loop

/-- A turn that walks to an item behind a lead and joins it to what there is, or else is the last. -/
def leadTurn (lead : TokenKind → Option β) (item : Walk α) (join : β → σ → α → Walk σ)
    (state : σ) : Walk (Turn σ) := do
  match ← lead? lead with
  | none => return .leave state
  | some tag => return .goOn (← join tag state (← item))

/-- Either a lead is ahead, or the token ahead is none. -/
theorem led_or_ends (lead : TokenKind → Option β) (tokens : List Token) :
    (∃ token rest tag, tokens = token :: rest ∧ lead token.kind = some tag) ∨
      ∀ kind, nextKind tokens = some kind → lead kind = none := by
  -- The first token decides, and without one there is no lead.
  cases tokens with
  | nil => exact .inr (by simp)
  | cons token rest =>
    cases led : lead token.kind with
    | some tag => exact .inl ⟨token, rest, tag, rfl, led⟩
    | none => exact .inr (by simp [led])

section LeadTurn

variable {lead : TokenKind → Option β} {item : Walk α} {join : β → σ → α → Walk σ} {state : σ}
  {cursor : Cursor}

/-- Without a lead ahead, the loop is over. -/
theorem on_loop_of_no_lead
    (ends : ∀ kind, nextKind cursor.ahead = some kind → lead kind = none) :
    (loop (leadTurn lead item join) state).on cursor = some (.ok state, cursor) := by
  -- The turn takes nothing, and hands its state back.
  refine on_loop_of_leave ?_
  rw [leadTurn, on_bind, on_lead?_of_none ends]
  rfl

/-- Behind a lead, the loop goes on after its item, which leaves fewer tokens ahead. -/
theorem on_loop_of_lead {token : Token} {rest : List Token} {tag : β}
    (front : cursor.ahead = token :: rest) (leads : lead token.kind = some tag)
    {result : Except SyntaxError σ} {count : Nat}
    (ran : (item >>= join tag state).on cursor.advance = some (result, cursor.advance.past count)) :
    (loop (leadTurn lead item join) state).on cursor =
      ((item >>= join tag state) >>= loop (leadTurn lead item join)).on cursor.advance := by
  -- A turn behind a lead is the item and what it is joined to, and then the loop goes on.
  have turned : (leadTurn lead item join state).on cursor =
      (Turn.goOn <$> (item >>= join tag state)).on cursor.advance := by
    rw [leadTurn, on_bind, on_lead?_of_some front leads]
    simp only [map_bind, bind_pure_comp]
  rw [on_map, ran] at turned
  rw [on_bind, ran]
  cases result with
  | error error => exact on_loop_of_error turned
  | ok next =>
    -- The lead alone leaves fewer tokens ahead, whatever the item has taken.
    exact on_loop_of_goOn turned (Cursor.length_ahead_past_advance front count)

end LeadTurn

/-- Operands joined by operators of one rank, grouped from the left. -/
def chain (operator : TokenKind → Option Operator) (operand : Walk Expr) : Walk Expr := do
  -- The start is noted before the operand, whose parentheses count.
  let start ← aheadStart
  let first ← operand
  loop (leadTurn operator operand (binary start)) first

/-- An expression in parentheses, after its opening one, given how to walk inside of it. -/
def parenthesized (inner : Walk Expr) (opening : Token) : Walk Expr := do
  if maxNesting ≤ (← openParens) then
    -- The error is at the parenthesis, which stays taken.
    throw ⟨.nestedTooDeeply, opening.range⟩
  else
    let found ← nested inner
    let _ ← takeSign .rightParen
    return found

/-- A factor, given how to walk inside of its parentheses. -/
def factorAround (inner : Walk Expr) : Walk Expr := do
  -- A keyword, a parenthesis and a name tell the cases apart by one token.
  match ← take? .nil with
  | some token => return .nil token.range
  | none =>
    match ← take? .leftParen with
    | some opening => parenthesized inner opening
    | none => nameOrArrow

/--
An expression inside parentheses, of which fewer than the given number may be opened again.

With no such number left, walking would go on forever.
-/
def inParens : Nat → Walk Expr
  | 0 => forever
  | room + 1 => chain termOperator (chain factorOperator (factorAround (inParens room)))

/-- A name, an arrow, `nil`, or an expression in parentheses. -/
def factor : Walk Expr := do
  -- The parentheses that are open already take away from the room.
  factorAround (inParens (maxNesting - (← openParens)))

/-- Factors joined by `&`, grouped from the left. -/
def term : Walk Expr :=
  chain factorOperator factor

/-- Terms joined by `+` and `-`, grouped from the left. -/
def expression : Walk Expr :=
  chain termOperator term

/-- A path and where it is written. -/
def path (expected : Expectation) : Walk (String × Range) := do
  let first ← take .identifier expected
  match ← take? .slash with
  | none => return (first.text, first.range)
  -- The slash was taken before the name behind it is asked for.
  | some slash =>
    let second ← take .identifier .typeNameAfterSlash
    let range := first.range.cover second.range
    -- Spaces around the slash are an error only once both names are there.
    if first.isAdjacent slash && slash.isAdjacent second then
      return (joinPath first second, range)
    else
      throw ⟨.spacedPath (joinPath first second), range⟩

/-- What follows the path of a type: the name of a relation, or else whether a wildcard is there. -/
def suffix : Walk (Option Token × Bool) := do
  -- A hash asks for a name, and a colon for a star.
  match ← take? .hash with
  | some _ => return (some (← take .identifier .relationNameAfterHash), false)
  | none =>
    match ← take? .colon with
    | none => return (none, false)
    | some _ =>
      let _ ← take .star .starAfterColon
      return (none, true)

/-- A type that a relation admits. -/
def typeRef : Walk SubjectType := do
  let (name, pathRange) ← path .typeName
  let (relation, wildcard) ← suffix
  -- The range goes from the path to whatever token the suffix ended with.
  return ⟨name, pathRange, relation.map (·.text), relation.map (·.range), wildcard,
    ⟨pathRange.start, ← lastStop⟩⟩

/-- Adds further types to those that were read. -/
def moreTypes : List SubjectType → Walk (List SubjectType) :=
  loop (leadTurn typeSeparator typeRef fun _ types type => return types ++ [type])

/-- A relation, after its keyword. -/
def relationAfter (keyword : Token) : Walk Relation := do
  let name ← take .identifier .relationName
  let _ ← takeSign .colon
  -- One type is required before the first bar.
  let types ← moreTypes [← typeRef]
  return ⟨name.text, name.range, ⟨keyword.range.start, ← lastStop⟩, types⟩

/-- A relation. -/
def relation : Walk Relation := do
  relationAfter (← takeSign .relation)

/-- A permission, after its keyword. -/
def permissionAfter (keyword : Token) : Walk Permission := do
  let name ← take .identifier .permissionName
  let _ ← takeSign .equals
  let expression ← expression
  return ⟨name.text, name.range, ⟨keyword.range.start, ← lastStop⟩, expression⟩

/-- A permission. -/
def permission : Walk Permission := do
  permissionAfter (← takeSign .permission)

/-- Takes tokens up to one of a kind to stop at. -/
def skipUntil (stops : TokenKind → Bool) : Walk Unit :=
  loop (fun _ => skipTurn) ()
where
  /-- Takes one token, unless it is one to stop at. -/
  skipTurn : Walk (Turn Unit) := do
    match ← next? with
    | none => return .leave ()
    | some token =>
      if stops token.kind then
        return .leave ()
      else
        modify Cursor.advance
        return .goOn ()

/-- Records an error and skips to a place to go on, or gives up where errors are not recovered. -/
def recover (error : SyntaxError) (stops : TokenKind → Bool) : Walk Unit := do
  -- Only a recovering walk goes on behind an error.
  if (← get).options.recover then
    modify (·.withError error)
    skipUntil stops
  else
    throw error

/-- Adds what was read to the items before it, or else recovers from the error. -/
def keep (stops : TokenKind → Bool) (items : List α) : Except SyntaxError α → Walk (Turn (List α))
  | .ok value => return .goOn (items ++ [value])
  -- What fails is left out, and the walk goes on behind it.
  | .error error => do
    recover error stops
    return .goOn items

/-- The member that a kind of token leads to. -/
def member : TokenKind → Walk Member
  -- Each keyword leads to its own production.
  | .relation => Member.relation <$> relation
  | .permission => Member.permission <$> permission
  | _ => do throw (← errorHere .memberOrClose)

/-- Ends a body that is not closed, which is an error. -/
def endUnclosed (members : List Member) : Walk (Turn (List Member)) := do
  -- The brace is missed at the token ahead, which stays where it is.
  let error ← errorHere (.token .rightBrace)
  if (← get).options.recover then
    modify (·.withError error)
    return .leave members
  else
    throw error

/-- One turn of the loop over the members of a body. -/
def bodyTurn (members : List Member) : Walk (Turn (List Member)) := do
  if (← get).isFull then
    -- The tokens that are left belong to no member.
    return .leave members
  else
    match ← next? with
    -- An unclosed body ends where the text ends, or where the next definition starts.
    | none => endUnclosed members
    | some token =>
      if token.kind = .rightBrace then
        modify Cursor.advance
        return .leave members
      else if token.kind = .definition then
        endUnclosed members
      else
        keep endsMember members (← attempt (member token.kind))

/-- The header of a definition, after its keyword. -/
def headerAfter (keyword : Token) : Walk Header := do
  let (name, nameRange) ← path .definitionName
  let brace ← takeSign .leftBrace
  return ⟨name, nameRange, ⟨keyword.range.start, brace.range.stop⟩⟩

/-- The header of a definition. -/
def header : Walk Header := do
  headerAfter (← takeSign .definition)

/-- A definition, after its header. -/
def definitionAfter (header : Header) : Walk Definition := do
  -- The body keeps its members in the order of the text.
  let members ← loop bodyTurn []
  -- Each kind of members is kept on its own, in the order in which they were read.
  let relations := members.filterMap fun
    | .relation declared => some declared
    | .permission _ => none
  let permissions := members.filterMap fun
    | .relation _ => none
    | .permission declared => some declared
  return ⟨header.name, header.nameRange, ⟨header.range.start, ← lastStop⟩, relations, permissions⟩

/-- A definition. -/
def definition : Walk Definition := do
  definitionAfter (← header)

/-- One turn of the loop over the definitions of a document. -/
def documentTurn (definitions : List Definition) : Walk (Turn (List Definition)) := do
  if (← get).isFull then
    return .leave definitions
  else
    match ← next? with
    | none => return .leave definitions
    | some token =>
      if token.kind = .definition then
        keep (· = .definition) definitions (← attempt definition)
      else
        -- What stands outside of definitions is one error, up to the next definition.
        keep (· = .definition) definitions (.error (← errorHere (.token .definition)))

end Walk

/-- Reads a schema from text by one walk along its tokens. -/
def walkThrough (options : Options) (source : String) : Option Report :=
  -- The walk starts in front of the first token with no definitions read.
  ((Walk.loop Walk.documentTurn []).on (.atStart options (tokenize source))).map fun
    | (.ok definitions, cursor) => ⟨some ⟨definitions⟩, cursor.errors⟩
    | (.error error, _) => ⟨none, [error]⟩

end AuthSchema.Parse
