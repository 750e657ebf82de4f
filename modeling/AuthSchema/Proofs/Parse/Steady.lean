import AuthSchema.Proofs.Parse.Taken
import AuthSchema.Proofs.Parse.Walk

/-!
What a walk can do to its cursor, and what it can know of it.

A production takes some of the tokens ahead and changes nothing else, whether it succeeds or fails.
What it comes to, and how many tokens it takes, is told by the tokens ahead, the end of the text and
the number of open parentheses.
-/

namespace AuthSchema.Parse

namespace Cursor

/-- Taking tokens leaves the stop of the last one of them. -/
theorem stop_past (cursor : Cursor) (count : Nat) :
    (cursor.past count).stop = lastStop cursor.stop (cursor.ahead.take count) := by
  -- The cursor is general, since each token that is taken moves it.
  induction count generalizing cursor with
  | zero => rfl
  | succ count ih =>
    rw [past, ih, ahead_advance]
    cases front : cursor.ahead with
    | nil =>
      -- Without a token ahead, the cursor stays where it is.
      have outside : ¬cursor.index < cursor.tokens.length := by
        rw [ahead, List.drop_eq_nil_iff] at front
        omega
      rw [advance, dif_neg outside, List.tail_nil, List.take_nil, List.take_nil]
    | cons token rest =>
      rw [(advance_of_ahead front).2, List.take_succ_cons, lastStop_cons, List.tail_cons]

/-- Two cursors that see the same: the tokens ahead, the end of the text, and the open parentheses. -/
structure Twin (cursor twin : Cursor) : Prop where
  ahead_eq : twin.ahead = cursor.ahead
  textStop_eq : twin.textStop = cursor.textStop
  depth_eq : twin.depth = cursor.depth

namespace Twin

variable {cursor twin : Cursor}

/-- Every cursor sees the same as itself. -/
theorem refl (cursor : Cursor) : cursor.Twin cursor :=
  ⟨rfl, rfl, rfl⟩

/-- Twins that take equally many tokens are twins again. -/
theorem past (same : cursor.Twin twin) (count : Nat) : (cursor.past count).Twin (twin.past count) where
  ahead_eq := by rw [ahead_past, ahead_past, same.ahead_eq]
  textStop_eq := by rw [past_textStop, past_textStop, same.textStop_eq]
  depth_eq := by rw [past_depth, past_depth, same.depth_eq]

/-- Twins that are inside one more parenthesis are twins again. -/
theorem deepen (same : cursor.Twin twin) :
    (cursor.withDepth (cursor.depth + 1)).Twin (twin.withDepth (twin.depth + 1)) where
  ahead_eq := same.ahead_eq
  textStop_eq := same.textStop_eq
  depth_eq := congrArg (· + 1) same.depth_eq

/-- Twins that have taken a token agree on where it stops. -/
theorem stop_past_eq (same : cursor.Twin twin) {count : Nat} (moved : 0 < count)
    (within : count ≤ cursor.ahead.length) : (twin.past count).stop = (cursor.past count).stop := by
  rw [stop_past, stop_past, same.ahead_eq]
  -- Some token was taken by both, and its stop is what both remember.
  obtain ⟨count, rfl⟩ := Nat.exists_eq_add_of_lt moved
  cases front : cursor.ahead with
  | nil => simp [front] at within
  | cons token rest => rw [Nat.zero_add, List.take_succ_cons, lastStop_cons, lastStop_cons]

/-- Twins that take the token ahead agree on where it stops. -/
theorem stop_advance_eq (same : cursor.Twin twin) {token : Token} {rest : List Token}
    (front : cursor.ahead = token :: rest) : twin.advance.stop = cursor.advance.stop := by
  rw [(advance_of_ahead front).2, (advance_of_ahead (same.ahead_eq.trans front)).2]

end Twin

end Cursor

namespace Walk

variable {α β σ : Type} {started : Bool} {cursor : Cursor}

/--
A walk from a cursor comes to a result by taking a number of tokens, none of which frames a
declaration, and so does it from every twin of the cursor.

A walk that was started knows where the last token stops, and its twins agree on that. One that was
not started yet has to take a token before it succeeds.
-/
structure ComesTo (started : Bool) (walk : Walk α) (cursor : Cursor)
    (result : Except SyntaxError α) (count : Nat) : Prop where
  within : count ≤ cursor.ahead.length
  inner : ∀ token ∈ cursor.ahead.take count, isInner token.kind = true
  moved : started = false → ∀ value, result = .ok value → 0 < count
  on_twin : ∀ twin, cursor.Twin twin → (started = true → twin.stop = cursor.stop) →
    walk.on twin = some (result, twin.past count)

/-- What a walk comes to behind the token ahead is the same from all twins before it. -/
theorem ComesTo.on_twin_behind {walk other : Walk α} {token : Token} {rest : List Token}
    {result : Except SyntaxError α} {count : Nat} (comes : other.ComesTo true cursor.advance result count)
    (front : cursor.ahead = token :: rest)
    (same : ∀ twin, cursor.Twin twin → walk.on twin = other.on twin.advance) :
    ∀ twin, cursor.Twin twin → walk.on twin = some (result, twin.past (count + 1)) := by
  intro twin twins
  rw [same twin twins]
  exact comes.on_twin _ (twins.past 1) fun _ => twins.stop_advance_eq front

/-- A walk from a cursor comes to some result in this way. -/
def SteadyAt (started : Bool) (walk : Walk α) (cursor : Cursor) : Prop :=
  ∃ result count, walk.ComesTo started cursor result count

namespace SteadyAt

/-- What need not know where the last token stops may know it. -/
theorem start {walk : Walk α} (steady : walk.SteadyAt false cursor) :
    walk.SteadyAt true cursor := by
  obtain ⟨result, count, comes⟩ := steady
  refine ⟨result, count, comes.within, comes.inner, ?_, ?_⟩
  · -- A walk that was started has not to move.
    intro impossible
    cases impossible
  · intro twin same _
    exact comes.on_twin twin same (fun impossible => by cases impossible)

/-- A walk that does nothing is steady once it was started. -/
theorem pure (value : α) : (pure value : Walk α).SteadyAt true cursor := by
  refine ⟨.ok value, 0, Nat.zero_le _, by simp, ?_, fun _ _ _ => rfl⟩
  intro impossible
  cases impossible

/-- A walk that gives up has not to move. -/
theorem throw (error : SyntaxError) : (throw error : Walk α).SteadyAt started cursor := by
  refine ⟨.error error, 0, Nat.zero_le _, by simp, ?_, fun _ _ _ => rfl⟩
  intro _ value impossible
  cases impossible

/-- A walk that runs like another one on all twins is as steady. -/
theorem congr {walk other : Walk α} (steady : other.SteadyAt started cursor)
    (same : ∀ twin, cursor.Twin twin → (started = true → twin.stop = cursor.stop) →
      walk.on twin = other.on twin) : walk.SteadyAt started cursor := by
  obtain ⟨result, count, comes⟩ := steady
  refine ⟨result, count, comes.within, comes.inner, comes.moved, ?_⟩
  intro twin twins stops
  rw [same twin twins stops]
  exact comes.on_twin twin twins stops

/-- A walk that takes the token ahead and runs on like another one is as steady. -/
theorem step {walk other : Walk α} {token : Token} {rest : List Token}
    (front : cursor.ahead = token :: rest) (inner : isInner token.kind = true)
    (steady : other.SteadyAt true cursor.advance)
    (same : ∀ twin, cursor.Twin twin → walk.on twin = other.on twin.advance) :
    walk.SteadyAt started cursor := by
  obtain ⟨result, count, comes⟩ := steady
  -- The tokens of the rest are behind the one that is taken here.
  have within := comes.within
  have innerRest := comes.inner
  rw [Cursor.ahead_advance, front, List.tail_cons] at within innerRest
  refine ⟨result, count + 1, ?_, ?_, ?_, ?_⟩
  · rw [front, List.length_cons]
    omega
  · -- The token that is taken is inner, and so are those behind it.
    rw [front, List.take_succ_cons, List.forall_mem_cons]
    exact ⟨inner, innerRest⟩
  · intro _ _ _
    omega
  · intro twin twins _
    exact comes.on_twin_behind front same twin twins

/-- Two walks in a row are steady, where the second one knows where the first one stopped. -/
theorem bind {walk : Walk α} {next : α → Walk β} (first : walk.SteadyAt started cursor)
    (second : ∀ value count, (next value).SteadyAt true (cursor.past count)) :
    (walk >>= next).SteadyAt started cursor := by
  obtain ⟨result, count, comes⟩ := first
  cases result with
  | error error =>
    -- The second walk is not begun, and the tokens that were taken stay taken.
    refine ⟨.error error, count, comes.within, comes.inner, ?_, ?_⟩
    · intro _ value impossible
      cases impossible
    · intro twin twins stops
      rw [on_bind, comes.on_twin twin twins stops]
  | ok value =>
    have moved : started = false → 0 < count := fun unstarted => comes.moved unstarted value rfl
    -- The second walk starts where the first one has stopped.
    obtain ⟨result, more, later⟩ := second value count
    have within := later.within
    have inner := later.inner
    rw [Cursor.ahead_past] at within inner
    rw [List.length_drop] at within
    have bound := comes.within
    refine ⟨result, count + more, by omega, ?_, ?_, ?_⟩
    · rw [List.take_add]
      intro token listed
      rcases List.mem_append.mp listed with listed | listed
      · exact comes.inner token listed
      · exact inner token listed
    · intro unstarted _ _
      have positive := moved unstarted
      omega
    · intro twin twins stops
      -- Either the first walk has moved, or both twins were started at the same stop.
      have stopsNow : (twin.past count).stop = (cursor.past count).stop := by
        rcases Nat.eq_zero_or_pos count with rfl | positive
        · cases started with
          | true => exact stops rfl
          | false => exact absurd (moved rfl) (Nat.lt_irrefl 0)
        · exact twins.stop_past_eq positive bound
      rw [on_bind, comes.on_twin twin twins stops]
      dsimp only
      rw [later.on_twin _ (twins.past count) (fun _ => stopsNow), Cursor.past_past]

section Takes

variable {kind : TokenKind}

/-- Trying to take a token, and going on in either case. -/
theorem take?_bind {next : Option Token → Walk α} (inner : isInner kind = true)
    (absent : (next none).SteadyAt started cursor)
    (present : ∀ token, (next (some token)).SteadyAt true cursor.advance) :
    (take? kind >>= next).SteadyAt started cursor := by
  -- Twins have the same token ahead, so that all of them take it or none does.
  by_cases asked : nextKind cursor.ahead = some kind
  · obtain ⟨token, rest, front, same⟩ := nextKind_eq_some_iff.mp asked
    refine (present token).step front (same ▸ inner) ?_
    intro twin twins
    rw [on_bind, on_take?_of_kind (twins.ahead_eq.trans front) same]
  · refine absent.congr ?_
    intro twin twins _
    rw [on_bind, on_take?_of_ne (twins.ahead_eq ▸ asked)]

/-- Taking a token, and going on behind it. -/
theorem take_bind {next : Token → Walk α} {expected : Expectation} (inner : isInner kind = true)
    (present : ∀ token, (next token).SteadyAt true cursor.advance) :
    (take kind expected >>= next).SteadyAt started cursor := by
  by_cases asked : nextKind cursor.ahead = some kind
  · obtain ⟨token, rest, front, same⟩ := nextKind_eq_some_iff.mp asked
    refine (present token).step front (same ▸ inner) ?_
    intro twin twins
    rw [on_bind, on_take_of_kind (twins.ahead_eq.trans front) same]
  · -- The error is told by the tokens ahead and the end of the text, which twins share.
    refine (throw ((Fault.expected expected).report cursor.ahead cursor.textStop)).congr ?_
    intro twin twins _
    rw [on_bind, on_take_of_ne (twins.ahead_eq ▸ asked), twins.ahead_eq, twins.textStop_eq]
    rfl

end Takes

/-- Looking at where the last token stops, which a started walk knows. -/
theorem lastStop_bind {next : Position → Walk α}
    (steady : (next cursor.stop).SteadyAt true cursor) :
    (lastStop >>= next).SteadyAt true cursor := by
  refine steady.congr ?_
  intro twin _ stops
  rw [on_bind, on_lastStop, stops rfl]

/-- Looking at where the token ahead starts. -/
theorem aheadStart_bind {next : Position → Walk α}
    (steady : ∀ start, (next start).SteadyAt started cursor) :
    (aheadStart >>= next).SteadyAt started cursor := by
  -- Where the next token starts is seen by all twins alike.
  refine (steady ((cursor.next?.map (·.range.start)).getD cursor.textStop)).congr ?_
  intro twin twins _
  rw [on_bind, on_aheadStart, Cursor.next?_eq, twins.ahead_eq, twins.textStop_eq, ← Cursor.next?_eq]

/-- Looking at the number of open parentheses. -/
theorem openParens_bind {next : Nat → Walk α}
    (steady : (next cursor.depth).SteadyAt started cursor) :
    (openParens >>= next).SteadyAt started cursor := by
  refine steady.congr ?_
  intro twin twins _
  rw [on_bind, on_openParens, twins.depth_eq]

/-- Inside a parenthesis, the walk is as steady, and the parenthesis is no longer counted after it. -/
theorem nested {walk : Walk α}
    (steady : walk.SteadyAt started (cursor.withDepth (cursor.depth + 1))) :
    (nested walk).SteadyAt started cursor := by
  -- Twins are inside the parenthesis together, and outside of it again.
  obtain ⟨result, count, comes⟩ := steady
  refine ⟨result, count, comes.within, comes.inner, comes.moved, ?_⟩
  intro twin twins stops
  rw [on_nested, comes.on_twin _ twins.deepen stops, Option.map_some, Cursor.past_restored]

/-- A loop that walks to an item after each lead is steady, where its items are. -/
theorem loop {lead : TokenKind → Option β} {item : Walk α} {join : β → σ → α → Walk σ}
    (leads : ∀ kind tag, lead kind = some tag → isInner kind = true)
    (items : ∀ inner : Cursor, inner.depth = cursor.depth → item.SteadyAt false inner)
    (joins : ∀ tag state value inner, (join tag state value).SteadyAt true inner) (state : σ) :
    (loop (leadTurn lead item join) state).SteadyAt true cursor := by
  -- The induction is on the tokens ahead, of which each turn takes its lead at least.
  generalize size : cursor.ahead.length = length
  induction length using Nat.strongRecOn generalizing state cursor with
  | ind length ih =>
    rcases led_or_ends lead cursor.ahead with ⟨token, rest, tag, front, leadsOn⟩ | ends
    -- A turn is an item and what it is joined to, both of which are steady.
    · have turn : (item >>= join tag state).SteadyAt true cursor.advance := by
        refine (items cursor.advance cursor.advance_depth).start.bind ?_
        intro value _
        exact joins tag state value _
      have whole : ((item >>= join tag state) >>= Walk.loop (leadTurn lead item join)).SteadyAt true
          cursor.advance := by
        refine turn.bind ?_
        intro next count
        have shorter : (cursor.advance.past count).ahead.length < length :=
          size ▸ Cursor.length_ahead_past_advance front count
        refine ih _ shorter ?_ next rfl
        intro inner nesting
        exact items inner (nesting.trans ((Cursor.past_depth _ _).trans cursor.advance_depth))
      refine whole.step front (leads _ tag leadsOn) ?_
      intro twin twins
      -- A loop goes on only behind an item that was walked to, so that the twin has to get there too.
      obtain ⟨result, count, comes⟩ := turn
      exact on_loop_of_lead (twins.ahead_eq.trans front) leadsOn
        (comes.on_twin _ (twins.past 1) fun _ => twins.stop_advance_eq front)
    · -- Twins see the same token ahead, so that all of them end their loops here.
      refine (pure state).congr ?_
      intro twin twins _
      rw [on_loop_of_no_lead (twins.ahead_eq ▸ ends)]
      rfl

end SteadyAt

/-- A path takes names and a slash. -/
theorem steady_path (expected : Expectation) : (path expected).SteadyAt false cursor := by
  -- Names and slashes frame no declaration, which evaluation shows.
  refine .take_bind (by rfl) ?_
  intro first
  refine .take?_bind (by rfl) (.pure _) ?_
  intro slash
  refine .take_bind (by rfl) ?_
  intro second
  split
  · exact .pure _
  · exact .throw _

/-- The suffix of a type takes a sign and what belongs to it. -/
theorem steady_suffix : suffix.SteadyAt true cursor := by
  -- The hash is tried first, and the colon where there is none.
  refine .take?_bind (by rfl) ?_ ?_
  · refine .take?_bind (by rfl) (.pure _) ?_
    intro colon
    exact .take_bind (by rfl) fun _ => .pure _
  · intro hash
    exact .take_bind (by rfl) fun _ => .pure _

/-- A type takes a path and its suffix, and ends with the last token of them. -/
theorem steady_typeRef : typeRef.SteadyAt false cursor := by
  refine (steady_path _).bind ?_
  intro named _
  refine steady_suffix.bind ?_
  intro found _
  exact .lastStop_bind (.pure _)

/-- Further types take bars and types. -/
theorem steady_moreTypes (types : List SubjectType) : (moreTypes types).SteadyAt true cursor := by
  -- Joining a type takes no token.
  refine SteadyAt.loop ?_ (fun _ _ => steady_typeRef) (fun _ _ _ _ => .pure _) types
  intro kind tag led
  cases kind with
  | pipe => rfl
  | _ => cases led

/-- A chain takes its operands and the operators between them. -/
theorem steady_chain {operator : TokenKind → Option Operator} {operand : Walk Expr}
    (leads : ∀ kind tag, operator kind = some tag → isInner kind = true)
    (operands : ∀ inner : Cursor, inner.depth = cursor.depth → operand.SteadyAt false inner) :
    (chain operator operand).SteadyAt false cursor := by
  refine .aheadStart_bind fun start => ?_
  refine (operands cursor rfl).bind ?_
  intro first count
  -- From here on the chain was started, and so may ask where the last token stops.
  refine SteadyAt.loop leads ?_ ?_ first
  · intro inner nesting
    exact operands inner (nesting.trans (cursor.past_depth count))
  · intro tag left right inner
    exact .lastStop_bind (.pure _)

/-- A name in an expression takes a name. -/
theorem steady_nameRef (expected : Expectation) : (nameRef expected).SteadyAt false cursor :=
  .take_bind (by rfl) fun _ => .pure _

/-- A name or an arrow takes names and the arrow sign. -/
theorem steady_nameOrArrow : nameOrArrow.SteadyAt false cursor := by
  refine (steady_nameRef _).bind ?_
  intro left _
  refine .take?_bind (by rfl) (.pure _) ?_
  intro sign
  exact (steady_nameRef _).start.bind fun _ _ => .pure _

/-- Parentheses take what is inside of them, and are no longer counted after it. -/
theorem steady_parenthesized {inner : Walk Expr} (opening : Token)
    (inside : cursor.depth < maxNesting →
      inner.SteadyAt false (cursor.withDepth (cursor.depth + 1))) :
    (parenthesized inner opening).SteadyAt true cursor := by
  -- The limit is looked at before anything inside is taken.
  refine .openParens_bind ?_
  split
  · exact .throw _
  · rename_i shallow
    refine SteadyAt.bind (.nested (inside (Nat.lt_of_not_le shallow)).start) ?_
    intro value _
    exact .take_bind (by rfl) fun _ => .pure _

/-- A factor takes a name, an arrow, a keyword, or parentheses and what is inside of them. -/
theorem steady_factorAround {inner : Walk Expr}
    (inside : cursor.depth < maxNesting → ∀ deeper : Cursor, deeper.depth = cursor.depth + 1 →
      inner.SteadyAt false deeper) :
    (factorAround inner).SteadyAt false cursor := by
  refine .take?_bind (by rfl) ?_ fun _ => .pure _
  refine .take?_bind (by rfl) steady_nameOrArrow ?_
  intro opening
  refine steady_parenthesized opening ?_
  -- The parenthesis that was taken is not counted yet.
  rw [Cursor.advance_depth]
  exact fun shallow => inside shallow _ rfl

/-- The operators that join terms frame no declaration. -/
theorem isInner_of_termOperator (kind : TokenKind) (operator : Operator)
    (led : termOperator kind = some operator) : isInner kind = true := by
  cases kind with
  | plus => rfl
  | minus => rfl
  | _ => cases led

/-- The operator that joins factors frames no declaration. -/
theorem isInner_of_factorOperator (kind : TokenKind) (operator : Operator)
    (led : factorOperator kind = some operator) : isInner kind = true := by
  cases kind with
  | ampersand => rfl
  | _ => cases led

/-- Inside parentheses there are terms, with room for all parentheses that may still be opened. -/
theorem steady_inParens {room : Nat} (roomy : maxNesting - cursor.depth < room) :
    (inParens room).SteadyAt false cursor := by
  -- Each further parenthesis is counted, and so needs one less of the room.
  induction room generalizing cursor with
  | zero => omega
  | succ room ih =>
    -- The depth is that of the whole chain at each of its operands.
    refine steady_chain isInner_of_termOperator fun inTerm termDepth => ?_
    refine steady_chain isInner_of_factorOperator fun inFactor factorDepth => ?_
    refine steady_factorAround fun shallow deeper deeperDepth => ih ?_
    omega

/-- A factor takes a name, an arrow, a keyword, or parentheses with an expression in them. -/
theorem steady_factor : factor.SteadyAt false cursor := by
  refine .openParens_bind ?_
  refine steady_factorAround fun shallow deeper deeperDepth => steady_inParens ?_
  omega

/-- A term takes factors and ampersands. -/
theorem steady_term : term.SteadyAt false cursor :=
  steady_chain isInner_of_factorOperator fun _ _ => steady_factor

/-- An expression takes terms and the operators between them. -/
theorem steady_expression : expression.SteadyAt false cursor :=
  steady_chain isInner_of_termOperator fun _ _ => steady_term

section Inner

variable {inner other : Walk Expr}

/-- A factor runs alike around walks that run alike one parenthesis deeper. -/
theorem on_factorAround_congr
    (same : cursor.depth < maxNesting → ∀ deeper : Cursor, deeper.depth = cursor.depth + 1 →
      inner.on deeper = other.on deeper) :
    (factorAround inner).on cursor = (factorAround other).on cursor := by
  -- What is inside is walked only where there is room for one more parenthesis.
  have around : ∀ opening (reached : Cursor), reached.depth = cursor.depth →
      (parenthesized inner opening).on reached = (parenthesized other opening).on reached := by
    intro opening reached nesting
    rw [parenthesized, parenthesized, on_bind, on_bind, on_openParens]
    dsimp only
    split
    · rfl
    · rename_i shallow
      have inside := same (by omega) (reached.withDepth (reached.depth + 1))
        (congrArg (· + 1) nesting)
      rw [on_bind, on_bind, on_nested, on_nested, inside]
  -- Which factor comes is told by the token ahead, in the same way on both sides.
  rw [factorAround, factorAround, on_bind, on_bind]
  by_cases isNil : nextKind cursor.ahead = some .nil
  · obtain ⟨token, rest, front, asked⟩ := nextKind_eq_some_iff.mp isNil
    rw [on_take?_of_kind front asked]
  · rw [on_take?_of_ne isNil]
    dsimp only
    rw [on_bind, on_bind]
    by_cases opens : nextKind cursor.ahead = some .leftParen
    · obtain ⟨token, rest, front, asked⟩ := nextKind_eq_some_iff.mp opens
      rw [on_take?_of_kind front asked]
      exact around token cursor.advance cursor.advance_depth
    · rw [on_take?_of_ne opens]

/-- A loop runs alike over items that run alike. -/
theorem on_loop_congr {operator : TokenKind → Option Operator} (start : Position) (left : Expr)
    (steady : ∀ reached : Cursor, reached.depth = cursor.depth → inner.SteadyAt false reached)
    (same : ∀ reached : Cursor, reached.depth = cursor.depth → inner.on reached = other.on reached) :
    (loop (leadTurn operator inner (binary start)) left).on cursor =
      (loop (leadTurn operator other (binary start)) left).on cursor := by
  -- Steadiness says where an item leaves the cursor, and so that the loop goes on behind it.
  generalize size : cursor.ahead.length = length
  induction length using Nat.strongRecOn generalizing left cursor with
  | ind length ih =>
    rcases led_or_ends operator cursor.ahead with ⟨token, rest, tag, front, leads⟩ | ends
    · have turn : (inner >>= binary start tag left).SteadyAt true cursor.advance :=
        (steady cursor.advance cursor.advance_depth).start.bind fun _ _ =>
          .lastStop_bind (.pure _)
      -- The item leaves the cursor at the same place on both sides.
      obtain ⟨result, count, comes⟩ := turn
      have ran := comes.on_twin _ (.refl _) fun _ => rfl
      have ranOther : (other >>= binary start tag left).on cursor.advance =
          some (result, cursor.advance.past count) := by
        rw [← ran, on_bind, on_bind, same _ cursor.advance_depth]
      rw [on_loop_of_lead front leads ran, on_bind, ran, on_loop_of_lead front leads ranOther,
        on_bind, ranOther]
      cases result with
      | error error => rfl
      | ok next =>
        have shorter : (cursor.advance.past count).ahead.length < length :=
          size ▸ Cursor.length_ahead_past_advance front count
        have nesting : (cursor.advance.past count).depth = cursor.depth := by
          rw [Cursor.past_depth, Cursor.advance_depth]
        exact ih _ shorter next (fun reached deep => steady reached (deep.trans nesting))
          (fun reached deep => same reached (deep.trans nesting)) rfl
    · rw [on_loop_of_no_lead ends, on_loop_of_no_lead ends]

/-- A chain runs alike over operands that run alike. -/
theorem on_chain_congr {operator : TokenKind → Option Operator}
    (steady : ∀ reached : Cursor, reached.depth = cursor.depth → inner.SteadyAt false reached)
    (same : ∀ reached : Cursor, reached.depth = cursor.depth → inner.on reached = other.on reached) :
    (chain operator inner).on cursor = (chain operator other).on cursor := by
  -- The first operand runs alike, and then the loops do.
  obtain ⟨result, count, comes⟩ := steady cursor rfl
  have ran := comes.on_twin _ (.refl cursor) (by simp)
  rw [chain, chain, on_bind, on_bind, on_aheadStart]
  dsimp only
  rw [on_bind, on_bind, ← same cursor rfl, ran]
  cases result with
  | error error => rfl
  | ok first =>
    have nesting := cursor.past_depth count
    exact on_loop_congr _ first (fun reached deep => steady reached (deep.trans nesting))
      fun reached deep => same reached (deep.trans nesting)

end Inner

/--
What stands in the parentheses of a factor is an expression.

The number of parentheses that may still be opened is enough for all of them.
-/
theorem factor_eq : factor = factorAround expression := by
  refine funext fun cursor => ?_
  show factor.on cursor = (factorAround expression).on cursor
  rw [factor, on_bind, on_openParens]
  refine on_factorAround_congr fun shallow deeper deeperDepth => ?_
  obtain ⟨room, total⟩ : ∃ room, maxNesting - cursor.depth = room + 1 :=
    Nat.exists_eq_add_one_of_ne_zero (by omega)
  -- One parenthesis deeper, what is left of the room is what a factor would ask for there.
  have left : room = maxNesting - deeper.depth := by omega
  have factors : ∀ reached : Cursor, reached.depth = deeper.depth →
      factor.on reached = (factorAround (inParens room)).on reached := by
    intro reached nesting
    rw [factor, on_bind, on_openParens, left, nesting]
  rw [total, inParens, expression, term]
  symm
  refine on_chain_congr (fun _ _ => steady_term) fun inTerm termDepth => ?_
  refine on_chain_congr (fun _ _ => steady_factor) fun inFactor factorDepth => ?_
  exact factors inFactor (factorDepth.trans termDepth)

/-- After its keyword, a relation takes a name, a colon and types. -/
theorem steady_relationAfter (keyword : Token) : (relationAfter keyword).SteadyAt true cursor := by
  refine .take_bind (by rfl) ?_
  intro name
  refine .take_bind (by rfl) ?_
  intro colon
  refine steady_typeRef.start.bind ?_
  intro first _
  -- A type and those behind it end the relation, which looks at where they stop.
  refine (steady_moreTypes [first]).bind ?_
  intro types _
  exact .lastStop_bind (.pure _)

/-- After its keyword, a permission takes a name, an equals sign and an expression. -/
theorem steady_permissionAfter (keyword : Token) :
    (permissionAfter keyword).SteadyAt true cursor := by
  refine .take_bind (by rfl) ?_
  intro name
  refine .take_bind (by rfl) ?_
  intro equals
  refine steady_expression.start.bind ?_
  intro value _
  exact .lastStop_bind (.pure _)

end Walk

end AuthSchema.Parse
