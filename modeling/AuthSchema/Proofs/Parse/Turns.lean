import AuthSchema.Proofs.Parse.Steady

/-!
What productions leave behind, and how the loops over them go on.

A production that fails leaves the cursor where the loop around it can recover. So each turn of a
loop ends the loop or takes a token, and no loop goes on forever.
-/

namespace AuthSchema.Parse

namespace Cursor

/-- The cursor after some further tokens, with nothing else changed. -/
structure Took (cursor : Cursor) (count : Nat) (reached : Cursor) : Prop where
  index_eq : reached.index = cursor.index + count
  tokens_eq : reached.tokens = cursor.tokens
  textStop_eq : reached.textStop = cursor.textStop
  options_eq : reached.options = cursor.options
  depth_eq : reached.depth = cursor.depth
  errors_eq : reached.errors = cursor.errors

/-- As long as there are tokens ahead, taking some of them changes nothing else. -/
theorem took_past {cursor : Cursor} {count : Nat} (within : count ≤ cursor.ahead.length) :
    cursor.Took count (cursor.past count) where
  index_eq := cursor.index_past within
  tokens_eq := cursor.past_tokens count
  textStop_eq := cursor.past_textStop count
  options_eq := cursor.past_options count
  depth_eq := cursor.past_depth count
  errors_eq := cursor.past_errors count

/-- A cursor that is no less far along the same text, whatever errors were recorded. -/
structure Onward (cursor reached : Cursor) : Prop where
  tokens_eq : reached.tokens = cursor.tokens
  textStop_eq : reached.textStop = cursor.textStop
  options_eq : reached.options = cursor.options
  depth_eq : reached.depth = cursor.depth
  index_le : cursor.index ≤ reached.index

namespace Onward

variable {cursor middle reached : Cursor}

/-- Every cursor is as far along as itself. -/
theorem refl (cursor : Cursor) : cursor.Onward cursor :=
  ⟨rfl, rfl, rfl, rfl, Nat.le_refl _⟩

/-- What is further on than something further on is further on. -/
theorem trans (first : cursor.Onward middle) (second : middle.Onward reached) :
    cursor.Onward reached where
  tokens_eq := second.tokens_eq.trans first.tokens_eq
  textStop_eq := second.textStop_eq.trans first.textStop_eq
  options_eq := second.options_eq.trans first.options_eq
  depth_eq := second.depth_eq.trans first.depth_eq
  index_le := Nat.le_trans first.index_le second.index_le

/-- Taking tokens moves a cursor on. -/
theorem of_took {count : Nat} (took : cursor.Took count reached) : cursor.Onward reached where
  tokens_eq := took.tokens_eq
  textStop_eq := took.textStop_eq
  options_eq := took.options_eq
  depth_eq := took.depth_eq
  index_le := by
    rw [took.index_eq]
    omega

/-- Further along, fewer tokens are ahead. -/
theorem ahead_length_lt (onward : cursor.Onward reached) (moved : cursor.index < reached.index) :
    reached.ahead.length < cursor.ahead.length := by
  -- No more tokens were taken than there are, which bounds what is left.
  have bound := reached.index_le
  rw [ahead, ahead, List.length_drop, List.length_drop]
  rw [onward.tokens_eq] at bound ⊢
  omega

/-- Recording an error does not move a cursor back. -/
theorem withError (cursor : Cursor) (error : SyntaxError) :
    cursor.Onward (cursor.withError error) :=
  ⟨rfl, rfl, rfl, rfl, Nat.le_refl _⟩

/-- Taking tokens never moves a cursor back, also where there are none left. -/
theorem past (cursor : Cursor) (count : Nat) : cursor.Onward (cursor.past count) := by
  -- Each step takes a token or stays, and neither goes back.
  induction count generalizing cursor with
  | zero => exact refl cursor
  | succ count ih =>
    refine trans ⟨cursor.advance_tokens, cursor.advance_textStop, cursor.advance_options,
      cursor.advance_depth, ?_⟩ (ih cursor.advance)
    unfold advance
    split
    · exact Nat.le_succ _
    · exact Nat.le_refl _

end Onward

end Cursor

namespace Walk

variable {α β σ : Type} {cursor : Cursor}

/--
A production that leaves a place to recover at, whether it succeeds or fails.

It takes some of the tokens ahead and changes nothing else. None of them frames a declaration, apart
from the keyword that the production starts with. All this is the same from every cursor that sees the
same, whatever stands before it.
-/
def Recoverable (keyword : Option TokenKind) (walk : Walk α) : Prop :=
  ∀ cursor : Cursor, ∃ result count,
    cursor.index + count ≤ cursor.tokens.length ∧
      (∀ place token, place < count → cursor.ahead[place]? = some token →
        token.kind.frames = true → place = 0 ∧ keyword = some token.kind) ∧
      ∀ twin, cursor.Twin twin →
        ∃ reached, walk.on twin = some (result, reached) ∧ twin.Took count reached

/-- A steady production takes no token that frames a declaration. -/
theorem recoverable_of_steady {walk : Walk α} (steady : ∀ cursor, walk.SteadyAt false cursor) :
    Recoverable none walk := by
  intro cursor
  obtain ⟨result, count, comes⟩ := steady cursor
  have within := comes.within
  refine ⟨result, count, ?_, ?_, ?_⟩
  · -- As many tokens are left as were not taken.
    have bound := cursor.index_le
    rw [Cursor.ahead, List.length_drop] at within
    omega
  · -- A token that was taken is inner, and an inner one frames nothing.
    intro place token before found frames
    have listed : token ∈ cursor.ahead.take count :=
      List.mem_of_getElem? (by rw [List.getElem?_take_of_lt before, found])
    have inner := comes.inner token listed
    simp [isInner, frames] at inner
  · -- The walk is not started, so that twins need not agree on where the last token stops.
    intro twin twins
    refine ⟨twin.past count, comes.on_twin twin twins (by simp), ?_⟩
    exact Cursor.took_past (twins.ahead_eq ▸ within)

/-- Behind its keyword, a production takes tokens that do not frame a declaration. -/
theorem on_keyword {kind : TokenKind} {after : Token → Walk α} {token : Token} {rest : List Token}
    (front : cursor.ahead = token :: rest) (asked : token.kind = kind)
    (steady : (after token).SteadyAt true cursor.advance) :
    ∃ result count, count ≤ rest.length ∧
      (∀ other ∈ rest.take count, isInner other.kind = true) ∧
      ∀ twin, cursor.Twin twin →
        (takeSign kind >>= after).on twin = some (result, twin.past (count + 1)) := by
  -- The keyword is taken by all twins, and behind it they are twins again.
  obtain ⟨result, count, comes⟩ := steady
  have within := comes.within
  have inner := comes.inner
  rw [Cursor.ahead_advance, front, List.tail_cons] at within inner
  refine ⟨result, count, within, inner, comes.on_twin_behind front ?_⟩
  intro twin twins
  rw [takeSign, on_bind, on_take_of_kind (twins.ahead_eq.trans front) asked]

/-- A production that is steady behind its keyword takes no other token that frames a declaration. -/
theorem recoverable_of_keyword {kind : TokenKind} {after : Token → Walk α}
    (steady : ∀ token cursor, (after token).SteadyAt true cursor) :
    Recoverable (some kind) (takeSign kind >>= after) := by
  intro cursor
  by_cases asked : nextKind cursor.ahead = some kind
  · obtain ⟨token, rest, front, same⟩ := nextKind_eq_some_iff.mp asked
    obtain ⟨result, count, within, inner, on_twin⟩ :=
      on_keyword front same (steady token cursor.advance)
    have lengths : cursor.ahead.length = rest.length + 1 := by rw [front, List.length_cons]
    refine ⟨result, count + 1, ?_, ?_, ?_⟩
    · have bound := cursor.index_le
      rw [Cursor.ahead, List.length_drop] at lengths
      omega
    · intro place found before listed frames
      rw [front] at listed
      cases place with
      | zero =>
        cases listed
        exact ⟨rfl, congrArg some same.symm⟩
      | succ place =>
        -- Only the keyword frames a declaration, and it comes first.
        have near : place < count := Nat.lt_of_succ_lt_succ before
        have later : found ∈ rest.take count :=
          List.mem_of_getElem? (by rw [List.getElem?_take_of_lt near]; exact listed)
        have inside := inner found later
        simp [isInner, frames] at inside
    · intro twin twins
      refine ⟨twin.past (count + 1), on_twin twin twins, Cursor.took_past ?_⟩
      rw [twins.ahead_eq]
      omega
  · -- Without the keyword nothing is taken.
    refine ⟨.error ((Fault.expected (.token kind)).report cursor.ahead cursor.textStop), 0,
      cursor.index_le, ?_, ?_⟩
    · intro place token impossible
      omega
    · intro twin twins
      refine ⟨twin, ?_, Cursor.took_past (Nat.zero_le _)⟩
      rw [takeSign, on_bind, on_take_of_ne (twins.ahead_eq ▸ asked), twins.ahead_eq,
        twins.textStop_eq]

/-- Skipping takes all tokens before the first one to stop at. -/
theorem on_skipUntil (stops : TokenKind → Bool) (cursor : Cursor) :
    (skipUntil stops).on cursor =
      some (.ok (), cursor.past (cursor.ahead.takeWhile fun token => !stops token.kind).length) := by
  -- The induction is on the tokens ahead, of which each turn but the last one takes the first.
  generalize ahead_eq : cursor.ahead = tokens
  induction tokens generalizing cursor with
  | nil =>
    have turned : (skipUntil.skipTurn stops).on cursor = some (.ok (.leave ()), cursor) := by
      rw [skipUntil.skipTurn, on_bind, on_next?, ahead_eq]
      rfl
    exact on_loop_of_leave turned
  | cons token rest ih =>
    have turned : (skipUntil.skipTurn stops).on cursor =
        if stops token.kind then some (.ok (.leave ()), cursor)
        else some (.ok (.goOn ()), cursor.advance) := by
      rw [skipUntil.skipTurn, on_bind, on_next?, ahead_eq]
      simp only [List.head?_cons]
      split <;> rfl
    -- A token to stop at ends the skipping, and any other is taken by a turn of its own.
    by_cases stop : stops token.kind = true
    · rw [if_pos stop] at turned
      rw [List.takeWhile_cons_of_neg (by simp [stop])]
      exact on_loop_of_leave turned
    · rw [if_neg stop] at turned
      have behind : cursor.advance.ahead = rest := Cursor.ahead_advance_of_cons ahead_eq
      have moved := Cursor.length_ahead_past_advance ahead_eq 0
      rw [List.takeWhile_cons_of_pos (by simp [stop]), List.length_cons, Cursor.past]
      exact (on_loop_of_goOn turned moved).trans (ih cursor.advance behind)

section Recover

variable {stops : TokenKind → Bool} {items : List α} {error : SyntaxError}

/-- A recovering walk records an error and skips the tokens up to one to stop at. -/
theorem on_keep_of_recovers (recovers : cursor.options.recover = true) :
    (keep stops items (.error error)).on cursor =
      some (.ok (.goOn items), (cursor.withError error).past
        (cursor.ahead.takeWhile fun token => !stops token.kind).length) := by
  -- The error is recorded where the production has stopped, before anything is skipped.
  have recorded : (recover error stops).on cursor =
      (skipUntil stops).on (cursor.withError error) := by
    rw [recover, on_bind, on_get]
    dsimp only
    rw [if_pos recovers, on_bind, on_modify]
  rw [keep, on_bind, recorded, on_skipUntil]
  rfl

/-- A strict walk is over at its first error. -/
theorem on_keep_of_strict (strict : cursor.options.recover = false) :
    (keep stops items (.error error)).on cursor = some (.error error, cursor) := by
  have thrown : (recover error stops).on cursor = some (.error error, cursor) := by
    rw [recover, on_bind, on_get]
    dsimp only
    rw [if_neg (by simp [strict]), on_throw]
  rw [keep, on_bind, thrown]

end Recover

/-- A walk from a cursor comes to a result, and does not move the cursor back. -/
def Returns (walk : Walk α) (cursor : Cursor) : Prop :=
  ∃ result reached, walk.on cursor = some (result, reached) ∧ cursor.Onward reached

/-- A walk that does nothing comes to its value where it stands. -/
theorem returns_pure (value : α) : (pure value : Walk α).Returns cursor :=
  ⟨_, cursor, rfl, .refl cursor⟩

/-- Two walks in a row return, where the second one does from wherever the first one gets. -/
theorem Returns.bind {walk : Walk α} {next : α → Walk β} (first : walk.Returns cursor)
    (second : ∀ value reached, cursor.Onward reached → (next value).Returns reached) :
    (walk >>= next).Returns cursor := by
  obtain ⟨result, middle, ran, onward⟩ := first
  cases result with
  | error error => exact ⟨.error error, middle, by rw [on_bind, ran], onward⟩
  | ok value =>
    obtain ⟨result, reached, ranLater, onwardLater⟩ := second value middle onward
    exact ⟨result, reached, by rw [on_bind, ran]; exact ranLater, onward.trans onwardLater⟩

/-- A production that leaves a place to recover at comes to a result. -/
theorem returns_of_recoverable {keyword : Option TokenKind} {walk : Walk α}
    (recoverable : Recoverable keyword walk) (cursor : Cursor) : walk.Returns cursor := by
  -- Every cursor is its own twin, and so the production runs on it.
  obtain ⟨result, count, _, _, on_twin⟩ := recoverable cursor
  obtain ⟨reached, ran, took⟩ := on_twin cursor (.refl cursor)
  exact ⟨result, reached, ran, .of_took took⟩

/-- Taking a token comes to a result, whether the token is there or not. -/
theorem returns_take (kind : TokenKind) (expected : Expectation) (cursor : Cursor) :
    (take kind expected).Returns cursor := by
  by_cases asked : nextKind cursor.ahead = some kind
  · obtain ⟨token, rest, front, same⟩ := nextKind_eq_some_iff.mp asked
    exact ⟨_, cursor.advance, on_take_of_kind front same, .past cursor 1⟩
  · exact ⟨_, cursor, on_take_of_ne asked, .refl cursor⟩

/-- Every turn moves the cursor on, or else it ends its loop. -/
def Progresses (turn : σ → Walk (Turn σ)) : Prop :=
  ∀ (state : σ) (cursor : Cursor), ∃ result reached, (turn state).on cursor = some (result, reached) ∧
    cursor.Onward reached ∧ ∀ next, result = .ok (.goOn next) → cursor.index < reached.index

/-- A loop takes a turn and is over with it, or else goes on from there. -/
def Unrolls (turn : σ → Walk (Turn σ)) : Prop :=
  ∀ state, loop turn state = turn state >>= fun
    | .leave last => pure last
    | .goOn next => loop turn next

/-- A loop goes on after every turn that moves on, however many there are. -/
theorem Progresses.unrolls {turn : σ → Walk (Turn σ)} (progresses : Progresses turn) :
    Unrolls turn := by
  intro state
  refine funext fun cursor => ?_
  show (loop turn state).on cursor = (turn state >>= _).on cursor
  -- The turn is taken once, and what it comes to decides whether the loop goes on.
  obtain ⟨result, reached, ran, onward, moves⟩ := progresses state cursor
  rw [on_bind, ran]
  match result, moves, ran with
  | .error error, _, ran => exact on_loop_of_error ran
  | .ok (.leave last), _, ran => exact on_loop_of_leave ran
  | .ok (.goOn next), moves, ran =>
    exact on_loop_of_goOn ran (onward.ahead_length_lt (moves next rfl))

/-- A loop whose turns move on comes to an end. -/
theorem Progresses.returns {turn : σ → Walk (Turn σ)} (progresses : Progresses turn) (state : σ)
    (cursor : Cursor) : (loop turn state).Returns cursor := by
  -- Each turn leaves fewer tokens ahead, or it is the last one.
  generalize size : cursor.ahead.length = length
  induction length using Nat.strongRecOn generalizing state cursor with
  | ind length ih =>
    obtain ⟨result, middle, ran, onward, moves⟩ := progresses state cursor
    -- What is left after the turn is a shorter loop, or no loop at all.
    rw [Returns, progresses.unrolls, on_bind, ran]
    match result, moves with
    | .error error, _ => exact ⟨_, middle, rfl, onward⟩
    | .ok (.leave last), _ => exact ⟨_, middle, rfl, onward⟩
    | .ok (.goOn next), moves =>
      have shorter := onward.ahead_length_lt (moves next rfl)
      obtain ⟨result, reached, ranLater, onwardLater⟩ := ih _ (size ▸ shorter) next middle rfl
      exact ⟨result, reached, ranLater, onward.trans onwardLater⟩

/--
What keeps the result of a production moves on, where the production did.

One that has failed without taking a token may also stand at one that is skipped.
-/
theorem onward_keep {start : Cursor} {stops : TokenKind → Bool} (items : List α)
    (result : Except SyntaxError α) (onward : start.Onward cursor)
    (moves : start.index < cursor.index ∨ ∃ error token rest, result = .error error ∧
      cursor.ahead = token :: rest ∧ stops token.kind = false) :
    ∃ turn reached, (keep stops items result).on cursor = some (turn, reached) ∧
      start.Onward reached ∧ ∀ next, turn = .ok (.goOn next) → start.index < reached.index := by
  cases result with
  | ok value =>
    -- A production that has succeeded has moved by itself.
    refine ⟨_, cursor, rfl, onward, ?_⟩
    intro next _
    rcases moves with moved | ⟨_, _, _, impossible, _⟩
    · exact moved
    · cases impossible
  | error error =>
    cases recovers : cursor.options.recover with
    | false =>
      -- The error ends the loop.
      refine ⟨_, cursor, on_keep_of_strict recovers, onward, ?_⟩
      intro next impossible
      cases impossible
    | true =>
      have within : (cursor.ahead.takeWhile fun token => !stops token.kind).length ≤
          (cursor.withError error).ahead.length :=
        (List.takeWhile_sublist _).length_le
      have took := Cursor.took_past within
      refine ⟨_, _, on_keep_of_recovers recovers,
        (onward.trans (.withError cursor error)).trans (.of_took took), ?_⟩
      intro next _
      have same : (cursor.withError error).index = cursor.index := rfl
      rw [took.index_eq, same]
      rcases moves with moved | ⟨_, token, rest, _, front, passed⟩
      · omega
      · -- The token ahead is skipped at least.
        have back := onward.index_le
        rw [front, List.takeWhile_cons_of_pos (by simp [passed]), List.length_cons]
        omega

section BodyTurn

variable {token : Token} {rest : List Token}

/-- Ending a body that is not closed is an error, which ends the loop or a strict walk. -/
theorem on_endUnclosed (members : List Member) (cursor : Cursor) :
    (endUnclosed members).on cursor =
      let error := (Fault.expected (.token .rightBrace)).report cursor.ahead cursor.textStop
      if cursor.options.recover then some (.ok (.leave members), cursor.withError error)
      else some (.error error, cursor) := by
  show (if cursor.options.recover then _ else _ : Walk (Turn (List Member))).on cursor = _
  dsimp only
  split <;> rfl

/-- Without room for another error, a turn ends the loop with the members that were found. -/
theorem on_bodyTurn_of_full (members : List Member) (full : cursor.isFull = true) :
    (bodyTurn members).on cursor = some (.ok (.leave members), cursor) := by
  rw [bodyTurn, on_bind, on_get]
  dsimp only
  rw [if_pos full]
  rfl

/-- While there is room for an error, the token ahead decides what a turn does. -/
theorem on_bodyTurn_of_roomy (members : List Member) (roomy : cursor.isFull = false) :
    (bodyTurn members).on cursor =
      match cursor.ahead with
      | [] => (endUnclosed members).on cursor
      | token :: _ =>
        if token.kind = .rightBrace then some (.ok (.leave members), cursor.advance)
        else if token.kind = .definition then (endUnclosed members).on cursor
        else (attempt (member token.kind) >>= keep endsMember members).on cursor := by
  rw [bodyTurn, on_bind, on_get]
  dsimp only
  rw [if_neg (by simp [roomy]), on_bind, on_next?]
  -- The token ahead is looked at once, and the same cases follow on both sides.
  cases cursor.ahead with
  | nil => rfl
  | cons token rest =>
    simp only [List.head?_cons]
    split
    · rfl
    · split <;> rfl

/-- A member takes its keyword at least, or else it fails at a token inside a member. -/
theorem onward_member (front : cursor.ahead = token :: rest) (open_ : token.kind ≠ .rightBrace)
    (inside : token.kind ≠ .definition) :
    ∃ result reached, (member token.kind).on cursor = some (result, reached) ∧
      cursor.Onward reached ∧ (cursor.index < reached.index ∨
        ∃ error first later, result = .error error ∧ reached.ahead = first :: later ∧
          endsMember first.kind = false) := by
  -- Whatever comes of a member behind its keyword, the keyword was taken.
  have moved : ∀ {kind : TokenKind} {β : Type} {after : Token → Walk β} (change : β → Member),
      token.kind = kind → (after token).SteadyAt true cursor.advance →
        ∃ result reached, (change <$> (takeSign kind >>= after)).on cursor = some (result, reached) ∧
          cursor.Onward reached ∧ cursor.index < reached.index := by
    intro kind β after change asked steady
    obtain ⟨result, count, within, _, on_twin⟩ := on_keyword front asked steady
    have took : cursor.Took (count + 1) (cursor.past (count + 1)) :=
      Cursor.took_past (by rw [front, List.length_cons]; omega)
    refine ⟨_, _, by rw [on_map, on_twin cursor (.refl cursor)]; rfl, .of_took took, ?_⟩
    rw [took.index_eq]
    omega
  unfold member
  split
  · -- A relation has taken its keyword.
    rename_i isKeyword
    obtain ⟨result, reached, ran, onward, less⟩ :=
      moved Member.relation isKeyword (steady_relationAfter token)
    exact ⟨result, reached, ran, onward, .inl less⟩
  · -- A permission has taken its keyword.
    rename_i isKeyword
    obtain ⟨result, reached, ran, onward, less⟩ :=
      moved Member.permission isKeyword (steady_permissionAfter token)
    exact ⟨result, reached, ran, onward, .inl less⟩
  · rename_i noRelation noPermission
    refine ⟨_, cursor, rfl, .refl cursor, .inr ⟨_, token, rest, rfl, front, ?_⟩⟩
    -- Of the tokens that end a member, two start the next one and the other two end the body.
    simp_all [endsMember, TokenKind.opensDeclaration]

/-- A turn of the loop over the members of a body ends the loop, or else it takes a token. -/
theorem progresses_bodyTurn : Progresses bodyTurn := by
  intro members cursor
  -- An unclosed body ends the loop, also where the walk recovers.
  have ends : ∃ result reached, (endUnclosed members).on cursor = some (result, reached) ∧
      cursor.Onward reached ∧ ∀ next, result = .ok (.goOn next) → cursor.index < reached.index := by
    rw [on_endUnclosed]
    dsimp only
    split
    · exact ⟨_, _, rfl, .withError cursor _, by simp⟩
    · exact ⟨_, _, rfl, .refl cursor, by simp⟩
  cases full : cursor.isFull with
  | true => exact ⟨_, cursor, on_bodyTurn_of_full members full, .refl cursor, by simp⟩
  | false =>
    rw [on_bodyTurn_of_roomy members full]
    cases front : cursor.ahead with
    | nil => exact ends
    | cons token rest =>
      dsimp only
      split
      · exact ⟨_, _, rfl, .past cursor 1, by simp⟩
      · rename_i open_
        split
        · exact ends
        · rename_i inside
          obtain ⟨result, middle, ran, onward, moves⟩ := onward_member front open_ inside
          rw [on_bind, on_attempt, ran]
          exact onward_keep members result onward moves

end BodyTurn

section DocumentTurn

variable {token : Token} {rest : List Token}

/-- A definition takes its keyword, and comes to an end behind it. -/
theorem onward_definition (front : cursor.ahead = token :: rest) (opens : token.kind = .definition) :
    ∃ result reached, definition.on cursor = some (result, reached) ∧ cursor.Onward reached ∧
      cursor.index < reached.index := by
  -- Behind the keyword it is enough not to go back, and the loop over the body comes to an end.
  have behind : (headerAfter token >>= definitionAfter).Returns cursor.advance := by
    refine Returns.bind ?_ fun header reached _ => ?_
    · refine (returns_of_recoverable (recoverable_of_steady fun _ => steady_path _) _).bind ?_
      intro named reached _
      refine (returns_take _ _ reached).bind ?_
      intro brace reached _
      exact returns_pure _
    · refine (progresses_bodyTurn.returns [] reached).bind ?_
      intro members reached _
      exact ⟨_, reached, rfl, .refl reached⟩
  -- The keyword alone is one token more, whatever comes of the rest.
  obtain ⟨result, reached, ran, onward⟩ := behind
  have took : cursor.Took 1 cursor.advance := Cursor.took_past (by simp [front])
  refine ⟨result, reached, ?_, (Cursor.Onward.of_took took).trans onward, ?_⟩
  · rw [definition, header, bind_assoc, takeSign, on_bind, on_take_of_kind front opens]
    exact ran
  · have later := onward.index_le
    rw [took.index_eq] at later
    omega

/-- Without room for another error, a turn ends the loop with the definitions that were found. -/
theorem on_documentTurn_of_full (definitions : List Definition) (full : cursor.isFull = true) :
    (documentTurn definitions).on cursor = some (.ok (.leave definitions), cursor) := by
  rw [documentTurn, on_bind, on_get]
  dsimp only
  rw [if_pos full]
  rfl

/-- While there is room for an error, the token ahead decides what a turn does. -/
theorem on_documentTurn_of_roomy (definitions : List Definition) (roomy : cursor.isFull = false) :
    (documentTurn definitions).on cursor =
      match cursor.ahead with
      | [] => some (.ok (.leave definitions), cursor)
      | token :: _ =>
        if token.kind = .definition then
          (attempt definition >>= keep (· = .definition) definitions).on cursor
        else
          (keep (· = .definition) definitions (.error
            ((Fault.expected (.token .definition)).report cursor.ahead cursor.textStop))).on
              cursor := by
  rw [documentTurn, on_bind, on_get]
  dsimp only
  rw [if_neg (by simp [roomy]), on_bind, on_next?]
  -- The token ahead is looked at once, and the same cases follow on both sides.
  cases front : cursor.ahead with
  | nil => rfl
  | cons token rest =>
    simp only [List.head?_cons]
    split
    · rfl
    · rw [← front]
      rfl

/-- A turn of the loop over the definitions of a document ends the loop, or else it takes a token. -/
theorem progresses_documentTurn : Progresses documentTurn := by
  intro definitions cursor
  cases full : cursor.isFull with
  | true => exact ⟨_, cursor, on_documentTurn_of_full definitions full, .refl cursor, by simp⟩
  | false =>
    rw [on_documentTurn_of_roomy definitions full]
    cases front : cursor.ahead with
    | nil => exact ⟨_, cursor, rfl, .refl cursor, by simp⟩
    | cons token rest =>
      dsimp only
      split
      · -- A definition has taken its keyword.
        rename_i opens
        obtain ⟨result, middle, ran, onward, moved⟩ := onward_definition front opens
        rw [on_bind, on_attempt, ran]
        exact onward_keep definitions result onward (.inl moved)
      · -- Nothing was taken yet, but the token ahead is not one to stop at.
        rename_i other
        exact onward_keep definitions _ (.refl cursor)
          (.inr ⟨_, token, rest, rfl, front, decide_eq_false other⟩)

end DocumentTurn

end Walk

end AuthSchema.Parse
