import AuthSchema.Proofs.Parse.Agreement
import AuthSchema.Proofs.Parse.Follow
import AuthSchema.Proofs.Parse.Recovery
import AuthSchema.Proofs.Parse.Turns

/-!
One walk along the tokens of a text comes to the report that reading the text gives.

A walk records errors in its cursor and stops there where it is strict. Reading hands them on with the
room that is left for further ones.
-/

namespace AuthSchema.Parse

/-- Skipping in a faulty member takes the tokens before the next one that ends it. -/
theorem skipMember_eq_takeWhile (stop : Position) (tokens : List Token) :
    skipMember stop tokens =
      (lastStop stop (tokens.takeWhile fun token => !endsMember token.kind),
        tokens.dropWhile fun token => !endsMember token.kind) := by
  -- The stop is general, since each skipped token changes it.
  induction tokens generalizing stop with
  | nil => rfl
  | cons token ahead ih =>
    rw [skipMember]
    split
    · rename_i ends
      simp [ends, lastStop]
    · rename_i inside
      rw [ih, List.takeWhile_cons_of_pos (by simpa using inside), lastStop_cons,
        List.dropWhile_cons_of_pos (by simpa using inside)]

/--
What a production that failed has left of some tokens, of which it passed none to stop at.

It has taken the first one, or else it stands at it and can skip it.
-/
def Passed (stops : TokenKind → Bool) (first : Token) (ahead rest : List Token) : Prop :=
  (rest = first :: ahead ∧ stops first.kind = false) ∨
    ∃ inside, ahead = inside ++ rest ∧ ∀ token ∈ inside, stops token.kind = false

/-- A faulty member has passed no token that ends it. -/
theorem passed_of_member {first : Token} {ahead rest : List Token} {fault : Fault}
    (open_ : first.kind ≠ .rightBrace) (outside : first.kind ≠ .definition)
    (failed : member first ahead = .failed fault rest) : Passed endsMember first ahead rest := by
  -- Which production failed is told by the keyword, and without one nothing was taken.
  have left : (member first ahead).rest = rest := by rw [failed, Outcome.rest_failed]
  unfold member at left
  split at left
  · obtain ⟨inside, split, inner⟩ := takes_relation first ahead
    rw [Outcome.rest_map] at left
    exact .inr ⟨inside, left ▸ split, fun token listed => endsMember_of_inner (inner token listed)⟩
  · obtain ⟨inside, split, inner⟩ := takes_permission first ahead
    rw [Outcome.rest_map] at left
    exact .inr ⟨inside, left ▸ split, fun token listed => endsMember_of_inner (inner token listed)⟩
  · -- Of the tokens that end a member, two would start it and the other two are excluded.
    refine .inl ⟨left.symm, ?_⟩
    simp_all [endsMember, TokenKind.opensDeclaration]

/-- A header that is read starts with its keyword. -/
theorem opens_of_header {first : Token} {ahead rest : List Token} {found : Header}
    (read : headerAt first ahead = .done found rest) : first.kind = .definition := by
  by_contra other
  rw [headerAt, if_neg other] at read
  cases read

/-- A faulty header has passed no further definition. -/
theorem passed_of_header {first : Token} {ahead rest : List Token} {fault : Fault}
    (failed : headerAt first ahead = .failed fault rest) :
    Passed (· = .definition) first ahead rest := by
  -- Only behind its keyword is a header begun, and it takes no other one.
  have left : (headerAt first ahead).rest = rest := by rw [failed, Outcome.rest_failed]
  unfold headerAt at left
  split at left
  · obtain ⟨inside, split, others⟩ := takes_header first ahead
    refine .inr ⟨inside, left ▸ split, ?_⟩
    intro token listed
    simpa using others token listed
  · rename_i other
    exact .inl ⟨left.symm, decide_eq_false other⟩

namespace Cursor

/-- The number of errors that may still be recorded. -/
def room (cursor : Cursor) : Nat :=
  cursor.options.room - cursor.errors.length

/-- A cursor between declarations: no parenthesis is open, and a strict walk has met no error. -/
structure Ready (cursor : Cursor) : Prop where
  outside : cursor.depth = 0
  ordered : Ordered cursor.ahead
  faultless : cursor.options.recover = false → cursor.errors = []

variable {cursor reached : Cursor}

/-- A walk is over exactly when there is no room for another error. -/
theorem Ready.isFull_eq (ready : cursor.Ready) : cursor.isFull = decide (cursor.room = 0) := by
  -- A strict walk has room for one error, and has met none.
  unfold isFull room Options.room
  cases recovers : cursor.options.recover with
  | false => simp [ready.faultless recovers]
  | true => simp [Nat.sub_eq_zero_iff_le]

/-- With room for another error, a walk goes on. -/
theorem Ready.not_isFull (ready : cursor.Ready) {left : Nat} (spare : cursor.room = left + 1) :
    cursor.isFull = false := by
  rw [ready.isFull_eq, spare]
  rfl

/-- What is ahead later on is what is left of the tokens ahead now. -/
theorem Onward.ahead_eq (onward : cursor.Onward reached) :
    reached.ahead = cursor.ahead.drop (reached.index - cursor.index) := by
  have further := onward.index_le
  rw [ahead, ahead, onward.tokens_eq, List.drop_drop]
  congr 1
  omega

/-- A cursor further on is between declarations as well, where a strict walk met no error. -/
theorem Ready.onward (ready : cursor.Ready) (onward : cursor.Onward reached)
    (faultless : cursor.options.recover = false → reached.errors = cursor.errors) :
    reached.Ready where
  outside := onward.depth_eq.trans ready.outside
  ordered := by
    -- The tokens that are left are a part of those that were ahead.
    rw [onward.ahead_eq]
    exact ready.ordered.sublist (List.drop_sublist _ _)
  faultless := by
    rw [onward.options_eq]
    intro strict
    rw [faultless strict, ready.faultless strict]

/-- Recorded errors take up room. -/
theorem Onward.room_eq (onward : cursor.Onward reached) {errors : List SyntaxError}
    (recorded : reached.errors = cursor.errors ++ errors) :
    reached.room = cursor.room - errors.length := by
  rw [room, room, recorded, onward.options_eq, List.length_append, Nat.sub_add_eq]

end Cursor

namespace Walk

variable {α : Type} {cursor next : Cursor}

/-- After a failed production, a recovering walk goes on at the next token to stop at. -/
theorem on_keep_of_passed {stops : TokenKind → Bool} {token : Token} {rest : List Token}
    {count : Nat} (items : List α) (error : SyntaxError) (front : cursor.ahead = token :: rest)
    (passed : Passed stops token rest (cursor.past count).ahead)
    (recovers : cursor.options.recover = true) :
    ∃ next, (keep stops items (.error error)).on (cursor.past count) =
        some (.ok (.goOn items), next) ∧
      cursor.Onward next ∧ next.errors = cursor.errors ++ [error] ∧
      next.ahead = (rest.dropWhile fun token => !stops token.kind) ∧
      next.stop =
        AuthSchema.lastStop token.range.stop (rest.takeWhile fun token => !stops token.kind) := by
  have recoversLater : (cursor.past count).options.recover = true := by
    rw [Cursor.past_options, recovers]
  -- What is skipped starts where the production has stopped, which is before any token to stop at.
  have skipped : (cursor.past count).ahead =
      ((cursor.past count).ahead.takeWhile fun token => !stops token.kind) ++
        (cursor.past count).ahead.dropWhile fun token => !stops token.kind :=
    List.takeWhile_append_dropWhile.symm
  refine ⟨_, on_keep_of_recovers recoversLater, ?_, ?_, ?_, ?_⟩
  · exact ((Cursor.Onward.past cursor count).trans (.withError _ error)).trans (.past _ _)
  · rw [Cursor.past_errors]
    exact congrArg (· ++ [error]) (cursor.past_errors count)
  · -- What the production has passed would have been skipped as well.
    have drops : ((cursor.past count).withError error).ahead = _ := skipped
    rw [Cursor.ahead_past, drops, List.drop_left]
    rcases passed with ⟨stuck, inside⟩ | ⟨inside, split, inner⟩
    · rw [stuck, List.dropWhile_cons_of_pos (by simp [inside])]
    · rw [split, List.dropWhile_append_of_pos (by simpa using inner)]
  · -- The last token before the place to go on at is the same, however it was passed.
    have takes : ((cursor.past count).withError error).ahead = _ := skipped
    rw [Cursor.stop_past, takes, List.take_left]
    show AuthSchema.lastStop (cursor.past count).stop _ = _
    rcases passed with ⟨stuck, inside⟩ | ⟨inside, split, inner⟩
    · rw [stuck, List.takeWhile_cons_of_pos (by simp [inside]), lastStop_cons]
    · have whole : cursor.ahead = (token :: inside) ++ (cursor.past count).ahead := by
        rw [front, List.cons_append, ← split]
      have used := Cursor.eq_take_of_split whole
      rw [split, List.takeWhile_append_of_pos (by simpa using inner), lastStop_append,
        Cursor.stop_past, ← used, lastStop_cons]

/--
A walk gives a value and has recorded some errors then.

A strict walk records none, and gives up with the first one.
-/
def Records (walk : Walk α) (cursor : Cursor) (errors : List SyntaxError) (value : α)
    (Ends : Cursor → Prop) : Prop :=
  (∃ reached, walk.on cursor = some (.ok value, reached) ∧ cursor.Onward reached ∧
      reached.errors = cursor.errors ++ errors ∧ (cursor.options.recover = false → errors = []) ∧
        Ends reached) ∨
    (cursor.options.recover = false ∧
      ∃ error later reached, errors = error :: later ∧
        walk.on cursor = some (.error error, reached) ∧ cursor.Onward reached)

namespace Records

variable {turn : List α → Walk (Turn (List α))} {items more value : List α}
  {new errors : List SyntaxError} {Ends : Cursor → Prop}

/-- A turn that ends the loop leaves the items that were found. -/
theorem leave (ran : (turn items).on cursor = some (.ok (.leave items), next))
    (onward : cursor.Onward next) (recorded : next.errors = cursor.errors ++ new)
    (strict : cursor.options.recover = false → new = []) (ends : Ends next) :
    (loop turn items).Records cursor new (items ++ []) Ends := by
  refine .inl ⟨next, ?_, onward, recorded, strict, ends⟩
  rw [on_loop_of_leave ran, List.append_nil]

/-- The errors of a turn come before those of the turns after it. -/
theorem goOn (unrolls : Unrolls turn)
    (ran : (turn items).on cursor = some (.ok (.goOn more), next)) (onward : cursor.Onward next)
    (recorded : next.errors = cursor.errors ++ new)
    (strict : cursor.options.recover = false → new = [])
    (later : (loop turn more).Records next errors value Ends) :
    (loop turn items).Records cursor (new ++ errors) value Ends := by
  -- The loop goes on from where the turn has left the cursor.
  have same : (loop turn items).on cursor = (loop turn more).on next := by
    rw [unrolls, on_bind, ran]
  rw [Records, onward.options_eq] at later
  rcases later with ⟨reached, ranLater, further, recordedLater, noErrors, ends⟩ |
    ⟨gives, error, others, reached, rfl, ranLater, further⟩
  · refine .inl ⟨reached, same.trans ranLater, onward.trans further, ?_, ?_, ends⟩
    · rw [recordedLater, recorded, List.append_assoc]
    · intro gives
      rw [strict gives, noErrors gives, List.nil_append]
  · refine .inr ⟨gives, error, others, reached, ?_, same.trans ranLater, onward.trans further⟩
    rw [strict gives, List.nil_append]

/-- A strict walk gives up with its first error. -/
theorem stop {error : SyntaxError} (ran : (turn items).on cursor = some (.error error, next))
    (onward : cursor.Onward next) (strict : cursor.options.recover = false) :
    (loop turn items).Records cursor (error :: errors) value Ends :=
  .inr ⟨strict, error, errors, next, rfl, on_loop_of_error ran, onward⟩

/-- After a failed production, a strict walk gives up and a recovering one goes on. -/
theorem fault {stops : TokenKind → Bool} {token : Token} {rest : List Token} {count : Nat}
    {error : SyntaxError} (unrolls : Unrolls turn) (front : cursor.ahead = token :: rest)
    (ran : (turn items).on cursor = (keep stops items (.error error)).on (cursor.past count))
    (passed : Passed stops token rest (cursor.past count).ahead)
    (later : ∀ next, cursor.options.recover = true → cursor.Onward next →
      next.errors = cursor.errors ++ [error] →
      next.ahead = (rest.dropWhile fun token => !stops token.kind) →
      next.stop =
        AuthSchema.lastStop token.range.stop (rest.takeWhile fun token => !stops token.kind) →
      (loop turn items).Records next errors value Ends) :
    (loop turn items).Records cursor (error :: errors) value Ends := by
  -- The options decide, which taking tokens does not change.
  cases recovers : cursor.options.recover with
  | false =>
    rw [on_keep_of_strict (by rw [Cursor.past_options, recovers])] at ran
    exact stop ran (.past cursor count) recovers
  | true =>
    obtain ⟨next, ranKeep, onward, recorded, ahead_eq, stop_eq⟩ :=
      on_keep_of_passed items error front passed recovers
    exact goOn unrolls (ran.trans ranKeep) onward recorded (by simp [recovers])
      (later next recovers onward recorded ahead_eq stop_eq)

end Records

/-- An unclosed body is an error, and keeps its members where the walk recovers. -/
theorem records_of_endUnclosed {members : List Member} {Ends : Cursor → Prop}
    (ran : (bodyTurn members).on cursor = (endUnclosed members).on cursor)
    (ends : ∀ error, Ends (cursor.withError error)) :
    (loop bodyTurn members).Records cursor
      [Parse.body.unclosed.report cursor.ahead cursor.textStop] (members ++ []) Ends := by
  rw [on_endUnclosed] at ran
  -- The options decide whether the error is recorded or ends the walk.
  cases recovers : cursor.options.recover with
  | true =>
    rw [recovers] at ran
    exact .leave ran (.withError cursor _) rfl (by simp [recovers]) (ends _)
  | false =>
    rw [recovers] at ran
    exact .stop ran (.refl cursor) recovers

/-- A walk over a body finds its members and records its errors. -/
theorem records_body {textStop stop : Position} {room : Nat} {tokens : List Token} :
    ∀ (members : List Member) (cursor : Cursor), cursor.Ready → cursor.textStop = textStop →
      cursor.room = room → cursor.stop = stop → cursor.ahead = tokens →
        (loop bodyTurn members).Records cursor (Parse.body textStop room stop tokens).errors
          (members ++ (Parse.body textStop room stop tokens).members)
          fun reached => reached.ahead = (Parse.body textStop room stop tokens).rest ∧
            reached.stop = (Parse.body textStop room stop tokens).stop := by
  -- The induction follows the body, with the cursor and the members found so far kept general.
  fun_induction Parse.body textStop room stop tokens with
  | case1 stop tokens =>
    -- There is no room for another error.
    rintro members cursor ready rfl full rfl rfl
    have spent : cursor.isFull = true := by rw [ready.isFull_eq]; exact decide_eq_true full
    exact .leave (on_bodyTurn_of_full members spent) (.refl cursor) (List.append_nil _).symm
      (fun _ => rfl) ⟨rfl, rfl⟩
  | case2 stop room =>
    -- The text ends inside the body.
    rintro members cursor ready rfl spare rfl front
    have roomy := ready.not_isFull spare
    rw [← front]
    exact records_of_endUnclosed (by rw [on_bodyTurn_of_roomy members roomy, front]) fun _ => ⟨rfl, rfl⟩
  | case3 stop room token ahead closes =>
    -- The closing brace is taken and ends the body.
    rintro members cursor ready rfl spare rfl front
    have roomy := ready.not_isFull spare
    have ran : (bodyTurn members).on cursor = some (.ok (.leave members), cursor.advance) := by
      rw [on_bodyTurn_of_roomy members roomy, front]
      simp [closes]
    refine .leave ran (.past cursor 1) ?_ (fun _ => rfl) ⟨?_, ?_⟩
    · rw [Cursor.advance_errors]
      exact (List.append_nil _).symm
    · rw [Cursor.ahead_advance, front]
      rfl
    · exact (Cursor.advance_of_ahead front).2
  | case4 stop room token ahead open_ opens =>
    -- The next definition starts inside the body, and its keyword is left to it.
    rintro members cursor ready rfl spare rfl front
    have roomy := ready.not_isFull spare
    rw [← front]
    refine records_of_endUnclosed ?_ fun _ => ⟨rfl, rfl⟩
    rw [on_bodyTurn_of_roomy members roomy, front]
    simp [opens]
  | case5 stop room token ahead open_ outside value rest read ih =>
    -- A member was read, and the loop goes on where it stops.
    rintro members cursor ready rfl spare rfl front
    have roomy := ready.not_isFull spare
    obtain ⟨count, left, ranMember⟩ := follows_member front ready.outside ready.ordered
    rw [read] at left ranMember
    have left : (cursor.past count).ahead = rest := left
    subst left
    have ran : (bodyTurn members).on cursor =
        some (.ok (.goOn (members ++ [value])), cursor.past count) := by
      rw [on_bodyTurn_of_roomy members roomy, front]
      simp only [open_, outside, if_false, on_bind, on_attempt, ranMember]
      rfl
    have kept : (cursor.past count).errors = cursor.errors ++ [] := by
      rw [Cursor.past_errors, List.append_nil]
    have onward : cursor.Onward (cursor.past count) := .past cursor count
    have later := ih (members ++ [value]) (cursor.past count)
      (ready.onward onward fun _ => cursor.past_errors count) (cursor.past_textStop count)
      ((onward.room_eq kept).trans spare) (stop_of_member front ready.ordered read) rfl
    rw [List.append_assoc] at later
    exact Records.goOn progresses_bodyTurn.unrolls ran onward kept (fun _ => rfl) later
  | case6 stop room token ahead open_ outside fault rest failed skipped ih =>
    -- A faulty member is an error, behind which a recovering walk skips to the end of it.
    rintro members cursor ready rfl spare rfl front
    have roomy := ready.not_isFull spare
    obtain ⟨count, left, ranMember⟩ := follows_member front ready.outside ready.ordered
    rw [failed] at left ranMember
    have left : (cursor.past count).ahead = rest := left
    subst left
    have ran : (bodyTurn members).on cursor =
        (keep endsMember members
          (.error (fault.report (cursor.past count).ahead cursor.textStop))).on
            (cursor.past count) := by
      rw [on_bodyTurn_of_roomy members roomy, front]
      simp only [open_, outside, if_false, on_bind, on_attempt, ranMember]
      rfl
    refine Records.fault progresses_bodyTurn.unrolls front ran
      (passed_of_member open_ outside failed) ?_
    intro next recovers onward recorded ahead_eq stop_eq
    have skipped_eq := skipMember_eq_takeWhile token.range.stop ahead
    exact ih members next (ready.onward onward (by simp [recovers])) onward.textStop_eq
      ((onward.room_eq recorded).trans (by rw [spare]; rfl))
      (stop_eq.trans (congrArg Prod.fst skipped_eq).symm)
      (ahead_eq.trans (congrArg Prod.snd skipped_eq).symm)

/-- A walk over a definition finds what its header and its body make, and records its errors. -/
theorem records_definition {token : Token} {ahead rest : List Token} {found : Header}
    (ready : cursor.Ready) (front : cursor.ahead = token :: ahead)
    (read : headerAt token ahead = .done found rest) :
    definition.Records cursor
      (Parse.body cursor.textStop cursor.room found.range.stop rest).errors
      (found.define (Parse.body cursor.textStop cursor.room found.range.stop rest))
      fun reached =>
        reached.ahead = (Parse.body cursor.textStop cursor.room found.range.stop rest).rest := by
  -- The header is walked first, and the loop over the members starts behind it.
  obtain ⟨count, left, ranHeader⟩ := follows_header front (opens_of_header read)
  rw [read] at left ranHeader
  have left : (cursor.past count).ahead = rest := left
  subst left
  have onward : cursor.Onward (cursor.past count) := .past cursor count
  have kept : (cursor.past count).errors = cursor.errors := cursor.past_errors count
  have spare : (cursor.past count).room = cursor.room :=
    onward.room_eq (kept.trans (List.append_nil _).symm)
  have inside := records_body [] (cursor.past count) (ready.onward onward fun _ => kept)
    onward.textStop_eq spare (stop_of_header front read) rfl
  have same : definition.on cursor = (definitionAfter found).on (cursor.past count) := by
    rw [definition, on_bind, ranHeader]
    rfl
  rw [Records, onward.options_eq, kept] at inside
  rcases inside with ⟨reached, ran, further, recorded, noErrors, ahead_eq, stop_eq⟩ |
    ⟨strict, error, later, reached, errors_eq, ran, further⟩
  · -- The members are sorted out by kind in the same way on both sides.
    refine .inl ⟨reached, ?_, onward.trans further, recorded, noErrors, ahead_eq⟩
    rw [same, definitionAfter, on_bind, ran, Header.define, ← stop_eq]
    rfl
  · refine .inr ⟨strict, error, later, reached, errors_eq, ?_, onward.trans further⟩
    rw [same, definitionAfter, on_bind, ran]

/-- A turn at a faulty header recovers from where the header has stopped. -/
theorem on_documentTurn_of_fault {token : Token} {ahead rest : List Token} {fault : Fault}
    (definitions : List Definition) (roomy : cursor.isFull = false) (front : cursor.ahead = token :: ahead)
    (failed : headerAt token ahead = .failed fault rest) :
    ∃ count, (cursor.past count).ahead = rest ∧ (documentTurn definitions).on cursor =
      (keep (· = .definition) definitions (.error (fault.report rest cursor.textStop))).on
        (cursor.past count) := by
  rw [on_documentTurn_of_roomy definitions roomy, front]
  dsimp only
  -- With the keyword ahead, the turn has walked as far into the header as reading has.
  by_cases opens : token.kind = .definition
  · obtain ⟨count, left, ran⟩ := follows_header front opens
    rw [failed] at left ran
    refine ⟨count, left, ?_⟩
    rw [if_pos opens, on_bind, on_attempt, definition, on_bind, ran]
    rfl
  · -- Without the keyword the turn fails where it stands.
    rw [headerAt, if_neg opens] at failed
    cases failed
    exact ⟨0, front, if_neg opens⟩

/-- A walk over a document finds its definitions and records its errors. -/
theorem records_document {textStop : Position} {room : Nat} {tokens : List Token} :
    ∀ (definitions : List Definition) (cursor : Cursor), cursor.Ready →
      cursor.textStop = textStop → cursor.room = room → cursor.ahead = tokens →
        (loop documentTurn definitions).Records cursor (Parse.document textStop room tokens).errors
          (definitions ++ (Parse.document textStop room tokens).definitions) fun _ => True := by
  -- The induction follows the document, with the cursor and the definitions found kept general.
  fun_induction Parse.document textStop room tokens with
  | case1 tokens =>
    -- There is no room for another error.
    rintro definitions cursor ready rfl full rfl
    have spent : cursor.isFull = true := by rw [ready.isFull_eq]; exact decide_eq_true full
    exact .leave (on_documentTurn_of_full definitions spent) (.refl cursor)
      (List.append_nil _).symm (fun _ => rfl) trivial
  | case2 room =>
    -- The text ends between definitions, as it should.
    rintro definitions cursor ready rfl spare front
    have roomy := ready.not_isFull spare
    have ran : (documentTurn definitions).on cursor = some (.ok (.leave definitions), cursor) := by
      rw [on_documentTurn_of_roomy definitions roomy, front]
    exact .leave ran (.refl cursor) (List.append_nil _).symm (fun _ => rfl) trivial
  | case3 room token ahead found rest read inner later ih =>
    -- Behind a header there is a body, which may have errors of its own.
    rintro definitions cursor ready rfl spare front
    have roomy := ready.not_isFull spare
    have turned : (documentTurn definitions).on cursor =
        (attempt definition >>= keep (· = .definition) definitions).on cursor := by
      rw [on_documentTurn_of_roomy definitions roomy, front]
      exact if_pos (opens_of_header read)
    have inside := records_definition ready front read
    rw [spare] at inside
    rcases inside with ⟨next, ran, onward, recorded, noErrors, ahead_eq⟩ |
      ⟨strict, error, others, next, errors_eq, ran, onward⟩
    · have ranTurn : (documentTurn definitions).on cursor =
          some (.ok (.goOn (definitions ++ [found.define inner])), next) := by
        rw [turned, on_bind, on_attempt, ran]
        rfl
      have later := ih (definitions ++ [found.define inner]) next
        (ready.onward onward fun strict => by rw [recorded, noErrors strict, List.append_nil])
        onward.textStop_eq (by rw [onward.room_eq recorded, spare]) ahead_eq
      rw [List.append_assoc] at later
      exact .goOn progresses_documentTurn.unrolls ranTurn onward recorded noErrors later
    · -- The error of the body is the error of the document, which ends a strict walk.
      have ranTurn : (documentTurn definitions).on cursor = some (.error error, next) := by
        rw [turned, on_bind, on_attempt, ran]
        exact on_keep_of_strict (by rw [onward.options_eq, strict])
      show Records _ _ (inner.errors ++ later.errors) _ _
      rw [show inner.errors = _ from errors_eq]
      exact .stop ranTurn onward strict
  | case4 room token ahead fault rest failed later ih =>
    -- A faulty header is an error, behind which a recovering walk skips to the next definition.
    rintro definitions cursor ready rfl spare front
    have roomy := ready.not_isFull spare
    obtain ⟨count, rfl, ran⟩ := on_documentTurn_of_fault definitions roomy front failed
    refine Records.fault progresses_documentTurn.unrolls front ran (passed_of_header failed) ?_
    intro next recovers onward recorded ahead_eq _
    exact ih definitions next (ready.onward onward (by simp [recovers])) onward.textStop_eq
      ((onward.room_eq recorded).trans (by rw [spare]; rfl)) ahead_eq

end Walk

/-- One walk along the tokens of a text gives the report that reading the text gives. -/
theorem walkThrough_eq (options : Options) (source : String) :
    walkThrough options source = some (parseWith options source) := by
  -- Nothing was taken yet, so that the cursor is between declarations.
  have ready : (Cursor.atStart options (tokenize source)).Ready :=
    ⟨rfl, ordered_tokenize source, fun _ => rfl⟩
  have records : (Walk.loop Walk.documentTurn []).Records (.atStart options (tokenize source))
      (readTokens options source).errors (readTokens options source).definitions fun _ => True :=
    Walk.records_document [] _ ready rfl rfl rfl
  have few : (readTokens options source).errors.length ≤ options.room := length_errors_document_le
  rw [parseWith_eq]
  rcases records with ⟨reached, ran, _, recorded, noErrors, _⟩ |
    ⟨strict, error, later, reached, errors_eq, ran, _⟩
  · -- A recovering walk keeps what it found, and so does a strict one without errors.
    have kept : (options.recover || (readTokens options source).errors.isEmpty) = true := by
      cases recovers : options.recover with
      | true => rfl
      | false =>
        rw [Bool.false_or, List.isEmpty_iff]
        exact noErrors recovers
    rw [walkThrough, ran, if_pos kept]
    exact congrArg (fun errors => some (Report.mk _ errors)) recorded
  · -- A strict walk stops at its first error, and there is room for no other.
    have strict : options.recover = false := strict
    have errors_eq : (readTokens options source).errors = error :: later := errors_eq
    rw [errors_eq, Options.room, strict] at few
    have alone : later = [] := by simpa using few
    rw [walkThrough, ran, errors_eq, strict, alone]
    rfl

namespace Walk

/--
Every production leaves a place to recover at, also where it fails.

* From every cursor, a production takes some of the tokens ahead and changes nothing else. Apart from
  the keyword of a relation or a permission, none of them frames a declaration.
* What it comes to, and how many tokens it takes, is the same from all cursors that have the same
  tokens ahead, the same end of the text and the same number of open parentheses.
* So a turn of the loop over a body or over a document moves the cursor on, or else it ends the loop.
* No bound is on these walks: there are expressions in parentheses again, and loops go on after each
  turn.
* A walk through a text gives the report that reading the text gives.
-/
theorem productions_recoverable :
    Recoverable (some .relation) relation ∧ Recoverable (some .permission) permission ∧
      Recoverable none typeRef ∧ (∀ expected, Recoverable none (path expected)) ∧
      Recoverable none expression ∧ Recoverable none term ∧ Recoverable none factor ∧
      Progresses bodyTurn ∧ Progresses documentTurn ∧
      (factor = factorAround expression ∧ Unrolls bodyTurn ∧ Unrolls documentTurn) ∧
      ∀ options source, walkThrough options source = some (parseWith options source) := by
  refine ⟨?_, ?_, ?_, ?_, ?_, ?_, ?_, ?_, ?_, ?_, ?_⟩
  · exact recoverable_of_keyword fun token _ => steady_relationAfter token
  · exact recoverable_of_keyword fun token _ => steady_permissionAfter token
  · exact recoverable_of_steady fun _ => steady_typeRef
  · exact fun expected => recoverable_of_steady fun _ => steady_path expected
  · exact recoverable_of_steady fun _ => steady_expression
  · exact recoverable_of_steady fun _ => steady_term
  · exact recoverable_of_steady fun _ => steady_factor
  · exact progresses_bodyTurn
  · exact progresses_documentTurn
  · exact ⟨factor_eq, progresses_bodyTurn.unrolls, progresses_documentTurn.unrolls⟩
  · exact walkThrough_eq

/--
A permission whose parenthesis is not closed leaves the brace behind it, from two different cursors.

One of them has a body around the permission and has recorded an error before, and the other one is
strict and has nothing before the permission.
-/
theorem productions_recoverable_openParen :
    ∃ (inBody alone : Cursor) (result : Except SyntaxError Permission) (count : Nat),
      inBody.tokens = (tokenize "definition a\x7bpermission p = (b & \x7d").tokens ∧
        inBody.index = 3 ∧ inBody.errors ≠ [] ∧ alone.index = 0 ∧ alone.errors = [] ∧
        inBody.options ≠ alone.options ∧ count ≤ 6 ∧
        (∃ reached, permission.on inBody = some (result, reached) ∧ inBody.Took count reached) ∧
        (∃ reached, permission.on alone = some (result, reached) ∧ alone.Took count reached) ∧
        walkThrough .strict "definition a\x7bpermission p = (b & \x7d" =
          some (parseWith .strict "definition a\x7bpermission p = (b & \x7d") ∧
        (parseWith .strict "definition a\x7bpermission p = (b & \x7d").schema? = none := by
  -- The two cursors have the same tokens ahead, and so the theorem speaks of both at once.
  obtain ⟨_, recoverable, _, _, _, _, _, _, _, _, replayed⟩ := productions_recoverable
  let stream := tokenize "definition a\x7bpermission p = (b & \x7d"
  let inBody : Cursor := ⟨stream.tokens, stream.stop, .bestEffort, 3, .origin, 0,
    [⟨.nestedTooDeeply, .empty .origin⟩], by decide +kernel⟩
  let alone : Cursor := ⟨stream.tokens.drop 3, stream.stop, .strict, 0, .origin, 0, [], by simp⟩
  obtain ⟨result, count, _, inner, on_twin⟩ := recoverable inBody
  refine ⟨inBody, alone, result, count, rfl, rfl, by simp [inBody], rfl, rfl, by decide, ?_,
    on_twin inBody (.refl inBody), on_twin alone ⟨rfl, rfl, rfl⟩, replayed _ _, by decide +kernel⟩
  -- The brace is the seventh token from the keyword on, and it frames the body.
  by_contra many
  have brace : (inBody.ahead[6]?).map Token.kind = some .rightBrace := by decide +kernel
  obtain ⟨token, found, closes⟩ := Option.map_eq_some_iff.mp brace
  have first := (inner 6 token (Nat.lt_of_not_le many) found (by rw [closes]; rfl)).1
  cases first

end Walk

end AuthSchema.Parse
