import AuthSchema.Proofs.Parse.Completeness
import AuthSchema.Proofs.Parse.Steady

/-!
Over ordered tokens, a walk comes to what the productions of the grammar come to.

A production works out where things end from the values it has read, and a walk looks at the last
token it took. Both are the same where tokens stand in order.
-/

namespace AuthSchema

/-- The value or the syntax error of an outcome, given the position past the text. -/
def Outcome.result {α β : Type} (textStop : Position) (value : β → α) :
    Outcome β → Except SyntaxError α
  | .done found _ => .ok (value found)
  | .failed fault rest => .error (fault.report rest textStop)

/-- What is made of the items of a repetition is made of what it reads. -/
theorem Production.run_many_map {α β γ : Type} (lead : TokenKind → Option β) (item : Production α)
    (change : List (β × α) → γ) (tokens : List Token) :
    (many lead item >>= fun items => pure (change items)).run tokens =
      (readMany lead item tokens).map change := by
  rw [run_bind, run_many]
  cases readMany lead item tokens <;> rfl

namespace Parse

open Grammar

/-- What is left of ordered tokens is ordered. -/
theorem Cursor.ordered_past {cursor : Cursor} (ordered : Ordered cursor.ahead) (count : Nat) :
    Ordered (cursor.past count).ahead := by
  rw [ahead_past]
  exact ordered.sublist (List.drop_sublist _ _)

/-- What stands before the tokens that are left is what was taken. -/
theorem Cursor.eq_take_of_split {cursor : Cursor} {count : Nat} {used : List Token}
    (split : cursor.ahead = used ++ (cursor.past count).ahead) : used = cursor.ahead.take count := by
  rw [ahead_past] at split
  -- Both cut the tokens at the same place, counted from the end.
  refine List.append_cancel_right (split.symm.trans ?_)
  rw [List.take_append_drop]

/-- What a cursor will take starts where the token ahead starts. -/
theorem Cursor.start_of_spans {cursor : Cursor} {count : Nat} {range : Range}
    (spans : Spans (cursor.ahead.take count) range) :
    range.start = (cursor.next?.map (·.range.start)).getD cursor.textStop := by
  -- A range is spanned by some tokens at least, and the first of them is ahead.
  have start_eq := spans.start_eq
  rw [next?_eq]
  cases count with
  | zero => simp at start_eq
  | succ count =>
    cases front : cursor.ahead with
    | nil => simp [front] at start_eq
    | cons token rest =>
      simp only [front, List.take_succ_cons, List.head?_cons, Option.map_some,
        Option.some.injEq] at start_eq
      simp [start_eq]

/-- What a cursor has taken reaches to where its last token stops. -/
theorem Cursor.stop_of_spans {cursor : Cursor} {count : Nat} {range : Range}
    (spans : Spans (cursor.ahead.take count) range) : (cursor.past count).stop = range.stop := by
  rw [stop_past, spans.lastStop_eq]

namespace Walk

variable {α β γ δ : Type} {cursor : Cursor}

/-- A walk from a cursor ends as an outcome does, with its value as the walk gives it. -/
def Follows (walk : Walk α) (cursor : Cursor) (outcome : Outcome β) (value : β → Cursor → α) :
    Prop :=
  ∃ count, (cursor.past count).ahead = outcome.rest ∧
    walk.on cursor =
      some (outcome.result cursor.textStop (value · (cursor.past count)), cursor.past count)

/--
Joining an item to what there is, on a cursor that has just walked over the item.

What there is already is kept in a form that fits, and a view turns it into what the walk has.
-/
def Joins {σ τ : Type} (production : Production γ) (join : β → σ → α → Walk σ)
    (fold : τ → β × γ → τ) (Fits : τ → Prop) (view : τ → σ) (viewItem : γ → α) : Prop :=
  ∀ (cursor : Cursor) (state : τ) (tag : β) (found : γ) (count : Nat),
    Ordered cursor.ahead → Fits state →
    production.run cursor.ahead = .done found (cursor.past count).ahead →
      Fits (fold state (tag, found)) ∧
        (join tag (view state) (viewItem found)).on (cursor.past count) =
          some (.ok (view (fold state (tag, found))), cursor.past count)

namespace Follows

/-- A walk that runs like another one ends like it. -/
theorem congr {walk other : Walk α} {outcome : Outcome β} {value : β → Cursor → α}
    (follows : other.Follows cursor outcome value) (same : walk.on cursor = other.on cursor) :
    walk.Follows cursor outcome value := by
  obtain ⟨count, left, ran⟩ := follows
  exact ⟨count, left, same.trans ran⟩

/-- A walk that does nothing ends as a production that reads nothing. -/
theorem pure {given : α} {found : β} {value : β → Cursor → α} (same : given = value found cursor) :
    (pure given : Walk α).Follows cursor ((pure found : Production β).run cursor.ahead) value := by
  refine ⟨0, rfl, ?_⟩
  rw [same]
  rfl

/-- A walk gives up as a production does, where both report the same error. -/
theorem throw {error : SyntaxError} {fault : Fault} {value : β → Cursor → α}
    (same : error = fault.report cursor.ahead cursor.textStop) :
    (throw error : Walk α).Follows cursor ((Production.fail fault).run cursor.ahead) value := by
  refine ⟨0, rfl, ?_⟩
  rw [same]
  rfl

/-- Two walks in a row end as two productions in a row, where each ends as its own production. -/
theorem bind {walk : Walk α} {next : α → Walk β} {production : Production γ}
    {further : γ → Production δ} {value : γ → Cursor → α} {last : δ → Cursor → β}
    (first : walk.Follows cursor (production.run cursor.ahead) value)
    (second : ∀ found count, production.run cursor.ahead = .done found (cursor.past count).ahead →
      (next (value found (cursor.past count))).Follows (cursor.past count)
        ((further found).run (cursor.past count).ahead) last) :
    (walk >>= next).Follows cursor ((production >>= further).run cursor.ahead) last := by
  -- What the first walk has left ahead is where the second production goes on.
  obtain ⟨count, left, ran⟩ := first
  rw [Production.run_bind]
  cases outcome : production.run cursor.ahead with
  | failed fault rest =>
    -- The error of the first part ends both.
    rw [outcome] at left ran
    exact ⟨count, left, by rw [on_bind, ran]; rfl⟩
  | done found rest =>
    rw [outcome] at left ran
    have left : (cursor.past count).ahead = rest := left
    subst left
    -- The second walk takes more tokens behind those of the first.
    obtain ⟨more, leftMore, ranMore⟩ := second found count outcome
    rw [Cursor.past_past] at leftMore ranMore
    refine ⟨count + more, leftMore, ?_⟩
    rw [on_bind, ran]
    simpa only [Outcome.result, Cursor.past_textStop] using ranMore

/-- The value of a walk may be told in another way, where both ways agree on what was taken. -/
theorem revalue {walk : Walk α} {outcome : Outcome β} {value other : β → Cursor → α}
    (follows : walk.Follows cursor outcome value)
    (same : ∀ found count, outcome = .done found (cursor.past count).ahead →
      value found (cursor.past count) = other found (cursor.past count)) :
    walk.Follows cursor outcome other := by
  obtain ⟨count, left, ran⟩ := follows
  refine ⟨count, left, ?_⟩
  cases outcome with
  | failed fault rest =>
    -- An error does not depend on the value.
    exact ran
  | done found rest =>
    have left : (cursor.past count).ahead = rest := left
    rw [ran, Outcome.result, Outcome.result, same found count (left ▸ rfl)]

/-- What is made of an outcome is made of the value that the walk gives for it. -/
theorem map_iff {walk : Walk α} {outcome : Outcome β} {change : β → γ} {value : γ → Cursor → α} :
    walk.Follows cursor (outcome.map change) value ↔
      walk.Follows cursor outcome fun found => value (change found) := by
  cases outcome <;> exact Iff.rfl

/-- What is made of the value of a walk is made of the value that it gives for an outcome. -/
theorem map {walk : Walk α} {outcome : Outcome β} {value : β → Cursor → α}
    (follows : walk.Follows cursor outcome value) (change : α → δ) :
    (change <$> walk).Follows cursor outcome fun found reached => change (value found reached) := by
  obtain ⟨count, left, ran⟩ := follows
  refine ⟨count, left, ?_⟩
  rw [on_map, ran]
  cases outcome <;> rfl

/-- A walk that takes the token ahead and runs on like another one ends like it. -/
theorem step {walk other : Walk α} {outcome : Outcome β} {value : β → Cursor → α}
    (follows : other.Follows cursor.advance outcome value)
    (same : walk.on cursor = other.on cursor.advance) : walk.Follows cursor outcome value := by
  obtain ⟨count, left, ran⟩ := follows
  refine ⟨count + 1, left, ?_⟩
  rw [same, ran, Cursor.advance_textStop]
  rfl

/-- Inside a parenthesis, a walk ends as it would outside of it, where its value is told by itself. -/
theorem nested {walk : Walk α} {outcome : Outcome β} {value : β → α}
    (follows : walk.Follows (cursor.withDepth (cursor.depth + 1)) outcome fun found _ => value found) :
    (nested walk).Follows cursor outcome fun found _ => value found := by
  obtain ⟨count, left, ran⟩ := follows
  -- The number of open parentheses is not in sight of the tokens.
  rw [Cursor.past_withDepth] at left
  refine ⟨count, left, ?_⟩
  rw [on_nested, ran, Option.map_some, Cursor.past_restored]
  rfl

/-- A loop ends as the repetition of the grammar does, with its items joined to what there was. -/
theorem loop {σ τ : Type} (lead : TokenKind → Option β) {item : Walk α} {join : β → σ → α → Walk σ}
    {production : Production γ} {fold : τ → β × γ → τ} {Fits : τ → Prop} {view : τ → σ}
    {viewItem : γ → α}
    (items : ∀ inner : Cursor, inner.depth = cursor.depth → Ordered inner.ahead →
      item.Follows inner (production.run inner.ahead) fun found _ => viewItem found)
    (joins : Joins production join fold Fits view viewItem) (ordered : Ordered cursor.ahead)
    (state : τ) (fits : Fits state) :
    (loop (leadTurn lead item join) (view state)).Follows cursor
      ((Production.readMany lead production cursor.ahead).map (·.foldl fold state))
      fun found _ => view found := by
  -- The induction is on the tokens ahead, of which each turn takes its lead at least.
  generalize size : cursor.ahead.length = length
  induction length using Nat.strongRecOn generalizing state cursor with
  | ind length ih =>
    rcases led_or_ends lead cursor.ahead with ⟨token, rest, tag, front, leads⟩ | ends
    -- The item is walked behind the lead, which is taken first.
    · have behind : cursor.advance.ahead = rest := Cursor.ahead_advance_of_cons front
      have orderedRest : Ordered cursor.advance.ahead := Cursor.ordered_past ordered 1
      obtain ⟨count, left, ran⟩ := items cursor.advance cursor.advance_depth orderedRest
      cases outcome : production.run cursor.advance.ahead with
      | failed fault stuck =>
        -- A lead without its item ends the loop with an error.
        rw [outcome] at left ran
        have turned : (item >>= join tag (view state)).on cursor.advance =
            some (.error (fault.report stuck cursor.textStop), cursor.advance.past count) := by
          rw [on_bind, ran, Cursor.advance_textStop]
          rfl
        rw [front, Production.readMany_of_failed leads (behind ▸ outcome)]
        refine ⟨count + 1, left, ?_⟩
        rw [on_loop_of_lead front leads turned, on_bind, turned]
        rfl
      | done found stuck =>
        rw [outcome] at left ran
        have left : (cursor.advance.past count).ahead = stuck := left
        subst left
        obtain ⟨fitsNow, joined⟩ := joins cursor.advance state tag found count orderedRest fits outcome
        have turned : (item >>= join tag (view state)).on cursor.advance =
            some (.ok (view (fold state (tag, found))), cursor.advance.past count) := by
          rw [on_bind, ran]
          exact joined
        have shorter : (cursor.advance.past count).ahead.length < length :=
          size ▸ Cursor.length_ahead_past_advance front count
        have nesting : (cursor.advance.past count).depth = cursor.depth := by
          rw [Cursor.past_depth, Cursor.advance_depth]
        obtain ⟨more, leftMore, ranMore⟩ :=
          ih _ shorter (fun inner same => items inner (same.trans nesting))
            (Cursor.ordered_past orderedRest count) (fold state (tag, found)) fitsNow rfl
        -- The item is joined first, and the others are joined to both.
        have grouped : (Production.readMany lead production cursor.ahead).map (·.foldl fold state) =
            (Production.readMany lead production (cursor.advance.past count).ahead).map
              (·.foldl fold (fold state (tag, found))) := by
          rw [front, Production.readMany_of_lead leads (behind ▸ outcome)]
          cases Production.readMany lead production (cursor.advance.past count).ahead <;> rfl
        rw [grouped]
        refine ⟨count + more + 1, ?_, ?_⟩
        · rw [Cursor.past, ← Cursor.past_past]
          exact leftMore
        · rw [on_loop_of_lead front leads turned, on_bind, turned, Cursor.past, ← Cursor.past_past]
          rw [Cursor.past_textStop, Cursor.advance_textStop] at ranMore
          exact ranMore
    -- Without a lead both are over at once.
    · rw [Production.readMany_of_no_lead ends]
      refine ⟨0, rfl, ?_⟩
      rw [on_loop_of_no_lead ends]
      rfl

end Follows

/-- What a production has read stands for the tokens that were taken on the way. -/
theorem taken_of_reads {production : Production β} {StandsFor : List Token → β → Prop}
    (reads : production.Reads StandsFor) {found : β} {count : Nat}
    (ran : production.run cursor.ahead = .done found (cursor.past count).ahead) :
    StandsFor (cursor.ahead.take count) found := by
  obtain ⟨used, split, stands⟩ := reads _ _ _ ran
  exact Cursor.eq_take_of_split split ▸ stands

section Takes

variable (kind : TokenKind)

/-- Trying to take a token ends as it does in the grammar. -/
theorem follows_take? :
    (take? kind).Follows cursor ((Production.take? kind).run cursor.ahead) fun found _ => found := by
  -- The token ahead decides on both sides in the same way.
  by_cases asked : nextKind cursor.ahead = some kind
  · obtain ⟨token, rest, front, same⟩ := nextKind_eq_some_iff.mp asked
    refine ⟨1, ?_, ?_⟩
    · rw [front, Production.run_take?_of_kind same, Cursor.past_one, Cursor.ahead_advance, front]
      rfl
    · rw [on_take?_of_kind front same, front, Production.run_take?_of_kind same]
      rfl
  · refine ⟨0, ?_, ?_⟩
    · rw [Production.run_take?_of_ne asked]
      rfl
    · rw [on_take?_of_ne asked, Production.run_take?_of_ne asked]
      rfl

/-- Taking a token ends as it does in the grammar. -/
theorem follows_take (expected : Expectation) :
    (take kind expected).Follows cursor ((Production.take kind expected).run cursor.ahead)
      fun found _ => found := by
  refine (follows_take? kind).bind ?_
  intro found count _
  -- A token that was not found is reported alike.
  cases found with
  | some token => exact .pure rfl
  | none => exact (Follows.throw rfl).congr rfl

end Takes

/-- A path is walked as it is read. -/
theorem follows_path (expected : Expectation) :
    (path expected).Follows cursor ((Parse.path expected).run cursor.ahead)
      fun found _ => found := by
  refine (follows_take _ _).bind ?_
  intro first _ _
  refine (follows_take? _).bind ?_
  intro slash? _ _
  -- Without a slash the first name is the whole path.
  cases slash? with
  | none => exact .pure rfl
  | some slash =>
    refine (follows_take _ _).bind ?_
    intro second _ _
    dsimp only
    split
    · exact .pure rfl
    · exact .throw rfl

/-- A type is walked as it is read, and ends where the last token of it stops. -/
theorem follows_typeRef_upTo :
    typeRef.Follows cursor (Parse.typeRef.run cursor.ahead)
      fun found reached => { found with range := ⟨found.pathRange.start, reached.stop⟩ } := by
  refine (follows_path _).bind ?_
  intro named _ _
  dsimp only
  rw [suffix, bind_assoc]
  refine (follows_take? _).bind ?_
  intro hash? _ _
  cases hash? with
  -- A name behind the hash is asked for on both sides.
  | some hash =>
    dsimp only
    rw [bind_assoc]
    refine (follows_take _ _).bind ?_
    intro relation _ _
    exact (Follows.pure rfl).congr rfl
  | none =>
    dsimp only
    rw [bind_assoc]
    refine (follows_take? _).bind ?_
    intro colon? _ _
    cases colon? with
    | none => exact (Follows.pure rfl).congr rfl
    | some colon =>
      -- A star behind the colon is asked for on both sides.
      dsimp only
      rw [bind_assoc]
      refine (follows_take _ _).bind ?_
      intro star _ _
      exact (Follows.pure rfl).congr rfl

/-- A type over ordered tokens is walked as it is read. -/
theorem follows_typeRef (ordered : Ordered cursor.ahead) :
    typeRef.Follows cursor (Parse.typeRef.run cursor.ahead) fun found _ => found := by
  refine follows_typeRef_upTo.revalue ?_
  intro found count ran
  -- The type was derived from the tokens that were taken, and reaches to the last of them.
  obtain ⟨tree, leaves, rfl, _⟩ := taken_of_reads reads_typeRef ran
  have spans := tree.spans (leaves ▸ ordered.sublist (List.take_sublist _ _))
  rw [leaves] at spans
  rw [Cursor.stop_of_spans spans]
  -- Every type starts with its path.
  obtain ⟨path, suffix⟩ := tree
  cases suffix <;> rfl

/-- Further types over ordered tokens are walked as they are read. -/
theorem follows_moreTypes (types : List SubjectType) (ordered : Ordered cursor.ahead) :
    (moreTypes types).Follows cursor
      ((Production.many typeSeparator Parse.typeRef).run cursor.ahead)
      fun items _ => types ++ items.map Prod.snd := by
  have joins : Joins Parse.typeRef
      (fun (_ : Unit) types type => (Pure.pure (types ++ [type]) : Walk (List SubjectType)))
      (fun types item => types ++ [item.2]) (fun _ => True) id id :=
    fun _ _ _ _ _ _ _ _ => ⟨trivial, rfl⟩
  -- The types are kept as they are, so that any list of them fits.
  have loops := Follows.loop typeSeparator (fun _ _ inOrder => follows_typeRef inOrder) joins ordered
    types trivial
  refine (Follows.map_iff.mp loops).revalue ?_
  intro items _ _
  show items.foldl (fun types item => types ++ [item.2]) types = types ++ items.map Prod.snd
  simp [← List.flatMap_def, ← List.map_eq_flatMap]

/-- What is derived as an operand reaches over the tokens that were taken. -/
theorem spans_of_operand {rank : Rank} {depth : Nat} {used : List Token} {operand : Operand}
    (ordered : Ordered used) (derives : DerivesOperand rank depth used operand) :
    Spans used operand.extent := by
  obtain ⟨tree, rfl, rfl, _⟩ := derives
  exact tree.spans ordered

/-- Two operands are joined from the start of the first to where the second one stops. -/
theorem joins_binary {rank : Rank} {depth : Nat} {operand : Production Operand} (start : Position)
    (reads : operand.Reads (DerivesOperand rank depth)) :
    Joins operand (binary start) Operand.combine (·.extent.start = start) Operand.expr
      Operand.expr := by
  intro cursor left operator right count ordered fits ran
  -- The second operand was just taken, and so the last token is its own.
  have spans := spans_of_operand (ordered.sublist (List.take_sublist _ _)) (taken_of_reads reads ran)
  refine ⟨fits, ?_⟩
  show some (Except.ok (Expr.binary operator left.expr right.expr ⟨start, (cursor.past count).stop⟩), _) = _
  rw [Cursor.stop_of_spans spans, ← fits]
  rfl

/-- Operands over ordered tokens, joined by operators of one rank, are walked as they are read. -/
theorem follows_chain {rank : Rank} {depth : Nat} {operator : TokenKind → Option Operator}
    {operand : Walk Expr} {production : Production Operand}
    (reads : production.Reads (DerivesOperand rank depth))
    (operands : ∀ inner : Cursor, inner.depth = cursor.depth → Ordered inner.ahead →
      operand.Follows inner (production.run inner.ahead) fun found _ => found.expr)
    (ordered : Ordered cursor.ahead) :
    (chain operator operand).Follows cursor ((Parse.chain operator production).run cursor.ahead)
      fun found _ => found.expr := by
  -- The walk has looked at the start before the first operand, which starts there.
  have looked : (chain operator operand).on cursor =
      (operand >>= loop (leadTurn operator operand (binary
        ((cursor.next?.map (·.range.start)).getD cursor.textStop)))).on cursor := by
    rw [chain, on_bind, on_aheadStart]
  refine Follows.congr ?_ looked
  refine (operands cursor rfl ordered).bind ?_
  intro first count ran
  -- The first operand starts where the walk has looked.
  have spans := spans_of_operand (ordered.sublist (List.take_sublist _ _)) (taken_of_reads reads ran)
  have loops := Follows.loop operator
    (fun inner nesting => operands inner (nesting.trans (cursor.past_depth count)))
    (joins_binary _ reads) (Cursor.ordered_past ordered count) first (Cursor.start_of_spans spans)
  rwa [← Production.run_many_map] at loops

/-- In parentheses of some depth there are expressions of one level less. -/
theorem readsNested_nestedAt (depth : Nat) : ReadsNested (nestedAt depth) depth := by
  intro inner found
  cases depth with
  | zero => cases found
  | succ depth =>
    cases found
    exact ⟨depth, rfl, reads_expression depth⟩

/-- A name in an expression is walked as it is read. -/
theorem follows_nameRef (expected : Expectation) :
    (nameRef expected).Follows cursor ((Parse.nameRef expected).run cursor.ahead)
      fun found _ => found := by
  refine (follows_take _ _).bind ?_
  intro token _ _
  exact .pure rfl

/-- A walk that reads an expression with as many parentheses as may still be opened. -/
def FollowsExpression (walk : Walk Expr) (cursor : Cursor) : Prop :=
  walk.Follows cursor ((Parse.expression (maxNesting - cursor.depth)).run cursor.ahead)
    fun found _ => found.expr

/-- A name or an arrow is walked as it is read. -/
theorem follows_nameOrArrow :
    nameOrArrow.Follows cursor (Parse.nameOrArrow.run cursor.ahead) fun found _ => found.expr := by
  refine (follows_nameRef _).bind ?_
  intro left _ _
  refine (follows_take? _).bind ?_
  intro sign? _ _
  -- Without the sign the name stands alone.
  cases sign? with
  | none => exact .pure rfl
  | some sign =>
    refine (follows_nameRef _).bind ?_
    intro right _ _
    exact .pure rfl

/-- Parentheses are walked as they are read, also where they are nested too deeply. -/
theorem follows_parenthesized {inner : Walk Expr} (opening : Token)
    (inside : cursor.depth < maxNesting →
      FollowsExpression inner (cursor.withDepth (cursor.depth + 1))) :
    (parenthesized inner opening).Follows cursor
      ((Parse.parenthesized (nestedAt (maxNesting - cursor.depth)) opening).run cursor.ahead)
      fun found _ => found.expr := by
  by_cases full : maxNesting ≤ cursor.depth
  · -- The grammar has no expression here, and the walk does not look for one.
    have none : nestedAt (maxNesting - cursor.depth) = none := by
      rw [Nat.sub_eq_zero_of_le full, nestedAt]
    rw [none]
    refine Follows.congr (Follows.throw rfl) ?_
    show (if maxNesting ≤ cursor.depth then _ else _ : Walk Expr).on cursor = _
    rw [if_pos full]
    rfl
  · -- There is room for this parenthesis, and one less for those inside it.
    have some : nestedAt (maxNesting - cursor.depth) =
        some (Parse.expression (maxNesting - (cursor.depth + 1))) := by
      obtain ⟨room, total⟩ : ∃ room, maxNesting - cursor.depth = room + 1 :=
        Nat.exists_eq_add_one_of_ne_zero (by omega)
      rw [total, nestedAt]
      congr 2
      omega
    rw [some]
    refine Follows.congr ?_ (show (if maxNesting ≤ cursor.depth then _ else _ : Walk Expr).on cursor =
      _ by rw [if_neg full])
    refine (Follows.nested (inside (Nat.lt_of_not_le full))).bind ?_
    intro found _ _
    refine (follows_take _ _).bind ?_
    intro closing _ _
    exact .pure rfl

/-- A factor is walked as it is read, where what is inside of its parentheses is. -/
theorem follows_factorAround {inner : Walk Expr} (ordered : Ordered cursor.ahead)
    (inside : cursor.depth < maxNesting → ∀ deeper : Cursor, deeper.depth = cursor.depth + 1 →
      Ordered deeper.ahead → FollowsExpression inner deeper) :
    (factorAround inner).Follows cursor
      ((Parse.factor (nestedAt (maxNesting - cursor.depth))).run cursor.ahead)
      fun found _ => found.expr := by
  refine (follows_take? _).bind ?_
  intro keyword? before _
  -- The keyword is tried first, then the parenthesis, and a name is what is left.
  cases keyword? with
  | some keyword => exact .pure rfl
  | none =>
    refine (follows_take? _).bind ?_
    intro opening? count _
    cases opening? with
    | none => exact follows_nameOrArrow
    | some opening =>
      rw [Cursor.past_past]
      -- The parenthesis was taken, but is not counted before its inside is walked.
      have nesting : (cursor.past (before + count)).depth = cursor.depth := cursor.past_depth _
      rw [← nesting]
      refine follows_parenthesized opening fun shallow => ?_
      exact inside (nesting ▸ shallow) _ (congrArg (· + 1) nesting) (Cursor.ordered_past ordered _)

/-- Inside parentheses, an expression is walked as it is read. -/
theorem follows_inParens {room : Nat} (roomy : maxNesting - cursor.depth < room)
    (ordered : Ordered cursor.ahead) : FollowsExpression (inParens room) cursor := by
  -- Each further parenthesis is counted, and so needs one less of the room.
  induction room generalizing cursor with
  | zero => omega
  | succ room ih =>
    -- The depth is that of the whole chain at each of its operands.
    rw [FollowsExpression, expression_eq]
    refine follows_chain (reads_term (readsNested_nestedAt _)) ?_ ordered
    intro inTerm termDepth termInOrder
    refine follows_chain (reads_factor (readsNested_nestedAt _)) ?_ termInOrder
    intro inFactor factorDepth factorInOrder
    rw [← termDepth, ← factorDepth]
    refine follows_factorAround factorInOrder fun shallow deeper deeperDepth inOrder => ?_
    exact ih (by omega) inOrder

/-- A factor over ordered tokens is walked as it is read. -/
theorem follows_factor (ordered : Ordered cursor.ahead) :
    factor.Follows cursor ((Parse.factor (nestedAt (maxNesting - cursor.depth))).run cursor.ahead)
      fun found _ => found.expr := by
  -- The walk looks at the parentheses that are open, and has room for the others.
  have looked : factor.on cursor =
      (factorAround (inParens (maxNesting - cursor.depth))).on cursor := by
    rw [factor, on_bind, on_openParens]
  refine Follows.congr ?_ looked
  refine follows_factorAround ordered fun shallow deeper deeperDepth inOrder => ?_
  exact follows_inParens (by omega) inOrder

/-- A term over ordered tokens is walked as it is read. -/
theorem follows_term (ordered : Ordered cursor.ahead) :
    term.Follows cursor ((Parse.term (nestedAt (maxNesting - cursor.depth))).run cursor.ahead)
      fun found _ => found.expr := by
  refine follows_chain (reads_factor (readsNested_nestedAt _)) ?_ ordered
  intro inner nesting inOrder
  rw [← nesting]
  exact follows_factor inOrder

/-- An expression over ordered tokens is walked as it is read. -/
theorem follows_expression (ordered : Ordered cursor.ahead) :
    FollowsExpression expression cursor := by
  rw [FollowsExpression, expression_eq]
  refine follows_chain (reads_term (readsNested_nestedAt _)) ?_ ordered
  intro inner nesting inOrder
  rw [← nesting]
  exact follows_term inOrder

/-- A relation is walked as it is read, and ends where the last token of it stops. -/
theorem follows_relationAfter_upTo (keyword : Token) (ordered : Ordered cursor.ahead) :
    (relationAfter keyword).Follows cursor ((Parse.relation keyword).run cursor.ahead)
      fun found reached => { found with range := ⟨found.range.start, reached.stop⟩ } := by
  refine (follows_take _ _).bind ?_
  intro name _ _
  refine (follows_take _ _).bind ?_
  intro colon _ _
  -- Name and colon were taken, and the types stand behind them.
  rw [Cursor.past_past]
  refine (follows_typeRef (Cursor.ordered_past ordered _)).bind ?_
  intro first _ _
  rw [Cursor.past_past]
  refine (follows_moreTypes [first] (Cursor.ordered_past ordered _)).bind ?_
  intro items _ _
  exact (Follows.pure rfl).congr rfl

/-- A permission is walked as it is read, and ends where the last token of it stops. -/
theorem follows_permissionAfter_upTo (keyword : Token) (outside : cursor.depth = 0)
    (ordered : Ordered cursor.ahead) :
    (permissionAfter keyword).Follows cursor ((Parse.permission keyword).run cursor.ahead)
      fun found reached => { found with range := ⟨found.range.start, reached.stop⟩ } := by
  have expressions : ∀ count, FollowsExpression expression (cursor.past count) :=
    fun count => follows_expression (Cursor.ordered_past ordered count)
  -- No parenthesis is open yet, so that the expression has all the depth there is.
  simp only [FollowsExpression, Cursor.past_depth, outside] at expressions
  refine (follows_take _ _).bind ?_
  intro name _ _
  refine (follows_take _ _).bind ?_
  intro equals _ _
  rw [Cursor.past_past]
  refine (expressions _).bind ?_
  intro value _ _
  exact (Follows.pure rfl).congr rfl

section Member

variable {token : Token} {rest : List Token}

/-- Behind its keyword, a walk ends as it does from there. -/
theorem follows_keyword {kind : TokenKind} {after : Token → Walk α} {outcome : Outcome β}
    {value : β → Cursor → α} (front : cursor.ahead = token :: rest) (asked : token.kind = kind)
    (follows : (after token).Follows cursor.advance outcome value) :
    (takeSign kind >>= after).Follows cursor outcome value := by
  refine follows.step ?_
  rw [takeSign, on_bind, on_take_of_kind front asked]

/-- A walk over a member stops where the member does. -/
theorem stop_of_member (front : cursor.ahead = token :: rest) (ordered : Ordered cursor.ahead)
    {value : Member} {count : Nat}
    (read : Parse.member token rest = .done value (cursor.past count).ahead) :
    (cursor.past count).stop = value.range.stop := by
  obtain ⟨tree, leaves, rfl, _⟩ := member_sound read
  -- What the member was derived from is what the walk has taken.
  have used := Cursor.eq_take_of_split (front.trans leaves)
  have spans := tree.spans (used ▸ ordered.sublist (List.take_sublist _ _))
  exact Cursor.stop_of_spans (used ▸ spans)

/-- A member over ordered tokens is walked as it is read. -/
theorem follows_member (front : cursor.ahead = token :: rest) (outside : cursor.depth = 0)
    (ordered : Ordered cursor.ahead) :
    (member token.kind).Follows cursor (Parse.member token rest) fun found _ => found := by
  obtain rfl : cursor.advance.ahead = rest := Cursor.ahead_advance_of_cons front
  have inOrder : Ordered cursor.advance.ahead := Cursor.ordered_past ordered 1
  have stops := @stop_of_member cursor token _ front ordered
  -- Where a member ends is told by its value, which is where the last token of it stops.
  unfold Parse.member at stops ⊢
  split
  · rename_i isKeyword
    have follows : relation.Follows cursor _ _ :=
      follows_keyword front isKeyword (follows_relationAfter_upTo token inOrder)
    rw [isKeyword] at stops ⊢
    refine Follows.map_iff.mpr ((follows.map Member.relation).revalue ?_)
    intro found count ran
    have stop := @stops (.relation found) count (congrArg (Outcome.map Member.relation) ran)
    rw [stop]
    rfl
  · rename_i isKeyword
    have follows : permission.Follows cursor _ _ :=
      follows_keyword front isKeyword
        (follows_permissionAfter_upTo token (cursor.advance_depth.trans outside) inOrder)
    rw [isKeyword] at stops ⊢
    refine Follows.map_iff.mpr ((follows.map Member.permission).revalue ?_)
    intro found count ran
    have stop := @stops (.permission found) count (congrArg (Outcome.map Member.permission) ran)
    rw [stop]
    rfl
  · -- No other token starts a member, and both give up in front of it.
    rename_i noRelation noPermission
    have other : member token.kind = errorHere .memberOrClose >>= throw := by
      unfold member
      split
      · exact absurd ‹_› noRelation
      · exact absurd ‹_› noPermission
      · rfl
    rw [other, ← front, ← Production.run_fail]
    exact (Follows.throw rfl).congr rfl

/-- A walk over a header stops where the header does. -/
theorem stop_of_header (front : cursor.ahead = token :: rest) {value : Header} {count : Nat}
    (read : headerAt token rest = .done value (cursor.past count).ahead) :
    (cursor.past count).stop = value.range.stop := by
  obtain ⟨tree, leaves, rfl, _⟩ := headerAt_sound read
  -- What the header was derived from is what the walk has taken, up to its brace.
  have used := Cursor.eq_take_of_split (front.trans leaves)
  rw [Cursor.stop_past, ← used, HeaderTree.tokens, lastStop_cons, lastStop_append]
  rfl

/-- A header is walked as it is read. -/
theorem follows_header (front : cursor.ahead = token :: rest) (opens : token.kind = .definition) :
    header.Follows cursor (headerAt token rest) fun found _ => found := by
  obtain rfl : cursor.advance.ahead = rest := Cursor.ahead_advance_of_cons front
  rw [headerAt, if_pos opens]
  refine follows_keyword front opens ?_
  -- Behind the keyword there are a path and a brace.
  refine (follows_path _).bind ?_
  intro named _ _
  refine (follows_take _ _).bind ?_
  intro brace _ _
  exact .pure rfl

end Member

end Walk

end Parse

end AuthSchema
