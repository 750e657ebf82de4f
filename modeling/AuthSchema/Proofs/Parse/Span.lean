import AuthSchema.Proofs.Parse.Grammar
import AuthSchema.Proofs.Token.Order

/-! Over ordered tokens, what is derived reaches from the first to the last of its tokens. -/

namespace AuthSchema

/-- A range that starts where the first token starts and stops where the last one stops. -/
structure Spans (tokens : List Token) (range : Range) : Prop where
  start_eq : tokens.head?.map (·.range.start) = some range.start
  stop_eq : tokens.getLast?.map (·.range.stop) = some range.stop

namespace Spans

/-- One token alone has its own range. -/
theorem single (token : Token) : Spans [token] token.range :=
  ⟨rfl, rfl⟩

/-- Two stretches with anything between them reach from the start of one to the stop of the other. -/
theorem join {left right : List Token} {before after : Range} (first : Spans left before)
    (last : Spans right after) (middle : List Token) :
    Spans (left ++ (middle ++ right)) ⟨before.start, after.stop⟩ := by
  -- Neither side is empty, so that the ends of the whole are ends of the sides.
  constructor
  · cases left with
    | nil => simpa using first.start_eq
    | cons token left => simpa using first.start_eq
  · have stop_eq := last.stop_eq
    rw [Option.map_eq_some_iff] at stop_eq
    obtain ⟨token, found, stops⟩ := stop_eq
    simp [List.getLast?_append, found, stops]

/-- The first and the last of three tokens in order cover what lies between them. -/
theorem cover {first middle last : Token} (ordered : Ordered [first, middle, last]) :
    Spans [first, middle, last] (first.range.cover last.range) := by
  -- The cover of two ranges is from the first start to the last stop only where they are in order.
  have between : first.range.stop ≤ last.range.start :=
    List.rel_of_pairwise_cons ordered.before (by simp)
  rw [Range.cover_of_before (ordered.proper first (by simp)) between
    (ordered.proper last (by simp))]
  exact (single first).join (single last) [middle]

end Spans

/-- Where the last of some tokens stops, or else where the text before them stopped. -/
def lastStop (stop : Position) (tokens : List Token) : Position :=
  (tokens.getLast?.map (·.range.stop)).getD stop

/-- The last of two parts decides where both stop. -/
theorem lastStop_append (stop : Position) (first second : List Token) :
    lastStop stop (first ++ second) = lastStop (lastStop stop first) second := by
  -- Only an empty second part lets the first one decide.
  unfold lastStop
  cases last : second.getLast? with
  | none => simp [List.getLast?_append, last]
  | some token => simp [List.getLast?_append, last]

/-- The tokens after the first one go on from where it stops. -/
theorem lastStop_cons (stop : Position) (token : Token) (tokens : List Token) :
    lastStop stop (token :: tokens) = lastStop token.range.stop tokens :=
  lastStop_append stop [token] tokens

/-- A spanned range stops where the tokens stop. -/
theorem Spans.lastStop_eq {tokens : List Token} {range : Range} (spans : Spans tokens range)
    (stop : Position) : lastStop stop tokens = range.stop := by
  rw [lastStop, spans.stop_eq]
  rfl

namespace Grammar

/-- A path reaches from its first to its last name. -/
theorem PathTree.spans (tree : PathTree) (ordered : Ordered tree.tokens) :
    Spans tree.tokens tree.range := by
  -- A single name is a stretch of its own, and a pair is covered by its outer names.
  cases tree with
  | single name => exact .single name.token
  | pair first slash second => exact .cover ordered

/-- A type reaches to the end of its suffix. -/
theorem TypeTree.spans (tree : TypeTree) (ordered : Ordered tree.tokens) :
    Spans tree.tokens tree.subjectType.range := by
  obtain ⟨path, suffix⟩ := tree
  have onPath : Spans path.tokens path.range :=
    path.spans ordered.left
  -- Without a suffix the path ends the type, and otherwise the last token of the suffix does.
  cases suffix with
  | none => simpa [TypeTree.tokens, SuffixTree.tokens, TypeTree.subjectType] using onPath
  | relation hash name => exact onPath.join (.single name.token) [hash.token]
  | wildcard colon star => exact onPath.join (.single star.token) [colon.token]

/-- An expression reaches over all its tokens, parentheses included. -/
theorem ExprTree.spans {rank : Rank} (tree : ExprTree rank) (ordered : Ordered tree.tokens) :
    Spans tree.tokens tree.extent := by
  -- Operands are joined at their operator, and parentheses are ends of their own.
  induction tree with
  | term only ih => exact ih ordered
  | factor only ih => exact ih ordered
  | union left sign right ihLeft ihRight =>
    exact (ihLeft ordered.left).join (ihRight ordered.right.tail) [sign.token]
  | exclusion left sign right ihLeft ihRight =>
    exact (ihLeft ordered.left).join (ihRight ordered.right.tail) [sign.token]
  | intersection left sign right ihLeft ihRight =>
    exact (ihLeft ordered.left).join (ihRight ordered.right.tail) [sign.token]
  | name only => exact .single only.token
  | arrow left sign right => exact .cover ordered
  | nil keyword => exact .single keyword.token
  | parens opening inner closing => exact (Spans.single _).join (.single _) inner.tokens

/-- The types of a relation reach from the first to the last one. -/
theorem spans_types (first : TypeTree) (more : List (TokenOf .pipe × TypeTree))
    (ordered : Ordered (first.tokens ++ furtherTokens more)) :
    Spans (first.tokens ++ furtherTokens more)
      ⟨first.subjectType.range.start,
        ((more.map Prod.snd).getLastD first).subjectType.range.stop⟩ := by
  -- Each further type takes the place of the first one for those after it.
  induction more generalizing first with
  | nil => simpa [furtherTokens] using first.spans ordered.left
  | cons item more ih =>
    obtain ⟨bar, type⟩ := item
    have tokens_eq : furtherTokens ((bar, type) :: more) =
        [bar.token] ++ (type.tokens ++ furtherTokens more) := by
      simp [furtherTokens]
    rw [tokens_eq] at ordered ⊢
    have later := ih type ordered.right.tail
    rw [List.map_cons, List.getLastD_cons]
    exact (first.spans ordered.left).join later [bar.token]

/-- A member reaches from its keyword to its last token. -/
theorem MemberTree.spans (tree : MemberTree) (ordered : Ordered tree.tokens) :
    Spans tree.tokens tree.member.range := by
  cases tree with
  | relation tree =>
    -- A relation ends with its last type.
    have onTypes := spans_types tree.first tree.more ordered.tail.tail.tail
    exact (Spans.single tree.keyword.token).join onTypes [tree.name.token, tree.colon.token]
  | permission tree =>
    -- A permission ends with its expression, closing parentheses included.
    have onExpression := tree.expression.spans ordered.tail.tail.tail
    exact (Spans.single tree.keyword.token).join onExpression
      [tree.name.token, tree.equals.token]

end Grammar

end AuthSchema
