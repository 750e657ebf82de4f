import AuthSchema.Proofs.Schema.Marks
import AuthSchema.Proofs.Schema.Spelling

/-!
Every schema that is read is well formed, errors or not.

* Every range takes some text, from the start of a token to the stop of one.
* A part stands inside the whole that it belongs to, and parts stand one after another.
-/

namespace AuthSchema

open Grammar

/-- A range that takes some text, from the start of one token to the stop of one. -/
structure Range.Over (tokens : List Token) (range : Range) : Prop where
  proper : range.start < range.stop
  starts : ∃ token ∈ tokens, token.range.start = range.start
  stops : ∃ token ∈ tokens, token.range.stop = range.stop

/-- A type whose path and suffix stand in it, where a wildcard leaves no room for a suffix. -/
structure SubjectType.WellFormed (tokens : List Token) (written : SubjectType) : Prop where
  range_over : written.range.Over tokens
  path_over : written.pathRange.Over tokens
  suffix_over : ∀ place ∈ written.suffixRange, place.Over tokens
  placed : written.WellPlaced
  wildcard : written.wildcard = true → written.suffix = none ∧ written.suffixRange = none

/-- An expression whose parts stand in it, with the left operand before the right one. -/
def Expr.WellFormed (tokens : List Token) : Expr → Prop
  | .reference written => written.range.Over tokens
  | .arrow written =>
    written.range.Over tokens ∧ written.left.range.Over tokens ∧ written.right.range.Over tokens ∧
      written.WellPlaced
  | .nil range => range.Over tokens
  | .binary _ left right range =>
    range.Over tokens ∧ left.range.Within range ∧ right.range.Within range ∧
      left.range.stop < right.range.start ∧ left.WellFormed tokens ∧ right.WellFormed tokens

/-- A relation that has types, all of them behind its name, and ends with the last one. -/
structure Relation.WellFormed (tokens : List Token) (declared : Relation) : Prop where
  range_over : declared.range.Over tokens
  name_over : declared.nameRange.Over tokens
  name_within : declared.nameRange.Within declared.range
  types_inSequence : Range.InSequence SubjectType.range declared.subjectTypes
  types_within : ∀ type ∈ declared.subjectTypes, type.range.Within declared.range
  types_after : ∀ type ∈ declared.subjectTypes, declared.nameRange.stop ≤ type.range.start
  last_type : ∃ last, declared.subjectTypes.getLast? = some last ∧
    last.range.stop = declared.range.stop
  types : ∀ type ∈ declared.subjectTypes, type.WellFormed tokens

/-- A permission whose expression stands in it, behind its name. -/
structure Permission.WellFormed (tokens : List Token) (declared : Permission) : Prop where
  range_over : declared.range.Over tokens
  name_over : declared.nameRange.Over tokens
  name_within : declared.nameRange.Within declared.range
  expression_within : declared.expression.range.Within declared.range
  expression_after : declared.nameRange.stop ≤ declared.expression.range.start
  expression : declared.expression.WellFormed tokens

/-- A member that is well formed as a relation or as a permission. -/
def Member.WellFormed (tokens : List Token) : Member → Prop
  | .relation declared => declared.WellFormed tokens
  | .permission declared => declared.WellFormed tokens

/--
A definition whose relations and permissions stand in it, behind its name.

Both are in document order, and taken together no two of them overlap.
-/
structure Definition.WellFormed (tokens : List Token) (definition : Definition) : Prop where
  range_over : definition.range.Over tokens
  name_over : definition.nameRange.Over tokens
  name_within : definition.nameRange.Within definition.range
  relations_inSequence : Range.InSequence Relation.range definition.relations
  permissions_inSequence : Range.InSequence Permission.range definition.permissions
  members_inSequence : Range.InSequence Member.range definition.members
  members_within : ∀ member ∈ definition.members, member.range.Within definition.range
  members_after : ∀ member ∈ definition.members, definition.nameRange.stop ≤ member.range.start
  relations : ∀ relation ∈ definition.relations, relation.WellFormed tokens
  permissions : ∀ permission ∈ definition.permissions, permission.WellFormed tokens

/-- A schema whose definitions stand one after another. -/
structure Schema.WellFormed (tokens : List Token) (schema : Schema) : Prop where
  inSequence : Range.InSequence Definition.range schema.definitions
  definitions : ∀ definition ∈ schema.definitions, definition.WellFormed tokens

/-- What lies inside an inner range lies inside the outer one. -/
theorem Range.Within.trans {inner middle outer : Range} (first : inner.Within middle)
    (second : middle.Within outer) : inner.Within outer :=
  ⟨second.start_le.trans first.start_le, first.stop_le.trans second.stop_le⟩

namespace Spans

variable {tokens part left right : List Token} {range before after : Range}

/-- Every token stands inside what all of them span. -/
theorem within_of_mem (spans : Spans tokens range) (ordered : Ordered tokens) {token : Token}
    (among : token ∈ tokens) : token.range.Within range := by
  obtain ⟨first, atStart, starts⟩ := Option.map_eq_some_iff.mp spans.start_eq
  obtain ⟨last, atEnd, stops⟩ := Option.map_eq_some_iff.mp spans.stop_eq
  -- The token is the first one or comes after it, and is the last one or comes before it.
  have start_le : first.range.start ≤ token.range.start := by
    obtain ⟨rest, rfl⟩ := List.head?_eq_some_iff.mp atStart
    rcases List.mem_cons.mp among with rfl | later
    · exact le_refl _
    · have behind : first.range.stop ≤ token.range.start :=
        List.rel_of_pairwise_cons ordered.before later
      exact (ordered.proper first (by simp)).le.trans behind
  have stop_le : token.range.stop ≤ last.range.stop := by
    obtain ⟨rest, rfl⟩ := List.getLast?_eq_some_iff.mp atEnd
    rcases List.mem_append.mp among with earlier | here
    · have ahead : token.range.stop ≤ last.range.start :=
        (List.pairwise_append.mp ordered.before).2.2 token earlier last (by simp)
      exact ahead.trans (ordered.proper last (by simp)).le
    · rw [List.mem_singleton.mp here]
  rw [starts] at start_le
  rw [stops] at stop_le
  exact ⟨start_le, stop_le⟩

/-- What some of the tokens span stands inside what all of them span. -/
theorem within (inner : Spans part before) (spans : Spans tokens range) (ordered : Ordered tokens)
    (among : part ⊆ tokens) : before.Within range := by
  obtain ⟨first, atStart, starts⟩ := Option.map_eq_some_iff.mp inner.start_eq
  obtain ⟨last, atEnd, stops⟩ := Option.map_eq_some_iff.mp inner.stop_eq
  -- The ends of the part are ends of tokens, all of which stand inside.
  have onFirst := spans.within_of_mem ordered (among (List.mem_of_head? atStart))
  have onLast := spans.within_of_mem ordered (among (List.mem_of_getLast? atEnd))
  exact ⟨starts ▸ onFirst.start_le, stops ▸ onLast.stop_le⟩

/-- What earlier tokens span ends before what later ones span starts. -/
theorem stop_le_start (first : Spans left before) (second : Spans right after)
    (apart : ∀ token ∈ left, ∀ other ∈ right, token.Before other) : before.stop ≤ after.start := by
  obtain ⟨last, atEnd, stops⟩ := Option.map_eq_some_iff.mp first.stop_eq
  obtain ⟨head, atStart, starts⟩ := Option.map_eq_some_iff.mp second.start_eq
  -- The last token of the first part comes before the first token of the second one.
  rw [← stops, ← starts]
  exact apart last (List.mem_of_getLast? atEnd) head (List.mem_of_head? atStart)

/-- A token ends before what some of the tokens behind it span. -/
theorem stop_le_of_cons (spans : Spans part range) {token : Token}
    (ordered : Ordered (token :: tokens)) (among : part ⊆ tokens) :
    token.range.stop ≤ range.start := by
  refine (Spans.single token).stop_le_start spans ?_
  intro head here other leaf
  rw [List.mem_singleton.mp here]
  exact List.rel_of_pairwise_cons ordered.before (among leaf)

/-- A range that is spanned by some of the tokens reaches from one of them to another. -/
theorem isOver (spans : Spans part range) (ordered : Ordered part) (among : part ⊆ tokens) :
    range.Over tokens := by
  obtain ⟨first, atStart, starts⟩ := Option.map_eq_some_iff.mp spans.start_eq
  obtain ⟨last, atEnd, stops⟩ := Option.map_eq_some_iff.mp spans.stop_eq
  exact ⟨spans.proper ordered, ⟨first, among (List.mem_of_head? atStart), starts⟩,
    ⟨last, among (List.mem_of_getLast? atEnd), stops⟩⟩

end Spans

namespace Ordered

variable {tokens left right : List Token}

/-- A token reaches from itself to itself. -/
theorem isOver (ordered : Ordered tokens) {token : Token} (among : token ∈ tokens) :
    token.range.Over tokens :=
  ⟨ordered.proper token among, ⟨token, among, rfl⟩, ⟨token, among, rfl⟩⟩

/-- The tokens of the first part end before those of the second part start. -/
theorem apart (ordered : Ordered (left ++ right)) :
    ∀ token ∈ left, ∀ other ∈ right, token.Before other :=
  (List.pairwise_append.mp ordered.before).2.2

/-- Items that span their tokens follow one another where their tokens do. -/
theorem inSequence {α : Type} {items : List α} {leaves : α → List Token} {range : α → Range}
    (ordered : Ordered (items.flatMap leaves))
    (spans : ∀ item ∈ items, Spans (leaves item) (range item)) : Range.InSequence range items := by
  refine ⟨?_, ?_⟩
  · -- A range that spans tokens takes the text of all of them.
    intro item listed
    exact (spans item listed).proper (ordered.item listed)
  · -- All tokens of an item come before those of any later one.
    have before := (List.pairwise_flatMap.mp ordered.before).2
    refine List.Pairwise.imp_of_mem ?_ before
    intro first second firstListed secondListed apart
    exact (spans first firstListed).stop_le_start (spans second secondListed) apart

end Ordered

/-- Items that are picked from a sequence, each with the range it was picked from, are one too. -/
theorem Range.InSequence.filterMap {α β : Type} {range : α → Range} {picked : β → Range}
    {items : List α} (sequence : Range.InSequence range items) {pick : α → Option β}
    (same : ∀ item result, pick item = some result → picked result = range item) :
    Range.InSequence picked (items.filterMap pick) := by
  refine ⟨?_, ?_⟩
  · -- What is picked has the range of the item that it was picked from.
    intro result listed
    obtain ⟨item, among, chosen⟩ := List.mem_filterMap.mp listed
    rw [same item result chosen]
    exact sequence.proper item among
  · refine List.pairwise_filterMap.mpr (sequence.before.imp ?_)
    intro first second before result chosen other alsoChosen
    rw [same first result chosen, same second other alsoChosen]
    exact before

namespace Grammar

variable {tokens : List Token}

/-- Every type that is written is well formed over tokens that hold its own. -/
theorem TypeTree.wellFormed (tree : TypeTree) (ordered : Ordered tokens)
    (within : tree.tokens.Sublist tokens) : tree.subjectType.WellFormed tokens := by
  have leaves := ordered.sublist within
  have onPath := tree.path.spans leaves.left
  have pathAmong : tree.path.tokens ⊆ tokens :=
    ((List.sublist_append_left _ _).trans within).subset
  have placed := tree.wellPlaced leaves
  have whole := (tree.spans leaves).isOver leaves within.subset
  have path := onPath.isOver leaves.left pathAmong
  obtain ⟨pathTree, suffix⟩ := tree
  -- Only a suffix after a hash has a place of its own.
  cases suffix with
  | none => exact ⟨whole, path, by simp [subjectType], placed, by simp [subjectType]⟩
  | relation hash name =>
    -- The suffix is the last token of the type.
    have named : name.token ∈ tokens :=
      within.subset (by simp [TypeTree.tokens, SuffixTree.tokens])
    refine ⟨whole, path, ?_, placed, by simp [subjectType]⟩
    intro place present
    obtain rfl : name.token.range = place := by simpa [subjectType] using present
    exact ordered.isOver named
  | wildcard colon star =>
    exact ⟨whole, path, by simp [subjectType], placed, by simp [subjectType]⟩

/-- A node stands inside the text of its derivation, which parentheses around it widen. -/
theorem ExprTree.range_within {rank : Rank} (tree : ExprTree rank)
    (ordered : Ordered tree.tokens) : tree.expr.range.Within tree.extent := by
  -- All nodes but those in parentheses take the text of their derivation.
  induction tree with
  | term only ih => exact ih ordered
  | factor only ih => exact ih ordered
  | union left sign right => exact .refl _
  | exclusion left sign right => exact .refl _
  | intersection left sign right => exact .refl _
  | name only => exact .refl _
  | arrow left sign right => exact .refl _
  | nil keyword => exact .refl _
  | parens opening inner closing ih =>
    have inside : Ordered inner.tokens := ordered.tail.left
    have wide : inner.extent.Within (parens opening inner closing).extent :=
      (inner.spans inside).within (spans _ ordered) ordered
        (fun token among => by simp [ExprTree.tokens, among])
    exact (ih inside).trans wide

/-- Two operands with an operator between them are well formed together where both are. -/
theorem ExprTree.wellFormed_binary (operator : Operator) {leftRank rightRank : Rank}
    (left : ExprTree leftRank) (sign : Token) (right : ExprTree rightRank)
    (ordered : Ordered tokens) (within : (left.tokens ++ ([sign] ++ right.tokens)).Sublist tokens)
    (onLeft : left.tokens.Sublist tokens → left.expr.WellFormed tokens)
    (onRight : right.tokens.Sublist tokens → right.expr.WellFormed tokens) :
    (Expr.binary operator left.expr right.expr
      ⟨left.extent.start, right.extent.stop⟩).WellFormed tokens := by
  -- Both operands are parts of the whole, with the operator between them.
  have leftAmong : left.tokens.Sublist (left.tokens ++ ([sign] ++ right.tokens)) :=
    List.sublist_append_left _ _
  have rightAmong : right.tokens.Sublist (left.tokens ++ ([sign] ++ right.tokens)) :=
    (List.sublist_append_right _ _).trans (List.sublist_append_right _ _)
  have leaves := ordered.sublist within
  have leftLeaves := leaves.sublist leftAmong
  have rightLeaves := leaves.sublist rightAmong
  have leftSpans := left.spans leftLeaves
  have rightSpans := right.spans rightLeaves
  have whole := leftSpans.join rightSpans [sign]
  have leftWithin := (left.range_within leftLeaves).trans
    (leftSpans.within whole leaves leftAmong.subset)
  have rightWithin := (right.range_within rightLeaves).trans
    (rightSpans.within whole leaves rightAmong.subset)
  refine ⟨whole.isOver leaves within.subset, leftWithin, rightWithin, ?_,
    onLeft (leftAmong.trans within), onRight (rightAmong.trans within)⟩
  -- The operator stands between the operands, and takes some text.
  calc left.expr.range.stop
      ≤ left.extent.stop := (left.range_within leftLeaves).stop_le
    _ ≤ sign.range.start := leftSpans.stop_le_start (.single sign) fun token among other here =>
        leaves.apart token among other (List.mem_append_left _ here)
    _ < sign.range.stop := leaves.proper sign (by simp)
    _ ≤ right.extent.start := rightSpans.stop_le_of_cons leaves.right (List.Subset.refl _)
    _ ≤ right.expr.range.start := (right.range_within rightLeaves).start_le

/-- Every expression that is written is well formed over tokens that hold its own. -/
theorem ExprTree.wellFormed {rank : Rank} (tree : ExprTree rank) (ordered : Ordered tokens)
    (within : tree.tokens.Sublist tokens) : tree.expr.WellFormed tokens := by
  -- The induction follows the derivation, and each operator joins two operands that are well
  -- formed.
  induction tree with
  | term only ih => exact ih within
  | factor only ih => exact ih within
  | union left sign right ihLeft ihRight =>
    exact wellFormed_binary .union left sign.token right ordered within ihLeft ihRight
  | exclusion left sign right ihLeft ihRight =>
    exact wellFormed_binary .exclusion left sign.token right ordered within ihLeft ihRight
  | intersection left sign right ihLeft ihRight =>
    exact wellFormed_binary .intersection left sign.token right ordered within ihLeft ihRight
  | name only => exact ordered.isOver (within.subset (by simp [ExprTree.tokens]))
  | nil keyword => exact ordered.isOver (within.subset (by simp [ExprTree.tokens]))
  | arrow left sign right =>
    -- An arrow reaches over its two names, both of which are tokens.
    have leaves := ordered.sublist within
    have onLeft := ordered.isOver (within.subset (by simp [ExprTree.tokens] : left.token ∈ _))
    have onRight := ordered.isOver (within.subset (by simp [ExprTree.tokens] : right.token ∈ _))
    exact ⟨(spans _ leaves).isOver leaves within.subset, onLeft, onRight,
      arrow_wellPlaced left sign right leaves⟩
  | parens opening inner closing ih =>
    -- Parentheses leave no node of their own.
    have inside : inner.tokens.Sublist (parens opening inner closing).tokens :=
      (List.sublist_append_left _ _).trans (List.sublist_cons_self _ _)
    exact ih (inside.trans within)

/-- The types of a relation take some of the tokens after its colon. -/
theorem RelationTree.types_sublist (tree : RelationTree) :
    (tree.types.flatMap TypeTree.tokens).Sublist
      (tree.first.tokens ++ furtherTokens tree.more) := by
  rw [RelationTree.types, List.flatMap_cons, List.flatMap_map, furtherTokens]
  -- Each further type leaves out the bar in front of it.
  refine List.Sublist.append_left (.flatMap_right tree.more ?_) tree.first.tokens
  intro item _
  exact List.sublist_cons_self _ _

/-- Every relation that is written is well formed over tokens that hold its own. -/
theorem RelationTree.wellFormed (tree : RelationTree) (ordered : Ordered tokens)
    (within : tree.tokens.Sublist tokens) : tree.relation.WellFormed tokens := by
  have leaves : Ordered tree.tokens := ordered.sublist within
  have whole : Spans tree.tokens tree.relation.range := (MemberTree.relation tree).spans leaves
  have named : tree.name.token ∈ tree.tokens := by simp [RelationTree.tokens]
  -- The types take stretches of tokens that stand one after another.
  have typeSpans : ∀ type ∈ tree.types, Spans type.tokens type.subjectType.range := by
    intro type listed
    exact type.spans (leaves.sublist (tokens_isInfix listed).sublist)
  have sequence : Range.InSequence (fun type : TypeTree => type.subjectType.range) tree.types :=
    (leaves.tail.tail.tail.sublist tree.types_sublist).inSequence typeSpans
  refine ⟨whole.isOver leaves within.subset, ordered.isOver (within.subset named),
    whole.within_of_mem leaves named, ?_, ?_, ?_, ?_, ?_⟩
  · -- Ranges of types in sequence are ranges of their trees in sequence.
    exact Range.InSequence.map_iff.mpr sequence
  · intro written listed
    obtain ⟨type, among, rfl⟩ := List.mem_map.mp listed
    exact (typeSpans type among).within whole leaves (tokens_isInfix among).subset
  · -- The name and the colon come before all tokens of the types.
    intro written listed
    obtain ⟨type, among, rfl⟩ := List.mem_map.mp listed
    refine (typeSpans type among).stop_le_of_cons leaves.tail ?_
    intro token leaf
    have behind : token ∈ tree.first.tokens ++ furtherTokens tree.more :=
      tree.types_sublist.subset (List.mem_flatMap.mpr ⟨type, among, leaf⟩)
    exact List.mem_cons_of_mem _ behind
  · -- The last type is the last of the further ones, or the first one where there are none.
    have last : tree.types.getLast? = some ((tree.more.map Prod.snd).getLastD tree.first) := by
      rw [RelationTree.types, List.getLast?_cons, List.getLastD_eq_getLast?]
    refine ⟨((tree.more.map Prod.snd).getLastD tree.first).subjectType, ?_, rfl⟩
    show (tree.types.map TypeTree.subjectType).getLast? = _
    rw [List.getLast?_map, last, Option.map_some]
  · intro written listed
    obtain ⟨type, among, rfl⟩ := List.mem_map.mp listed
    exact type.wellFormed ordered ((tokens_isInfix among).sublist.trans within)

/-- Every permission that is written is well formed over tokens that hold its own. -/
theorem PermissionTree.wellFormed (tree : PermissionTree) (ordered : Ordered tokens)
    (within : tree.tokens.Sublist tokens) : tree.permission.WellFormed tokens := by
  have leaves : Ordered tree.tokens := ordered.sublist within
  have whole : Spans tree.tokens tree.permission.range :=
    (MemberTree.permission tree).spans leaves
  have named : tree.name.token ∈ tree.tokens := by simp [PermissionTree.tokens]
  -- The expression is all that stands behind the first three tokens.
  have inside : tree.expression.tokens.Sublist tree.tokens :=
    List.sublist_append_right [tree.keyword.token, tree.name.token, tree.equals.token] _
  have expressionLeaves := leaves.sublist inside
  have expressionSpans := tree.expression.spans expressionLeaves
  have node := tree.expression.range_within expressionLeaves
  refine ⟨whole.isOver leaves within.subset, ordered.isOver (within.subset named),
    whole.within_of_mem leaves named,
    node.trans (expressionSpans.within whole leaves inside.subset), ?_,
    tree.expression.wellFormed ordered (inside.trans within)⟩
  -- The name comes before all tokens of the expression, its parentheses included.
  have behind : tree.name.token.range.stop ≤ tree.expression.extent.start :=
    expressionSpans.stop_le_of_cons leaves.tail (List.subset_cons_self _ _)
  exact behind.trans node.start_le

/-- Every member that is written is well formed over tokens that hold its own. -/
theorem MemberTree.wellFormed (tree : MemberTree) (ordered : Ordered tokens)
    (within : tree.tokens.Sublist tokens) : tree.member.WellFormed tokens := by
  cases tree with
  | relation tree => exact tree.wellFormed ordered within
  | permission tree => exact tree.wellFormed ordered within

end Grammar

/-- A member gives a relation exactly when it is that relation. -/
theorem Member.relation?_eq_some_iff {member : Member} {declared : Relation} :
    member.relation? = some declared ↔ member = .relation declared := by
  cases member <;> simp [Member.relation?]

/-- A member gives a permission exactly when it is that permission. -/
theorem Member.permission?_eq_some_iff {member : Member} {declared : Permission} :
    member.permission? = some declared ↔ member = .permission declared := by
  cases member <;> simp [Member.permission?]

namespace Outline

/-- A definition spans all tokens that it takes, those of faulty members too. -/
theorem spans (outline : Outline) : Spans outline.tokens outline.definition.range := by
  have onHeader : Spans outline.header.tokens
      ⟨outline.header.keyword.token.range.start, outline.header.opening.token.range.stop⟩ :=
    (Spans.single outline.header.keyword.token).join (.single _) outline.header.path.tokens
  -- The definition starts with its keyword, so that only its stop depends on the body.
  refine ⟨rfl, ?_⟩
  show (outline.header.tokens ++ outline.inside).getLast?.map (·.range.stop) =
    some (lastStop outline.header.opening.token.range.stop outline.inside)
  rw [List.getLast?_append, lastStop]
  cases outline.inside.getLast? with
  -- An empty body leaves the opening brace as the last token.
  | none => exact onHeader.stop_eq
  | some token => rfl

/-- An outlined definition is well formed over any tokens that hold its own. -/
theorem wellFormed (outline : Outline) {tokens : List Token} (ordered : Ordered tokens)
    (within : outline.tokens.Sublist tokens) : outline.definition.WellFormed tokens := by
  have leaves : Ordered outline.tokens := ordered.sublist within
  have whole := outline.spans
  have header : Ordered outline.header.tokens := leaves.left
  have pathLeaves : Ordered outline.header.path.tokens := header.tail.left
  have pathAmong : outline.header.path.tokens ⊆ outline.tokens := by
    intro token leaf
    simp [Outline.tokens, HeaderTree.tokens, leaf]
  have pathSpans := outline.header.path.spans pathLeaves
  -- Members take some of the tokens of the body, each a stretch of its own.
  have memberAmong : ∀ tree ∈ outline.members, tree.tokens.Sublist outline.inside := by
    intro tree listed
    exact (infix_flatMap_of_mem MemberTree.tokens listed).sublist.trans outline.members_sublist
  have insideAmong : outline.inside.Sublist outline.tokens := List.sublist_append_right _ _
  have memberSpans : ∀ tree ∈ outline.members, Spans tree.tokens tree.member.range := by
    intro tree listed
    exact tree.spans (leaves.right.sublist (memberAmong tree listed))
  have sequence : Range.InSequence Member.range (outline.members.map MemberTree.member) :=
    Range.InSequence.map_iff.mpr
      ((leaves.right.sublist outline.members_sublist).inSequence memberSpans)
  have formed : ∀ member ∈ outline.members.map MemberTree.member, member.WellFormed tokens := by
    intro member listed
    obtain ⟨tree, among, rfl⟩ := List.mem_map.mp listed
    exact tree.wellFormed ordered (((memberAmong tree among).trans insideAmong).trans within)
  refine ⟨whole.isOver leaves within.subset,
    pathSpans.isOver pathLeaves (List.Subset.trans pathAmong within.subset),
    pathSpans.within whole leaves pathAmong, ?_, ?_, ?_, ?_, ?_, ?_, ?_⟩
  · -- Relations alone keep the order that all members have.
    show Range.InSequence Relation.range (outline.members.filterMap MemberTree.relation?)
    rw [MemberTree.filterMap_relation?]
    refine sequence.filterMap ?_
    intro member relation chosen
    obtain rfl := Member.relation?_eq_some_iff.mp chosen
    rfl
  · show Range.InSequence Permission.range (outline.members.filterMap MemberTree.permission?)
    rw [MemberTree.filterMap_permission?]
    refine sequence.filterMap ?_
    intro member permission chosen
    obtain rfl := Member.permission?_eq_some_iff.mp chosen
    rfl
  · rw [members_definition leaves]
    exact sequence
  · -- Members stand inside the body, and the body inside the definition.
    rw [members_definition leaves]
    intro member listed
    obtain ⟨tree, among, rfl⟩ := List.mem_map.mp listed
    exact (memberSpans tree among).within whole leaves
      ((memberAmong tree among).trans insideAmong).subset
  · -- The path and the opening brace come before all tokens of the body.
    rw [members_definition leaves]
    intro member listed
    obtain ⟨tree, among, rfl⟩ := List.mem_map.mp listed
    refine pathSpans.stop_le_start (memberSpans tree among) ?_
    intro token leaf other otherLeaf
    exact leaves.apart token (by simp [HeaderTree.tokens, leaf]) other
      ((memberAmong tree among).subset otherLeaf)
  · -- A relation of the definition comes from a member that was kept.
    intro relation listed
    obtain ⟨tree, among, rfl⟩ := MemberTree.exists_relation listed
    exact formed _ (List.mem_map_of_mem among)
  · intro permission listed
    obtain ⟨tree, among, rfl⟩ := MemberTree.exists_permission listed
    exact formed _ (List.mem_map_of_mem among)

end Outline

/--
Every schema that is read is well formed over the tokens of its text, whatever the options.

This also holds where reading stopped because there was no room for another error.
-/
theorem wellFormed_of_read {options : Parse.Options} {source : String} {schema : Schema}
    (read : (parseWith options source).schema? = some schema) :
    schema.WellFormed (tokenize source).tokens := by
  obtain ⟨outlines, definitions, within⟩ := exists_outlines_sublist read
  have ordered := ordered_tokenize source
  refine ⟨?_, ?_⟩
  · -- Each outline spans the tokens of one definition, and those follow one another.
    rw [definitions]
    exact Range.InSequence.map_iff.mpr
      ((ordered.sublist within).inSequence fun outline _ => outline.spans)
  · intro definition declared
    rw [definitions] at declared
    obtain ⟨outline, listed, rfl⟩ := List.mem_map.mp declared
    exact outline.wellFormed ordered
      ((infix_flatMap_of_mem Outline.tokens listed).sublist.trans within)

/-- A text with one faulty relation, which a reader with room for one error does not read past. -/
def outOfRoom : String :=
  "definition a/b \x7b permission p = (r & s) - ((t->u)) relation r: a/b#r | u:*\n" ++
    "relation s oops relation q: u \x7d definition c \x7b \x7d"

/-- Out of room, the definition ends with the tokens that were skipped, and is well formed. -/
theorem wellFormed_of_read_outOfRoom :
    ∃ schema, (parseWith ⟨true, 1⟩ outOfRoom).schema? = some schema ∧
      schema.definitions.map Definition.range = [⟨⟨1, 1⟩, ⟨2, 16⟩⟩] ∧
      (schema.definitions.flatMap Definition.members).length = 2 ∧
      schema.WellFormed (tokenize outOfRoom).tokens := by
  obtain ⟨schema, read, ranges, members⟩ :
      ∃ schema ∈ (parseWith ⟨true, 1⟩ outOfRoom).schema?,
        schema.definitions.map Definition.range = [⟨⟨1, 1⟩, ⟨2, 16⟩⟩] ∧
        (schema.definitions.flatMap Definition.members).length = 2 := by
    decide +kernel
  exact ⟨schema, read, ranges, members, wellFormed_of_read read⟩

end AuthSchema
