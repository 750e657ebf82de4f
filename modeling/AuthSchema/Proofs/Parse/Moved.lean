import AuthSchema.Proofs.Parse.Grammar
import AuthSchema.Proofs.Schema.Ranges
import AuthSchema.Proofs.Schema.Spelling

/-!
Derivations over tokens that are moved: the same names in the same structure, at other ranges.

A derivation is moved leaf by leaf. It keeps to the limits, and what it derives is what was derived
before, with every range moved along.
-/

namespace AuthSchema.Grammar

variable (base target : Place)

/-- A leaf whose token is moved. -/
def TokenOf.moved {kind : TokenKind} (leaf : TokenOf kind) : TokenOf kind :=
  ⟨leaf.token.moved base target, leaf.kind_eq⟩

/-- The token of a moved leaf is its token moved. -/
@[simp] theorem TokenOf.token_moved {kind : TokenKind} (leaf : TokenOf kind) :
    (leaf.moved base target).token = leaf.token.moved base target :=
  rfl

/-- An expression all leaves of which are moved. -/
def ExprTree.moved : {rank : Rank} → ExprTree rank → ExprTree rank
  | _, .term only => .term only.moved
  | _, .union left sign right => .union left.moved (sign.moved base target) right.moved
  | _, .exclusion left sign right => .exclusion left.moved (sign.moved base target) right.moved
  | _, .factor only => .factor only.moved
  | _, .intersection left sign right =>
    -- Operands are moved on both sides of a sign.
    .intersection left.moved (sign.moved base target) right.moved
  | _, .name only => .name (only.moved base target)
  | _, .arrow left sign right =>
    .arrow (left.moved base target) (sign.moved base target) (right.moved base target)
  | _, .nil keyword => .nil (keyword.moved base target)
  | _, .parens opening inner closing =>
    .parens (opening.moved base target) inner.moved (closing.moved base target)

/-- A path all leaves of which are moved. -/
def PathTree.moved : PathTree → PathTree
  | .single name => .single (name.moved base target)
  | .pair first slash second =>
    .pair (first.moved base target) (slash.moved base target) (second.moved base target)

/-- A suffix all leaves of which are moved. -/
def SuffixTree.moved : SuffixTree → SuffixTree
  | .none => .none
  | .relation hash name => .relation (hash.moved base target) (name.moved base target)
  | .wildcard colon star => .wildcard (colon.moved base target) (star.moved base target)

/-- A type all leaves of which are moved. -/
def TypeTree.moved (tree : TypeTree) : TypeTree :=
  ⟨tree.path.moved base target, tree.suffix.moved base target⟩

/-- A relation all leaves of which are moved. -/
def RelationTree.moved (tree : RelationTree) : RelationTree :=
  ⟨tree.keyword.moved base target, tree.name.moved base target, tree.colon.moved base target,
    tree.first.moved base target,
    -- Each bar is moved together with its type.
    tree.more.map fun (bar, type) => (bar.moved base target, type.moved base target)⟩

/-- A permission all leaves of which are moved. -/
def PermissionTree.moved (tree : PermissionTree) : PermissionTree :=
  ⟨tree.keyword.moved base target, tree.name.moved base target, tree.equals.moved base target,
    tree.expression.moved base target⟩

/-- A member all leaves of which are moved. -/
def MemberTree.moved : MemberTree → MemberTree
  | .relation tree => .relation (tree.moved base target)
  | .permission tree => .permission (tree.moved base target)

/-- A header all leaves of which are moved. -/
def HeaderTree.moved (tree : HeaderTree) : HeaderTree :=
  ⟨tree.keyword.moved base target, tree.path.moved base target, tree.opening.moved base target⟩

/-- A definition all leaves of which are moved. -/
def DefinitionTree.moved (tree : DefinitionTree) : DefinitionTree :=
  ⟨tree.header.moved base target, tree.members.map (MemberTree.moved base target),
    tree.closing.moved base target⟩

section Tokens

/-- The leaves of a moved expression are its leaves moved. -/
@[simp] theorem ExprTree.tokens_moved {rank : Rank} (tree : ExprTree rank) :
    (tree.moved base target).tokens = tree.tokens.map (Token.moved base target) := by
  -- The induction is on the derivation, and each case maps its own leaves.
  induction tree <;> simp_all [moved, tokens]

/-- The leaves of a moved path are its leaves moved. -/
@[simp] theorem PathTree.tokens_moved (tree : PathTree) :
    (tree.moved base target).tokens = tree.tokens.map (Token.moved base target) := by
  cases tree <;> rfl

/-- The leaves of a moved type are its leaves moved. -/
@[simp] theorem TypeTree.tokens_moved (tree : TypeTree) :
    (tree.moved base target).tokens = tree.tokens.map (Token.moved base target) := by
  -- The suffix decides how many leaves there are behind the path.
  obtain ⟨path, suffix⟩ := tree
  cases suffix <;> simp [moved, tokens, SuffixTree.moved, SuffixTree.tokens]

/-- The leaves of a moved member are its leaves moved. -/
@[simp] theorem MemberTree.tokens_moved (tree : MemberTree) :
    (tree.moved base target).tokens = tree.tokens.map (Token.moved base target) := by
  -- Both kinds start with three leaves, and differ in the rest.
  cases tree with
  | relation tree =>
    simp [moved, tokens, RelationTree.moved, RelationTree.tokens, furtherTokens, List.map_flatMap,
      List.flatMap_map]
  | permission tree => simp [moved, tokens, PermissionTree.moved, PermissionTree.tokens]

/-- The leaves of a moved definition are its leaves moved. -/
@[simp] theorem DefinitionTree.tokens_moved (tree : DefinitionTree) :
    (tree.moved base target).tokens = tree.tokens.map (Token.moved base target) := by
  simp [moved, tokens, HeaderTree.moved, HeaderTree.tokens, List.map_flatMap, List.flatMap_map]

end Tokens

section Limits

/-- Moving nests no parenthesis deeper. -/
@[simp] theorem ExprTree.nesting_moved {rank : Rank} (tree : ExprTree rank) :
    (tree.moved base target).nesting = tree.nesting := by
  -- Moving keeps the shape of the derivation.
  induction tree <;> simp_all [moved, nesting]

/-- No byte comes to lie between tokens that touch. -/
theorem PathTree.Unspaced.moved {tree : PathTree} (unspaced : tree.Unspaced) :
    (tree.moved base target).Unspaced := by
  -- The two offsets that are compared are moved by the same number of bytes.
  cases tree with
  | single name => trivial
  | pair first slash second =>
    obtain ⟨before, after⟩ := unspaced
    constructor
    · simp [Token.moved, Place.moved, before]
    · simp [Token.moved, Place.moved, after]

/-- The types of a moved relation are its types moved. -/
theorem RelationTree.types_moved (tree : RelationTree) :
    (tree.moved base target).types = tree.types.map (TypeTree.moved base target) := by
  -- The first type and each further one are moved by themselves.
  simp [types, moved, Function.comp_def]

/-- A moved member keeps to the limits. -/
theorem MemberTree.WithinLimits.moved {tree : MemberTree} (limits : tree.WithinLimits) :
    (tree.moved base target).WithinLimits := by
  cases tree with
  | relation tree =>
    -- Each type of the moved relation is one of the old types moved.
    intro type listed
    rw [RelationTree.types_moved] at listed
    obtain ⟨inner, among, rfl⟩ := List.mem_map.mp listed
    exact (limits inner among).moved base target
  | permission tree =>
    -- Only the nesting is limited, which moving does not change.
    have shallow : tree.expression.nesting ≤ 128 := limits
    simpa [MemberTree.moved, PermissionTree.moved, WithinLimits] using shallow

/-- A moved definition keeps to the limits. -/
theorem DefinitionTree.WithinLimits.moved {tree : DefinitionTree} (limits : tree.WithinLimits) :
    (tree.moved base target).WithinLimits := by
  -- Limits are about each member alone, and about the path.
  refine ⟨limits.1.moved base target, ?_⟩
  intro member listed
  obtain ⟨inner, among, rfl⟩ := List.mem_map.mp listed
  exact (limits.2 inner among).moved base target

end Limits

section Derived

variable {base}

/-- An expression is derived at moved ranges, and reaches over a moved stretch of text. -/
structure ExprTree.MovesAlong (base target : Place) {rank : Rank} (tree : ExprTree rank) :
    Prop where
  extent_eq : (tree.moved base target).extent = tree.extent.moved base.position target.position
  expr_eq : (tree.moved base target).expr =
    tree.expr.mapRanges (Range.moved base.position target.position)

namespace ExprTree.MovesAlong

variable {target} {leftRank rightRank : Rank} {left : ExprTree leftRank}
  {right : ExprTree rightRank}

/-- Two operands reach from the start of one to the stop of the other. -/
theorem joined_extent (onLeft : left.MovesAlong base target)
    (onRight : right.MovesAlong base target) :
    (⟨(left.moved base target).extent.start, (right.moved base target).extent.stop⟩ : Range) =
      Range.moved base.position target.position ⟨left.extent.start, right.extent.stop⟩ := by
  -- The start is that of the left operand and the stop that of the right one.
  rw [onLeft.extent_eq, onRight.extent_eq]
  rfl

/-- Two operands are joined at moved ranges when each of them is moved. -/
theorem joined_expr (onLeft : left.MovesAlong base target)
    (onRight : right.MovesAlong base target) (operator : Operator) :
    Expr.binary operator (left.moved base target).expr (right.moved base target).expr
        ⟨(left.moved base target).extent.start, (right.moved base target).extent.stop⟩ =
      (Expr.binary operator left.expr right.expr ⟨left.extent.start, right.extent.stop⟩).mapRanges
        (Range.moved base.position target.position) := by
  -- The range is moved as a whole, and each operand by itself.
  rw [onLeft.joined_extent onRight, onLeft.expr_eq, onRight.expr_eq]
  rfl

end ExprTree.MovesAlong

/-- What an expression derives is moved along with its tokens. -/
theorem ExprTree.movesAlong {rank : Rank} (tree : ExprTree rank)
    (behind : Behind base.position tree.tokens) : tree.MovesAlong base target := by
  -- The induction is on the derivation, and operands are joined in the same way in each case.
  induction tree with
  -- One operand alone reaches as far as it does without the others.
  | term only ih =>
    have inner := ih behind
    exact ⟨inner.extent_eq, inner.expr_eq⟩
  | factor only ih =>
    have inner := ih behind
    exact ⟨inner.extent_eq, inner.expr_eq⟩
  | union left sign right ihLeft ihRight =>
    have onLeft := ihLeft fun token leaf => behind token (by simp [tokens, leaf])
    have onRight := ihRight fun token leaf => behind token (by simp [tokens, leaf])
    exact ⟨onLeft.joined_extent onRight, onLeft.joined_expr onRight .union⟩
  | exclusion left sign right ihLeft ihRight =>
    have onLeft := ihLeft fun token leaf => behind token (by simp [tokens, leaf])
    have onRight := ihRight fun token leaf => behind token (by simp [tokens, leaf])
    exact ⟨onLeft.joined_extent onRight, onLeft.joined_expr onRight .exclusion⟩
  | intersection left sign right ihLeft ihRight =>
    have onLeft := ihLeft fun token leaf => behind token (by simp [tokens, leaf])
    have onRight := ihRight fun token leaf => behind token (by simp [tokens, leaf])
    exact ⟨onLeft.joined_extent onRight, onLeft.joined_expr onRight .intersection⟩
  | name only => exact ⟨rfl, rfl⟩
  | arrow left sign right =>
    -- The arrow covers both its names, none of which lies before the base.
    have onLeft := behind left.token (by simp [tokens])
    have onRight := behind right.token (by simp [tokens])
    have whole := (Range.moved_cover target.position onLeft.1 onLeft.2 onRight.1 onRight.2).symm
    exact ⟨whole, congrArg (fun range => Expr.arrow ⟨_, _, range⟩) whole⟩
  | nil keyword => exact ⟨rfl, rfl⟩
  | parens opening inner closing ih =>
    -- Parentheses have their own range, and change nothing of the expression inside.
    exact ⟨rfl, (ih fun token leaf => behind token (by simp [tokens, leaf])).expr_eq⟩

/-- The range of a moved path is its range moved. -/
theorem PathTree.range_moved (tree : PathTree) (behind : Behind base.position tree.tokens) :
    (tree.moved base target).range = tree.range.moved base.position target.position := by
  -- A pair covers both its names, none of which lies before the base.
  cases tree with
  | single name => rfl
  | pair first slash second =>
    have onFirst := behind first.token (by simp [tokens])
    have onSecond := behind second.token (by simp [tokens])
    exact (Range.moved_cover _ onFirst.1 onFirst.2 onSecond.1 onSecond.2).symm

/-- Moving changes no text, and so no name. -/
theorem PathTree.name_moved (tree : PathTree) : (tree.moved base target).name = tree.name := by
  cases tree <;> rfl

/-- The type of a moved derivation is the same at moved ranges. -/
theorem TypeTree.subjectType_moved (tree : TypeTree) (behind : Behind base.position tree.tokens) :
    (tree.moved base target).subjectType =
      tree.subjectType.mapRanges (Range.moved base.position target.position) := by
  obtain ⟨path, suffix⟩ := tree
  have onPath := path.range_moved target fun token leaf =>
    behind token (by simp [tokens, leaf])
  -- The suffix is moved token by token, and the whole starts with the path.
  cases suffix <;>
    simp [moved, subjectType, SuffixTree.moved, SubjectType.mapRanges, onPath, PathTree.name_moved,
      Range.moved]

/-- The relation of a moved derivation is the same at moved ranges. -/
theorem RelationTree.relation_moved (tree : RelationTree)
    (behind : Behind base.position tree.tokens) :
    (tree.moved base target).relation =
      tree.relation.mapRanges (Range.moved base.position target.position) := by
  -- Every type lies in the relation, and so behind the base.
  have types : ∀ type ∈ tree.types, (type.moved base target).subjectType =
      type.subjectType.mapRanges (Range.moved base.position target.position) := by
    intro type listed
    refine type.subjectType_moved target fun token leaf => ?_
    exact behind token ((tokens_isInfix listed).subset leaf)
  have types_eq : (tree.moved base target).types.map TypeTree.subjectType =
      (tree.types.map TypeTree.subjectType).map
        (SubjectType.mapRanges (Range.moved base.position target.position)) := by
    rw [types_moved, List.map_map, List.map_map]
    exact List.map_congr_left types
  -- The last type decides where the relation stops, and it is one of the types.
  have last_eq : ((tree.moved base target).more.map Prod.snd).getLastD
        (tree.first.moved base target) =
      ((tree.more.map Prod.snd).getLastD tree.first).moved base target := by
    have more_eq : (tree.moved base target).more.map Prod.snd =
        (tree.more.map Prod.snd).map (TypeTree.moved base target) := by
      simp [moved, Function.comp_def]
    rw [more_eq, List.getLastD_map]
  have last := types _ List.getLastD_mem_cons
  rw [relation, types_eq]
  simp only [moved] at last_eq ⊢
  rw [last_eq, last]
  rfl

/-- The member of a moved derivation is the same at moved ranges. -/
theorem MemberTree.member_moved (tree : MemberTree) (behind : Behind base.position tree.tokens) :
    (tree.moved base target).member =
      tree.member.mapRanges (Range.moved base.position target.position) := by
  cases tree with
  | relation tree => exact congrArg Member.relation (tree.relation_moved target behind)
  | permission tree =>
    -- The expression lies in the permission, and so behind the base.
    have inside := tree.expression.movesAlong target fun token leaf =>
      behind token (by simp [tokens, PermissionTree.tokens, leaf])
    simp [moved, member, PermissionTree.moved, PermissionTree.permission, Member.mapRanges,
      Permission.mapRanges, inside.expr_eq, inside.extent_eq, Range.moved]

/-- The definition of a moved derivation is the same at moved ranges. -/
theorem DefinitionTree.definition_moved (tree : DefinitionTree)
    (behind : Behind base.position tree.tokens) :
    (tree.moved base target).definition =
      tree.definition.mapRanges (Range.moved base.position target.position) := by
  -- The path and the members lie in the definition, and so behind the base.
  have path : Behind base.position tree.header.path.tokens := fun token leaf =>
    behind token (by simp [tokens, HeaderTree.tokens, leaf])
  have members : (tree.members.map (MemberTree.moved base target)).map MemberTree.member =
      (tree.members.map MemberTree.member).map
        (Member.mapRanges (Range.moved base.position target.position)) := by
    rw [List.map_map, List.map_map]
    refine List.map_congr_left fun member listed => member.member_moved target fun token leaf => ?_
    have among := (infix_flatMap_of_mem MemberTree.tokens listed).subset leaf
    exact behind token (by simp only [tokens, List.mem_append, among, true_or, or_true])
  -- Members are moved one by one, before they are sorted out by kind.
  simp only [definition, moved, MemberTree.filterMap_relation?, MemberTree.filterMap_permission?,
    members]
  simp only [HeaderTree.moved, List.filterMap_map, Function.comp_def,
    Member.relation?_mapRanges, Member.permission?_mapRanges,
    tree.header.path.range_moved target path, PathTree.name_moved, Definition.mapRanges,
    List.map_filterMap]
  rfl

end Derived

end AuthSchema.Grammar
