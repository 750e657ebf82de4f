import AuthSchema.Schema.Member
import AuthSchema.Token.Basic

/-!
The grammar of schemas, as derivation trees over tokens.

* A schema is any number of definitions.
* A definition is `definition`, a path, and relations and permissions between braces.
* A relation is `relation`, a name, a colon and types, separated by `|`.
* A permission is `permission`, a name, an equals sign and an expression.
* A type is a path, and then `#` and a name, or `:` and a star, or nothing.
* A path is a name, or two names with a slash between them.
* An expression is terms joined by `+` and `-`, and a term is factors joined by `&`.
* A factor is a name, an arrow between two names, `nil`, or an expression in parentheses.
-/

namespace AuthSchema.Grammar

/-- A token of one kind. -/
structure TokenOf (kind : TokenKind) where
  token : Token
  kind_eq : token.kind = kind

/-- The token of a leaf is of its kind. -/
@[simp] theorem TokenOf.kind_token {kind : TokenKind} (leaf : TokenOf kind) :
    leaf.token.kind = kind :=
  leaf.kind_eq

/-- What an expression can be, by how tightly it binds. -/
inductive Rank where
  /-- Terms joined by `+` and `-`. -/
  | expression
  /-- Factors joined by `&`. -/
  | term
  /-- What stands between operators. -/
  | factor

/-- The derivations of expressions, which group operators of one rank from the left. -/
inductive ExprTree : Rank → Type where
  /-- A term alone. -/
  | term (only : ExprTree .term) : ExprTree .expression
  /-- An expression, `+` and a term. -/
  | union (left : ExprTree .expression) (sign : TokenOf .plus) (right : ExprTree .term) :
    ExprTree .expression
  /-- An expression, `-` and a term. -/
  | exclusion (left : ExprTree .expression) (sign : TokenOf .minus) (right : ExprTree .term) :
    ExprTree .expression
  /-- A factor alone. -/
  | factor (only : ExprTree .factor) : ExprTree .term
  /-- A term, `&` and a factor. -/
  | intersection (left : ExprTree .term) (sign : TokenOf .ampersand) (right : ExprTree .factor) :
    ExprTree .term
  /-- A name alone. -/
  | name (only : TokenOf .identifier) : ExprTree .factor
  /-- A name, `->` and a name. -/
  | arrow (left : TokenOf .identifier) (sign : TokenOf .arrow) (right : TokenOf .identifier) :
    ExprTree .factor
  /-- The keyword `nil`. -/
  | nil (keyword : TokenOf .nil) : ExprTree .factor
  /-- An expression in parentheses. -/
  | parens (opening : TokenOf .leftParen) (inner : ExprTree .expression)
      (closing : TokenOf .rightParen) : ExprTree .factor

namespace ExprTree

/-- The tokens at the leaves, from left to right. -/
def tokens : {rank : Rank} → ExprTree rank → List Token
  | _, .term only => only.tokens
  | _, .union left sign right => left.tokens ++ sign.token :: right.tokens
  | _, .exclusion left sign right => left.tokens ++ sign.token :: right.tokens
  -- A factor alone adds no tokens, as a term alone does not.
  | _, .factor only => only.tokens
  | _, .intersection left sign right => left.tokens ++ sign.token :: right.tokens
  | _, .name only => [only.token]
  | _, .arrow left sign right => [left.token, sign.token, right.token]
  | _, .nil keyword => [keyword.token]
  -- Both parentheses are leaves, though neither leaves a node.
  | _, .parens opening inner closing => opening.token :: (inner.tokens ++ [closing.token])

/-- The largest number of parentheses around any factor. -/
def nesting : {rank : Rank} → ExprTree rank → Nat
  | _, .term only => only.nesting
  | _, .union left _ right => max left.nesting right.nesting
  | _, .exclusion left _ right => max left.nesting right.nesting
  | _, .factor only => only.nesting
  | _, .intersection left _ right => max left.nesting right.nesting
  -- Only parentheses nest, and names and arrows have none.
  | _, .name _ | _, .arrow _ _ _ | _, .nil _ => 0
  | _, .parens _ inner _ => inner.nesting + 1

/-- The stretch of text from the first to the last token, parentheses included. -/
def extent : {rank : Rank} → ExprTree rank → Range
  | _, .term only => only.extent
  | _, .union left _ right => ⟨left.extent.start, right.extent.stop⟩
  | _, .exclusion left _ right => ⟨left.extent.start, right.extent.stop⟩
  | _, .factor only => only.extent
  | _, .intersection left _ right => ⟨left.extent.start, right.extent.stop⟩
  | _, .name only => only.token.range
  | _, .arrow left _ right => left.token.range.cover right.token.range
  | _, .nil keyword => keyword.token.range
  -- A node inside may be narrower than the text that derives it.
  | _, .parens opening _ closing => ⟨opening.token.range.start, closing.token.range.stop⟩

/-- A name as it stands in an expression. -/
def nameRef (leaf : TokenOf .identifier) : NameRef :=
  ⟨leaf.token.text, leaf.token.range⟩

/-- The expression that is derived, in which parentheses leave no node. -/
def expr : {rank : Rank} → ExprTree rank → Expr
  | _, .term only => only.expr
  | _, .union left sign right =>
    .binary .union left.expr right.expr (union left sign right).extent
  | _, .exclusion left sign right =>
    .binary .exclusion left.expr right.expr (exclusion left sign right).extent
  | _, .factor only => only.expr
  | _, .intersection left sign right =>
    .binary .intersection left.expr right.expr (intersection left sign right).extent
  | _, .name only => .reference (nameRef only)
  | _, .arrow left sign right =>
    .arrow ⟨nameRef left, nameRef right, (arrow left sign right).extent⟩
  | _, .nil keyword => .nil keyword.token.range
  | _, .parens _ inner _ => inner.expr

end ExprTree

/-- The derivations of paths. -/
inductive PathTree where
  /-- A name alone. -/
  | single (name : TokenOf .identifier)
  /-- A name, a slash and a name. -/
  | pair (first : TokenOf .identifier) (slash : TokenOf .slash) (second : TokenOf .identifier)

namespace PathTree

/-- The tokens at the leaves. -/
def tokens : PathTree → List Token
  | .single name => [name.token]
  | .pair first slash second => [first.token, slash.token, second.token]

/-- The path as it is written. -/
def name : PathTree → String
  | .single name => name.token.text
  -- The slash stands between the two names, with no space in the text that is derived.
  | .pair first _ second => first.token.text ++ "/" ++ second.token.text

/-- Where the path is written. -/
def range : PathTree → Range
  | .single name => name.token.range
  | .pair first _ second => first.token.range.cover second.token.range

/-- No byte lies between the tokens of the path. -/
def Unspaced : PathTree → Prop
  | .single _ => True
  -- The offsets count bytes, so that a space of any sort counts.
  | .pair first slash second =>
    first.token.stop.offset = slash.token.start.offset ∧
      slash.token.stop.offset = second.token.start.offset

end PathTree

/-- The derivations of what may follow the path of a type. -/
inductive SuffixTree where
  /-- Nothing. -/
  | none
  /-- `#` and a name. -/
  | relation (hash : TokenOf .hash) (name : TokenOf .identifier)
  /-- `:` and a star. -/
  | wildcard (colon : TokenOf .colon) (star : TokenOf .star)

/-- The tokens at the leaves. -/
def SuffixTree.tokens : SuffixTree → List Token
  | .none => []
  | .relation hash name => [hash.token, name.token]
  | .wildcard colon star => [colon.token, star.token]

/-- The derivations of types. -/
structure TypeTree where
  path : PathTree
  suffix : SuffixTree

namespace TypeTree

/-- The tokens at the leaves. -/
def tokens (tree : TypeTree) : List Token :=
  tree.path.tokens ++ tree.suffix.tokens

/-- The type that is derived. -/
def subjectType (tree : TypeTree) : SubjectType :=
  match tree.suffix with
  -- Without a suffix the type ends with its path.
  | .none => ⟨tree.path.name, tree.path.range, none, none, false, tree.path.range⟩
  | .relation _ name =>
    ⟨tree.path.name, tree.path.range, some name.token.text, some name.token.range, false,
      ⟨tree.path.range.start, name.token.range.stop⟩⟩
  | .wildcard _ star =>
    ⟨tree.path.name, tree.path.range, none, none, true,
      ⟨tree.path.range.start, star.token.range.stop⟩⟩

end TypeTree

/-- The derivations of relations. -/
structure RelationTree where
  keyword : TokenOf .relation
  name : TokenOf .identifier
  colon : TokenOf .colon
  first : TypeTree
  /-- The further types, each after a bar. -/
  more : List (TokenOf .pipe × TypeTree)

/-- The tokens of further types, each after its bar. -/
def furtherTokens (more : List (TokenOf .pipe × TypeTree)) : List Token :=
  more.flatMap fun (bar, type) => bar.token :: type.tokens

namespace RelationTree

/-- All types, in document order. -/
def types (tree : RelationTree) : List TypeTree :=
  -- One type is required, and each further one has a bar of its own.
  tree.first :: tree.more.map Prod.snd

/-- The tokens at the leaves. -/
def tokens (tree : RelationTree) : List Token :=
  tree.keyword.token :: tree.name.token :: tree.colon.token ::
    (tree.first.tokens ++ furtherTokens tree.more)

/-- The relation that is derived, which ends where its last type ends. -/
def relation (tree : RelationTree) : Relation where
  name := tree.name.token.text
  nameRange := tree.name.token.range
  -- The last of the further types ends the relation, or else the first one does.
  range := ⟨tree.keyword.token.range.start,
    ((tree.more.map Prod.snd).getLastD tree.first).subjectType.range.stop⟩
  subjectTypes := tree.types.map TypeTree.subjectType

end RelationTree

/-- The derivations of permissions. -/
structure PermissionTree where
  keyword : TokenOf .permission
  name : TokenOf .identifier
  equals : TokenOf .equals
  expression : ExprTree .expression

namespace PermissionTree

/-- The tokens at the leaves. -/
def tokens (tree : PermissionTree) : List Token :=
  tree.keyword.token :: tree.name.token :: tree.equals.token :: tree.expression.tokens

/-- The permission that is derived, which ends where its expression ends. -/
def permission (tree : PermissionTree) : Permission where
  name := tree.name.token.text
  nameRange := tree.name.token.range
  -- The extent is used, since the closing parentheses are part of the permission.
  range := ⟨tree.keyword.token.range.start, tree.expression.extent.stop⟩
  expression := tree.expression.expr

end PermissionTree

/-- The derivations of members. -/
inductive MemberTree where
  /-- A relation. -/
  | relation (tree : RelationTree)
  /-- A permission. -/
  | permission (tree : PermissionTree)

namespace MemberTree

/-- The tokens at the leaves. -/
def tokens : MemberTree → List Token
  | .relation tree => tree.tokens
  | .permission tree => tree.tokens

/-- The keyword that opens the member. -/
def keyword : MemberTree → Token
  | .relation tree => tree.keyword.token
  | .permission tree => tree.keyword.token

/-- The keyword is the first token. -/
theorem tokens_eq_cons (tree : MemberTree) : tree.tokens = tree.keyword :: tree.tokens.tail := by
  -- Both kinds of members put their keyword first.
  cases tree <;> rfl

/-- The keyword says which of the two kinds of members it opens. -/
theorem keyword_kind (tree : MemberTree) :
    tree.keyword.kind = .relation ∨ tree.keyword.kind = .permission := by
  cases tree with
  | relation tree => exact .inl tree.keyword.kind_eq
  | permission tree => exact .inr tree.keyword.kind_eq

/-- The member that is derived. -/
def member : MemberTree → Member
  | .relation tree => .relation tree.relation
  | .permission tree => .permission tree.permission

/-- The relation that is derived, where the member is one. -/
def relation? : MemberTree → Option Relation
  | .relation tree => some tree.relation
  | .permission _ => none

/-- The permission that is derived, where the member is one. -/
def permission? : MemberTree → Option Permission
  | .relation _ => none
  | .permission tree => some tree.permission

/-- A derivation of a relation is one of a member that is that relation. -/
theorem relation?_eq (tree : MemberTree) : tree.relation? = tree.member.relation? := by
  -- Each kind gives itself, and the other kind gives nothing.
  cases tree <;> rfl

/-- A derivation of a permission is one of a member that is that permission. -/
theorem permission?_eq (tree : MemberTree) : tree.permission? = tree.member.permission? := by
  cases tree <;> rfl

/-- The relations that are derived are those among the members that are derived. -/
theorem filterMap_relation? (trees : List MemberTree) :
    trees.filterMap relation? = (trees.map member).filterMap Member.relation? := by
  -- The choice is made tree by tree, and agrees with that of the member.
  rw [List.filterMap_map]
  exact congrArg (trees.filterMap ·) (funext relation?_eq)

/-- The permissions that are derived are those among the members that are derived. -/
theorem filterMap_permission? (trees : List MemberTree) :
    trees.filterMap permission? = (trees.map member).filterMap Member.permission? := by
  rw [List.filterMap_map]
  exact congrArg (trees.filterMap ·) (funext permission?_eq)

/-- A relation among those that are derived has a derivation of its own. -/
theorem exists_relation {trees : List MemberTree} {declared : Relation}
    (listed : declared ∈ trees.filterMap relation?) :
    ∃ tree, .relation tree ∈ trees ∧ tree.relation = declared := by
  -- Only derivations of relations are kept by the choice.
  obtain ⟨tree, among, isRelation⟩ := List.mem_filterMap.mp listed
  cases tree with
  | relation tree => exact ⟨tree, among, Option.some.inj isRelation⟩
  -- What derives a permission gives no relation.
  | permission tree => cases isRelation

/-- A permission among those that are derived has a derivation of its own. -/
theorem exists_permission {trees : List MemberTree} {declared : Permission}
    (listed : declared ∈ trees.filterMap permission?) :
    ∃ tree, .permission tree ∈ trees ∧ tree.permission = declared := by
  -- Only derivations of permissions are kept by the choice.
  obtain ⟨tree, among, isPermission⟩ := List.mem_filterMap.mp listed
  cases tree with
  -- What derives a relation gives no permission.
  | relation tree => cases isPermission
  | permission tree => exact ⟨tree, among, Option.some.inj isPermission⟩

/-- The paths are unspaced, and at most 128 parentheses are around any factor. -/
def WithinLimits : MemberTree → Prop
  -- Only relations have paths, and only permissions have parentheses.
  | .relation tree => ∀ type ∈ tree.types, type.path.Unspaced
  | .permission tree => tree.expression.nesting ≤ 128

end MemberTree

/-- The derivations of what stands before the body of a definition. -/
structure HeaderTree where
  keyword : TokenOf .definition
  path : PathTree
  opening : TokenOf .leftBrace

/-- The tokens at the leaves. -/
def HeaderTree.tokens (tree : HeaderTree) : List Token :=
  tree.keyword.token :: (tree.path.tokens ++ [tree.opening.token])

/-- The derivations of definitions. -/
structure DefinitionTree where
  header : HeaderTree
  /-- The relations and permissions, in document order. -/
  members : List MemberTree
  closing : TokenOf .rightBrace

namespace DefinitionTree

/-- The tokens at the leaves. -/
def tokens (tree : DefinitionTree) : List Token :=
  tree.header.tokens ++ (tree.members.flatMap MemberTree.tokens ++ [tree.closing.token])

/-- The definition that is derived, from its keyword to its closing brace. -/
def definition (tree : DefinitionTree) : Definition where
  name := tree.header.path.name
  nameRange := tree.header.path.range
  range := ⟨tree.header.keyword.token.range.start, tree.closing.token.range.stop⟩
  -- Members of both kinds may stand in any order, and each kind keeps its own.
  relations := tree.members.filterMap MemberTree.relation?
  permissions := tree.members.filterMap MemberTree.permission?

/-- The declared path and all members keep to the limits. -/
def WithinLimits (tree : DefinitionTree) : Prop :=
  tree.header.path.Unspaced ∧ ∀ member ∈ tree.members, member.WithinLimits

end DefinitionTree

/-- The derivations of schemas. -/
structure SchemaTree where
  /-- The definitions, in document order. -/
  definitions : List DefinitionTree

namespace SchemaTree

/-- The tokens at the leaves. -/
def tokens (tree : SchemaTree) : List Token :=
  tree.definitions.flatMap DefinitionTree.tokens

/-- The schema that is derived. -/
def schema (tree : SchemaTree) : Schema :=
  ⟨tree.definitions.map DefinitionTree.definition⟩

/-- All definitions keep to the limits. -/
def WithinLimits (tree : SchemaTree) : Prop :=
  ∀ definition ∈ tree.definitions, definition.WithinLimits

end SchemaTree

end AuthSchema.Grammar
