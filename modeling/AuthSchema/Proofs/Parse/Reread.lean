import AuthSchema.Proofs.Parse.Moved

/-!
Every node of a schema is read again from the text at its range.

* A definition is read from its own text, with its ranges counted from its start.
* A member, a type or an expression is read from its text inside a definition that holds it alone.
-/

namespace AuthSchema

open Grammar

namespace Grammar

/-- An expression has tokens of known kinds only. -/
theorem ExprTree.known {rank : Rank} (tree : ExprTree rank) : Known tree.tokens := by
  induction tree <;> simp_all [tokens]

/-- A path has tokens of known kinds only. -/
theorem PathTree.known (tree : PathTree) : Known tree.tokens := by
  cases tree <;> simp [tokens]

/-- A type has tokens of known kinds only. -/
theorem TypeTree.known (tree : TypeTree) : Known tree.tokens := by
  obtain ⟨path, suffix⟩ := tree
  cases suffix <;> simp [tokens, SuffixTree.tokens, path.known]

/-- A member has tokens of known kinds only. -/
theorem MemberTree.known (tree : MemberTree) : Known tree.tokens := by
  cases tree with
  | relation tree => simp [tokens, RelationTree.tokens, furtherTokens, TypeTree.known]
  | permission tree => simp [tokens, PermissionTree.tokens, ExprTree.known]

/-- A definition has tokens of known kinds only. -/
theorem DefinitionTree.known (tree : DefinitionTree) : Known tree.tokens := by
  simp [tokens, HeaderTree.tokens, PathTree.known, MemberTree.known]

/-- A definition reaches from its keyword to its closing brace. -/
theorem DefinitionTree.spans (tree : DefinitionTree) : Spans tree.tokens tree.definition.range := by
  -- Keyword and brace are the ends, whatever the members between them.
  have whole := (Spans.single tree.header.keyword.token).join (.single tree.closing.token)
    (tree.header.tokens.tail ++ tree.members.flatMap MemberTree.tokens)
  simpa [tokens, HeaderTree.tokens, definition] using whole

/-- A derivation of any rank as one of an expression. -/
def ExprTree.toExpression : {rank : Rank} → ExprTree rank → ExprTree .expression
  | .expression, tree => tree
  | .term, tree => .term tree
  | .factor, tree => .term (.factor tree)

end Grammar

/-- An expression with all expressions inside it, at any depth. -/
def Expr.nodes : Expr → List Expr
  | .reference written => [.reference written]
  | .arrow written => [.arrow written]
  | .nil range => [.nil range]
  | .binary operator left right range =>
    .binary operator left right range :: (left.nodes ++ right.nodes)

namespace Grammar.ExprTree

/-- A derivation inside another one, of an expression that reaches over all its tokens. -/
structure Derives {rank : Rank} (tree : ExprTree rank) (node : Expr)
    (inner : ExprTree .expression) : Prop where
  expr_eq : inner.expr = node
  extent_eq : inner.extent = node.range
  tokens_isInfix : inner.tokens <:+: tree.tokens
  nesting_le : inner.nesting ≤ tree.nesting

/-- An expression that parentheses do not surround is derived by its own tokens. -/
theorem derives_self {rank : Rank} (tree : ExprTree rank) (whole : tree.extent = tree.expr.range) :
    tree.Derives tree.expr tree.toExpression := by
  cases rank <;> exact ⟨rfl, whole, List.infix_refl _, Nat.le_refl _⟩

/-- What is derived inside a part is derived inside the whole. -/
theorem Derives.inside {rank outer : Rank} {tree : ExprTree rank} {node : Expr}
    {inner : ExprTree .expression} (derives : tree.Derives node inner) {around : ExprTree outer}
    (tokens_isInfix : tree.tokens <:+: around.tokens) (nesting_le : tree.nesting ≤ around.nesting) :
    around.Derives node inner :=
  ⟨derives.expr_eq, derives.extent_eq, derives.tokens_isInfix.trans tokens_isInfix,
    Nat.le_trans derives.nesting_le nesting_le⟩

/-- A node of two joined operands is both of them together, or a node of one of them. -/
theorem exists_derives_of_operands {rank leftRank rightRank : Rank} {tree : ExprTree rank}
    {left : ExprTree leftRank} {right : ExprTree rightRank} {sign : Token} {operator : Operator}
    (tokens_eq : tree.tokens = left.tokens ++ sign :: right.tokens)
    (nesting_eq : tree.nesting = max left.nesting right.nesting)
    (expr_eq : tree.expr = .binary operator left.expr right.expr tree.extent)
    (onLeft : ∀ node ∈ left.expr.nodes, ∃ inner, left.Derives node inner)
    (onRight : ∀ node ∈ right.expr.nodes, ∃ inner, right.Derives node inner) :
    ∀ node ∈ tree.expr.nodes, ∃ inner, tree.Derives node inner := by
  intro node listed
  -- The nodes of the whole are itself and those of its sides.
  have cases_eq : node = tree.expr ∨ node ∈ left.expr.nodes ∨ node ∈ right.expr.nodes := by
    simpa [expr_eq, Expr.nodes] using listed
  rcases cases_eq with rfl | among | among
  · exact ⟨_, tree.derives_self (by rw [expr_eq]; rfl)⟩
  · -- The left operand stands before the sign, with no more parentheses than the whole.
    obtain ⟨inner, derives⟩ := onLeft node among
    refine ⟨inner, derives.inside ⟨[], sign :: right.tokens, ?_⟩ ?_⟩
    · exact tokens_eq.symm
    · exact nesting_eq ▸ Nat.le_max_left _ _
  · -- The right operand stands behind the sign.
    obtain ⟨inner, derives⟩ := onRight node among
    refine ⟨inner, derives.inside ⟨left.tokens ++ [sign], [], ?_⟩ ?_⟩
    · simp [tokens_eq]
    · exact nesting_eq ▸ Nat.le_max_right _ _

/-- Each node of a derived expression has a derivation of its own, without parentheses around it. -/
theorem exists_derives {rank : Rank} (tree : ExprTree rank) :
    ∀ node ∈ tree.expr.nodes, ∃ inner, tree.Derives node inner := by
  -- The induction is on the derivation, and parentheses leave no node of their own.
  induction tree with
  | term only ih =>
    intro node listed
    obtain ⟨inner, derives⟩ := ih node listed
    exact ⟨inner, derives.inside (List.infix_refl _) (Nat.le_refl _)⟩
  | factor only ih =>
    intro node listed
    obtain ⟨inner, derives⟩ := ih node listed
    exact ⟨inner, derives.inside (List.infix_refl _) (Nat.le_refl _)⟩
  | union left sign right ihLeft ihRight =>
    exact exists_derives_of_operands rfl rfl rfl ihLeft ihRight
  | exclusion left sign right ihLeft ihRight =>
    exact exists_derives_of_operands rfl rfl rfl ihLeft ihRight
  | intersection left sign right ihLeft ihRight =>
    exact exists_derives_of_operands rfl rfl rfl ihLeft ihRight
  | name only =>
    intro node listed
    obtain rfl : node = (name only).expr := by simpa [expr, Expr.nodes] using listed
    exact ⟨_, derives_self (name only) rfl⟩
  | arrow left sign right =>
    intro node listed
    obtain rfl : node = (arrow left sign right).expr := by simpa [expr, Expr.nodes] using listed
    exact ⟨_, derives_self (arrow left sign right) rfl⟩
  | nil keyword =>
    intro node listed
    obtain rfl : node = (nil keyword).expr := by simpa [expr, Expr.nodes] using listed
    exact ⟨_, derives_self (nil keyword) rfl⟩
  | parens opening inner closing ih =>
    intro node listed
    -- The inner expression stands between the parentheses, one level less deep.
    obtain ⟨found, derives⟩ := ih node listed
    exact ⟨found, derives.inside ⟨[opening.token], [closing.token], rfl⟩ (Nat.le_succ _)⟩

end Grammar.ExprTree

/-- A definition that holds one member and nothing else. -/
def Definition.holding (member : Member) : Definition :=
  ⟨"d", default, default, member.relation?.toList, member.permission?.toList⟩

/--
The text at a range, between an opening and a closing brace, is read as one definition.

Apart from its ranges, that is the definition that holds the given member alone.
-/
def RereadsAs (source : String) (range : Range) (opening : String) (member : Member) : Prop :=
  ∃ text, textAt? source range = some text ∧
    ∃ definition, parse (opening ++ " " ++ text ++ " \x7d") = .ok ⟨[definition]⟩ ∧
      definition.withoutRanges = (Definition.holding member).withoutRanges

/-- A definition every node of which is read again from the text at its range. -/
structure Definition.Rereads (source : String) (definition : Definition) : Prop where
  /-- The definition is read from its own text, with its ranges counted from where it starts. -/
  whole : ∃ text, textAt? source definition.range = some text ∧
    parse text = .ok ⟨[definition.mapRanges (.moved definition.range.start .origin)]⟩
  relations : ∀ relation ∈ definition.relations,
    RereadsAs source relation.range "definition d \x7b" (.relation relation)
  permissions : ∀ permission ∈ definition.permissions,
    RereadsAs source permission.range "definition d \x7b" (.permission permission)
  types : ∀ relation ∈ definition.relations, ∀ type ∈ relation.subjectTypes,
    RereadsAs source type.range "definition d \x7b relation r:"
      (.relation ⟨"r", default, default, [type]⟩)
  nodes : ∀ permission ∈ definition.permissions, ∀ node ∈ permission.expression.nodes,
    RereadsAs source node.range "definition d \x7b permission p ="
      (.permission ⟨"p", default, default, node⟩)

namespace Sole

/-- The header of the definition in which a node is read alone. -/
def header : HeaderTree where
  keyword := ⟨⟨.definition, "definition", ⟨0, ⟨1, 1⟩⟩, ⟨10, ⟨1, 11⟩⟩⟩, rfl⟩
  path := .single ⟨⟨.identifier, "d", ⟨11, ⟨1, 12⟩⟩, ⟨12, ⟨1, 13⟩⟩⟩, rfl⟩
  opening := ⟨⟨.leftBrace, "\x7b", ⟨13, ⟨1, 14⟩⟩, ⟨14, ⟨1, 15⟩⟩⟩, rfl⟩

/-- The closing brace of that definition. -/
def closing (place : Place) : TokenOf .rightBrace :=
  ⟨⟨.rightBrace, "\x7d", place, place.after ['\x7d']⟩, rfl⟩

/-- The keyword of the relation in which a type is read alone. -/
def relationKeyword : TokenOf .relation :=
  ⟨⟨.relation, "relation", ⟨15, ⟨1, 16⟩⟩, ⟨23, ⟨1, 24⟩⟩⟩, rfl⟩

/-- The name of that relation. -/
def relationName : TokenOf .identifier :=
  ⟨⟨.identifier, "r", ⟨24, ⟨1, 25⟩⟩, ⟨25, ⟨1, 26⟩⟩⟩, rfl⟩

/-- The colon before that type. -/
def relationColon : TokenOf .colon :=
  ⟨⟨.colon, ":", ⟨25, ⟨1, 26⟩⟩, ⟨26, ⟨1, 27⟩⟩⟩, rfl⟩

/-- The keyword of the permission in which an expression is read alone. -/
def permissionKeyword : TokenOf .permission :=
  ⟨⟨.permission, "permission", ⟨15, ⟨1, 16⟩⟩, ⟨25, ⟨1, 26⟩⟩⟩, rfl⟩

/-- The name of that permission. -/
def permissionName : TokenOf .identifier :=
  ⟨⟨.identifier, "p", ⟨26, ⟨1, 27⟩⟩, ⟨27, ⟨1, 28⟩⟩⟩, rfl⟩

/-- The equals sign before that expression. -/
def permissionEquals : TokenOf .equals :=
  ⟨⟨.equals, "=", ⟨28, ⟨1, 29⟩⟩, ⟨29, ⟨1, 30⟩⟩⟩, rfl⟩

/-- The opening of a definition carries the tokens of its header. -/
theorem carries_header : Carries .origin "definition d \x7b".toList header.tokens :=
  -- The opening is a fixed text, so that its tokens are found by evaluation.
  .of_last (by decide +kernel) (by decide) (by decide)

/-- The opening of a relation carries its tokens up to the colon. -/
theorem carries_relation :
    Carries .origin "definition d \x7b relation r:".toList
      (header.tokens ++ [relationKeyword.token, relationName.token, relationColon.token]) :=
  .of_last (by decide +kernel) (by decide) (by decide)

/-- The opening of a permission carries its tokens up to the equals sign. -/
theorem carries_permission :
    Carries .origin "definition d \x7b permission p =".toList
      (header.tokens ++
        [permissionKeyword.token, permissionName.token, permissionEquals.token]) :=
  .of_last (by decide +kernel) (by decide) (by decide)

/-- A closing brace alone is one token. -/
theorem tokensFrom_closing (place : Place) :
    tokensFrom place ['\x7d'] = [(closing place).token] := by
  -- The brace is a lexeme by itself, behind which the text ends.
  have brace : Lexeme.ofHead '\x7d' ([] ++ []) = ⟨some .rightBrace, 0⟩ := rfl
  have whole := tokensFrom_of_lexeme brace place
  simpa [tokensFrom, closing] using whole

/-- A text that completes a member after an opening is read as a definition of that member alone. -/
theorem parse_eq_ok {opening text : String} {lead tokens : List Token} {tree : MemberTree}
    (opens : Carries .origin opening.toList (header.tokens ++ lead))
    (carries : Carries (Place.origin.after (opening.toList ++ [' '])) text.toList tokens)
    (tokens_eq : tree.tokens = lead ++ tokens) (limits : tree.WithinLimits) :
    ∃ closing, parse (opening ++ " " ++ text ++ " \x7d") =
      .ok ⟨[(DefinitionTree.mk header [tree] closing).definition]⟩ := by
  let target := Place.origin.after (opening.toList ++ [' '])
  let alone : DefinitionTree :=
    ⟨header, [tree], closing (target.after (text.toList ++ [' ']))⟩
  -- The opening, the text and the brace are read one after the other, with spaces between them.
  have leaves : (tokenize (opening ++ " " ++ text ++ " \x7d")).tokens = alone.tokens := by
    have whole := opens.tokensFrom_space (text.toList ++ [' ', '\x7d'])
    rw [carries.tokensFrom_space, tokensFrom_closing] at whole
    simpa [tokenize, alone, DefinitionTree.tokens, tokens_eq] using whole
  -- The definition has the one member, which keeps to the limits.
  have derives : SchemaTree.Derives ⟨[alone]⟩
      (tokenize (opening ++ " " ++ text ++ " \x7d")).tokens := by
    refine ⟨by simp [SchemaTree.tokens, leaves], ?_⟩
    intro definition listed
    obtain rfl : definition = alone := by simpa using listed
    exact ⟨trivial, by simpa [alone] using limits⟩
  exact ⟨alone.closing, parse_eq_ok_of_derives derives⟩

end Sole

/-- A derivation of one member gives the definition that holds the member, apart from ranges. -/
theorem withoutRanges_definition {tree : MemberTree} {member : Member}
    (same : tree.member.mapRanges (fun _ => default) = member.mapRanges fun _ => default)
    (closing : TokenOf .rightBrace) :
    (DefinitionTree.mk Sole.header [tree] closing).definition.withoutRanges =
      (Definition.holding member).withoutRanges := by
  -- Ranges are forgotten on both sides before members are sorted out by kind.
  have relation_eq := congrArg Member.relation? same
  have permission_eq := congrArg Member.permission? same
  rw [Member.relation?_mapRanges, Member.relation?_mapRanges, ← tree.relation?_eq] at relation_eq
  rw [Member.permission?_mapRanges, Member.permission?_mapRanges,
    ← tree.permission?_eq] at permission_eq
  -- The members of one kind are at most one, on both sides.
  have one : ∀ {α β : Type} (part : α → Option β) (item : α),
      [item].filterMap part = (part item).toList := by
    intro α β part item
    cases found : part item <;> simp [found]
  simp only [DefinitionTree.definition, Definition.holding, Definition.withoutRanges,
    Definition.mapRanges, one, ← Option.toList_map, relation_eq, permission_eq]
  rfl

/--
The text of some tokens is read alone, where they complete a member after those of an opening.

The member has to be derived wherever the tokens come to stand, since they are moved.
-/
theorem rereadsAs_of_spans {source opening : String} {range : Range} {tokens lead : List Token}
    {member : Member} (within : tokens <:+: (tokenize source).tokens) (spans : Spans tokens range)
    (known : Known tokens) (opens : Carries .origin opening.toList (Sole.header.tokens ++ lead))
    (derived : ∀ base target, Behind base.position tokens → ∃ tree : MemberTree,
      tree.tokens = lead ++ tokens.map (Token.moved base target) ∧ tree.WithinLimits ∧
        tree.member.mapRanges (fun _ => default) = member.mapRanges fun _ => default) :
    RereadsAs source range opening member := by
  -- The text at the range carries the tokens alone, and is put behind the opening.
  obtain ⟨base, text, cut, -, carries⟩ := exists_textAt?_carries within spans known
  obtain ⟨tree, tokens_eq, limits, same⟩ :=
    derived base (Place.origin.after (opening.toList ++ [' '])) carries.behind
  obtain ⟨closing, read⟩ := Sole.parse_eq_ok opens (carries.moved _) tokens_eq limits
  exact ⟨text, cut, _, read, withoutRanges_definition same closing⟩

section Nodes

variable {source : String}

/-- A member is read from the text of its derivation. -/
theorem Grammar.MemberTree.rereads {tree : MemberTree} (limits : tree.WithinLimits)
    (within : tree.tokens <:+: (tokenize source).tokens) :
    RereadsAs source tree.member.range "definition d \x7b" tree.member := by
  -- No token is put in front, since a member comes right behind the brace.
  have spans := tree.spans ((ordered_tokenize source).sublist within.sublist)
  have opens : Carries .origin "definition d \x7b".toList (Sole.header.tokens ++ []) := by
    simpa using Sole.carries_header
  refine rereadsAs_of_spans within spans tree.known opens fun base target behind => ?_
  refine ⟨tree.moved base target, by simp, limits.moved base target, ?_⟩
  rw [tree.member_moved target behind, Member.mapRanges_mapRanges]
  rfl

/-- A type is read from the text of its derivation. -/
theorem Grammar.TypeTree.rereads {tree : TypeTree} (unspaced : tree.path.Unspaced)
    (within : tree.tokens <:+: (tokenize source).tokens) :
    RereadsAs source tree.subjectType.range "definition d \x7b relation r:"
      (.relation ⟨"r", default, default, [tree.subjectType]⟩) := by
  have spans := tree.spans ((ordered_tokenize source).sublist within.sublist)
  refine rereadsAs_of_spans within spans tree.known Sole.carries_relation
    fun base target behind => ?_
  -- The type is the only one of its relation.
  refine ⟨.relation ⟨Sole.relationKeyword, Sole.relationName, Sole.relationColon,
    tree.moved base target, []⟩, ?_, ?_, ?_⟩
  · simp [MemberTree.tokens, RelationTree.tokens, furtherTokens]
  · have moved := unspaced.moved base target
    simpa [MemberTree.WithinLimits, RelationTree.types, TypeTree.moved] using moved
  · simp [MemberTree.member, RelationTree.relation, RelationTree.types, Member.mapRanges,
      Relation.mapRanges, tree.subjectType_moved target behind, Sole.relationName,
      Function.comp_def]

/-- An expression that parentheses do not surround is read from the text of its derivation. -/
theorem Grammar.ExprTree.rereads {tree : ExprTree .expression} (shallow : tree.nesting ≤ 128)
    (whole : tree.extent = tree.expr.range)
    (within : tree.tokens <:+: (tokenize source).tokens) :
    RereadsAs source tree.expr.range "definition d \x7b permission p ="
      (.permission ⟨"p", default, default, tree.expr⟩) := by
  have spans := tree.spans ((ordered_tokenize source).sublist within.sublist)
  rw [whole] at spans
  refine rereadsAs_of_spans within spans tree.known Sole.carries_permission
    fun base target behind => ?_
  -- The expression is that of a permission of its own.
  refine ⟨.permission ⟨Sole.permissionKeyword, Sole.permissionName, Sole.permissionEquals,
    tree.moved base target⟩, ?_, ?_, ?_⟩
  · simp [MemberTree.tokens, PermissionTree.tokens]
  · simpa [MemberTree.WithinLimits] using shallow
  · simp [MemberTree.member, PermissionTree.permission, Member.mapRanges, Permission.mapRanges,
      (tree.movesAlong target behind).expr_eq, Sole.permissionName, Function.comp_def]

/-- A definition is read from its own text, which stands alone at the start. -/
theorem Grammar.DefinitionTree.rereads {tree : DefinitionTree} (limits : tree.WithinLimits)
    (within : tree.tokens <:+: (tokenize source).tokens) :
    ∃ text, textAt? source tree.definition.range = some text ∧
      parse text =
        .ok ⟨[tree.definition.mapRanges (.moved tree.definition.range.start .origin)]⟩ := by
  obtain ⟨base, text, cut, start_eq, carries⟩ :=
    exists_textAt?_carries within tree.spans tree.known
  refine ⟨text, cut, ?_⟩
  -- Nothing is put in front, so that the tokens start at the origin.
  have leaves : (tokenize text).tokens = tree.tokens.map (Token.moved base .origin) := by
    have whole := (carries.moved .origin).tokens_eq [] detached_nil
    simpa [tokenize, tokensFrom] using whole
  have derives : SchemaTree.Derives ⟨[tree.moved base .origin]⟩ (tokenize text).tokens := by
    refine ⟨by simp [SchemaTree.tokens, leaves], ?_⟩
    intro definition listed
    obtain rfl : definition = tree.moved base .origin := by simpa using listed
    exact limits.moved base .origin
  have read := parse_eq_ok_of_derives derives
  rw [SchemaTree.schema, List.map_cons, List.map_nil, tree.definition_moved _ carries.behind,
    start_eq] at read
  exact read

end Nodes

/-- Every node of a derivation over the tokens of a text is read again from the text. -/
theorem Grammar.DefinitionTree.rereads_nodes {source : String} {tree : DefinitionTree}
    (limits : tree.WithinLimits) (within : tree.tokens <:+: (tokenize source).tokens) :
    tree.definition.Rereads source := by
  -- The tokens of a member stand together in the text.
  have inside : ∀ member ∈ tree.members, member.tokens <:+: (tokenize source).tokens := by
    intro member listed
    have among : member.tokens <:+: tree.tokens :=
      (infix_flatMap_of_mem MemberTree.tokens listed).trans (List.infix_append' _ _ _)
    exact among.trans within
  refine ⟨tree.rereads limits within, ?_, ?_, ?_, ?_⟩
  · -- A relation has a derivation among the members.
    intro relation listed
    obtain ⟨inner, among, rfl⟩ := MemberTree.exists_relation listed
    exact MemberTree.rereads (limits.2 _ among) (inside _ among)
  · intro permission listed
    obtain ⟨inner, among, rfl⟩ := MemberTree.exists_permission listed
    exact MemberTree.rereads (limits.2 _ among) (inside _ among)
  · -- A type has a derivation among those of its relation.
    intro relation listed type typeListed
    obtain ⟨inner, among, rfl⟩ := MemberTree.exists_relation listed
    obtain ⟨leaf, leafListed, rfl⟩ := List.mem_map.mp typeListed
    exact leaf.rereads (limits.2 _ among leaf leafListed)
      ((RelationTree.tokens_isInfix leafListed).trans (inside _ among))
  · intro permission listed node nodeListed
    obtain ⟨inner, among, rfl⟩ := MemberTree.exists_permission listed
    -- A node has a derivation of its own, whose tokens stand together in the permission.
    obtain ⟨part, derives⟩ := inner.expression.exists_derives node nodeListed
    have together : part.tokens <:+: (MemberTree.permission inner).tokens :=
      derives.tokens_isInfix.trans (List.suffix_append
        [inner.keyword.token, inner.name.token, inner.equals.token] _).isInfix
    obtain rfl := derives.expr_eq
    exact part.rereads (Nat.le_trans derives.nesting_le (limits.2 _ among)) derives.extent_eq
      (together.trans (inside _ among))

/-- A text that can be read is read by a strict reader with the same schema. -/
theorem schema?_of_parse_eq_ok {source : String} {schema : Schema}
    (accepted : parse source = .ok schema) : (parseWith .strict source).schema? = some schema := by
  -- A strict reader that found no error keeps what it read.
  rw [parse, Parse.toResult_parseWith] at accepted
  split at accepted
  · cases accepted
  · rename_i faultless
    rw [Parse.parseWith_eq, List.head?_eq_none_iff.mp faultless]
    exact congrArg some (Except.ok.inj accepted)

/--
Every node of a schema that is read stands at its range, and is read again from the text there.

All names are the text at their own ranges.
-/
theorem rereads_of_parse_eq_ok {source : String} {schema : Schema}
    (accepted : parse source = .ok schema) :
    ∀ definition ∈ schema.definitions,
      definition.Spelled source ∧ definition.Rereads source := by
  intro definition declared
  refine ⟨spelled_of_read (schema?_of_parse_eq_ok accepted) declared, ?_⟩
  -- The definition is one of those that the derivation of the text derives.
  obtain ⟨tree, derives, rfl⟩ := exists_derives_of_parse_eq_ok accepted
  obtain ⟨part, listed, rfl⟩ := List.mem_map.mp declared
  refine part.rereads_nodes (derives.limits part listed) ?_
  rw [← derives.tokens_eq]
  exact infix_flatMap_of_mem DefinitionTree.tokens listed

/-- A text on several lines, with a comment in parentheses at the start of an expression. -/
def parenthesized : String :=
  "definition doc/a \x7b\n  relation r: b/c#d\n  permission p = (r /* not q */ + nil) & r->p\n\x7d"

/-- The parentheses and the comment belong to the text of the expression, which is read again. -/
theorem rereads_of_parse_eq_ok_parenthesized :
    ∃ schema, parse parenthesized = .ok schema ∧
      ∃ definition ∈ schema.definitions, ∃ permission ∈ definition.permissions,
        textAt? parenthesized permission.expression.range =
          some "(r /* not q */ + nil) & r->p" ∧
        definition.Spelled parenthesized ∧ definition.Rereads parenthesized := by
  obtain ⟨schema, accepted, definition, declared, permission, listed, cut⟩ :
      ∃ schema ∈ (parse parenthesized).toOption, ∃ definition ∈ schema.definitions,
        ∃ permission ∈ definition.permissions,
          textAt? parenthesized permission.expression.range =
            some "(r /* not q */ + nil) & r->p" := by
    decide +kernel
  have accepted : parse parenthesized = .ok schema := by
    cases read : parse parenthesized with
    | error fault => simp [read, Except.toOption] at accepted
    | ok found => simpa [read, Except.toOption] using accepted
  exact ⟨schema, accepted, definition, declared, permission, listed, cut,
    rereads_of_parse_eq_ok accepted definition declared⟩

end AuthSchema
