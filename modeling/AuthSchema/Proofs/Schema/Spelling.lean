import AuthSchema.Proofs.Schema.Members
import AuthSchema.Proofs.Token.Locality

/-! Every name of a schema that is read is the text at the place where it is written. -/

namespace AuthSchema

open Grammar

/-- The names in an expression, from left to right. -/
def Expr.names : Expr → List NameRef
  | .reference written => [written]
  | .arrow written => [written.left, written.right]
  | .nil _ => []
  | .binary _ left right _ => left.names ++ right.names

/-- A type whose path, and whose suffix where there is one, are written at their places. -/
structure SubjectType.Spelled (source : String) (written : SubjectType) : Prop where
  path_eq : textAt? source written.pathRange = some written.path
  suffix_eq : written.suffixRange.map (textAt? source) = written.suffix.map some

/-- A relation whose name and types are written at their places. -/
structure Relation.Spelled (source : String) (declared : Relation) : Prop where
  name_eq : textAt? source declared.nameRange = some declared.name
  types : ∀ type ∈ declared.subjectTypes, type.Spelled source

/-- A permission whose name, and all names in its expression, are written at their places. -/
structure Permission.Spelled (source : String) (declared : Permission) : Prop where
  name_eq : textAt? source declared.nameRange = some declared.name
  names : ∀ written ∈ declared.expression.names, textAt? source written.range = some written.name

/-- A definition all names of which are written at their places. -/
structure Definition.Spelled (source : String) (definition : Definition) : Prop where
  name_eq : textAt? source definition.nameRange = some definition.name
  relations : ∀ relation ∈ definition.relations, relation.Spelled source
  permissions : ∀ permission ∈ definition.permissions, permission.Spelled source

/-- A member all names of which are written at their places. -/
def Member.Spelled (source : String) : Member → Prop
  | .relation declared => declared.Spelled source
  | .permission declared => declared.Spelled source

/-- What one of several items stands for is a part of what they stand for together. -/
theorem infix_flatMap_of_mem {α β : Type} (parts : α → List β) {items : List α} {item : α}
    (listed : item ∈ items) : parts item <:+: items.flatMap parts := by
  obtain ⟨before, after, rfl⟩ := List.append_of_mem listed
  exact ⟨before.flatMap parts, after.flatMap parts, by simp⟩

section Trees

variable {source : String}

/-- The text at the place of a token is the text of the token. -/
theorem textAt?_range {token : Token} (listed : token ∈ (tokenize source).tokens) :
    textAt? source token.range = some token.text :=
  (stands_of_mem_tokenize listed).textAt?_eq

namespace Grammar

/-- An unspaced path is written where it reaches. -/
theorem PathTree.textAt?_range {tree : PathTree} (unspaced : tree.Unspaced)
    (within : tree.tokens.Sublist (tokenize source).tokens) :
    textAt? source tree.range = some tree.name := by
  -- One name is one token, while a path with a slash takes three.
  cases tree with
  | single name => exact AuthSchema.textAt?_range (within.subset (by simp [tokens]))
  | pair first slash second =>
    obtain ⟨before, after⟩ := unspaced
    have listed : ∀ token ∈ [first.token, slash.token, second.token],
        token ∈ (tokenize source).tokens :=
      fun token among => within.subset among
    -- The three tokens touch, so that their texts stand in the source as one.
    have stands := ((stands_of_mem_tokenize (listed first.token (by simp))).join
      (stands_of_mem_tokenize (listed slash.token (by simp))) before).join
      (stands_of_mem_tokenize (listed second.token (by simp))) after
    rw [text_of_slash (listed slash.token (by simp)) slash.kind_eq] at stands
    have ordered := (ordered_tokenize source).sublist within
    have between : first.token.range.stop ≤ second.token.range.start :=
      List.rel_of_pairwise_cons ordered.before (by simp)
    rw [range, Range.cover_of_before (ordered.proper _ (by simp [tokens])) between
      (ordered.proper _ (by simp [tokens]))]
    exact stands.textAt?_eq

/-- The path and the suffix of a type are written at their places. -/
theorem TypeTree.spelled {tree : TypeTree} (unspaced : tree.path.Unspaced)
    (within : tree.tokens.Sublist (tokenize source).tokens) : tree.subjectType.Spelled source := by
  obtain ⟨path, suffix⟩ := tree
  have onPath := path.textAt?_range unspaced ((List.sublist_append_left _ _).trans within)
  -- A star has no place of its own in a type, and so nothing to spell.
  cases suffix with
  | none => exact ⟨onPath, rfl⟩
  | relation hash name =>
    -- The name behind the hash is a token as well.
    have named : name.token ∈ (tokenize source).tokens :=
      within.subset (by simp [tokens, SuffixTree.tokens])
    exact ⟨onPath, congrArg some (AuthSchema.textAt?_range named)⟩
  | wildcard colon star => exact ⟨onPath, rfl⟩

/-- Every name in an expression is written at its place. -/
theorem ExprTree.spelled {rank : Rank} (tree : ExprTree rank)
    (within : ∀ token ∈ tree.tokens, token ∈ (tokenize source).tokens) :
    ∀ written ∈ tree.expr.names, textAt? source written.range = some written.name := by
  -- Each name is a token, and operators and parentheses hold no others.
  induction tree with
  | term only ih => exact ih within
  | factor only ih => exact ih within
  | union left sign right ihLeft ihRight =>
    have onLeft := ihLeft fun token leaf => within token (by simp [tokens, leaf])
    have onRight := ihRight fun token leaf => within token (by simp [tokens, leaf])
    exact List.forall_mem_append.mpr ⟨onLeft, onRight⟩
  | exclusion left sign right ihLeft ihRight =>
    have onLeft := ihLeft fun token leaf => within token (by simp [tokens, leaf])
    have onRight := ihRight fun token leaf => within token (by simp [tokens, leaf])
    exact List.forall_mem_append.mpr ⟨onLeft, onRight⟩
  | intersection left sign right ihLeft ihRight =>
    have onLeft := ihLeft fun token leaf => within token (by simp [tokens, leaf])
    have onRight := ihRight fun token leaf => within token (by simp [tokens, leaf])
    exact List.forall_mem_append.mpr ⟨onLeft, onRight⟩
  | name only =>
    have listed := textAt?_range (within only.token (by simp [tokens]))
    simpa [expr, Expr.names, nameRef] using listed
  -- An arrow has two names, each of which is a token.
  | arrow left sign right =>
    have onLeft := textAt?_range (within left.token (by simp [tokens]))
    have onRight := textAt?_range (within right.token (by simp [tokens]))
    simpa [expr, Expr.names, nameRef] using ⟨onLeft, onRight⟩
  | nil keyword => simp [expr, Expr.names]
  | parens opening inner closing ih =>
    exact ih fun token leaf => within token (by simp [tokens, leaf])

/-- The tokens of each type of a relation stand together among those of the relation. -/
theorem RelationTree.tokens_isInfix {tree : RelationTree} {type : TypeTree}
    (listed : type ∈ tree.types) : type.tokens <:+: tree.tokens := by
  have among : type.tokens <:+: tree.first.tokens ++ furtherTokens tree.more := by
    rcases List.mem_cons.mp listed with rfl | further
    · exact List.infix_append [] _ _
    · -- A further type comes after its bar, and both come after the first type.
      obtain ⟨item, present, rfl⟩ := List.mem_map.mp further
      have behind : item.1.token :: item.2.tokens <:+: furtherTokens tree.more :=
        infix_flatMap_of_mem (fun item => item.1.token :: item.2.tokens) present
      exact ((List.suffix_cons _ _).isInfix.trans behind).trans (List.suffix_append _ _).isInfix
  exact among.trans
    (List.suffix_append [tree.keyword.token, tree.name.token, tree.colon.token] _).isInfix

/-- Every name of a member is written at its place. -/
theorem MemberTree.spelled {tree : MemberTree} (limits : tree.WithinLimits)
    (within : tree.tokens.Sublist (tokenize source).tokens) : tree.member.Spelled source := by
  -- The declared name is one token, in both kinds of members.
  have named : textAt? source tree.name.range = some tree.name.text :=
    AuthSchema.textAt?_range (within.subset tree.name_mem_tokens)
  cases tree with
  | relation tree =>
    refine ⟨named, ?_⟩
    intro written listed
    obtain ⟨type, among, rfl⟩ := List.mem_map.mp listed
    -- The types stand among the tokens of the relation, and those among the tokens of the text.
    have inside := (RelationTree.tokens_isInfix among).sublist.trans within
    exact type.spelled (limits type among) inside
  | permission tree =>
    exact ⟨named, tree.expression.spelled fun token leaf =>
      within.subset (by simp [tokens, PermissionTree.tokens, leaf])⟩

end Grammar

end Trees

/-- In a schema that is read, whatever the options, every name is written at its place. -/
theorem spelled_of_read {options : Parse.Options} {source : String} {schema : Schema}
    (read : (parseWith options source).schema? = some schema) {definition : Definition}
    (declared : definition ∈ schema.definitions) : definition.Spelled source := by
  obtain ⟨outlines, definitions, within⟩ := exists_outlines_sublist read
  rw [definitions] at declared
  obtain ⟨outline, listed, rfl⟩ := List.mem_map.mp declared
  -- The tokens of one definition stand together in the text.
  have tokens := (infix_flatMap_of_mem Outline.tokens listed).sublist.trans within
  -- Faulty members are left out, and what is kept is some of the tokens inside.
  have members : ∀ member ∈ outline.members.map MemberTree.member, member.Spelled source := by
    intro member kept
    obtain ⟨tree, among, rfl⟩ := List.mem_map.mp kept
    have inside : tree.tokens.Sublist outline.tokens :=
      ((infix_flatMap_of_mem MemberTree.tokens among).sublist.trans
        outline.members_sublist).trans (List.sublist_append_right _ _)
    exact tree.spelled (outline.limits.2 tree among) (inside.trans tokens)
  refine ⟨?_, ?_, ?_⟩
  · -- The path stands between the keyword and the opening brace.
    have path : outline.header.path.tokens.Sublist outline.tokens :=
      ((List.sublist_append_left _ _).cons _).trans (List.sublist_append_left _ _)
    exact outline.header.path.textAt?_range outline.limits.1 (path.trans tokens)
  · -- Each relation comes from a member that was kept.
    intro relation kept
    obtain ⟨tree, among, rfl⟩ := MemberTree.exists_relation kept
    exact members _ (List.mem_map_of_mem among)
  · intro permission kept
    obtain ⟨tree, among, rfl⟩ := MemberTree.exists_permission kept
    exact members _ (List.mem_map_of_mem among)

end AuthSchema
