import AuthSchema.Proofs.Schema.WellFormed

/-!
The names of a schema, and the names that are written in its text.

* Every name is a path that is written there, most of them of one name alone.
* Where the whole text is read, every name that is written belongs to a name of the schema.
-/

namespace AuthSchema

open Grammar

/-- The names in a type: its path, and the name after its hash where there is one. -/
def SubjectType.names (written : SubjectType) : List NameRef :=
  -- In what is read, a suffix and its place come together.
  ⟨written.path, written.pathRange⟩ ::
    (written.suffixRange.map fun range => ⟨written.suffix.getD "", range⟩).toList

/-- The names in a member: its own, and then those that it uses. -/
def Member.names : Member → List NameRef
  | .relation declared =>
    ⟨declared.name, declared.nameRange⟩ :: declared.subjectTypes.flatMap SubjectType.names
  | .permission declared => ⟨declared.name, declared.nameRange⟩ :: declared.expression.names

/-- The names in a definition: its own, and then those of its members. -/
def Definition.names (definition : Definition) : List NameRef :=
  ⟨definition.name, definition.nameRange⟩ :: definition.members.flatMap Member.names

/-- The names of a schema, in document order. -/
def Schema.names (schema : Schema) : List NameRef :=
  schema.definitions.flatMap Definition.names

/-- Names that are written by tokens, one path after another, with no other name between them. -/
inductive Named : List NameRef → List Token → Prop where
  | nil : Named [] []
  | skip {names : List NameRef} {tokens : List Token} (token : Token)
    (noName : token.kind ≠ .identifier) (named : Named names tokens) : Named names (token :: tokens)
  | path {names : List NameRef} {tokens : List Token} (tree : PathTree) (unspaced : tree.Unspaced)
    (named : Named names tokens) : Named (⟨tree.name, tree.range⟩ :: names) (tree.tokens ++ tokens)

namespace Named

variable {first second names : List NameRef} {left right tokens : List Token}

/-- Names of two parts are written by both parts together. -/
theorem append (named : Named first left) (later : Named second right) :
    Named (first ++ second) (left ++ right) := by
  -- Names on the left come first, and each takes the tokens of its path from the front.
  induction named with
  | nil => exact later
  | skip token noName _ ih => exact .skip token noName ih
  | path tree unspaced _ ih =>
    rw [List.append_assoc]
    exact .path tree unspaced ih

/-- Names of items are written by the tokens of all items. -/
theorem flatMap {α : Type} {items : List α} {written : α → List NameRef} {leaves : α → List Token}
    (named : ∀ item ∈ items, Named (written item) (leaves item)) :
    Named (items.flatMap written) (items.flatMap leaves) := by
  induction items with
  | nil => exact .nil
  | cons item items ih =>
    simp only [List.flatMap_cons]
    exact (named item (by simp)).append (ih fun other listed => named other (by simp [listed]))

/-- A path is written by its own tokens. -/
theorem single (tree : PathTree) (unspaced : tree.Unspaced) :
    Named [⟨tree.name, tree.range⟩] tree.tokens := by
  simpa using Named.path tree unspaced .nil

/-- A name alone is a path. -/
theorem name (leaf : TokenOf .identifier) : Named [ExprTree.nameRef leaf] [leaf.token] :=
  single (.single leaf) trivial

/-- A token of another kind than names carries none. -/
theorem sign {kind : TokenKind} (leaf : TokenOf kind) (other : kind ≠ .identifier)
    (named : Named names tokens) : Named names (leaf.token :: tokens) :=
  .skip leaf.token (by rw [leaf.kind_eq]; exact other) named

/-- Each name is a path that is written by tokens that stand together. -/
theorem exists_path (named : Named names tokens) {written : NameRef} (listed : written ∈ names) :
    ∃ tree : PathTree, tree.Unspaced ∧ tree.tokens <:+: tokens ∧
      written = ⟨tree.name, tree.range⟩ := by
  -- A name is the path in front, or is written further on.
  induction named with
  | nil => simp at listed
  | skip token _ _ ih =>
    obtain ⟨tree, unspaced, together, written_eq⟩ := ih listed
    exact ⟨tree, unspaced, together.trans (List.suffix_cons _ _).isInfix, written_eq⟩
  | path tree unspaced _ ih =>
    rcases List.mem_cons.mp listed with rfl | listed
    · exact ⟨tree, unspaced, (List.prefix_append _ _).isInfix, rfl⟩
    · obtain ⟨tree, unspaced, together, written_eq⟩ := ih listed
      exact ⟨tree, unspaced, together.trans (List.suffix_append _ _).isInfix, written_eq⟩

/-- Names over ordered tokens are laid out over them. -/
theorem laid (named : Named names tokens) (ordered : Ordered tokens) :
    Laid (names.map NameRef.range) tokens := by
  -- What is passed over leaves a gap, and gaps keep the layout.
  induction named with
  | nil => exact .nil []
  | skip token _ _ ih => exact .skip token (ih ordered.tail)
  | path tree _ _ ih => exact .cons (tree.spans ordered.left) (ih ordered.right)

/-- Names over ordered tokens follow one another. -/
theorem inSequence (named : Named names tokens) (ordered : Ordered tokens) :
    Range.InSequence NameRef.range names := by
  -- The ranges are in sequence, which is the same as the names by their ranges.
  have sequence := Range.InSequence.map_iff.mp ((named.laid ordered).inSequence ordered)
  exact sequence

/-- Every token that is a name stands inside one of the names. -/
theorem exists_within (named : Named names tokens) (ordered : Ordered tokens) {token : Token}
    (listed : token ∈ tokens) (isName : token.kind = .identifier) :
    ∃ written ∈ names, token.range.Within written.range := by
  -- A token that is passed over is no name, and all tokens of a path are inside its range.
  induction named with
  | nil => simp at listed
  | skip other noName _ ih =>
    rcases List.mem_cons.mp listed with rfl | listed
    · exact absurd isName noName
    · exact ih ordered.tail listed
  | path tree _ _ ih =>
    rcases List.mem_append.mp listed with leaf | listed
    · exact ⟨_, List.mem_cons_self,
        (tree.spans ordered.left).within_of_mem ordered.left leaf⟩
    · obtain ⟨written, among, within⟩ := ih ordered.right listed
      exact ⟨written, List.mem_cons_of_mem _ among, within⟩

end Named

namespace Grammar

/-- The names of a type are written by its tokens. -/
theorem TypeTree.named (tree : TypeTree) (unspaced : tree.path.Unspaced) :
    Named tree.subjectType.names tree.tokens := by
  obtain ⟨path, suffix⟩ := tree
  have onPath := Named.single path unspaced
  -- A star is no name, so a wildcard has none but its path.
  cases suffix with
  | none => simpa [tokens, SuffixTree.tokens, subjectType, SubjectType.names] using onPath
  | relation hash name => exact onPath.append ((Named.name name).sign hash (by decide))
  | wildcard colon star =>
    have signs := (Named.nil.sign star (by decide)).sign colon (by decide)
    exact onPath.append signs

/-- The names of an expression are written by its tokens. -/
theorem ExprTree.named {rank : Rank} (tree : ExprTree rank) :
    Named tree.expr.names tree.tokens := by
  -- Operators, parentheses and `nil` carry no names, and an arrow carries two.
  induction tree with
  | term only ih => exact ih
  | factor only ih => exact ih
  | union left sign right ihLeft ihRight => exact ihLeft.append (ihRight.sign sign (by decide))
  | exclusion left sign right ihLeft ihRight => exact ihLeft.append (ihRight.sign sign (by decide))
  | intersection left sign right ihLeft ihRight =>
    exact ihLeft.append (ihRight.sign sign (by decide))
  | name only => exact .name only
  | arrow left sign right =>
    exact (Named.name left).append ((Named.name right).sign sign (by decide))
  | nil keyword => exact Named.nil.sign keyword (by decide)
  | parens opening inner closing ih =>
    have inside := (ih.append (Named.nil.sign closing (by decide))).sign opening (by decide)
    rwa [List.append_nil] at inside

/-- The names of types are written by their tokens, the bars between them included. -/
theorem types_named (first : TypeTree) (more : List (TokenOf .pipe × TypeTree))
    (unspaced : ∀ type ∈ first :: more.map Prod.snd, type.path.Unspaced) :
    Named ((first :: more.map Prod.snd).flatMap fun type => type.subjectType.names)
      (first.tokens ++ furtherTokens more) := by
  have onFirst := first.named (unspaced first (by simp))
  -- Each further type comes with the bar in front of it, which is no name.
  have later : Named ((more.map Prod.snd).flatMap fun type => type.subjectType.names)
      (furtherTokens more) := by
    rw [List.flatMap_map]
    refine .flatMap ?_
    rintro ⟨bar, type⟩ listed
    have among : type ∈ more.map Prod.snd := List.mem_map_of_mem listed
    exact (type.named (unspaced type (by simp [among]))).sign bar (by decide)
  exact onFirst.append later

/-- The names of a member are written by its tokens. -/
theorem MemberTree.named (tree : MemberTree) (limits : tree.WithinLimits) :
    Named tree.member.names tree.tokens := by
  -- The declared name stands behind the keyword, and the sign behind it carries none.
  cases tree with
  | relation tree =>
    have types := types_named tree.first tree.more limits
    have names_eq : tree.relation.subjectTypes.flatMap SubjectType.names =
        tree.types.flatMap fun type => type.subjectType.names :=
      List.flatMap_map _ _ _
    show Named (ExprTree.nameRef tree.name :: tree.relation.subjectTypes.flatMap _) _
    rw [names_eq]
    exact ((Named.name tree.name).append (types.sign tree.colon (by decide))).sign tree.keyword
      (by decide)
  | permission tree =>
    have inside := tree.expression.named.sign tree.equals (by decide)
    exact ((Named.name tree.name).append inside).sign tree.keyword (by decide)

/-- A definition that is derived is outlined by its tokens. -/
def DefinitionTree.outline (tree : DefinitionTree) (limits : tree.WithinLimits) : Outline where
  header := tree.header
  members := tree.members
  inside := tree.members.flatMap MemberTree.tokens ++ [tree.closing.token]
  members_sublist := List.sublist_append_left _ _
  limits := limits

end Grammar

/-- The names of an outlined definition are written by its leaves. -/
theorem Outline.named (outline : Outline) (ordered : Ordered outline.tokens) :
    Named outline.definition.names outline.leaves := by
  -- The braces and the keyword carry no names.
  have onPath := Named.single outline.header.path outline.limits.1
  have inside := Named.flatMap fun (tree : MemberTree) (listed : tree ∈ outline.members) =>
    tree.named (outline.limits.2 tree listed)
  have whole := (onPath.append (inside.sign outline.header.opening (by decide))).sign
    outline.header.keyword (by decide)
  -- The members in document order are those of the outline, each with its own names.
  rw [Definition.names, members_definition ordered, List.flatMap_map]
  show Named (⟨outline.header.path.name, outline.header.path.range⟩ :: _) _
  simpa [Outline.leaves, HeaderTree.tokens] using whole

/-- The names of a definition that is derived are written by its tokens. -/
theorem Grammar.DefinitionTree.named (tree : DefinitionTree) (limits : tree.WithinLimits)
    (ordered : Ordered tree.tokens) : Named tree.definition.names tree.tokens := by
  -- What a definition derives it also outlines, with no token left out but the brace.
  have onLeaves : Named tree.definition.names (tree.outline limits).leaves :=
    (tree.outline limits).named ordered
  -- Only the closing brace stands behind the members.
  have whole := onLeaves.append (Named.nil.sign tree.closing (by decide))
  simpa [Outline.leaves, DefinitionTree.outline, DefinitionTree.tokens] using whole

section Read

variable {options : Parse.Options} {source : String} {schema : Schema}

/-- In a schema that is read, whatever the options, the names are written by tokens of the text. -/
theorem exists_named (read : (parseWith options source).schema? = some schema) :
    ∃ tokens, Named schema.names tokens ∧ tokens.Sublist (tokenize source).tokens := by
  obtain ⟨outlines, definitions, within⟩ := exists_outlines_sublist read
  have ordered := (ordered_tokenize source).sublist within
  -- Tokens of faulty members are left out, and with them any names that they hold.
  have named := Named.flatMap fun outline listed => Outline.named outline (ordered.item listed)
  have leaves : (outlines.flatMap Outline.leaves).Sublist (outlines.flatMap Outline.tokens) :=
    .flatMap_right outlines fun outline _ => outline.leaves_sublist
  refine ⟨outlines.flatMap Outline.leaves, ?_, leaves.trans within⟩
  rwa [Schema.names, definitions, List.flatMap_map]

/-- In a text that is accepted, all the tokens together write the names of the schema. -/
theorem named_of_parse_eq_ok (accepted : parse source = .ok schema) :
    Named schema.names (tokenize source).tokens := by
  -- An accepted text is derived, and its tree has all the tokens for leaves.
  obtain ⟨tree, derives, rfl⟩ := exists_derives_of_parse_eq_ok accepted
  have ordered := ordered_tokenize source
  rw [← derives.tokens_eq] at ordered ⊢
  show Named ((tree.definitions.map DefinitionTree.definition).flatMap Definition.names) _
  rw [List.flatMap_map]
  refine .flatMap ?_
  intro definition listed
  exact definition.named (derives.limits definition listed) (ordered.item listed)

end Read

end AuthSchema
