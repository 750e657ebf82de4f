import AuthSchema.Proofs.Parse.Grammar
import AuthSchema.Proofs.Parse.Recognize

/-!
The grammar as languages over the kinds of tokens.

* The phrases of a nonterminal are the kinds at the leaves of its derivations.
* The phrases of each nonterminal are made of those of its parts, as its productions say.
* How tokens are spaced and how deep parentheses are nested makes no difference to phrases.
-/

namespace AuthSchema.Grammar

open Computability

/-- The kinds at the leaves of the derivations of one sort. -/
def phrasesOf {Tree : Type} (leaves : Tree → List Token) : Language TokenKind :=
  {word | ∃ tree, kindsOf (leaves tree) = word}

/-- The kinds of derivations in a row are phrases one after another. -/
theorem kindsOf_flatMap_mem_kstar {Tree : Type} (leaves : Tree → List Token) (trees : List Tree) :
    kindsOf (trees.flatMap leaves) ∈ (phrasesOf leaves)∗ := by
  -- One more derivation is one more phrase in front of the star.
  induction trees with
  | nil => exact Language.nil_mem_kstar _
  | cons tree trees ih =>
    have onward : phrasesOf leaves * (phrasesOf leaves)∗ ≤ (phrasesOf leaves)∗ :=
      mul_kstar_le_kstar
    rw [List.flatMap_cons, kindsOf_append]
    exact onward (Language.append_mem_mul ⟨tree, rfl⟩ ih)

/-- Derivations in a row are phrases in a row. -/
theorem phrasesOf_flatMap {Tree : Type} (leaves : Tree → List Token) :
    phrasesOf (fun trees : List Tree => trees.flatMap leaves) = (phrasesOf leaves)∗ := by
  -- The star is the least language with the empty word that one more phrase in front stays in.
  refine le_antisymm ?_ (kstar_le_of_mul_le_right ?_ ?_)
  · rintro _ ⟨trees, rfl⟩
    exact kindsOf_flatMap_mem_kstar leaves trees
  · intro word empty
    exact ⟨[], ((Language.mem_one word).mp empty).symm⟩
  · intro word joined
    obtain ⟨_, ⟨tree, rfl⟩, _, ⟨trees, rfl⟩, rfl⟩ := Language.mem_mul.mp joined
    exact ⟨tree :: trees, by simp⟩

/-- A token of a kind, with nothing else to it, which any word is made of. -/
def leaf (kind : TokenKind) : TokenOf kind :=
  ⟨⟨kind, "", default, default⟩, rfl⟩

/-- The kinds of paths. -/
def paths : Language TokenKind :=
  phrasesOf PathTree.tokens

/-- The kinds of types. -/
def types : Language TokenKind :=
  phrasesOf TypeTree.tokens

/-- The kinds of expressions of a rank. -/
def operands (rank : Rank) : Language TokenKind :=
  phrasesOf fun tree : ExprTree rank => tree.tokens

/-- The kinds of members. -/
def members : Language TokenKind :=
  phrasesOf MemberTree.tokens

/-- The kinds of what stands before a body. -/
def headers : Language TokenKind :=
  phrasesOf HeaderTree.tokens

/-- The kinds of bodies, from after the opening brace to the closing one. -/
def bodies : Language TokenKind :=
  members∗ * single {.rightBrace}

/-- The kinds of definitions. -/
def definitions : Language TokenKind :=
  phrasesOf DefinitionTree.tokens

/-- The kinds of whole schemas. -/
def sentences : Language TokenKind :=
  phrasesOf SchemaTree.tokens

/-- Kinds that some schema starts with. -/
def Viable (kinds : List TokenKind) : Prop :=
  ∃ more, kinds ++ more ∈ sentences

/-- A path is a name, with or without a slash and another name behind it. -/
theorem paths_eq : paths = single {.identifier} * (single {.slash} * single {.identifier} + 1) := by
  ext word
  constructor
  -- Each derivation has the kinds that its constructor says.
  · rintro ⟨tree, rfl⟩
    cases tree <;> simp [PathTree.tokens, Language.mem_add, -add_eq_sup]
  · -- A word of such kinds is derived from tokens with nothing but their kinds.
    intro among
    obtain ⟨_, rfl, rest, behind, rfl⟩ := mem_single_mul.mp among
    rcases (Language.mem_add _ _ _).mp behind with pair | only
    · obtain ⟨_, rfl, _, ⟨_, rfl, rfl⟩, rfl⟩ := mem_single_mul.mp pair
      exact ⟨.pair (leaf _) (leaf _) (leaf _), rfl⟩
    · obtain rfl := (Language.mem_one rest).mp only
      exact ⟨.single (leaf _), rfl⟩

/-- What may follow the path of a type. -/
theorem phrasesOf_suffix : phrasesOf SuffixTree.tokens =
    single {.hash} * single {.identifier} + (single {.colon} * single {.star} + 1) := by
  ext word
  constructor
  · rintro ⟨tree, rfl⟩
    cases tree <;> simp [SuffixTree.tokens, Language.mem_add, -add_eq_sup]
  · intro among
    rcases (Language.mem_add _ _ _).mp among with relation | other
    · obtain ⟨_, rfl, _, ⟨_, rfl, rfl⟩, rfl⟩ := mem_single_mul.mp relation
      exact ⟨.relation (leaf _) (leaf _), rfl⟩
    · rcases (Language.mem_add _ _ _).mp other with wildcard | nothing
      · obtain ⟨_, rfl, _, ⟨_, rfl, rfl⟩, rfl⟩ := mem_single_mul.mp wildcard
        exact ⟨.wildcard (leaf _) (leaf _), rfl⟩
      · exact ⟨.none, ((Language.mem_one word).mp nothing).symm⟩

/-- A type is a path, with or without a suffix. -/
theorem types_eq : types = paths *
    (single {.hash} * single {.identifier} + (single {.colon} * single {.star} + 1)) := by
  rw [← phrasesOf_suffix]
  ext word
  constructor
  -- The kinds of the parts, one after the other, are those of the whole.
  · rintro ⟨tree, rfl⟩
    rw [TypeTree.tokens, kindsOf_append]
    exact Language.append_mem_mul ⟨_, rfl⟩ ⟨_, rfl⟩
  · intro among
    obtain ⟨_, ⟨path, rfl⟩, _, ⟨suffix, rfl⟩, rfl⟩ := Language.mem_mul.mp among
    exact ⟨⟨path, suffix⟩, kindsOf_append _ _⟩

/-- Further types come each behind a bar. -/
theorem phrasesOf_furtherTokens : phrasesOf furtherTokens = (single {.pipe} * types)∗ := by
  -- One bar and one type are one item of the star.
  have item : phrasesOf (fun part : TokenOf .pipe × TypeTree => part.1.token :: part.2.tokens) =
      single {.pipe} * types := by
    ext word
    constructor
    · rintro ⟨⟨bar, type⟩, rfl⟩
      have phrase : kindsOf type.tokens ∈ types := ⟨type, rfl⟩
      simpa using phrase
    · intro among
      obtain ⟨_, rfl, _, ⟨type, rfl⟩, rfl⟩ := mem_single_mul.mp among
      exact ⟨⟨leaf _, type⟩, rfl⟩
  rw [← item]
  exact phrasesOf_flatMap _

/-- A relation is its keyword, a name, a colon, a type and further types. -/
theorem phrasesOf_relation : phrasesOf RelationTree.tokens =
    single {.relation} * (single {.identifier} *
      (single {.colon} * (types * (single {.pipe} * types)∗))) := by
  rw [← phrasesOf_furtherTokens]
  ext word
  constructor
  · rintro ⟨tree, rfl⟩
    have parts : kindsOf tree.first.tokens ++ kindsOf (furtherTokens tree.more) ∈
        types * phrasesOf furtherTokens :=
      Language.append_mem_mul ⟨_, rfl⟩ ⟨_, rfl⟩
    simpa [RelationTree.tokens] using parts
  -- The word is cut letter by letter, up to the types.
  · intro among
    obtain ⟨_, rfl, _, named, rfl⟩ := mem_single_mul.mp among
    obtain ⟨_, rfl, _, signed, rfl⟩ := mem_single_mul.mp named
    obtain ⟨_, rfl, _, typed, rfl⟩ := mem_single_mul.mp signed
    obtain ⟨_, ⟨first, rfl⟩, _, ⟨more, rfl⟩, rfl⟩ := Language.mem_mul.mp typed
    exact ⟨⟨leaf _, leaf _, leaf _, first, more⟩, by simp [RelationTree.tokens]⟩

/-- A factor is told by its first kind. -/
theorem factors_eq : operands .factor =
    single {.nil} * 1 + (single {.leftParen} * (operands .expression * single {.rightParen}) +
      single {.identifier} * (single {.arrow} * single {.identifier} + 1)) := by
  ext word
  simp only [Language.mem_add]
  constructor
  · rintro ⟨tree, rfl⟩
    -- Each kind of factor is one of the choices, by its first token.
    cases tree with
    | nil keyword => exact .inl (by simp [ExprTree.tokens])
    | name only =>
      refine .inr (.inr ?_)
      simp [ExprTree.tokens, Language.mem_add, -add_eq_sup]
    | arrow left sign right =>
      refine .inr (.inr ?_)
      simp [ExprTree.tokens, Language.mem_add, -add_eq_sup]
    | parens opening inner closing =>
      have parts : kindsOf inner.tokens ++ [.rightParen] ∈
          operands .expression * single {.rightParen} :=
        Language.append_mem_mul ⟨inner, rfl⟩ ⟨_, rfl, rfl⟩
      exact .inr (.inl (by simpa [ExprTree.tokens] using parts))
  · -- The first letter tells which factor the word is derived from.
    rintro (keyword | nested | named)
    · obtain ⟨_, rfl, _, rfl, rfl⟩ := mem_single_mul.mp keyword
      exact ⟨.nil (leaf _), rfl⟩
    · obtain ⟨_, rfl, _, closed, rfl⟩ := mem_single_mul.mp nested
      obtain ⟨_, ⟨inner, rfl⟩, _, ⟨_, rfl, rfl⟩, rfl⟩ := Language.mem_mul.mp closed
      exact ⟨.parens (leaf _) inner (leaf _), by simp [ExprTree.tokens]⟩
    · obtain ⟨_, rfl, _, behind, rfl⟩ := mem_single_mul.mp named
      rcases (Language.mem_add _ _ _).mp behind with arrow | only
      · obtain ⟨_, rfl, _, ⟨_, rfl, rfl⟩, rfl⟩ := mem_single_mul.mp arrow
        exact ⟨.arrow (leaf _) (leaf _) (leaf _), rfl⟩
      · obtain rfl := (Language.mem_one _).mp only
        exact ⟨.name (leaf _), rfl⟩

section Chain

variable {phrases : Language TokenKind} {kinds : Set TokenKind}

/-- An operand alone is a chain. -/
theorem mem_chain_of_mem {word : List TokenKind} (only : word ∈ phrases) :
    word ∈ phrases * (single kinds * phrases)∗ := by
  have whole := Language.append_mem_mul only (Language.nil_mem_kstar (single kinds * phrases))
  rwa [List.append_nil] at whole

/-- A chain that is grouped from the left goes on with a sign and one more operand. -/
theorem append_mem_chain {left right : List TokenKind} {kind : TokenKind} (sign : kind ∈ kinds)
    (chained : left ∈ phrases * (single kinds * phrases)∗) (operand : right ∈ phrases) :
    left ++ kind :: right ∈ phrases * (single kinds * phrases)∗ := by
  -- One more repetition at the end of a star is still in the star.
  have longer : phrases * (single kinds * phrases)∗ * (single kinds * phrases) ≤
      phrases * (single kinds * phrases)∗ := by
    rw [mul_assoc]
    exact mul_le_mul_right kstar_mul_le_kstar phrases
  exact longer (Language.append_mem_mul chained (cons_mem_single_mul.mpr ⟨sign, operand⟩))

end Chain

/-- The kinds of a term are those of its factors, with the signs between them. -/
theorem kindsOf_term_mem : (tree : ExprTree .term) →
    kindsOf tree.tokens ∈ operands .factor * (single {.ampersand} * operands .factor)∗
  | .factor only => mem_chain_of_mem ⟨only, rfl⟩
  | .intersection left sign right => by
    -- The chain on the left is in the language already, and one more factor joins it.
    rw [ExprTree.tokens, kindsOf_append, kindsOf_cons]
    exact append_mem_chain sign.kind_eq (kindsOf_term_mem left) ⟨right, rfl⟩

/-- The kinds of an expression are those of its terms, with the signs between them. -/
theorem kindsOf_expression_mem : (tree : ExprTree .expression) →
    kindsOf tree.tokens ∈ operands .term * (single {.plus, .minus} * operands .term)∗
  | .term only => mem_chain_of_mem ⟨only, rfl⟩
  | .union left sign right => by
    rw [ExprTree.tokens, kindsOf_append, kindsOf_cons]
    exact append_mem_chain (.inl sign.kind_eq) (kindsOf_expression_mem left) ⟨right, rfl⟩
  | .exclusion left sign right => by
    rw [ExprTree.tokens, kindsOf_append, kindsOf_cons]
    exact append_mem_chain (.inr sign.kind_eq) (kindsOf_expression_mem left) ⟨right, rfl⟩

/-- A term is a factor and further ones, each behind `&`. -/
theorem terms_eq : operands .term =
    operands .factor * (single {.ampersand} * operands .factor)∗ := by
  -- The other way round, a chain is grouped from the left, one factor at a time.
  refine le_antisymm ?_ (mul_kstar_le ?_ ?_)
  · rintro _ ⟨tree, rfl⟩
    exact kindsOf_term_mem tree
  · rintro _ ⟨tree, rfl⟩
    exact ⟨.factor tree, rfl⟩
  · intro word among
    obtain ⟨_, ⟨left, rfl⟩, _, behind, rfl⟩ := Language.mem_mul.mp among
    obtain ⟨_, rfl, _, ⟨right, rfl⟩, rfl⟩ := mem_single_mul.mp behind
    exact ⟨.intersection left (leaf _) right, by simp [ExprTree.tokens, leaf]⟩

/-- An expression is a term and further ones, each behind `+` or `-`. -/
theorem expressions_eq : operands .expression =
    operands .term * (single {.plus, .minus} * operands .term)∗ := by
  -- As for terms, with two signs to go on with.
  refine le_antisymm ?_ (mul_kstar_le ?_ ?_)
  · rintro _ ⟨tree, rfl⟩
    exact kindsOf_expression_mem tree
  · rintro _ ⟨tree, rfl⟩
    exact ⟨.term tree, rfl⟩
  · -- The sign tells which of the two operators joins the term.
    intro word among
    obtain ⟨_, ⟨left, rfl⟩, _, behind, rfl⟩ := Language.mem_mul.mp among
    obtain ⟨_, rfl | rfl, _, ⟨right, rfl⟩, rfl⟩ := mem_single_mul.mp behind
    · exact ⟨.union left (leaf _) right, by simp [ExprTree.tokens]⟩
    · exact ⟨.exclusion left (leaf _) right, by simp [ExprTree.tokens]⟩

/-- A permission is its keyword, a name, an equals sign and an expression. -/
theorem phrasesOf_permission : phrasesOf PermissionTree.tokens =
    single {.permission} * (single {.identifier} * (single {.equals} * operands .expression)) := by
  ext word
  constructor
  · rintro ⟨tree, rfl⟩
    have phrase : kindsOf tree.expression.tokens ∈ operands .expression := ⟨tree.expression, rfl⟩
    simpa [PermissionTree.tokens] using phrase
  -- The word is cut letter by letter, up to the expression.
  · intro among
    obtain ⟨_, rfl, _, named, rfl⟩ := mem_single_mul.mp among
    obtain ⟨_, rfl, _, signed, rfl⟩ := mem_single_mul.mp named
    obtain ⟨_, rfl, _, ⟨expression, rfl⟩, rfl⟩ := mem_single_mul.mp signed
    exact ⟨⟨leaf _, leaf _, leaf _, expression⟩, rfl⟩

/-- A member is a relation or a permission. -/
theorem members_eq : members = phrasesOf RelationTree.tokens + phrasesOf PermissionTree.tokens := by
  ext word
  rw [Language.mem_add]
  constructor
  -- The two kinds of members are the two choices.
  · rintro ⟨tree, rfl⟩
    cases tree with
    | relation tree => exact .inl ⟨tree, rfl⟩
    | permission tree => exact .inr ⟨tree, rfl⟩
  · rintro (⟨tree, rfl⟩ | ⟨tree, rfl⟩)
    · exact ⟨.relation tree, rfl⟩
    · exact ⟨.permission tree, rfl⟩

/-- A header is its keyword, a path and an opening brace. -/
theorem headers_eq : headers = single {.definition} * (paths * single {.leftBrace}) := by
  ext word
  constructor
  · rintro ⟨tree, rfl⟩
    have parts : kindsOf tree.path.tokens ++ [.leftBrace] ∈ paths * single {.leftBrace} :=
      Language.append_mem_mul ⟨_, rfl⟩ ⟨_, rfl, rfl⟩
    simpa [HeaderTree.tokens] using parts
  · intro among
    obtain ⟨_, rfl, _, behind, rfl⟩ := mem_single_mul.mp among
    obtain ⟨_, ⟨path, rfl⟩, _, ⟨_, rfl, rfl⟩, rfl⟩ := Language.mem_mul.mp behind
    exact ⟨⟨leaf _, path, leaf _⟩, by simp [HeaderTree.tokens]⟩

/-- A definition is a header and a body. -/
theorem definitions_eq : definitions = headers * bodies := by
  -- The members of a body are in a row, which is a star of their phrases.
  rw [bodies, members, ← phrasesOf_flatMap]
  ext word
  constructor
  · rintro ⟨tree, rfl⟩
    rw [DefinitionTree.tokens, kindsOf_append, kindsOf_append]
    refine Language.append_mem_mul ⟨_, rfl⟩ (Language.append_mem_mul ⟨_, rfl⟩ ?_)
    exact ⟨.rightBrace, rfl, by simp⟩
  · intro among
    obtain ⟨_, ⟨header, rfl⟩, _, behind, rfl⟩ := Language.mem_mul.mp among
    obtain ⟨_, ⟨members, rfl⟩, _, ⟨_, rfl, rfl⟩, rfl⟩ := Language.mem_mul.mp behind
    exact ⟨⟨header, members, leaf _⟩, by simp [DefinitionTree.tokens]⟩

/-- A body may hold nothing. -/
theorem rightBrace_mem_bodies : [.rightBrace] ∈ bodies :=
  Language.append_mem_mul (Language.nil_mem_kstar members) ⟨.rightBrace, rfl, rfl⟩

/-- A schema is definitions one after another. -/
theorem sentences_eq : sentences = definitions∗ := by
  rw [definitions, ← phrasesOf_flatMap]
  ext word
  constructor
  -- A schema is nothing but its definitions.
  · rintro ⟨⟨trees⟩, rfl⟩
    exact ⟨trees, rfl⟩
  · rintro ⟨trees, rfl⟩
    exact ⟨⟨trees⟩, rfl⟩

/-- Expressions of any rank close the parentheses that they open. -/
theorem balanced_operands (rank : Rank) : Balanced (operands rank) := by
  rintro _ ⟨tree, rfl⟩
  -- Only parentheses count, and each case that opens one closes it.
  induction tree with
  | term only ih | factor only ih => exact ih
  | union left sign right ihl ihr | exclusion left sign right ihl ihr
  | intersection left sign right ihl ihr =>
    simp [ExprTree.tokens, ihl, ihr]
  | name only | arrow left sign right | nil keyword => simp [ExprTree.tokens]
  | parens opening inner closing ih => simp [ExprTree.tokens, ih]

/-- Paths are balanced, since they hold no parentheses. -/
theorem balanced_paths : Balanced paths := by
  rintro _ ⟨tree, rfl⟩
  cases tree <;> simp [PathTree.tokens]

/-- Types are balanced, since they hold no parentheses. -/
theorem balanced_types : Balanced types := by
  rintro _ ⟨⟨path, suffix⟩, rfl⟩
  have inPath := balanced_paths _ ⟨path, rfl⟩
  cases suffix <;> simp [TypeTree.tokens, SuffixTree.tokens, inPath]

/-- Members close the parentheses that they open. -/
theorem balanced_members : Balanced members := by
  -- Only expressions hold parentheses, and the signs around them are none.
  have sign {kind : TokenKind} {later : Language TokenKind} (balanced : Balanced later)
      (noParen : kind ≠ .leftParen ∧ kind ≠ .rightParen := by simp) :
      Balanced (single {kind} * later) :=
    (balanced_single (by simpa using noParen)).mul balanced
  rw [members_eq, phrasesOf_relation, phrasesOf_permission]
  refine .add ?_ ?_
  · exact sign (sign (sign (balanced_types.mul (sign balanced_types).kstar)))
  · exact sign (sign (sign (balanced_operands .expression)))

/-- Headers are balanced, since they hold no parentheses. -/
theorem balanced_headers : Balanced headers := by
  -- A keyword, a path and a brace hold no parenthesis each.
  rw [headers_eq]
  exact (balanced_single (by simp)).mul (balanced_paths.mul (balanced_single (by simp)))

/-- Definitions close the parentheses that they open. -/
theorem balanced_definitions : Balanced definitions := by
  rw [definitions_eq]
  have closed : Balanced bodies := balanced_members.kstar.mul (balanced_single (by simp))
  exact balanced_headers.mul closed

end AuthSchema.Grammar
