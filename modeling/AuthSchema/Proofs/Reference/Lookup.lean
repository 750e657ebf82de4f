import AuthSchema.Proofs.Schema.WellFormed

/-!
Finding the reference at a position undoes the listing of all references.

* The references of a schema that is read follow one another without overlap.
* Every position of a reference leads back to it, and no other position leads to any.
* Keywords, declared names and signs outside of types are no part of a reference.
-/

namespace AuthSchema

open Grammar

namespace Range.InSequence

variable {α β : Type} {range : α → Range} {inner : β → Range}

/-- One item that takes some text is in sequence. -/
theorem singleton {item : α} (proper : (range item).start < (range item).stop) :
    InSequence range [item] :=
  ⟨by simpa using proper, List.pairwise_singleton _ _⟩

/-- Parts that stand in sequence inside items in sequence are in sequence all together. -/
theorem flatMap {items : List α} {parts : α → List β} (sequence : InSequence range items)
    (each : ∀ item ∈ items, InSequence inner (parts item))
    (within : ∀ item ∈ items, ∀ part ∈ parts item, (inner part).Within (range item)) :
    InSequence inner (items.flatMap parts) := by
  refine ⟨?_, List.pairwise_flatMap.mpr ⟨?_, ?_⟩⟩
  · -- What a part takes is settled inside its own item.
    intro part listed
    obtain ⟨item, among, holds⟩ := List.mem_flatMap.mp listed
    exact (each item among).proper part holds
  · intro item among
    exact (each item among).before
  · -- Parts of different items are as far apart as the items are.
    refine List.Pairwise.imp_of_mem ?_ sequence.before
    intro first second firstListed secondListed before part holds other otherHolds
    calc (inner part).stop
        ≤ (range first).stop := (within first firstListed part holds).stop_le
      _ ≤ (range second).start := before
      _ ≤ (inner other).start := (within second secondListed other otherHolds).start_le

end Range.InSequence

/-- A reference is written inside the stretch that it takes. -/
theorem Reference.WellPlaced.within {reference : Reference} (placed : reference.WellPlaced) :
    reference.range.Within reference.extent := by
  cases reference with
  | type written => exact .refl _
  | name written => exact .refl _
  -- Only an arrow takes more than it is written with here, and its right name stands inside it.
  | arrowTarget written => exact Arrow.WellPlaced.right_within placed

/-- The two names of an arrow stand apart, and any other mark has one reference at most. -/
theorem Mark.WellPlaced.sites_inSequence {mark : Mark} (placed : mark.WellPlaced)
    (proper : mark.range.start < mark.range.stop) :
    Range.InSequence (fun site => site.reference.range) mark.sites := by
  cases mark with
  | declared highlight => exact ⟨by simp [sites], .nil⟩
  | type written enclosing => exact .singleton proper
  | name written enclosing => exact .singleton proper
  | arrow written enclosing =>
    have placed : written.WellPlaced := placed
    refine ⟨?_, ?_⟩
    -- Both names of an arrow take some text of their own.
    · intro site holds
      simp only [sites, List.mem_cons, List.not_mem_nil, or_false] at holds
      rcases holds with rfl | rfl
      · exact placed.left_proper
      · exact placed.right_proper
    · simpa [sites, Reference.range] using placed.between

section Read

variable {options : Parse.Options} {source : String} {schema : Schema}

/-- In a schema that is read, each reference ends before the next one starts. -/
theorem sites_inSequence (read : (parseWith options source).schema? = some schema) :
    Range.InSequence (fun site => site.reference.range) schema.sites := by
  have sequence := marks_inSequence read
  rw [schema.sites_eq]
  refine sequence.flatMap ?_ ?_
  · -- Inside one mark the references stand apart.
    intro mark among
    exact (wellPlaced_of_read read among).sites_inSequence (sequence.proper mark among)
  · -- No reference reaches out of its mark, not even the right side of an arrow.
    intro mark among site holds
    obtain ⟨placed, within⟩ :=
      (wellPlaced_of_read read among).site (sequence.proper mark among) holds
    exact placed.within.trans within

/-- In a schema that is read, what is found at a position is the one reference that covers it. -/
theorem siteAt?_eq_some_iff (read : (parseWith options source).schema? = some schema)
    {site : Site} {position : Position} :
    schema.siteAt? position = some site ↔
      site ∈ schema.sites ∧ site.reference.range.contains position := by
  constructor
  · -- A search gives an item of the list that fits.
    intro found
    exact ⟨List.mem_of_find?_eq_some found, by simpa using List.find?_some found⟩
  · rintro ⟨listed, covers⟩
    -- Something is found, and no other reference covers the same position.
    have reached : (schema.siteAt? position).isSome :=
      List.find?_isSome.mpr ⟨site, listed, covers⟩
    obtain ⟨other, found⟩ := Option.isSome_iff_exists.mp reached
    have otherCovers : other.reference.range.contains position := by
      simpa using List.find?_some found
    rw [found, (sites_inSequence read).eq_of_contains (List.mem_of_find?_eq_some found) listed
      otherCovers covers]

/-- The highlight of a declared name is that of a mark. -/
theorem Schema.mem_declarationHighlights {highlight : Highlight} :
    highlight ∈ schema.declarationHighlights ↔ Mark.declared highlight ∈ schema.marks := by
  rw [schema.declarationHighlights_eq, List.mem_filterMap]
  constructor
  · rintro ⟨mark, among, shown⟩
    -- Marks of uses have no highlight of their own, so only a declared one can give it.
    cases mark with
    | declared other => exact Option.some.inj shown ▸ among
    | type written enclosing => cases shown
    | name written enclosing => cases shown
    | arrow written enclosing => cases shown
  · intro among
    exact ⟨_, among, rfl⟩

/-- In a schema that is read, no reference covers a position of a declared name. -/
theorem siteAt?_of_declared (read : (parseWith options source).schema? = some schema)
    {highlight : Highlight} (shown : highlight ∈ schema.declarationHighlights)
    {position : Position} (inside : highlight.range.contains position) :
    schema.siteAt? position = none := by
  have declared := Schema.mem_declarationHighlights.mp shown
  refine List.find?_eq_none.mpr ?_
  intro site listed covers
  obtain ⟨mark, among, holds, placed, within⟩ := exists_mark_of_read read listed
  have markInside := within.contains (placed.within.contains covers)
  -- The mark of a declared name has no references.
  rw [← (marks_inSequence read).eq_of_contains declared among inside markInside] at holds
  simp [Mark.sites] at holds

end Read

/-- The kinds of tokens that a reference is written with. -/
def TokenKind.inReference : TokenKind → Bool
  | .identifier | .slash | .hash | .colon | .star => true
  | _ => false

/-- A range that is written with some of the tokens, which stand together and fit a reference. -/
def Range.WrittenIn (tokens : List Token) (range : Range) : Prop :=
  ∃ part, part <:+: tokens ∧ Spans part range ∧ ∀ token ∈ part, token.kind.inReference

/-- What is written in a part of the tokens is written in all of them. -/
theorem Range.WrittenIn.mono {part tokens : List Token} {range : Range}
    (written : range.WrittenIn part) (within : part <:+: tokens) : range.WrittenIn tokens := by
  obtain ⟨inner, among, spans, kinds⟩ := written
  exact ⟨inner, among.trans within, spans, kinds⟩

/-- What is written in one of two operands is written in both with their operator. -/
theorem Range.WrittenIn.of_operands {left right : List Token} {range : Range} (sign : Token)
    (written : range.WrittenIn left ∨ range.WrittenIn right) :
    range.WrittenIn (left ++ sign :: right) := by
  rcases written with onLeft | onRight
  · exact onLeft.mono (List.prefix_append _ _).isInfix
  · exact onRight.mono ((List.suffix_cons _ _).trans (List.suffix_append _ _)).isInfix

/-- A name token writes its own range. -/
theorem Range.writtenIn_of_identifier {tokens : List Token} {token : Token}
    (listed : token ∈ tokens) (isName : token.kind = .identifier) :
    token.range.WrittenIn tokens := by
  obtain ⟨before, after, rfl⟩ := List.append_of_mem listed
  exact ⟨[token], ⟨before, after, by simp⟩, .single token, by simp [isName, TokenKind.inReference]⟩

/-- Over ordered tokens, one that shares a position with a stretch of them is part of it. -/
theorem Spans.mem_of_contains {part tokens : List Token} {range : Range} (spans : Spans part range)
    (together : part <:+: tokens) (ordered : Ordered tokens) {token : Token}
    (listed : token ∈ tokens) {position : Position} (inside : token.range.contains position)
    (covers : range.contains position) : token ∈ part := by
  -- The token stands before the stretch, in it, or behind it.
  obtain ⟨before, after, rfl⟩ := together
  rw [Range.contains_iff] at inside covers
  rcases List.mem_append.mp listed with inFront | behind
  · rcases List.mem_append.mp inFront with earlier | here
    · -- An earlier token ends before the range starts.
      have ends : token.range.stop ≤ range.start := by
        refine (Spans.single token).stop_le_start spans ?_
        intro head here other leaf
        rw [List.mem_singleton.mp here]
        exact ordered.left.apart token earlier other leaf
      exact absurd (inside.2.trans_le (ends.trans covers.1)) (lt_irrefl _)
    · exact here
  · -- A later token starts behind the end of the range.
    have starts : range.stop ≤ token.range.start := by
      refine spans.stop_le_start (Spans.single token) ?_
      intro leaf among head here
      rw [List.mem_singleton.mp here]
      exact ordered.apart leaf (List.mem_append_right _ among) token behind
    exact absurd (covers.2.trans_le (starts.trans inside.1)) (lt_irrefl _)

/-- A position in a range that is written with some tokens is in no other token. -/
theorem Range.WrittenIn.kind_of_contains {tokens : List Token} {range : Range}
    (written : range.WrittenIn tokens) (ordered : Ordered tokens) {token : Token}
    (listed : token ∈ tokens) {position : Position} (inside : token.range.contains position)
    (covers : range.contains position) : token.kind.inReference := by
  obtain ⟨part, together, spans, kinds⟩ := written
  -- The token is one of those that the range is written with.
  exact kinds token (spans.mem_of_contains together ordered listed inside covers)

namespace Grammar

/-- A type is written with names and its own signs alone. -/
theorem TypeTree.inReference (tree : TypeTree) :
    ∀ token ∈ tree.tokens, token.kind.inReference := by
  obtain ⟨path, suffix⟩ := tree
  -- A path has at most a slash, and a suffix at most a hash, a colon or a star.
  cases path <;> cases suffix <;>
    simp [TypeTree.tokens, PathTree.tokens, SuffixTree.tokens, TokenKind.inReference]

/-- Each reference of an expression is written as one of its names. -/
theorem ExprTree.writtenIn {rank : Rank} (tree : ExprTree rank) {reference : Reference}
    (listed : reference ∈ tree.expr.references) : reference.range.WrittenIn tree.tokens := by
  -- The cases follow the grammar: an operator has two operands with references of their own.
  induction tree with
  | term only ih => exact ih listed
  | factor only ih => exact ih listed
  | union left sign right ihLeft ihRight =>
    exact .of_operands sign.token ((List.mem_append.mp listed).imp ihLeft ihRight)
  | exclusion left sign right ihLeft ihRight =>
    exact .of_operands sign.token ((List.mem_append.mp listed).imp ihLeft ihRight)
  | intersection left sign right ihLeft ihRight =>
    exact .of_operands sign.token ((List.mem_append.mp listed).imp ihLeft ihRight)
  | name only =>
    obtain rfl := List.mem_singleton.mp listed
    exact Range.writtenIn_of_identifier (by simp [tokens]) only.kind_eq
  | arrow left sign right =>
    -- An arrow has two references, one for each of its names.
    simp only [expr, Expr.references, List.mem_cons, List.not_mem_nil, or_false] at listed
    rcases listed with rfl | rfl
    · exact Range.writtenIn_of_identifier (by simp [tokens]) left.kind_eq
    · exact Range.writtenIn_of_identifier (by simp [tokens]) right.kind_eq
  | nil keyword => simp [expr, Expr.references] at listed
  | parens opening inner closing ih =>
    exact (ih listed).mono (List.infix_append [opening.token] inner.tokens [closing.token])

/-- Each reference of a member is written with tokens of the member that stand together. -/
theorem MemberTree.writtenIn {tree : MemberTree} (ordered : Ordered tree.tokens)
    {reference : Reference} (listed : reference ∈ tree.member.references) :
    reference.range.WrittenIn tree.tokens := by
  cases tree with
  -- The references of a relation are its types, and each of those is a stretch of tokens.
  | relation tree =>
    obtain ⟨written, among, rfl⟩ := List.mem_map.mp listed
    obtain ⟨type, present, rfl⟩ := List.mem_map.mp among
    have within := RelationTree.tokens_isInfix present
    exact ⟨type.tokens, within, type.spans (ordered.sublist within.sublist), type.inReference⟩
  | permission tree =>
    -- An expression is what stands behind the first three tokens.
    exact (tree.expression.writtenIn listed).mono
      (List.suffix_append [tree.keyword.token, tree.name.token, tree.equals.token] _).isInfix

end Grammar

section Read

variable {options : Parse.Options} {source : String} {schema : Schema}

/-- In a schema that is read, a reference is that of a member whose tokens stand together. -/
theorem exists_memberTree_of_mem_sites (read : (parseWith options source).schema? = some schema)
    {site : Site} (listed : site ∈ schema.sites) :
    ∃ tree : MemberTree, tree.tokens <:+: (tokenize source).tokens ∧
      site.reference ∈ tree.member.references := by
  obtain ⟨declared, member, among, present⟩ := Schema.mem_sites.mp listed
  obtain ⟨outlines, definitions, within, together⟩ := exists_outlines_together read
  rw [definitions] at declared
  obtain ⟨outline, outlined, same⟩ := List.mem_map.mp declared
  -- Members of the definition are those of its outline, each over tokens of its own.
  have ordered := ((ordered_tokenize source).sublist within).item outlined
  rw [← same, Outline.members_definition ordered] at among
  obtain ⟨tree, kept, rfl⟩ := List.mem_map.mp among
  exact ⟨tree, together outline outlined tree kept, present⟩

/-- In a schema that is read, a reference is written with tokens that stand together. -/
theorem writtenIn_of_read (read : (parseWith options source).schema? = some schema) {site : Site}
    (listed : site ∈ schema.sites) :
    site.reference.range.WrittenIn (tokenize source).tokens := by
  -- Tokens that stand together in a member stand together in the text.
  obtain ⟨tree, whole, present⟩ := exists_memberTree_of_mem_sites read listed
  exact (tree.writtenIn ((ordered_tokenize source).sublist whole.sublist) present).mono whole

/-- In a schema that is read, no reference covers a position of a token that fits none. -/
theorem siteAt?_of_token (read : (parseWith options source).schema? = some schema) {token : Token}
    (listed : token ∈ (tokenize source).tokens) (foreign : token.kind.inReference = false)
    {position : Position} (inside : token.range.contains position) :
    schema.siteAt? position = none := by
  refine List.find?_eq_none.mpr ?_
  intro site among covers
  -- A token under the reference would be one that it is written with.
  have fits := (writtenIn_of_read read among).kind_of_contains (ordered_tokenize source) listed
    inside covers
  simp [foreign] at fits

/--
In a schema that is read, finding a reference by position undoes the listing of the references.

* The references start one after another, and each takes some text and ends before the next starts.
* A position leads to a reference exactly when the reference covers it. Since no two references
  start together, a reference stands in the list once, and the one that is found is that very one.
* The name of a declaration leads to no reference, and neither does a keyword, a brace, a
  parenthesis, an operator, or any other token that no reference is written with.
-/
theorem siteAt?_inverts_sites (read : (parseWith options source).schema? = some schema) :
    Range.Increasing (fun site => site.reference.range) schema.sites ∧
      Range.InSequence (fun site => site.reference.range) schema.sites ∧
      (∀ site position, schema.siteAt? position = some site ↔
        site ∈ schema.sites ∧ site.reference.range.contains position) ∧
      (∀ definition ∈ schema.definitions, ∀ position,
        (definition.nameRange.contains position → schema.siteAt? position = none) ∧
        ∀ member ∈ definition.members, member.nameRange.contains position →
          schema.siteAt? position = none) ∧
      ∀ token ∈ (tokenize source).tokens,
        token.kind ∈ [.definition, .relation, .permission, .nil, .leftBrace, .rightBrace,
          .leftParen, .rightParen, .equals, .pipe, .plus, .ampersand, .minus, .arrow] →
        ∀ position, token.range.contains position → schema.siteAt? position = none := by
  have sequence := sites_inSequence read
  refine ⟨sequence.increasing, sequence, ?_, ?_, ?_⟩
  · intro site position
    exact siteAt?_eq_some_iff read
  · intro definition declared position
    -- The names of a definition and of its members are both declared, and are shown as such.
    refine ⟨?_, ?_⟩
    · intro inside
      exact siteAt?_of_declared read
        (List.mem_flatMap.mpr ⟨definition, declared, List.mem_cons_self⟩) inside
    · intro member listed inside
      have shown : ⟨member.nameRange, .ofMember? (some member)⟩ ∈ definition.highlights :=
        List.mem_cons_of_mem _ (List.mem_map.mpr ⟨member, listed, rfl⟩)
      exact siteAt?_of_declared read (List.mem_flatMap.mpr ⟨definition, declared, shown⟩) inside
  · intro token listed kind position inside
    refine siteAt?_of_token read listed ?_ inside
    -- None of the kinds that are listed is one that a reference is written with.
    revert kind
    cases token.kind <;> simp [TokenKind.inReference]

end Read

/-- A text with a faulty relation between references of all sorts. -/
def mixedReferences : String :=
  "definition a \x7b relation r: a#r | a:* relation oops\n" ++
    "permission p = (r->p & nil) - r \x7d"

/-- Both sides of the arrow are found, while the arrow itself and the operators are not. -/
theorem siteAt?_inverts_sites_mixedReferences :
    ∃ schema, (parseWith .bestEffort mixedReferences).schema? = some schema ∧
      schema.sites.length = 5 ∧
      (∃ site ∈ schema.sites, schema.siteAt? ⟨2, 20⟩ = some site) ∧
      schema.siteAt? ⟨2, 18⟩ = none ∧ schema.siteAt? ⟨2, 22⟩ = none := by
  obtain ⟨schema, read, count, ⟨site, listed, covers⟩, ⟨arrow, arrowListed, arrowKind, onArrow⟩,
      ampersand, signListed, signKind, onSign⟩ :
      ∃ schema ∈ (parseWith .bestEffort mixedReferences).schema?, schema.sites.length = 5 ∧
        (∃ site ∈ schema.sites, site.reference.range.contains ⟨2, 20⟩ = true) ∧
        (∃ token ∈ (tokenize mixedReferences).tokens, token.kind = .arrow ∧
          token.range.contains ⟨2, 18⟩ = true) ∧
        ∃ token ∈ (tokenize mixedReferences).tokens, token.kind = .ampersand ∧
          token.range.contains ⟨2, 22⟩ = true := by
    decide +kernel
  -- The signs are tokens that no reference is written with, while the right name is found.
  obtain ⟨_, _, found, _, others⟩ := siteAt?_inverts_sites read
  refine ⟨schema, read, count, ⟨site, listed, (found _ _).mpr ⟨listed, covers⟩⟩, ?_, ?_⟩
  · exact others arrow arrowListed (by simp [arrowKind]) _ onArrow
  · exact others ampersand signListed (by simp [signKind]) _ onSign

end AuthSchema
