import AuthSchema.Proofs.Editor.Agreement

/-!
Where navigation starts from, compared with the position that it was asked for.

* Navigation starts from a name of the reference at the position.
* At any name, that is the name itself.
* At a sign of a type, it is the path of the type, which ends in front of the position.
-/

namespace AuthSchema

open Grammar

/-- A position of a type behind its path, and in front of the name after its hash if it has one. -/
structure SubjectType.AtSign (written : SubjectType) (position : Position) : Prop where
  path_stop_le : written.pathRange.stop ≤ position
  lt_stop : position < written.range.stop
  lt_suffix : ∀ place ∈ written.suffixRange, position < place.start

namespace SubjectType

variable {written : SubjectType} {position : Position}

/-- A sign stands behind the path. -/
theorem AtSign.path_misses (atSign : written.AtSign position) :
    written.pathRange.contains position = false := by
  rw [Bool.eq_false_iff, Ne, Range.contains_iff]
  exact fun inside => absurd atSign.path_stop_le inside.2.not_ge

/-- A sign stands in front of the suffix. -/
theorem AtSign.suffix_misses (atSign : written.AtSign position) :
    written.suffixRange.filter (·.contains position) = none := by
  rw [Option.filter_eq_none_iff]
  intro place present inside
  exact absurd (Range.contains_iff.mp inside).1 (atSign.lt_suffix place present).not_ge

/-- A type reaches over its signs. -/
theorem WellPlaced.contains_of_atSign (placed : written.WellPlaced)
    (atSign : written.AtSign position) : written.range.contains position := by
  -- The type starts with its path, and the sign is behind that.
  rw [Range.contains_iff, ← placed.path_start]
  exact ⟨placed.path_proper.le.trans atSign.path_stop_le, atSign.lt_stop⟩

/-- A position of a type that is in none of its names is at a sign. -/
theorem WellPlaced.atSign (placed : written.WellPlaced)
    (covers : written.range.contains position)
    (pathMisses : written.pathRange.contains position = false)
    (suffixMisses : written.suffixRange.filter (·.contains position) = none) :
    written.AtSign position := by
  rw [Range.contains_iff, ← placed.path_start] at covers
  constructor
  · -- The path starts with the type, so that it can only end too early.
    rw [Bool.eq_false_iff, Ne, Range.contains_iff] at pathMisses
    exact not_lt.mp fun early => pathMisses ⟨covers.1, early⟩
  · exact covers.2
  · -- The suffix ends with the type, so that it can only start too late.
    intro place present
    have outside := Option.filter_eq_none_iff.mp suffixMisses place present
    rw [Range.contains_iff, placed.suffix_stop place present] at outside
    exact not_le.mp fun late => outside ⟨late, covers.2⟩

end SubjectType

/-- The name of a reference that a position picks: that of a type is its path, up to its suffix. -/
def Reference.nameAt (position : Position) : Reference → Range
  | .type written => (written.suffixRange.filter (·.contains position)).getD written.pathRange
  | .name written => written.range
  | .arrowTarget written => written.right.range

namespace Schema

variable {schema : Schema} {position : Position}

/-- Navigation starts from the name that the position picks. -/
theorem origin_eq_nameAt {site : Site} {navigation : Navigation}
    (navigated : (schema.resolve site).navigate? position = some navigation) :
    navigation.origin = site.reference.nameAt position := by
  -- A name and an arrow answer from one place only, and a type from one of two.
  obtain ⟨reference, enclosing⟩ := site
  cases reference with
  | type written =>
    obtain ⟨found, resolved, leads⟩ := Option.bind_eq_some_iff.mp navigated
    unfold Resolution.navigateType at leads
    -- The suffix is chosen where it holds the position, and the path everywhere else.
    split at leads
    · rename_i offSuffix
      obtain rfl := Option.some.inj leads
      simp [Reference.nameAt, offSuffix]
    · rename_i suffix onSuffix
      obtain ⟨member, declared, rfl⟩ := Option.map_eq_some_iff.mp leads
      simp [Reference.nameAt, onSuffix]
  | name written =>
    obtain ⟨member, declared, rfl⟩ := Option.map_eq_some_iff.mp navigated
    rfl
  | arrowTarget written =>
    simp only [resolve, Resolution.navigate?] at navigated
    split at navigated
    · obtain rfl := Option.some.inj navigated
      rfl
    · cases navigated

/-- The name that a position picks is highlighted. -/
theorem exists_highlight_nameAt {site : Site} (listed : site ∈ schema.sites)
    (position : Position) :
    ∃ highlight ∈ schema.referenceHighlights,
      highlight.range = site.reference.nameAt position := by
  suffices own : ∃ highlight ∈ (schema.resolve site).highlights,
      highlight.range = site.reference.nameAt position by
    obtain ⟨highlight, shown, same⟩ := own
    -- What is highlighted in one reference is highlighted in the schema.
    have among : ⟨schema.resolve site, site.enclosing⟩ ∈ schema.resolvedSites :=
      List.mem_map_of_mem listed
    exact ⟨highlight, List.mem_flatMap.mpr ⟨_, among, shown⟩, same⟩
  obtain ⟨reference, enclosing⟩ := site
  cases reference with
  | type written =>
    -- The suffix is shown where it stands, and so is the path.
    cases onSuffix : written.suffixRange.filter (·.contains position) with
    | none => exact ⟨_, List.mem_cons_self, by simp [Reference.nameAt, onSuffix]⟩
    | some suffix =>
      -- A suffix that is chosen has a place.
      have present := (Option.filter_eq_some_iff.mp onSuffix).1
      let shown : Highlight :=
        ⟨suffix, .ofMember? ((schema.resolveType? written).bind (·.relation?))⟩
      refine ⟨shown, ?_, by simp [Reference.nameAt, onSuffix, shown]⟩
      apply List.mem_cons_of_mem
      simp [present, shown]
  | name written => exact ⟨_, List.mem_singleton_self _, rfl⟩
  | arrowTarget written => exact ⟨_, List.mem_singleton_self _, rfl⟩

/-- A type that is defined leads from any of its signs to its definition. -/
theorem navigate?_of_atSign {written : SubjectType} (enclosing : Definition)
    (atSign : written.AtSign position) :
    (schema.resolve ⟨.type written, enclosing⟩).navigate? position =
      (schema.definition? written.path).map fun definition =>
        ⟨written.pathRange, [definition.target]⟩ := by
  -- A type that is not defined leads nowhere, from its signs too.
  cases found : schema.definition? written.path with
  | none => simp [resolve, Resolution.navigate?, resolveType?, found]
  | some definition =>
    simp [resolve, Resolution.navigate?, resolveType?, found, Resolution.navigateType,
      atSign.suffix_misses]

end Schema

/-- Only at a sign of a type does a position pick a name that it is not in. -/
theorem Reference.WellPlaced.atSign_of_misses {reference : Reference}
    (placed : reference.WellPlaced) {position : Position}
    (covers : reference.range.contains position)
    (misses : (reference.nameAt position).contains position = false) :
    ∃ written, reference = .type written ∧ written.AtSign position := by
  cases reference with
  | type written =>
    refine ⟨written, rfl, ?_⟩
    -- Were the suffix chosen, it would hold the position.
    cases onSuffix : written.suffixRange.filter (·.contains position) with
    | none =>
      rw [nameAt, onSuffix, Option.getD_none] at misses
      exact SubjectType.WellPlaced.atSign placed covers misses onSuffix
    | some suffix =>
      rw [nameAt, onSuffix, Option.getD_some, (Option.filter_eq_some_iff.mp onSuffix).2] at misses
      cases misses
  | name written => exact absurd covers (Bool.eq_false_iff.mp misses)
  | arrowTarget written => exact absurd covers (Bool.eq_false_iff.mp misses)

/-- No type is referred to in an expression. -/
theorem Expr.type_notMem_references (written : SubjectType) (expr : Expr) :
    Reference.type written ∉ expr.references := by
  -- Expressions refer to members only.
  induction expr with
  | reference name => simp [references]
  | arrow arrow => simp [references]
  | nil range => simp [references]
  | binary operator left right range ihLeft ihRight => simp [references, ihLeft, ihRight]

/-- A token at a sign of a type is that sign. -/
theorem Grammar.TypeTree.kind_of_atSign {tree : TypeTree} (ordered : Ordered tree.tokens)
    {token : Token} (leaf : token ∈ tree.tokens) {position : Position}
    (inside : token.range.contains position) (atSign : tree.subjectType.AtSign position) :
    token.kind ∈ [.hash, .colon, .star] := by
  obtain ⟨path, suffix⟩ := tree
  -- The token belongs to the path or to the suffix.
  rcases List.mem_append.mp leaf with onPath | onSuffix
  · -- The tokens of the path end with it, in front of the position.
    have within := (path.spans ordered.left).within_of_mem ordered.left onPath
    have early : path.range.stop ≤ position := by
      cases suffix <;> exact atSign.path_stop_le
    exact absurd (within.stop_le.trans early) (Range.contains_iff.mp inside).2.not_ge
  · cases suffix with
    | none => simp [SuffixTree.tokens] at onSuffix
    | relation hash name =>
      simp only [SuffixTree.tokens, List.mem_cons, List.not_mem_nil, or_false] at onSuffix
      rcases onSuffix with rfl | rfl
      · simp
      · -- The name after the hash starts behind the position.
        have late := atSign.lt_suffix name.token.range rfl
        exact absurd (Range.contains_iff.mp inside).1 late.not_ge
    | wildcard colon star =>
      simp only [SuffixTree.tokens, List.mem_cons, List.not_mem_nil, or_false] at onSuffix
      -- Both the colon and the star count as signs.
      rcases onSuffix with rfl | rfl
      · simp
      · simp

section Read

variable {options : Parse.Options} {source : String} {schema : Schema}

/-- In a schema that is read, a type is written with tokens that stand together. -/
theorem exists_typeTree_of_mem_sites (read : (parseWith options source).schema? = some schema)
    {written : SubjectType} {enclosing : Definition}
    (listed : ⟨.type written, enclosing⟩ ∈ schema.sites) :
    ∃ tree : TypeTree, tree.tokens <:+: (tokenize source).tokens ∧ tree.subjectType = written := by
  obtain ⟨tree, whole, present⟩ := exists_memberTree_of_mem_sites read listed
  -- Only a relation writes types, each over a stretch of its own tokens.
  cases tree with
  | relation tree =>
    obtain ⟨type, among, same⟩ := List.mem_map.mp present
    obtain rfl := Reference.type.inj same
    obtain ⟨type, kept, rfl⟩ := List.mem_map.mp among
    exact ⟨type, (RelationTree.tokens_isInfix kept).trans whole, rfl⟩
  | permission tree =>
    -- The types of a schema stand in its relations.
    exact absurd present (Expr.type_notMem_references written _)

/-- In a schema that is read, a token at a sign of a type is that sign. -/
theorem kind_of_atSign (read : (parseWith options source).schema? = some schema)
    {written : SubjectType} {enclosing : Definition}
    (listed : ⟨.type written, enclosing⟩ ∈ schema.sites) {position : Position}
    (atSign : written.AtSign position) {token : Token} (present : token ∈ (tokenize source).tokens)
    (inside : token.range.contains position) : token.kind ∈ [.hash, .colon, .star] := by
  obtain ⟨tree, together, rfl⟩ := exists_typeTree_of_mem_sites read listed
  have ordered := (ordered_tokenize source).sublist together.sublist
  -- The type reaches over the position, and so the token is one of its own.
  have covers := (tree.wellPlaced ordered).contains_of_atSign atSign
  have leaf := (tree.spans ordered).mem_of_contains together (ordered_tokenize source) present
    inside covers
  exact tree.kind_of_atSign ordered leaf inside atSign

/-- In a schema that is read, navigation from a position is that of the one reference there. -/
theorem exists_site_of_navigate? (read : (parseWith options source).schema? = some schema)
    {position : Position} {navigation : Navigation}
    (navigated : schema.navigate? position = some navigation) :
    ∃ site ∈ schema.sites, site.reference.WellPlaced ∧ site.reference.range.contains position ∧
      (schema.resolve site).navigate? position = some navigation := by
  obtain ⟨site, found, leads⟩ := Option.bind_eq_some_iff.mp navigated
  -- A position finds at most one reference, and the reference is well placed.
  obtain ⟨listed, covers⟩ := (siteAt?_eq_some_iff read).mp found
  obtain ⟨_, _, _, placed, _⟩ := exists_mark_of_read read listed
  exact ⟨site, listed, placed, covers, leads⟩

/-- In a schema that is read, every sign of a type leads where its path leads. -/
theorem navigate?_sign (read : (parseWith options source).schema? = some schema)
    {written : SubjectType} {enclosing : Definition}
    (listed : ⟨.type written, enclosing⟩ ∈ schema.sites) {position : Position}
    (atSign : written.AtSign position) :
    schema.navigate? position = (schema.definition? written.path).map fun definition =>
      ⟨written.pathRange, [definition.target]⟩ := by
  obtain ⟨_, _, _, placed, _⟩ := exists_mark_of_read read listed
  -- The type covers its signs, and is found there.
  have found := (siteAt?_eq_some_iff read).mpr
    ⟨listed, SubjectType.WellPlaced.contains_of_atSign placed atSign⟩
  rw [Schema.navigate?, found, Option.bind_some, Schema.navigate?_of_atSign enclosing atSign]

/-- In a schema that is read, only the signs of types lead from elsewhere. -/
theorem exists_sign_of_misses (read : (parseWith options source).schema? = some schema)
    {position : Position} {navigation : Navigation}
    (navigated : schema.navigate? position = some navigation)
    (misses : navigation.origin.contains position = false) :
    ∃ written enclosing, ⟨.type written, enclosing⟩ ∈ schema.sites ∧ written.AtSign position := by
  obtain ⟨⟨reference, enclosing⟩, listed, placed, covers, leads⟩ :=
    exists_site_of_navigate? read navigated
  -- The name that was picked does not hold the position, which is so at signs only.
  rw [Schema.origin_eq_nameAt leads] at misses
  obtain ⟨written, rfl, atSign⟩ := placed.atSign_of_misses covers misses
  exact ⟨written, enclosing, listed, atSign⟩

/--
Navigation in a schema that is read starts at its position, except from the signs of types.

* It starts at its position exactly when the position is in a highlighted name of a reference.
* It starts elsewhere exactly from the signs of a type that is defined, which lead from the path of
  the type to its definition.
* A token at such a position is a hash, a colon or a star.
-/
theorem origin_contains_iff_highlighted (read : (parseWith options source).schema? = some schema)
    (position : Position) :
    (∀ navigation, schema.navigate? position = some navigation →
      (navigation.origin.contains position ↔
        ∃ highlight ∈ schema.referenceHighlights, highlight.range.contains position)) ∧
      (∀ navigation, schema.navigate? position = some navigation ∧
          navigation.origin.contains position = false ↔
        ∃ written enclosing, ⟨.type written, enclosing⟩ ∈ schema.sites ∧ written.AtSign position ∧
          ∃ definition, schema.definition? written.path = some definition ∧
            navigation = ⟨written.pathRange, [definition.target]⟩) ∧
      ∀ navigation, schema.navigate? position = some navigation →
        navigation.origin.contains position = false →
        ∀ token ∈ (tokenize source).tokens, token.range.contains position →
          token.kind ∈ [.hash, .colon, .star] := by
  refine ⟨?_, ?_, ?_⟩
  · intro navigation navigated
    constructor
    · -- The name that the navigation starts from is highlighted.
      intro inside
      obtain ⟨site, listed, _, _, leads⟩ := exists_site_of_navigate? read navigated
      obtain ⟨highlight, shown, same⟩ := Schema.exists_highlight_nameAt listed position
      rw [Schema.origin_eq_nameAt leads, ← same] at inside
      exact ⟨highlight, shown, inside⟩
    · -- A highlighted name leads from its own range, if it leads anywhere.
      intro ⟨highlight, shown, inside⟩
      obtain ⟨name, _, leads⟩ := exists_leads read shown inside
      rw [navigated] at leads
      cases leads with
      | somewhere => exact inside
  · intro navigation
    constructor
    · -- Elsewhere than at a name there is only a sign, which leads where the path does.
      intro ⟨navigated, misses⟩
      obtain ⟨written, enclosing, listed, atSign⟩ := exists_sign_of_misses read navigated misses
      rw [navigate?_sign read listed atSign] at navigated
      obtain ⟨definition, found, rfl⟩ := Option.map_eq_some_iff.mp navigated
      exact ⟨written, enclosing, listed, atSign, definition, found, rfl⟩
    · -- A sign is not in the path that it leads from.
      intro ⟨written, enclosing, listed, atSign, definition, found, same⟩
      rw [navigate?_sign read listed atSign, found, same]
      exact ⟨rfl, atSign.path_misses⟩
  · intro navigation navigated misses token present inside
    -- The sign belongs to a type, and so does any token there.
    obtain ⟨written, enclosing, listed, atSign⟩ := exists_sign_of_misses read navigated misses
    exact kind_of_atSign read listed atSign present inside

end Read

/-- A text with a type that has a hash and a name behind its path. -/
def hashedType : String :=
  "definition g \x7b relation m: g#m \x7d"

/-- Navigation from the name behind the hash starts there, and from the hash it starts elsewhere. -/
theorem origin_contains_iff_highlighted_hashedType :
    ∃ schema, (parseWith .strict hashedType).schema? = some schema ∧
      (∃ navigation, schema.navigate? ⟨1, 30⟩ = some navigation ∧
        navigation.origin.contains ⟨1, 30⟩) ∧
      ∃ written enclosing, ⟨.type written, enclosing⟩ ∈ schema.sites ∧
        written.AtSign ⟨1, 29⟩ := by
  obtain ⟨schema, read, ⟨onName, fromName, highlighted⟩, onHash, fromHash, misses⟩ :
      ∃ schema ∈ (parseWith .strict hashedType).schema?,
        (∃ navigation ∈ schema.navigate? ⟨1, 30⟩,
          ∃ highlight ∈ schema.referenceHighlights, highlight.range.contains ⟨1, 30⟩ = true) ∧
        ∃ navigation ∈ schema.navigate? ⟨1, 29⟩,
          navigation.origin.contains ⟨1, 29⟩ = false := by
    decide +kernel
  refine ⟨schema, read, ⟨onName, fromName, ?_⟩, ?_⟩
  · exact ((origin_contains_iff_highlighted read ⟨1, 30⟩).1 onName fromName).mpr highlighted
  · obtain ⟨written, enclosing, listed, atSign, _⟩ :=
      ((origin_contains_iff_highlighted read ⟨1, 29⟩).2.1 onHash).mp ⟨fromHash, misses⟩
    exact ⟨written, enclosing, listed, atSign⟩

/-- Navigation does not always start at its position: from a hash, it starts in front of it. -/
theorem not_forall_origin_contains :
    ¬ ∀ (options : Parse.Options) (source : String) (schema : Schema),
      (parseWith options source).schema? = some schema →
      ∀ position navigation, schema.navigate? position = some navigation →
        navigation.origin.contains position := by
  intro contains
  obtain ⟨schema, read, navigation, navigated, misses⟩ :
      ∃ schema ∈ (parseWith .strict hashedType).schema?,
        ∃ navigation ∈ schema.navigate? ⟨1, 29⟩,
          navigation.origin.contains ⟨1, 29⟩ = false := by
    decide +kernel
  -- The path in front of the hash does not hold the hash.
  have inside := contains .strict hashedType schema read ⟨1, 29⟩ navigation navigated
  simp [misses] at inside

end AuthSchema
