import AuthSchema.Editor.Highlight
import AuthSchema.Proofs.Schema.Names
import AuthSchema.Proofs.Token.Lexical
import Mathlib.Data.List.Perm.Basic

/-!
The highlights of a schema are its names in document order, each on one line.

* The walk over declarations and the walk over references find every name, and none twice.
* Where the whole text is read, every name that is written there is highlighted exactly once.
-/

namespace AuthSchema

open Grammar

/-- The names that are written in a reference, where those of an arrow are two references. -/
def Reference.names : Reference → List NameRef
  | .type written => written.names
  | .name written => [written]
  | .arrowTarget written => [written.right]

/-- A highlight that marks a name of a source, on one line and over all of its characters. -/
structure Highlight.Marks (source : String) (highlight : Highlight) (written : NameRef) : Prop where
  range_eq : highlight.range = written.range
  text_eq : textAt? source highlight.range = some written.name
  oneLine : highlight.range.start.line = highlight.range.stop.line
  length_eq : highlight.length = written.name.length

/-- The range of one name, or of two names with a slash between them and no other byte. -/
inductive Range.OverPath (tokens : List Token) : Range → Prop where
  | name {token : Token} (listed : token ∈ tokens) (isName : token.kind = .identifier) :
    OverPath tokens token.range
  | pair {first slash second : Token} (together : [first, slash, second] <:+: tokens)
    (firstIsName : first.kind = .identifier) (isSlash : slash.kind = .slash)
    (secondIsName : second.kind = .identifier) (before : first.isAdjacent slash)
    (after : slash.isAdjacent second) : OverPath tokens (first.range.cover second.range)

section Walks

/-- The names in the references of an expression are its names. -/
theorem Expr.flatMap_names_references (expr : Expr) :
    expr.references.flatMap Reference.names = expr.names := by
  -- An arrow has two references with one name each, and the order is that of the text.
  induction expr with
  | reference written => rfl
  | arrow written => rfl
  | nil range => rfl
  | binary operator left right range ihLeft ihRight =>
    rw [Expr.references, List.flatMap_append, ihLeft, ihRight, Expr.names]

/-- The names in a member are its own and those of its references. -/
theorem Member.names_eq (member : Member) :
    member.names =
      ⟨member.name, member.nameRange⟩ :: member.references.flatMap Reference.names := by
  -- A relation uses the names in its types, a permission those in its expression.
  cases member with
  | relation declared =>
    rw [names, references, List.flatMap_map]
    rfl
  | permission declared =>
    rw [names, references, Expr.flatMap_names_references]
    rfl

/-- What a reference stands for decides how its names are shown, but not where. -/
theorem Schema.map_range_highlights_resolve (schema : Schema) (site : Site) :
    (schema.resolve site).highlights.map Highlight.range =
      site.reference.names.map NameRef.range := by
  obtain ⟨reference, enclosing⟩ := site
  -- Whether a suffix is shown depends on whether it has a place.
  cases reference with
  | type written =>
    simp only [resolve, Resolution.highlights, Reference.names, SubjectType.names, List.map_cons]
    cases written.suffixRange <;> rfl
  | name written => rfl
  | arrowTarget written => rfl

/-- The declared names of a definition and the names in its references are all of its names. -/
theorem Definition.ranges_perm (definition : Definition) :
    (definition.highlights.map Highlight.range ++
      definition.members.flatMap fun member =>
        (member.references.flatMap Reference.names).map NameRef.range).Perm
      (definition.names.map NameRef.range) := by
  -- Both lists start with the name of the definition.
  have declared : definition.highlights.map Highlight.range =
      definition.nameRange :: definition.members.map Member.nameRange := by
    simp [highlights, Function.comp_def]
  have written : definition.names.map NameRef.range =
      definition.nameRange :: definition.members.flatMap fun member =>
        member.nameRange :: (member.references.flatMap Reference.names).map NameRef.range := by
    simp only [names, List.map_cons, List.map_flatMap, Member.names_eq]
  rw [declared, written, List.cons_append]
  -- The name of a member comes right before its references, and not before those of all members.
  exact (List.map_append_flatMap_perm _ _ _).cons _

/-- The two walks over a schema find all of its names, and each of them once. -/
theorem Schema.ranges_perm (schema : Schema) :
    ((schema.declarationHighlights ++ schema.referenceHighlights).map Highlight.range).Perm
      (schema.names.map NameRef.range) := by
  -- Each reference gives its names, whatever it stands for.
  have onReferences : schema.referenceHighlights.map Highlight.range =
      schema.definitions.flatMap fun definition => definition.members.flatMap fun member =>
        (member.references.flatMap Reference.names).map NameRef.range := by
    simp only [referenceHighlights, resolvedSites, sites, Definition.sites, List.map_flatMap,
      List.flatMap_map, List.flatMap_assoc, map_range_highlights_resolve]
  rw [List.map_append, onReferences, declarationHighlights, List.map_flatMap, names,
    List.map_flatMap]
  -- Both walks go through the definitions in the same order, and can be compared one by one.
  refine (List.flatMap_append_perm _ _ _).trans (.flatMap_left _ ?_)
  intro definition _
  exact definition.ranges_perm

end Walks

section Text

variable {source : String}

/-- A token that is a name is made of the characters of names. -/
theorem isNameChar_of_identifier {token : Token} (listed : token ∈ (tokenize source).tokens)
    (isName : token.kind = .identifier) : ∀ char ∈ token.text.toList, isNameChar char := by
  obtain ⟨first, taken, rest, read, text_eq⟩ := exists_lexeme_of_mem listed
  have lexeme : Spells token.kind (first :: taken) rest := Lexeme.isLexeme_of_ofHead read
  rw [isName] at lexeme
  rw [text_eq, String.toList_ofList]
  -- Keywords and signs have kinds of their own, and what is left is a name.
  cases lexeme with
  | keyword isKeyword spelled ends => exact absurd isKeyword (by decide)
  | identifier starts goesOn noKeyword ends =>
    exact List.forall_mem_cons.mpr ⟨isNameChar_of_isNameStart starts, goesOn⟩
  | sign isSign spelled noArrow noComment => cases spelled

/-- A name holds no line feed. -/
theorem newline_not_mem_identifier {token : Token} (listed : token ∈ (tokenize source).tokens)
    (isName : token.kind = .identifier) : '\n' ∉ token.text.toList := by
  intro feeds
  -- A line feed is no character of names.
  have char := isNameChar_of_identifier listed isName _ feeds
  exact absurd char (by decide)

namespace Grammar.PathTree

/-- A path holds no line feed. -/
theorem newline_not_mem_name {tree : PathTree} (within : tree.tokens ⊆ (tokenize source).tokens) :
    '\n' ∉ tree.name.toList := by
  -- A slash is no line feed either.
  cases tree with
  | single name => exact newline_not_mem_identifier (within (by simp [tokens])) name.kind_eq
  | pair first slash second =>
    have onFirst := newline_not_mem_identifier (within (by simp [tokens])) first.kind_eq
    have onSecond := newline_not_mem_identifier (within (by simp [tokens])) second.kind_eq
    simp [name, onFirst, onSecond]

/-- An unspaced path goes along its line, one column for each character. -/
theorem stop_range {tree : PathTree} (unspaced : tree.Unspaced)
    (within : tree.tokens.Sublist (tokenize source).tokens) :
    tree.range.stop = ⟨tree.range.start.line, tree.range.start.column + tree.name.length⟩ := by
  -- The text of the path stands at its range, and stays on its line.
  obtain ⟨_, _, _, _, stops⟩ := textAt?_eq_some_iff.mp (tree.textAt?_range unspaced within)
  rw [← stops, Position.after_of_oneLine (newline_not_mem_name within.subset), String.length_toList]

/-- The range of an unspaced path is over its tokens. -/
theorem overPath {tree : PathTree} {tokens : List Token} (unspaced : tree.Unspaced)
    (together : tree.tokens <:+: tokens) : tree.range.OverPath tokens := by
  cases tree with
  | single name => exact .name (together.subset (by simp [PathTree.tokens])) name.kind_eq
  | pair first slash second =>
    exact .pair together first.kind_eq slash.kind_eq second.kind_eq
      (by simpa [Token.isAdjacent] using unspaced.1) (by simpa [Token.isAdjacent] using unspaced.2)

end Grammar.PathTree

end Text

section Read

variable {options : Parse.Options} {source : String} {schema : Schema}

/-- In a schema that is read, the highlights stand where the names do, in the same order. -/
theorem map_range_highlights (read : (parseWith options source).schema? = some schema) :
    schema.highlights.map Highlight.range = schema.names.map NameRef.range := by
  obtain ⟨tokens, named, within⟩ := exists_named read
  have increasing := (named.inSequence ((ordered_tokenize source).sublist within)).increasing
  rw [Schema.highlights, Range.map_sortByStart]
  -- Names in document order leave only one way to sort what the two walks find.
  exact Range.sortByStart_eq schema.ranges_perm (List.pairwise_map.mpr increasing)

/-- In a schema that is read, each highlight ends before the next one starts. -/
theorem highlights_inSequence (read : (parseWith options source).schema? = some schema) :
    Range.InSequence Highlight.range schema.highlights := by
  obtain ⟨tokens, named, within⟩ := exists_named read
  -- Highlights stand where names do, and names follow one another.
  have onNames := named.inSequence ((ordered_tokenize source).sublist within)
  have onRanges : Range.InSequence id (schema.highlights.map Highlight.range) := by
    rw [map_range_highlights read]
    exact Range.InSequence.map_iff.mpr onNames
  have sequence := Range.InSequence.map_iff.mp onRanges
  exact sequence

/-- In a schema that is read, each highlight marks the name at its place in the document. -/
theorem highlights_mark_names (read : (parseWith options source).schema? = some schema) :
    List.Forall₂ (Highlight.Marks source) schema.highlights schema.names := by
  -- Highlights and names correspond one by one, since their ranges do.
  obtain ⟨tokens, named, within⟩ := exists_named read
  have sameRanges : List.Forall₂ Eq (schema.highlights.map Highlight.range)
      (schema.names.map NameRef.range) := by
    rw [List.forall₂_eq_eq_eq]
    exact map_range_highlights read
  rw [List.forall₂_map_left_iff, List.forall₂_map_right_iff] at sameRanges
  obtain ⟨length_eq, range_eq⟩ := List.forall₂_iff_zip.mp sameRanges
  refine List.forall₂_iff_zip.mpr ⟨length_eq, ?_⟩
  intro highlight written paired
  have range_eq := range_eq paired
  -- The name is an unspaced path of the text, and so its characters stand on one line.
  obtain ⟨tree, unspaced, together, rfl⟩ := named.exists_path (List.of_mem_zip paired).2
  have among := together.sublist.trans within
  have stop_eq := tree.stop_range unspaced among
  refine ⟨range_eq, ?_, ?_, ?_⟩
  · rw [range_eq]
    exact tree.textAt?_range unspaced among
  · rw [range_eq, stop_eq]
  · -- The length counts the columns between the two ends.
    rw [Highlight.length, range_eq, stop_eq]
    show tree.range.start.column + tree.name.length - tree.range.start.column = tree.name.length
    omega

/-- A text that is accepted is read in the same way whatever the options. -/
theorem eq_of_parse_eq_ok {accepted : Schema} (strict : parse source = .ok accepted)
    (read : (parseWith options source).schema? = some schema) : schema = accepted := by
  obtain ⟨tree, derives, rfl⟩ := exists_derives_of_parse_eq_ok strict
  have readBack := Parse.document_complete derives.limits (tokenize source).stop options.room_pos
  have leaves : tree.definitions.flatMap DefinitionTree.tokens = (tokenize source).tokens :=
    derives.tokens_eq
  rw [leaves] at readBack
  -- The derivation is read back with any room for errors, and leaves nothing else to read.
  have definitions := definitions_of_read read
  rw [Parse.readTokens, readBack] at definitions
  calc
    schema = ⟨schema.definitions⟩ := rfl
    _ = tree.schema := by rw [definitions]; rfl

/--
The highlights of a schema that is read are in order and apart, and mark its names line by line.

Where the text is accepted, they are over the names that are written there, each in exactly one.
-/
theorem highlights_cover_names (read : (parseWith options source).schema? = some schema) :
    Range.Increasing Highlight.range schema.highlights ∧
      schema.highlights.Pairwise (fun first second => first.range.stop ≤ second.range.start) ∧
      List.Forall₂ (Highlight.Marks source) schema.highlights schema.names ∧
      ((∃ accepted, parse source = .ok accepted) →
        (∀ token ∈ (tokenize source).tokens, token.kind = .identifier →
          ∃! highlight, highlight ∈ schema.highlights ∧ token.range.Within highlight.range) ∧
        ∀ highlight ∈ schema.highlights, highlight.range.OverPath (tokenize source).tokens) := by
  have sequence := highlights_inSequence read
  refine ⟨sequence.increasing, sequence.before, highlights_mark_names read, ?_⟩
  -- An accepted text is read alike under all options, so that its derivation can be used.
  rintro ⟨accepted, strict⟩
  obtain rfl := eq_of_parse_eq_ok strict read
  have named := named_of_parse_eq_ok strict
  have ordered := ordered_tokenize source
  have ranges_eq := map_range_highlights read
  refine ⟨?_, ?_⟩
  · intro token listed isName
    obtain ⟨written, among, within⟩ := named.exists_within ordered listed isName
    -- The name around the token is highlighted, and its highlight is apart from all others.
    have shown : written.range ∈ schema.highlights.map Highlight.range := by
      rw [ranges_eq]
      exact List.mem_map_of_mem among
    obtain ⟨highlight, highlighted, range_eq⟩ := List.mem_map.mp shown
    rw [← range_eq] at within
    refine ⟨highlight, ⟨highlighted, within⟩, ?_⟩
    rintro other ⟨otherHighlighted, otherWithin⟩
    have inside : token.range.contains token.range.start :=
      Range.contains_iff.mpr ⟨le_refl _, ordered.proper token listed⟩
    exact sequence.eq_of_contains otherHighlighted highlighted (otherWithin.contains inside)
      (within.contains inside)
  · -- A highlight stands at a name, and a name is an unspaced path.
    intro highlight highlighted
    have shown : highlight.range ∈ schema.names.map NameRef.range := by
      rw [← ranges_eq]
      exact List.mem_map_of_mem highlighted
    obtain ⟨written, among, range_eq⟩ := List.mem_map.mp shown
    obtain ⟨tree, unspaced, together, rfl⟩ := named.exists_path among
    rw [← range_eq]
    exact tree.overPath unspaced together

end Read

/-- A text with paths of two names, a suffix, a wildcard and an arrow. -/
def pathsAndArrow : String :=
  "definition a/b \x7b relation r: a/b#r | u:*\npermission p = (r->q) & nil \x7d"

/-- Ten names are written in eight paths, which are highlighted one by one. -/
theorem highlights_cover_names_pathsAndArrow :
    ∃ schema, (parseWith .bestEffort pathsAndArrow).schema? = some schema ∧
      (schema.highlights.map Highlight.length) = [3, 1, 3, 1, 1, 1, 1, 1] ∧
      (tokenize pathsAndArrow).tokens.countP (·.kind = .identifier) = 10 ∧
      List.Forall₂ (Highlight.Marks pathsAndArrow) schema.highlights schema.names ∧
      (∀ token ∈ (tokenize pathsAndArrow).tokens, token.kind = .identifier →
        ∃! highlight, highlight ∈ schema.highlights ∧ token.range.Within highlight.range) := by
  obtain ⟨schema, read, lengths, count, faultless⟩ :
      ∃ schema ∈ (parseWith .bestEffort pathsAndArrow).schema?,
        schema.highlights.map Highlight.length = [3, 1, 3, 1, 1, 1, 1, 1] ∧
        (tokenize pathsAndArrow).tokens.countP (·.kind = .identifier) = 10 ∧
        (parse pathsAndArrow).toOption.isSome := by
    decide +kernel
  -- The parser accepts the text, as evaluation shows.
  have accepted : ∃ accepted, parse pathsAndArrow = .ok accepted := by
    cases result : parse pathsAndArrow with
    | error fault => simp [result, Except.toOption] at faultless
    | ok found => exact ⟨found, rfl⟩
  obtain ⟨_, _, marked, covered⟩ := highlights_cover_names read
  exact ⟨schema, read, lengths, count, marked, (covered accepted).1⟩

end AuthSchema
