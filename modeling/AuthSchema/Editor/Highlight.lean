import AuthSchema.Reference.Resolution

/-! Highlighting of names by what they declare or stand for. -/

namespace AuthSchema

/-- What a highlighted name is. -/
inductive HighlightKind where
  /-- The path of a definition. -/
  | type
  /-- A relation. -/
  | relation
  /-- A permission. -/
  | permission
  /-- A name that stands for nothing. -/
  | unresolved
  deriving DecidableEq, Repr, Inhabited

namespace HighlightKind

/-- The place of a kind in the legend that editors are given. -/
def index : HighlightKind → Nat
  | .type => 0
  | .relation => 1
  | .permission => 2
  | .unresolved => 3

/-- The name of a kind in that legend. -/
def legend : HighlightKind → String
  | .type => "type"
  | .relation => "relation"
  | .permission => "permission"
  | .unresolved => "unresolved"

/-- The kind of a name that stands for a member, or for nothing. -/
def ofMember? : Option Member → HighlightKind
  | some (.relation _) => .relation
  | some (.permission _) => .permission
  | none => .unresolved

end HighlightKind

/-- A name to highlight. -/
structure Highlight where
  /-- Where the name is written. -/
  range : Range
  /-- What it is. -/
  kind : HighlightKind
  deriving DecidableEq, Repr

/-- The length of a name in characters, which stands on one line. -/
def Highlight.length (highlight : Highlight) : Nat :=
  -- Columns count characters, so their difference is the length.
  highlight.range.stop.column - highlight.range.start.column

/-- The names that a definition declares: its own path and its members. -/
def Definition.highlights (definition : Definition) : List Highlight :=
  -- The path comes first, since it is written before the members.
  ⟨definition.nameRange, .type⟩ ::
    definition.members.map fun member => ⟨member.nameRange, .ofMember? (some member)⟩

/-- The names in a reference, where the path of a type and the name after its hash are two. -/
def Resolution.highlights : Resolution → List Highlight
  | .type written found =>
    ⟨written.pathRange, if found.isSome then .type else .unresolved⟩ ::
      -- A suffix is shown even where its type is not defined, as unresolved.
      (written.suffixRange.map fun range =>
        ⟨range, .ofMember? (found.bind (·.relation?))⟩).toList
  | .name written found => [⟨written.range, .ofMember? found⟩]
  -- An arrow is shown as the first of the names that it stands for.
  | .arrowTarget written found => [⟨written.right.range, .ofMember? found.targets.head?⟩]

namespace Schema

/-- The highlights of all declared names, definition by definition. -/
def declarationHighlights (schema : Schema) : List Highlight :=
  schema.definitions.flatMap Definition.highlights

/-- The highlights of all references, in document order. -/
def referenceHighlights (schema : Schema) : List Highlight :=
  schema.resolvedSites.flatMap (·.resolution.highlights)

/-- All names to highlight, sorted by where they start. -/
def highlights (schema : Schema) : List Highlight :=
  Range.sortByStart Highlight.range (schema.declarationHighlights ++ schema.referenceHighlights)

end Schema

end AuthSchema
