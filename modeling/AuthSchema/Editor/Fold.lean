import AuthSchema.Schema.Basic

/-! Parts of a schema that an editor can fold away: definitions and permissions over several lines. -/

namespace AuthSchema

/-- What can be folded. -/
inductive FoldKind where
  /-- A definition. -/
  | definition
  /-- A permission. -/
  | permission
  deriving DecidableEq, Repr, Inhabited

/-- A stretch of text that can be folded. -/
structure Fold where
  /-- The whole declaration. -/
  range : Range
  /-- What is declared. -/
  kind : FoldKind
  deriving DecidableEq, Repr

namespace Schema

/-- Every definition and every permission, whatever lines they take. -/
def foldCandidates (schema : Schema) : List Fold :=
  (schema.definitions.map fun definition => ⟨definition.range, .definition⟩) ++
    (schema.definitions.flatMap (·.permissions)).map fun permission =>
      ⟨permission.range, .permission⟩

/-- What can be folded, sorted by where it starts. -/
def folds (schema : Schema) : List Fold :=
  -- A definition starts before its permissions, and so comes before them.
  Range.sortByStart Fold.range (schema.foldCandidates.filter (·.range.isMultiline))

end Schema

end AuthSchema
