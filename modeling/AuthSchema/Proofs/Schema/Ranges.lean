import AuthSchema.Schema.Member

/-! Changing the ranges in a schema, and nothing else. -/

namespace AuthSchema

/-- A name whose range is changed. -/
def NameRef.mapRanges (change : Range → Range) (written : NameRef) : NameRef :=
  { written with range := change written.range }

/-- An arrow whose ranges are changed. -/
def Arrow.mapRanges (change : Range → Range) (written : Arrow) : Arrow :=
  ⟨written.left.mapRanges change, written.right.mapRanges change, change written.range⟩

/-- An expression whose ranges are changed. -/
def Expr.mapRanges (change : Range → Range) : Expr → Expr
  | .reference written => .reference (written.mapRanges change)
  | .arrow written => .arrow (written.mapRanges change)
  | .nil range => .nil (change range)
  -- The operands are changed as well, all the way down.
  | .binary operator left right range =>
    .binary operator (left.mapRanges change) (right.mapRanges change) (change range)

/-- A type whose ranges are changed. -/
def SubjectType.mapRanges (change : Range → Range) (written : SubjectType) : SubjectType :=
  { written with
    pathRange := change written.pathRange
    -- A type without a suffix has no place for one, before and after.
    suffixRange := written.suffixRange.map change
    range := change written.range }

/-- A relation whose ranges are changed. -/
def Relation.mapRanges (change : Range → Range) (declared : Relation) : Relation :=
  ⟨declared.name, change declared.nameRange, change declared.range,
    declared.subjectTypes.map (SubjectType.mapRanges change)⟩

/-- A permission whose ranges are changed. -/
def Permission.mapRanges (change : Range → Range) (declared : Permission) : Permission :=
  ⟨declared.name, change declared.nameRange, change declared.range,
    declared.expression.mapRanges change⟩

/-- A member whose ranges are changed. -/
def Member.mapRanges (change : Range → Range) : Member → Member
  | .relation declared => .relation (declared.mapRanges change)
  | .permission declared => .permission (declared.mapRanges change)

/-- A definition whose ranges are changed. -/
def Definition.mapRanges (change : Range → Range) (definition : Definition) : Definition :=
  ⟨definition.name, change definition.nameRange, change definition.range,
    definition.relations.map (Relation.mapRanges change),
    definition.permissions.map (Permission.mapRanges change)⟩

/-- A definition that keeps its names and its structure, and forgets where all of it is written. -/
def Definition.withoutRanges : Definition → Definition :=
  mapRanges fun _ => default

/-- A schema that forgets where all of it is written. -/
def Schema.withoutRanges (schema : Schema) : Schema :=
  ⟨schema.definitions.map Definition.withoutRanges⟩

section Composition

variable (first second : Range → Range)

/-- Changing the ranges of an expression twice is one change. -/
@[simp] theorem Expr.mapRanges_mapRanges (expr : Expr) :
    (expr.mapRanges first).mapRanges second = expr.mapRanges (second ∘ first) := by
  -- Only an operator has parts with ranges of their own.
  induction expr with
  | reference written => rfl
  | arrow written => rfl
  | nil range => rfl
  | binary operator left right range ihLeft ihRight => simp [mapRanges, ihLeft, ihRight]

/-- Changing the ranges of a type twice is one change. -/
@[simp] theorem SubjectType.mapRanges_mapRanges (written : SubjectType) :
    (written.mapRanges first).mapRanges second = written.mapRanges (second ∘ first) := by
  simp [mapRanges]

/-- Changing the ranges of a relation twice is one change. -/
@[simp] theorem Relation.mapRanges_mapRanges (declared : Relation) :
    (declared.mapRanges first).mapRanges second = declared.mapRanges (second ∘ first) := by
  simp [mapRanges]

/-- Changing the ranges of a permission twice is one change. -/
@[simp] theorem Permission.mapRanges_mapRanges (declared : Permission) :
    (declared.mapRanges first).mapRanges second = declared.mapRanges (second ∘ first) := by
  simp [mapRanges]

/-- Changing the ranges of a member twice is one change. -/
theorem Member.mapRanges_mapRanges (member : Member) :
    (member.mapRanges first).mapRanges second = member.mapRanges (second ∘ first) := by
  cases member <;> simp [mapRanges]

end Composition

/-- A change of ranges leaves a relation a relation. -/
theorem Member.relation?_mapRanges (change : Range → Range) (member : Member) :
    (member.mapRanges change).relation? = member.relation?.map (Relation.mapRanges change) := by
  cases member <;> rfl

/-- A change of ranges leaves a permission a permission. -/
theorem Member.permission?_mapRanges (change : Range → Range) (member : Member) :
    (member.mapRanges change).permission? =
      member.permission?.map (Permission.mapRanges change) := by
  cases member <;> rfl

end AuthSchema
