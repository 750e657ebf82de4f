import AuthSchema.Reference.Basic

/-! What references stand for: the definitions, relations and permissions that they name. -/

namespace AuthSchema

/-- What a type reference stands for. -/
structure ResolvedType where
  /-- The definition of that path. -/
  definition : Definition
  /-- The relation or permission after the hash, when it is written and declared. -/
  relation? : Option Member
  deriving DecidableEq, Repr

/-- One definition that an arrow leads to. -/
structure ArrowBranch where
  /-- The definition reached. -/
  definition : Definition
  /-- What the name on the right stands for there. -/
  target? : Option Member
  deriving DecidableEq, Repr

/-- Why an arrow leads nowhere. -/
inductive ArrowObstacle where
  /-- The name on the left is not declared. -/
  | undeclaredSource
  /-- The name on the left is a permission, which cannot be followed. -/
  | permissionSource
  /-- No type of the relation on the left is defined. -/
  | undefinedTypes
  deriving DecidableEq, Repr, Inhabited

/-- What an arrow reaches. -/
inductive ArrowReach where
  /-- The arrow leads nowhere. -/
  | blocked (obstacle : ArrowObstacle)
  /-- The definitions reached, in the order in which the relation admits them. -/
  | reached (branches : List ArrowBranch)
  deriving DecidableEq, Repr

namespace ArrowReach

/-- The definitions reached. -/
def branches : ArrowReach → List ArrowBranch
  | .blocked _ => []
  | .reached branches => branches

/-- Why the arrow leads nowhere, when it does. -/
def obstacle? : ArrowReach → Option ArrowObstacle
  | .blocked obstacle => some obstacle
  | .reached _ => none

/-- What the name on the right stands for, in each definition that declares it. -/
def targets (reach : ArrowReach) : List Member :=
  reach.branches.filterMap (·.target?)

/-- The branches whose definition does not declare the name on the right. -/
def missing (reach : ArrowReach) : List ArrowBranch :=
  reach.branches.filter (·.target?.isNone)

/-- An arrow is resolved as soon as one branch declares the name on the right. -/
def isResolved (reach : ArrowReach) : Bool :=
  !reach.targets.isEmpty

end ArrowReach

namespace Schema

/-- The first definition of a path. -/
def definition? (schema : Schema) (path : String) : Option Definition :=
  -- A later definition of the same path is never found.
  schema.definitions.find? (·.name = path)

/-- Whether the definition at an index is the first of its path, and so the one that is found. -/
def isVisible (schema : Schema) (index : Nat) : Bool :=
  match schema.definitions[index]? with
  | none => false
  | some definition => (schema.definitions.take index).all (·.name ≠ definition.name)

/-- The definitions that can be found, in document order. -/
def visibleDefinitions (schema : Schema) : List Definition :=
  (schema.definitions.zipIdx.filter fun (_, index) => schema.isVisible index).map Prod.fst

/-- The definition of a type reference, and what stands after its hash. -/
def resolveType? (schema : Schema) (written : SubjectType) : Option ResolvedType :=
  (schema.definition? written.path).map fun definition =>
    -- The suffix may name a relation or a permission of that definition.
    ⟨definition, written.suffix.bind definition.lookup?⟩

/-- The branches of an arrow through a relation, one for each type that is defined. -/
def arrowBranches (schema : Schema) (source : Relation) (target : String) : List ArrowBranch :=
  -- A type that is admitted several times leads to one branch.
  ((source.subjectTypes.map (·.path)).eraseDups.filterMap schema.definition?).map fun definition =>
    ⟨definition, definition.lookup? target⟩

/-- What an arrow that is written in a definition reaches. -/
def resolveArrow (schema : Schema) (written : Arrow) (enclosing : Definition) : ArrowReach :=
  match enclosing.lookup? written.left.name with
  | none => .blocked .undeclaredSource
  | some (.permission _) => .blocked .permissionSource
  | some (.relation source) =>
    -- Types that are not defined give no branches, and without any the arrow leads nowhere.
    match schema.arrowBranches source written.right.name with
    | [] => .blocked .undefinedTypes
    | branch :: others => .reached (branch :: others)

end Schema

/-- A reference together with what it stands for. -/
inductive Resolution where
  /-- A type, with its definition. -/
  | type (written : SubjectType) (found : Option ResolvedType)
  /-- A name, with the relation or permission that it names. -/
  | name (written : NameRef) (found : Option Member)
  /-- The right side of an arrow, with what the arrow reaches. -/
  | arrowTarget (written : Arrow) (found : ArrowReach)
  deriving DecidableEq, Repr

namespace Resolution

/-- The reference as it is written. -/
def reference : Resolution → Reference
  | .type written _ => .type written
  | .name written _ => .name written
  | .arrowTarget written _ => .arrowTarget written

/-- What a type stands for. -/
def type? : Resolution → Option ResolvedType
  | .type _ found => found
  | _ => none

/-- What a name stands for. -/
def member? : Resolution → Option Member
  | .name _ found => found
  | _ => none

/-- What an arrow reaches. -/
def arrow? : Resolution → Option ArrowReach
  | .arrowTarget _ found => some found
  | _ => none

/-- Whether everything that is written in the reference is declared. -/
def isResolved : Resolution → Bool
  | .type _ none => false
  -- A name after the hash has to be declared as well.
  | .type written (some found) => written.suffix.isNone || found.relation?.isSome
  | .name _ found => found.isSome
  | .arrowTarget _ found => found.isResolved

end Resolution

/-- A resolved reference together with the definition it is written in. -/
structure ResolvedSite where
  /-- The reference and what it stands for. -/
  resolution : Resolution
  /-- The definition around it. -/
  enclosing : Definition
  deriving DecidableEq, Repr

/-- The reference alone, with the definition around it. -/
def ResolvedSite.site (resolved : ResolvedSite) : Site :=
  ⟨resolved.resolution.reference, resolved.enclosing⟩

namespace Schema

/-- What a reference stands for. -/
def resolve (schema : Schema) (site : Site) : Resolution :=
  match site.reference with
  | .type written => .type written (schema.resolveType? written)
  -- Names are looked up in the definition around them and nowhere else.
  | .name written => .name written (site.enclosing.lookup? written.name)
  | .arrowTarget written => .arrowTarget written (schema.resolveArrow written site.enclosing)

/-- All references of a schema with what they stand for, in document order. -/
def resolvedSites (schema : Schema) : List ResolvedSite :=
  schema.sites.map fun site => ⟨schema.resolve site, site.enclosing⟩

end Schema

end AuthSchema
