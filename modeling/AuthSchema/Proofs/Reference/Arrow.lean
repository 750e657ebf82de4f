import AuthSchema.Reference.Resolution
import Mathlib.Data.List.Induction
import Mathlib.Data.List.Nodup
import Mathlib.Tactic.Choose

/-!
What an arrow reaches, said by the declarations alone.

* Names are answered by the first declaration that has them, relations before permissions.
* An arrow follows the first relation of its left name to the definitions that its types name.
* Each of these is reached once, in the order in which the relation first admits them.
-/

namespace AuthSchema

/-- The first item of a wanted name, at its index in a list. -/
structure FirstNamed {α : Type} (name : α → String) (items : List α) (wanted : String)
    (index : Nat) (item : α) : Prop where
  here : items[index]? = some item
  named : name item = wanted
  first : ∀ earlier < index, ∀ other, items[earlier]? = some other → name other ≠ wanted

section FirstNamed

variable {α : Type} {name : α → String} {items : List α} {wanted : String} {item : α}

/-- The first item of a name is one of the items. -/
theorem FirstNamed.mem {index : Nat} (first : FirstNamed name items wanted index item) :
    item ∈ items :=
  List.mem_of_getElem? first.here

/-- Searching by name finds the first item of that name. -/
theorem find?_eq_some_iff_firstNamed :
    items.find? (name · = wanted) = some item ↔
      ∃ index, FirstNamed name items wanted index item := by
  -- Both sides speak of an index and of the items before it.
  rw [List.find?_eq_some_iff_getElem]
  constructor
  · -- The index that is found comes with the failure of all earlier items.
    intro found
    obtain ⟨named, index, bound, here, first⟩ := found
    refine ⟨index, by rw [List.getElem?_eq_getElem bound, here], by simpa using named, ?_⟩
    intro earlier before other there
    obtain ⟨_, rfl⟩ := List.getElem?_eq_some_iff.mp there
    simpa using first earlier before
  · intro found
    obtain ⟨index, here, named, first⟩ := found
    obtain ⟨bound, here⟩ := List.getElem?_eq_some_iff.mp here
    refine ⟨by simpa using named, index, bound, here, ?_⟩
    intro earlier before
    simpa using first earlier before _ (List.getElem?_eq_getElem _)

/-- Searching by name finds nothing where no item has the name. -/
theorem find?_eq_none_iff_unnamed :
    items.find? (name · = wanted) = none ↔ ∀ item ∈ items, name item ≠ wanted := by
  simp

end FirstNamed

namespace Definition

/-- What a name stands for in a definition, said by the declarations of that name. -/
def Means (definition : Definition) (name : String) : Option Member → Prop
  | some (.relation declared) =>
    ∃ index, FirstNamed Relation.name definition.relations name index declared
  | some (.permission declared) =>
    -- A permission answers only where no relation has the name.
    (∀ relation ∈ definition.relations, relation.name ≠ name) ∧
      ∃ index, FirstNamed Permission.name definition.permissions name index declared
  | none =>
    (∀ relation ∈ definition.relations, relation.name ≠ name) ∧
      ∀ permission ∈ definition.permissions, permission.name ≠ name

variable {definition : Definition} {name : String}

/-- Looking a name up gives what it stands for, and nothing else. -/
theorem lookup?_eq_iff_means {answer : Option Member} :
    definition.lookup? name = answer ↔ definition.Means name answer := by
  -- The three answers differ in which of the two searches finds something.
  cases answer with
  | none =>
    rw [lookup?, Option.or_eq_none_iff, Option.map_eq_none_iff, Option.map_eq_none_iff,
      find?_eq_none_iff_unnamed, find?_eq_none_iff_unnamed, Means]
  | some member =>
    -- Something is found among the relations, or else among the permissions.
    rw [lookup?, Option.or_eq_some_iff]
    cases member with
    | relation declared =>
      rw [Means, ← find?_eq_some_iff_firstNamed]
      simp
    | permission declared =>
      -- The permissions are searched only after the relations have failed to answer.
      rw [Means, ← find?_eq_some_iff_firstNamed, Option.map_eq_none_iff,
        find?_eq_none_iff_unnamed]
      simp

end Definition

/-- An item at the end is a repeat where the list has it already, and else comes last. -/
theorem eraseDups_concat {α : Type} [BEq α] [LawfulBEq α] [DecidableEq α] (items : List α)
    (last : α) :
    (items ++ [last]).eraseDups =
      if last ∈ items then items.eraseDups else items.eraseDups ++ [last] := by
  -- Only the last item may be taken away, and only where it stands before.
  rw [List.eraseDups_append]
  split
  · rename_i repeated
    have none : [last].removeAll items = [] := by simp [List.removeAll, repeated]
    rw [none, List.eraseDups_nil, List.append_nil]
  · rename_i new
    have kept : [last].removeAll items = [last] := by simp [List.removeAll, new]
    rw [kept]
    rfl

/-- What is left of a list without its repeats stands in the order of first occurrences. -/
theorem pairwise_idxOf_eraseDups {α : Type} [BEq α] [LawfulBEq α] [DecidableEq α]
    (items : List α) :
    items.eraseDups.Pairwise fun first second => items.idxOf first < items.idxOf second := by
  -- The induction takes the last item off, which is a repeat or else has the largest index.
  induction items using List.reverseRecOn with
  | nil => exact .nil
  | append_singleton items last ih =>
    -- The indices of what stood before do not change.
    have kept : items.eraseDups.Pairwise fun first second =>
        (items ++ [last]).idxOf first < (items ++ [last]).idxOf second := by
      refine ih.imp_of_mem ?_
      intro first second among alsoAmong before
      rwa [List.idxOf_append_of_mem (List.mem_eraseDups.mp among),
        List.idxOf_append_of_mem (List.mem_eraseDups.mp alsoAmong)]
    rw [eraseDups_concat]
    split
    · exact kept
    -- A new item has no place before, so its index is the length of the rest.
    · rename_i new
      rw [List.pairwise_append]
      refine ⟨kept, List.pairwise_singleton _ _, ?_⟩
      intro first among other isLast
      obtain rfl : other = last := by simpa using isLast
      have among := List.mem_eraseDups.mp among
      rw [List.idxOf_append_of_mem among, List.idxOf_append_of_notMem new]
      exact Nat.lt_add_right _ (List.idxOf_lt_length_iff.mpr among)

namespace Schema

variable {schema : Schema} {source : Relation} {target path : String} {definition : Definition}

/-- The definition of a path is the first of that name. -/
theorem definition?_eq_some_iff : schema.definition? path = some definition ↔
    ∃ index, FirstNamed Definition.name schema.definitions path index definition :=
  find?_eq_some_iff_firstNamed

/-- A path has a definition exactly when some definition has its name. -/
theorem exists_definition?_iff : (∃ definition, schema.definition? path = some definition) ↔
    ∃ definition ∈ schema.definitions, definition.name = path := by
  -- A search finds something exactly where something fits.
  rw [← Option.isSome_iff_exists, definition?, List.find?_isSome]
  simp

/-- What is found under a path has that path as its name. -/
theorem name_of_definition? (found : schema.definition? path = some definition) :
    definition.name = path := by
  -- The first of its name has that name.
  obtain ⟨_, first⟩ := definition?_eq_some_iff.mp found
  exact first.named

/-- The branches that an arrow through a relation leads to, said by the declarations alone. -/
structure Reaches (schema : Schema) (source : Relation) (target : String)
    (branches : List ArrowBranch) : Prop where
  /-- Each branch leads to the first definition of its name, and no two to the same one. -/
  places : ∃ place : ArrowBranch → Nat, (branches.map place).Nodup ∧ ∀ branch ∈ branches,
    FirstNamed Definition.name schema.definitions branch.definition.name (place branch)
      branch.definition
  distinct : (branches.map (·.definition.name)).Nodup
  /-- The definitions reached are those that the types name, whatever is written behind a path. -/
  mem_iff : ∀ path, path ∈ branches.map (·.definition.name) ↔
    (∃ type ∈ source.subjectTypes, type.path = path) ∧
      ∃ definition ∈ schema.definitions, definition.name = path
  /-- What is admitted first is reached first. -/
  ordered : (branches.map (·.definition.name)).Pairwise fun first second =>
    (source.subjectTypes.map (·.path)).idxOf first < (source.subjectTypes.map (·.path)).idxOf second
  /-- Each branch has what the name on the right stands for in its definition. -/
  targets : ∀ branch ∈ branches, branch.definition.Means target branch.target?

/-- The branch of a path, where the path is defined. -/
def branch? (schema : Schema) (target path : String) : Option ArrowBranch :=
  (schema.definition? path).map fun definition => ⟨definition, definition.lookup? target⟩

/-- A path leads to its first definition, and to what the name on the right stands for there. -/
theorem branch?_eq_some_iff {branch : ArrowBranch} :
    schema.branch? target path = some branch ↔
      schema.definition? path = some branch.definition ∧
        branch.definition.Means target branch.target? := by
  -- Both speak of the definition of the path, and of what is looked up in it.
  rw [← Definition.lookup?_eq_iff_means, branch?, Option.map_eq_some_iff]
  constructor
  · intro found
    obtain ⟨definition, first, rfl⟩ := found
    exact ⟨first, rfl⟩
  · intro found
    obtain ⟨first, answer⟩ := found
    exact ⟨branch.definition, first, by rw [answer]⟩

/-- The branches of an arrow are those of the paths that its relation admits, without repeats. -/
theorem arrowBranches_eq (schema : Schema) (source : Relation) (target : String) :
    schema.arrowBranches source target =
      (source.subjectTypes.map (·.path)).eraseDups.filterMap (schema.branch? target) := by
  -- A branch is made of the definition of its path.
  rw [arrowBranches, List.map_filterMap]
  rfl

/-- The names of what is reached are paths, in their order. -/
theorem map_name_branches (schema : Schema) (target : String) (paths : List String) :
    ((paths.filterMap (schema.branch? target)).map (·.definition.name)).Sublist paths := by
  -- The induction is on the paths, each of which gives one branch at most.
  induction paths with
  | nil => exact .slnil
  | cons path paths ih =>
    rw [List.filterMap_cons]
    split
    · -- A path that is not defined is left out.
      exact ih.cons path
    · rename_i branch found
      have named := name_of_definition? (branch?_eq_some_iff.mp found).1
      rw [List.map_cons, named]
      exact ih.cons_cons path

/-- Definitions that are found under different names stand at different indices. -/
theorem exists_places {branches : List ArrowBranch}
    (found : ∀ branch ∈ branches,
      schema.definition? branch.definition.name = some branch.definition)
    (distinct : (branches.map (·.definition.name)).Nodup) :
    ∃ place : ArrowBranch → Nat, (branches.map place).Nodup ∧ ∀ branch ∈ branches,
      FirstNamed Definition.name schema.definitions branch.definition.name (place branch)
        branch.definition := by
  choose! place placed using fun branch listed => definition?_eq_some_iff.mp (found branch listed)
  refine ⟨place, distinct.of_map.map_on ?_, placed⟩
  intro first listed second alsoListed same
  -- At one index stands one definition, and it has one name.
  have here := (placed first listed).here
  rw [same, (placed second alsoListed).here, Option.some.injEq] at here
  exact List.inj_on_of_nodup_map distinct listed alsoListed (congrArg Definition.name here.symm)

/-- The branches that are computed are those that are said to be reached. -/
theorem reaches_arrowBranches (schema : Schema) (source : Relation) (target : String) :
    schema.Reaches source target (schema.arrowBranches source target) := by
  rw [arrowBranches_eq]
  generalize paths_eq : source.subjectTypes.map (·.path) = paths
  -- Order and difference are those of the paths without repeats.
  have kept := map_name_branches schema target paths.eraseDups
  have ordered := (pairwise_idxOf_eraseDups paths).sublist kept
  have distinct := List.nodup_iff_pairwise_ne.mpr (ordered.imp fun before same => by
    rw [same] at before
    exact Nat.lt_irrefl _ before)
  have found : ∀ branch ∈ paths.eraseDups.filterMap (schema.branch? target),
      schema.definition? branch.definition.name = some branch.definition ∧
        branch.definition.Means target branch.target? := by
    intro branch listed
    obtain ⟨path, _, led⟩ := List.mem_filterMap.mp listed
    obtain ⟨first, answer⟩ := branch?_eq_some_iff.mp led
    exact ⟨by rw [name_of_definition? first, first], answer⟩
  refine ⟨exists_places (fun branch listed => (found branch listed).1) distinct, distinct, ?_,
    paths_eq ▸ ordered, fun branch listed => (found branch listed).2⟩
  intro path
  rw [← exists_definition?_iff]
  -- A path is reached when it is admitted and something is found under it.
  have admitted : (∃ type ∈ source.subjectTypes, type.path = path) ↔ path ∈ paths := by
    rw [← paths_eq, List.mem_map]
  rw [admitted]
  constructor
  · -- What is reached comes from a path without repeats, which is one of the paths.
    intro listed
    obtain ⟨branch, among, rfl⟩ := List.mem_map.mp listed
    exact ⟨List.mem_eraseDups.mp (kept.subset listed), branch.definition, (found branch among).1⟩
  · -- The definition that is found gives a branch under the path.
    intro both
    obtain ⟨listed, definition, first⟩ := both
    have led : schema.branch? target path = some ⟨definition, definition.lookup? target⟩ := by
      rw [branch?, first]
      rfl
    exact List.mem_map.mpr ⟨_, List.mem_filterMap.mpr ⟨path, List.mem_eraseDups.mpr listed, led⟩,
      name_of_definition? first⟩

/-- What is said to be reached is told by the declarations, down to the order. -/
theorem Reaches.unique {branches others : List ArrowBranch}
    (reaches : schema.Reaches source target branches)
    (reachesToo : schema.Reaches source target others) : branches = others := by
  -- Both have the same names, and one order of first occurrences puts them in the same order.
  have names : branches.map (·.definition.name) = others.map (·.definition.name) := by
    refine List.Perm.eq_of_pairwise ?_ reaches.ordered reachesToo.ordered ?_
    · intro first second _ _ before after
      exact absurd before (Nat.lt_asymm after)
    · rw [List.perm_ext_iff_of_nodup reaches.distinct reachesToo.distinct]
      intro path
      rw [reaches.mem_iff, reachesToo.mem_iff]
  -- The name of a branch tells the branch.
  have told : ∀ {branches : List ArrowBranch}, schema.Reaches source target branches →
      branches.map some = (branches.map (·.definition.name)).map (schema.branch? target) := by
    intro branches reaches
    rw [List.map_map]
    -- What a branch is follows from the first definition of its name and the name on the right.
    refine List.map_congr_left fun branch listed => ?_
    obtain ⟨place, _, placed⟩ := reaches.places
    have found := definition?_eq_some_iff.mpr ⟨place branch, placed branch listed⟩
    exact (branch?_eq_some_iff.mpr ⟨found, reaches.targets branch listed⟩).symm
  have same := (told reaches).trans ((congrArg _ names).trans (told reachesToo).symm)
  exact List.map_injective_iff.mpr (fun _ _ => Option.some.inj) same

section Arrow

variable {enclosing : Definition} {written : Arrow}

/-- An arrow has an undeclared source exactly when nothing is found under its left name. -/
theorem resolveArrow_eq_undeclaredSource_iff :
    schema.resolveArrow written enclosing = .blocked .undeclaredSource ↔
      enclosing.Means written.left.name none := by
  -- Looking the name up has three answers, of which one is blocked for this reason.
  rw [← Definition.lookup?_eq_iff_means, resolveArrow]
  split
  · simp_all
  · simp_all
  · split <;> simp_all

/-- An arrow has a permission as its source exactly when that is what is found. -/
theorem resolveArrow_eq_permissionSource_iff :
    schema.resolveArrow written enclosing = .blocked .permissionSource ↔
      ∃ declared, enclosing.Means written.left.name (some (.permission declared)) := by
  -- Looking the name up has three answers, of which one is blocked for this reason.
  simp only [← Definition.lookup?_eq_iff_means]
  rw [resolveArrow]
  split
  · simp_all
  · simp_all
  · split <;> simp_all

/-- An arrow through a relation reaches its branches, and is blocked where it has none. -/
theorem resolveArrow_of_relation
    (means : enclosing.Means written.left.name (some (.relation source))) :
    schema.resolveArrow written enclosing =
      if schema.arrowBranches source written.right.name = [] then .blocked .undefinedTypes
      else .reached (schema.arrowBranches source written.right.name) := by
  -- The relation is what is looked up, so only its branches are left to decide.
  rw [resolveArrow, Definition.lookup?_eq_iff_means.mpr means]
  dsimp only
  cases schema.arrowBranches source written.right.name <;> rfl

/-- A relation has no branches exactly when none of its types is defined. -/
theorem arrowBranches_eq_nil_iff (target : String) :
    schema.arrowBranches source target = [] ↔
      ∀ type ∈ source.subjectTypes, ∀ definition ∈ schema.definitions,
        definition.name ≠ type.path := by
  -- What is reached are the types that are defined, so that none is where none is defined.
  have reaches := schema.reaches_arrowBranches source target
  constructor
  · intro none type listed definition declared named
    -- The branch of a type that is defined would be among none at all.
    have reached := (reaches.mem_iff type.path).mpr
      ⟨⟨type, listed, rfl⟩, definition, declared, named⟩
    simp [none] at reached
  · -- Any branch would be a type that is defined.
    intro undefined
    rw [List.eq_nil_iff_forall_not_mem]
    intro branch listed
    obtain ⟨⟨type, admitted, same⟩, definition, declared, named⟩ :=
      (reaches.mem_iff branch.definition.name).mp (List.mem_map_of_mem listed)
    exact undefined type admitted definition declared (named.trans same.symm)

end Arrow

end Schema

/--
An arrow reaches what the declarations say, or is blocked for the reason that they give.

* It has no source where nothing in the definition around it has its left name, and no relation as
  its source where only permissions have it.
* Otherwise the first relation of that name is followed. It leads nowhere where none of its types is
  defined, and else to the branches that it is said to reach, of which there are some.
-/
theorem Schema.resolveArrow_means (schema : Schema) (enclosing : Definition) (written : Arrow) :
    (schema.resolveArrow written enclosing = .blocked .undeclaredSource ↔
      (∀ relation ∈ enclosing.relations, relation.name ≠ written.left.name) ∧
        ∀ permission ∈ enclosing.permissions, permission.name ≠ written.left.name) ∧
    (schema.resolveArrow written enclosing = .blocked .permissionSource ↔
      (∀ relation ∈ enclosing.relations, relation.name ≠ written.left.name) ∧
        ∃ permission ∈ enclosing.permissions, permission.name = written.left.name) ∧
    ∀ index source,
      FirstNamed Relation.name enclosing.relations written.left.name index source →
        (schema.resolveArrow written enclosing = .blocked .undefinedTypes ↔
          ∀ type ∈ source.subjectTypes, ∀ definition ∈ schema.definitions,
            definition.name ≠ type.path) ∧
        ((∃ type ∈ source.subjectTypes, ∃ definition ∈ schema.definitions,
            definition.name = type.path) →
          ∃ branches, schema.resolveArrow written enclosing = .reached branches) ∧
        ∀ branches, schema.resolveArrow written enclosing = .reached branches ↔
          branches ≠ [] ∧ schema.Reaches source written.right.name branches := by
  refine ⟨resolveArrow_eq_undeclaredSource_iff, ?_, ?_⟩
  · rw [resolveArrow_eq_permissionSource_iff]
    constructor
    · intro means
      obtain ⟨declared, noRelation, _, first⟩ := means
      exact ⟨noRelation, declared, first.mem, first.named⟩
    · intro onlyPermissions
      obtain ⟨noRelation, permission, listed, named⟩ := onlyPermissions
      -- Some permission has the name, and so one of them is the first.
      have answered : (enclosing.permissions.find? (·.name = written.left.name)).isSome := by
        simpa [List.find?_isSome] using ⟨permission, listed, named⟩
      obtain ⟨declared, found⟩ := Option.isSome_iff_exists.mp answered
      exact ⟨declared, noRelation, find?_eq_some_iff_firstNamed.mp found⟩
  · intro index source first
    have means : enclosing.Means written.left.name (some (.relation source)) := ⟨index, first⟩
    have reaches := schema.reaches_arrowBranches source written.right.name
    rw [resolveArrow_of_relation means, ← arrowBranches_eq_nil_iff written.right.name]
    -- Both cases compare with the branches that are computed, which are the only ones reached.
    by_cases none : schema.arrowBranches source written.right.name = []
    · -- Nothing is reached, and so no list of branches but the empty one fits.
      rw [if_pos none]
      refine ⟨iff_of_true rfl none, ?_, ?_⟩
      · intro someDefined
        obtain ⟨type, listed, definition, declared, named⟩ := someDefined
        exact absurd named ((arrowBranches_eq_nil_iff _).mp none type listed definition declared)
      · intro branches
        refine iff_of_false (by simp) ?_
        intro reached
        exact reached.1 (reached.2.unique (none ▸ reaches))
    · -- Branches are reached, and the declarations tell which.
      rw [if_neg none]
      refine ⟨iff_of_false (by simp) none, fun _ => ⟨_, rfl⟩, ?_⟩
      intro branches
      rw [ArrowReach.reached.injEq]
      constructor
      · intro same
        exact same ▸ ⟨none, reaches⟩
      · intro reached
        exact reaches.unique reached.2

/-- A type of folders, where one name is both a permission and a relation. -/
def folderType : Definition :=
  ⟨"folder", default, default, [⟨"viewer", default, default, []⟩],
    [⟨"viewer", default, default, .nil default⟩]⟩

/-- A type of users, which declares nothing. -/
def userType : Definition :=
  ⟨"user", default, default, [], []⟩

/-- A relation that admits folders twice and users once, and something that is not defined. -/
def parentRelation : Relation :=
  ⟨"parent", default, default,
    [⟨"folder", default, none, none, false, default⟩,
      ⟨"robot", default, none, none, false, default⟩,
      ⟨"user", default, none, none, true, default⟩,
      ⟨"folder", default, some "viewer", some default, false, default⟩]⟩

/-- A type of documents with that relation. -/
def documentType : Definition :=
  ⟨"document", default, default, [parentRelation], []⟩

/-- Two of these definitions have one name. -/
def repeatedTypes : Schema :=
  ⟨[documentType, userType, folderType, { folderType with relations := [] }]⟩

/-- An arrow leads once to each type that is defined, in the order in which they are admitted. -/
theorem Schema.resolveArrow_means_repeatedTypes :
    FirstNamed Relation.name documentType.relations "parent" 0 parentRelation ∧
      repeatedTypes.Reaches parentRelation "viewer"
        [⟨folderType, some (.relation ⟨"viewer", default, default, []⟩)⟩, ⟨userType, none⟩] := by
  have first : FirstNamed Relation.name documentType.relations "parent" 0 parentRelation :=
    ⟨rfl, rfl, by simp⟩
  obtain ⟨_, _, reaches⟩ :=
    (Schema.resolveArrow_means repeatedTypes documentType
      ⟨⟨"parent", default⟩, ⟨"viewer", default⟩, default⟩).2.2 0 parentRelation first
  exact ⟨first, ((reaches _).mp (by decide +kernel)).2⟩

end AuthSchema
