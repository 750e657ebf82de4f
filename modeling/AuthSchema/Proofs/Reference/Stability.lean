import AuthSchema.Proofs.Reference.Arrow

/-!
What references stand for is settled by the definitions that can be found.

* Definitions that stand behind an earlier one of their path can be removed, and no answer changes.
* Definitions that are added at the end leave every answer that there was as it was, and an arrow
  still reaches all that it reached before.
-/

namespace AuthSchema

/-- A search finds the same in a part of a list that keeps what the search finds. -/
theorem find?_filter_of_kept {α : Type} {items : List α} {wanted kept : α → Bool}
    (keeps : ∀ item, items.find? wanted = some item → kept item) :
    (items.filter kept).find? wanted = items.find? wanted := by
  rw [List.find?_filter]
  cases found : items.find? wanted with
  | none =>
    -- What fits nowhere in the list fits nowhere in the part.
    rw [List.find?_eq_none] at found ⊢
    intro item listed both
    exact found item listed (by simpa using (of_decide_eq_true both).2)
  | some item =>
    obtain ⟨fits, before, after, split, skipped⟩ := List.find?_eq_some_iff_append.mp found
    apply List.find?_eq_some_iff_append.mpr
    -- The items before the one that is found do not fit, whether they are kept or not.
    have kept_item : kept item := keeps item found
    have skipped_too : ∀ other ∈ before, !decide (kept other ∧ wanted other) := by
      intro other listed
      have unfit := skipped other listed
      simp_all
    exact ⟨by simp [kept_item, fits], before, after, split, skipped_too⟩

/-- A partial function that answers more picks more, in the same order. -/
theorem filterMap_sublist_of_extends {α β : Type} {pick more : α → Option β}
    (keeps : ∀ item value, pick item = some value → more item = some value) (items : List α) :
    (items.filterMap pick).Sublist (items.filterMap more) := by
  -- What was picked stays picked, so the longer list only has more in between.
  induction items with
  | nil => exact .slnil
  | cons item items ih =>
    cases picked : pick item with
    | some value =>
      rw [List.filterMap_cons_some picked, List.filterMap_cons_some (keeps item value picked)]
      exact ih.cons_cons value
    | none =>
      -- An item that was not picked may be picked now, and then comes in between.
      rw [List.filterMap_cons_none picked, List.filterMap_cons]
      split
      · exact ih
      · exact ih.cons _

namespace Schema

/-- The definitions that are left of a schema, each with the index at which it stood. -/
def remaining (schema : Schema) (removed : Nat → Bool) : List (Definition × Nat) :=
  schema.definitions.zipIdx.filter fun (_, index) => !removed index

/-- The schema without the definitions at some indices. -/
def without (schema : Schema) (removed : Nat → Bool) : Schema :=
  ⟨(schema.remaining removed).map Prod.fst⟩

/-- The schema with more definitions at its end. -/
def extended (schema : Schema) (added : List Definition) : Schema :=
  ⟨schema.definitions ++ added⟩

/-- One schema answers for its own definitions whatever another one answers for them. -/
structure AnswersLike (schema other : Schema) : Prop where
  definition?_eq : ∀ path, schema.definition? path = other.definition? path
  resolveType?_eq : ∀ written, schema.resolveType? written = other.resolveType? written
  name_eq : ∀ enclosing ∈ schema.definitions, ∀ written,
    schema.resolve ⟨.name written, enclosing⟩ = other.resolve ⟨.name written, enclosing⟩
  arrow_eq : ∀ enclosing ∈ schema.definitions, ∀ written,
    schema.resolveArrow written enclosing = other.resolveArrow written enclosing

/-- Another schema keeps what one answers for its definitions, and may answer more. -/
structure KeptBy (schema other : Schema) : Prop where
  definition? : ∀ path definition, schema.definition? path = some definition →
    other.definition? path = some definition
  resolveType? : ∀ written found, schema.resolveType? written = some found →
    other.resolveType? written = some found
  name_eq : ∀ enclosing ∈ schema.definitions, ∀ written,
    other.resolve ⟨.name written, enclosing⟩ = schema.resolve ⟨.name written, enclosing⟩
  /-- What an arrow reached is still reached in the same order, with the same targets. -/
  branches : ∀ enclosing ∈ schema.definitions, ∀ written,
    (schema.resolveArrow written enclosing).branches.Sublist
      (other.resolveArrow written enclosing).branches
  /-- No reference that is resolved is lost. -/
  isResolved : ∀ site ∈ schema.sites, (schema.resolve site).isResolved →
    site ∈ other.sites ∧ (other.resolve site).isResolved

variable {schema other : Schema} {path : String}

/-- The definition that is found under a path is the one that can be seen. -/
theorem isVisible_of_find? {definition : Definition} {index : Nat}
    (found : schema.definitions.zipIdx.find? (·.1.name = path) = some (definition, index)) :
    schema.isVisible index = true := by
  -- What is found stands at an index, with no other of its name before it.
  obtain ⟨place, here, named, first⟩ := find?_eq_some_iff_firstNamed.mp found
  rw [List.getElem?_zipIdx, Option.map_eq_some_iff] at here
  obtain ⟨_, placed, same⟩ := here
  obtain ⟨rfl, rfl⟩ := Prod.mk.inj same
  rw [Nat.zero_add]
  -- Every definition at an earlier index has another name.
  have others : ∀ earlier ∈ schema.definitions.take place, earlier.name ≠ path := by
    intro earlier listed
    obtain ⟨before, bound, rfl⟩ := List.mem_take_iff_getElem.mp listed
    apply first before (by omega) (_, before)
    rw [List.getElem?_zipIdx, List.getElem?_eq_getElem (by omega), Option.map_some, Nat.zero_add]
  rw [← named] at others
  simpa [isVisible, placed] using others

/-- Where what cannot be seen is removed, each path leads to the very definition it led to. -/
theorem find?_remaining {removed : Nat → Bool}
    (unseen : ∀ index, removed index → schema.isVisible index = false) (path : String) :
    (schema.remaining removed).find? (·.1.name = path) =
      schema.definitions.zipIdx.find? (·.1.name = path) := by
  -- Only what cannot be seen is left out, and what is found can be seen.
  apply find?_filter_of_kept
  intro (definition, index) found
  have seen := isVisible_of_find? found
  cases gone : removed index with
  | false => simp [gone]
  | true => simp [unseen index gone] at seen

/-- A schema finds the first definition of a path among those that stand at its indices. -/
theorem definition?_eq_map_find? {indexed : List (Definition × Nat)}
    (same : schema.definitions = indexed.map Prod.fst) (path : String) :
    schema.definition? path = (indexed.find? (·.1.name = path)).map Prod.fst := by
  rw [definition?, same, List.find?_map]
  rfl

/-- Without definitions that cannot be seen, each path leads to the same definition. -/
theorem definition?_without {removed : Nat → Bool}
    (unseen : ∀ index, removed index → schema.isVisible index = false) (path : String) :
    (schema.without removed).definition? path = schema.definition? path := by
  have left : (schema.without removed).definitions = (schema.remaining removed).map Prod.fst := rfl
  have indexed := (List.zipIdx_map_fst 0 schema.definitions).symm
  -- Both searches are read over indexed definitions, where they are known to agree.
  rw [definition?_eq_map_find? left, definition?_eq_map_find? indexed, find?_remaining unseen]

/-- Schemas that find the same definitions answer alike. -/
theorem answersLike_of_definition?
    (same : ∀ path, schema.definition? path = other.definition? path) :
    schema.AnswersLike other where
  definition?_eq := same
  resolveType?_eq written := by rw [resolveType?, same, resolveType?]
  name_eq _ _ _ := rfl
  -- An arrow asks for definitions only through the search by path.
  arrow_eq enclosing _ written := by
    have branches_eq : schema.arrowBranches = other.arrowBranches := by
      funext source target
      rw [arrowBranches, arrowBranches, funext same]
    rw [resolveArrow, resolveArrow, branches_eq]

/-- What a schema finds is found in front of any definitions that are added. -/
theorem find?_extended (added : List Definition) {found : Definition × Nat}
    (finds : schema.definitions.zipIdx.find? (·.1.name = path) = some found) :
    (schema.extended added).definitions.zipIdx.find? (·.1.name = path) = some found := by
  -- A search over two lists goes on to the second only when the first has nothing.
  rw [extended, List.zipIdx_append, List.find?_append, finds, Option.some_or]

/-- What a path leads to it still leads to when definitions are added. -/
theorem definition?_extended (added : List Definition) {definition : Definition}
    (finds : schema.definition? path = some definition) :
    (schema.extended added).definition? path = some definition := by
  have indexed := (List.zipIdx_map_fst 0 schema.definitions).symm
  have longer := (List.zipIdx_map_fst 0 (schema.extended added).definitions).symm
  rw [definition?_eq_map_find? indexed, Option.map_eq_some_iff] at finds
  obtain ⟨found, finds, rfl⟩ := finds
  rw [definition?_eq_map_find? longer, find?_extended added finds, Option.map_some]

/-- The branches of an arrow through a relation are those of the relation. -/
theorem branches_of_relation {written : Arrow} {enclosing : Definition} {source : Relation}
    (found : enclosing.lookup? written.left.name = some (.relation source)) :
    (schema.resolveArrow written enclosing).branches =
      schema.arrowBranches source written.right.name := by
  -- Without branches there is nothing to list, and otherwise the branches are the reach.
  rw [resolveArrow_of_relation (Definition.lookup?_eq_iff_means.mp found)]
  split
  · rename_i none
    exact none.symm
  · rfl

section Kept

variable (finds : ∀ path definition, schema.definition? path = some definition →
  other.definition? path = some definition)

include finds

/-- A type that is found stays found. -/
theorem resolveType?_of_finds {written : SubjectType} {found : ResolvedType}
    (resolved : schema.resolveType? written = some found) :
    other.resolveType? written = some found := by
  obtain ⟨definition, named, rfl⟩ := Option.map_eq_some_iff.mp resolved
  rw [resolveType?, finds _ _ named, Option.map_some]

/-- A relation leads to all branches that it led to, in their order. -/
theorem arrowBranches_sublist (source : Relation) (target : String) :
    (schema.arrowBranches source target).Sublist (other.arrowBranches source target) := by
  rw [arrowBranches_eq, arrowBranches_eq]
  apply filterMap_sublist_of_extends
  intro path branch led
  -- A branch is its definition and what the target stands for there.
  obtain ⟨named, means⟩ := branch?_eq_some_iff.mp led
  exact branch?_eq_some_iff.mpr ⟨finds _ _ named, means⟩

/-- An arrow follows the same relation, which leads to all the definitions that it led to. -/
theorem branches_sublist (written : Arrow) (enclosing : Definition) :
    (schema.resolveArrow written enclosing).branches.Sublist
      (other.resolveArrow written enclosing).branches := by
  -- Only an arrow through a relation has branches, and the left name is looked up in the definition
  -- around it, which is the same.
  cases means : enclosing.lookup? written.left.name with
  | none => simp [resolveArrow, means, ArrowReach.branches]
  | some left =>
    cases left with
    | permission declared => simp [resolveArrow, means, ArrowReach.branches]
    | relation source =>
      rw [branches_of_relation means, branches_of_relation means]
      exact arrowBranches_sublist finds source written.right.name

/-- A reference that is resolved stays resolved. -/
theorem isResolved_of_finds {site : Site} (resolved : (schema.resolve site).isResolved) :
    (other.resolve site).isResolved := by
  -- A type needs one definition, an arrow one target, and a name nothing of the schema at all.
  obtain ⟨reference, enclosing⟩ := site
  cases reference with
  | type written =>
    cases found : schema.resolveType? written with
    | none => simp [resolve, found, Resolution.isResolved] at resolved
    | some answer =>
      simpa [resolve, found, resolveType?_of_finds finds found] using resolved
  | name written => exact resolved
  | arrowTarget written =>
    -- A branch with a target is still there, and it is enough.
    have targets := (branches_sublist finds written enclosing).filterMap (·.target?)
    simp only [resolve, Resolution.isResolved, ArrowReach.isResolved, Bool.not_eq_true',
      List.isEmpty_eq_false_iff] at resolved ⊢
    intro none
    apply resolved
    apply List.sublist_nil.mp
    rw [← none]
    exact targets

end Kept

/-- A longer schema keeps every answer that was given. -/
theorem keptBy_extended (schema : Schema) (added : List Definition) :
    schema.KeptBy (schema.extended added) := by
  have finds : ∀ path definition, schema.definition? path = some definition →
      (schema.extended added).definition? path = some definition :=
    fun _ _ found => definition?_extended added found
  refine ⟨finds, fun _ _ found => resolveType?_of_finds finds found, fun _ _ _ => rfl,
    fun enclosing _ written => branches_sublist finds written enclosing, ?_⟩
  intro site listed resolved
  -- The references of the definitions in front come first.
  have sites_eq : (schema.extended added).sites = schema.sites ++ added.flatMap Definition.sites :=
    List.flatMap_append
  rw [sites_eq]
  exact ⟨List.mem_append_left _ listed, isResolved_of_finds finds resolved⟩

end Schema

/--
Resolution does not depend on definitions that cannot be found, nor on what is added at the end.

* Any definitions that cannot be seen may be removed. A path then leads to the very definition that
  it led to, by its index, and all answers for what is left are the same.
* Any definitions may be added at the end, also under names that are taken. What a path led to it
  leads to still, by its index, and no answer that was given is lost.
-/
theorem Schema.resolution_stable (schema : Schema) :
    (∀ removed : Nat → Bool, (∀ index, removed index → schema.isVisible index = false) →
      (∀ path, (schema.remaining removed).find? (·.1.name = path) =
        schema.definitions.zipIdx.find? (·.1.name = path)) ∧
      (schema.without removed).AnswersLike schema) ∧
    ∀ added : List Definition,
      (∀ path found, schema.definitions.zipIdx.find? (·.1.name = path) = some found →
        (schema.extended added).definitions.zipIdx.find? (·.1.name = path) = some found) ∧
      schema.KeptBy (schema.extended added) := by
  constructor
  · intro removed unseen
    exact ⟨find?_remaining unseen, answersLike_of_definition? (definition?_without unseen)⟩
  · intro added
    exact ⟨fun _ _ found => find?_extended added found, schema.keptBy_extended added⟩

/-- A type of robots, which is looked for and not defined among the repeated types. -/
def robotType : Definition :=
  ⟨"robot", default, default, [], [⟨"viewer", default, default, .nil default⟩]⟩

/-- An arrow from the parents of a document to their viewers. -/
def parentViewer : Arrow :=
  ⟨⟨"parent", default⟩, ⟨"viewer", default⟩, default⟩

/--
The second type of folders can be removed, and one of robots can be added behind all others.

The arrow then reaches the robots between the two types that it reached before.
-/
theorem Schema.resolution_stable_repeatedTypes :
    repeatedTypes.isVisible 3 = false ∧
      (repeatedTypes.without (· == 3)).definitions = [documentType, userType, folderType] ∧
      (repeatedTypes.without (· == 3)).AnswersLike repeatedTypes ∧
      ((repeatedTypes.extended [robotType, userType]).resolveArrow parentViewer
        documentType).branches.map (·.definition.name) = ["folder", "robot", "user"] ∧
      repeatedTypes.KeptBy (repeatedTypes.extended [robotType, userType]) := by
  -- Index three has the second type of folders, which stands behind the first one.
  obtain ⟨removal, addition⟩ := Schema.resolution_stable repeatedTypes
  have unseen : ∀ index, (index == 3) = true → repeatedTypes.isVisible index = false := by
    intro index same
    rw [eq_of_beq same]
    rfl
  exact ⟨rfl, by decide, (removal _ unseen).2, by decide +kernel, (addition _).2⟩

end AuthSchema
