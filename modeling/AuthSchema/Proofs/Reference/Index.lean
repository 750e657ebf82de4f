import AuthSchema.Proofs.Reference.Arrow
import Mathlib.Data.List.FinRange
import Mathlib.Data.List.Sort

/-!
The index of the definitions of a schema, entered one after another, and the arrows followed by it.

* Definitions are told apart by their places in the schema, whatever they hold.
* A name that was entered keeps its first place, so that later definitions of it are not found.
* A loop over the types of a relation collects a branch for each place that it has not met before.

Looking up by the index, and following arrows by it, answers as the declarations do.
-/

namespace AuthSchema

/-- A place among the definitions of a schema. -/
abbrev Schema.Place (schema : Schema) : Type :=
  Fin schema.definitions.length

/-- The definition that stands at a place. -/
def Schema.definitionAt (schema : Schema) (place : schema.Place) : Definition :=
  schema.definitions.get place

/-- An index of definitions by name, in the order in which they were entered. -/
structure DefinitionIndex (schema : Schema) where
  /-- The names that were entered, each with a place. -/
  entries : List (String × schema.Place)
  /-- No name was entered twice. -/
  distinct : (entries.map Prod.fst).Nodup
  /-- At the place of each name stands a definition of that name. -/
  named : ∀ entry ∈ entries, (schema.definitionAt entry.2).name = entry.1

namespace DefinitionIndex

variable {schema : Schema}

/-- The index without names. -/
def empty (schema : Schema) : DefinitionIndex schema where
  entries := []
  distinct := List.nodup_nil
  named := by simp

/-- The place that was entered under a name. -/
def get? (index : DefinitionIndex schema) (path : String) : Option schema.Place :=
  (index.entries.find? (·.1 = path)).map Prod.snd

/-- Enters the definition at a place under its name, unless the name was entered before. -/
def enter (index : DefinitionIndex schema) (place : schema.Place) : DefinitionIndex schema :=
  if occupied : (schema.definitionAt place).name ∈ index.entries.map Prod.fst then
    index
  else
    { entries := index.entries ++ [((schema.definitionAt place).name, place)]
      distinct := by
        -- The name is new, so that it is told apart from all the others.
        rw [List.map_append, List.map_singleton, ← List.concat_eq_append]
        exact index.distinct.concat occupied
      named := by
        intro entry listed
        -- Entries from before keep their places, and the new one is placed by its own name.
        rcases List.mem_append.mp listed with before | new
        · exact index.named entry before
        · obtain rfl := List.mem_singleton.mp new
          rfl }

/-- The index of a schema, with its definitions entered in document order. -/
def ofSchema (schema : Schema) : DefinitionIndex schema :=
  (List.finRange schema.definitions.length).foldl enter (empty schema)

/-- The definitions that can be found, in the order in which they were entered. -/
def definitions (index : DefinitionIndex schema) : List Definition :=
  index.entries.map fun entry => schema.definitionAt entry.2

/-- Whether the definition at a place is the one that is found under its name. -/
def isVisible (index : DefinitionIndex schema) (place : schema.Place) : Bool :=
  index.get? (schema.definitionAt place).name = some place

/-- A name has a place exactly when it was entered. -/
theorem isSome_get?_iff (index : DefinitionIndex schema) (path : String) :
    (index.get? path).isSome ↔ path ∈ index.entries.map Prod.fst := by
  rw [get?, Option.isSome_map, List.find?_isSome]
  simp

/-- What is found under a name has that name. -/
theorem name_of_get? {index : DefinitionIndex schema} {path : String} {place : schema.Place}
    (found : index.get? path = some place) : (schema.definitionAt place).name = path := by
  obtain ⟨entry, first, rfl⟩ := Option.map_eq_some_iff.mp found
  -- The entry that is found has the name, and its place is one of a definition of that name.
  have same : entry.1 = path := by simpa using List.find?_some first
  rw [index.named entry (List.mem_of_find?_eq_some first), same]

/-- Entering a definition answers for its name where nothing did before, and changes nothing else. -/
theorem get?_enter (index : DefinitionIndex schema) (place : schema.Place) (path : String) :
    (index.enter place).get? path =
      (index.get? path).or (if (schema.definitionAt place).name = path then some place else none) := by
  unfold enter
  split
  · rename_i occupied
    split
    · -- The name is entered already, and keeps the place that it has.
      rename_i same
      rw [same, ← index.isSome_get?_iff] at occupied
      obtain ⟨found, found_eq⟩ := Option.isSome_iff_exists.mp occupied
      rw [found_eq, Option.some_or]
    · -- The name that is asked for is another one, which the newcomer does not change.
      rw [Option.or_none]
  · -- The new entry comes last, and so is found where no other is.
    rw [get?, get?, List.find?_append, Option.map_or]
    congr 1
    split <;> simp_all

/-- Entering several definitions answers for each name by the first of them that has it. -/
theorem get?_foldl_enter (places : List schema.Place) (index : DefinitionIndex schema)
    (path : String) :
    (places.foldl enter index).get? path =
      (index.get? path).or (places.find? fun place => (schema.definitionAt place).name = path) := by
  -- One place after another: each answers for its name unless an earlier one did.
  induction places generalizing index with
  | nil => rw [List.foldl_nil, List.find?_nil, Option.or_none]
  | cons place places ih =>
    rw [List.foldl_cons, ih, get?_enter, Option.or_assoc, List.find?_cons]
    by_cases same : (schema.definitionAt place).name = path
    · simp [same]
    · simp [same]

/-- The index of a schema has under each name the first place at which a definition has it. -/
theorem get?_ofSchema (schema : Schema) (path : String) :
    (ofSchema schema).get? path =
      (List.finRange schema.definitions.length).find? fun place =>
        (schema.definitionAt place).name = path := by
  -- Nothing is entered at first, and so every answer comes from a place.
  rw [ofSchema, get?_foldl_enter]
  exact Option.none_or

/-- Reading the definitions at all places gives the definitions of the schema. -/
theorem map_definitionAt_finRange (schema : Schema) :
    (List.finRange schema.definitions.length).map schema.definitionAt = schema.definitions :=
  List.map_get_finRange schema.definitions

/-- Looking a path up in the index is searching the schema for its first definition. -/
theorem definition?_eq_get? (schema : Schema) (path : String) :
    schema.definition? path = ((ofSchema schema).get? path).map schema.definitionAt := by
  -- Searching the definitions is searching their places.
  rw [get?_ofSchema, Schema.definition?]
  conv_lhs => rw [← map_definitionAt_finRange schema]
  rw [List.find?_map]
  rfl

/-- A place is found under a name exactly when the first definition of that name stands there. -/
theorem get?_ofSchema_eq_some_iff {path : String} {place : schema.Place} :
    (ofSchema schema).get? path = some place ↔
      FirstNamed Definition.name schema.definitions path place (schema.definitionAt place) := by
  rw [get?_ofSchema, find?_eq_some_iff_firstNamed]
  -- Among all places, each stands at its own index.
  constructor
  · -- No definition at an earlier place has the name.
    rintro ⟨index, here, named, first⟩
    obtain ⟨bound, rfl⟩ := List.getElem?_eq_some_iff.mp here
    rw [List.getElem_finRange] at named ⊢
    refine ⟨List.getElem?_eq_getElem _, named, ?_⟩
    intro earlier before other there
    obtain ⟨within, rfl⟩ := List.getElem?_eq_some_iff.mp there
    exact first earlier before ⟨earlier, within⟩ (by simp [within])
  · intro found
    refine ⟨place, by simp, found.named, ?_⟩
    intro earlier before other there
    obtain ⟨bound, rfl⟩ := List.getElem?_eq_some_iff.mp there
    rw [List.getElem_finRange]
    exact found.first earlier before _ (List.getElem?_eq_getElem _)

/-- A definition is visible by the index exactly when no earlier one has its name. -/
theorem isVisible_ofSchema (place : schema.Place) :
    (ofSchema schema).isVisible place = schema.isVisible place := by
  have here : schema.definitions[place.val]? = some (schema.definitionAt place) :=
    List.getElem?_eq_getElem place.isLt
  rw [Schema.isVisible, here, Bool.eq_iff_iff, isVisible, decide_eq_true_iff,
    get?_ofSchema_eq_some_iff, List.all_eq_true]
  constructor
  · intro found other listed
    -- An earlier definition is one of those up to the place.
    obtain ⟨earlier, there⟩ := List.mem_iff_getElem?.mp listed
    rw [List.getElem?_take] at there
    split at there
    · rename_i before
      simpa using found.first earlier before other there
    · cases there
  · -- That no earlier definition has the name is what makes this one the first.
    intro unseen
    refine ⟨here, rfl, ?_⟩
    intro earlier before other there
    have listed : other ∈ schema.definitions.take place :=
      List.mem_iff_getElem?.mpr ⟨earlier, by rw [List.getElem?_take_of_lt before, there]⟩
    simpa using unseen other listed

/-- The places that are entered come from those that were offered, in their order. -/
theorem places_foldl_enter (places : List schema.Place) (index : DefinitionIndex schema) :
    ∃ kept, (places.foldl enter index).entries.map Prod.snd = index.entries.map Prod.snd ++ kept ∧
      kept.Sublist places := by
  -- Each place is entered behind those before it, or is passed over.
  induction places generalizing index with
  | nil => exact ⟨[], by simp, .slnil⟩
  | cons place places ih =>
    obtain ⟨kept, entered, sublist⟩ := ih (index.enter place)
    rw [List.foldl_cons, entered, enter]
    split
    · exact ⟨kept, rfl, sublist.cons place⟩
    · exact ⟨place :: kept, by simp, sublist.cons_cons place⟩

/-- A place is entered exactly when it is the one found under its name. -/
theorem mem_places_iff (index : DefinitionIndex schema) (place : schema.Place) :
    place ∈ index.entries.map Prod.snd ↔ index.isVisible place = true := by
  rw [isVisible, decide_eq_true_iff, get?, Option.map_eq_some_iff, List.mem_map]
  constructor
  · rintro ⟨entry, listed, rfl⟩
    -- No other entry has the name, so that this one is found under it.
    refine ⟨entry, ?_, rfl⟩
    rw [index.named entry listed]
    have present : (index.entries.find? (·.1 = entry.1)).isSome :=
      List.find?_isSome.mpr ⟨entry, listed, decide_eq_true rfl⟩
    obtain ⟨found, first⟩ := Option.isSome_iff_exists.mp present
    have same : found.1 = entry.1 := by simpa using List.find?_some first
    rw [first, List.inj_on_of_nodup_map index.distinct (List.mem_of_find?_eq_some first) listed same]
  · -- What is found under a name is one of the entries.
    rintro ⟨entry, first, rfl⟩
    exact ⟨entry, List.mem_of_find?_eq_some first, rfl⟩

/-- The definitions of the index are the visible ones of the schema, in document order. -/
theorem definitions_ofSchema (schema : Schema) :
    (ofSchema schema).definitions = schema.visibleDefinitions := by
  -- All places in their order are increasing, and so is any part of them.
  have increasing : (List.finRange schema.definitions.length).Pairwise (· < ·) :=
    (List.sortedLT_finRange _).pairwise
  -- Both sides list the visible places in increasing order.
  have places : (ofSchema schema).entries.map Prod.snd =
      (List.finRange schema.definitions.length).filter (ofSchema schema).isVisible := by
    obtain ⟨kept, entered, sublist⟩ := places_foldl_enter
      (List.finRange schema.definitions.length) (empty schema)
    have entered : (ofSchema schema).entries.map Prod.snd = kept := entered
    refine List.Perm.eq_of_pairwise (fun _ _ _ _ before after => absurd before after.not_gt)
      (entered ▸ increasing.sublist sublist) (increasing.sublist List.filter_sublist) ?_
    refine (List.perm_ext_iff_of_nodup ?_ ?_).mpr fun place => ?_
    · exact entered ▸ (List.nodup_finRange _).sublist sublist
    · exact (List.nodup_finRange _).sublist List.filter_sublist
    · simp [mem_places_iff]
  -- A number is a place, read as a number.
  have numbered : schema.definitions.zipIdx =
      (List.finRange schema.definitions.length).map fun place =>
        (schema.definitionAt place, place.val) := by
    refine List.ext_getElem (by simp) fun place _ _ => ?_
    simp [Schema.definitionAt]
  rw [Schema.visibleDefinitions, numbered, List.filter_map, List.map_map]
  -- A definition is visible at its number exactly when it is at its place.
  have visible : ((fun entry : Definition × Nat => schema.isVisible entry.2) ∘
      fun place : schema.Place => (schema.definitionAt place, place.val)) =
        (ofSchema schema).isVisible :=
    funext fun place => (isVisible_ofSchema place).symm
  rw [visible, ← places, List.map_map]
  rfl

end DefinitionIndex

/-- A branch of an arrow, known by the place of the definition that it leads to. -/
structure PlacedBranch (schema : Schema) where
  /-- Where the definition stands. -/
  place : schema.Place
  /-- What the name on the right stands for there. -/
  target? : Option Member

namespace PlacedBranch

variable {schema : Schema}

/-- The branch to a place, with what a name stands for there. -/
def ofPlace (target : String) (place : schema.Place) : PlacedBranch schema :=
  ⟨place, (schema.definitionAt place).lookup? target⟩

/-- The branch with the definition that it leads to. -/
def branch (placed : PlacedBranch schema) : ArrowBranch :=
  ⟨schema.definitionAt placed.place, placed.target?⟩

end PlacedBranch

namespace DefinitionIndex

variable {schema : Schema}

/-- Adds the branch of one more type, unless the type is not defined or its place is known. -/
def follow (index : DefinitionIndex schema) (target : String)
    (branches : List (PlacedBranch schema)) (type : SubjectType) : List (PlacedBranch schema) :=
  match index.get? type.path with
  | none => branches
  | some place =>
    -- What counts is the place, since two definitions may hold the same.
    if branches.any (·.place = place) then branches
    else branches ++ [.ofPlace target place]

/-- What an arrow that is written in a definition reaches, with its types followed one by one. -/
def resolveArrow (index : DefinitionIndex schema) (written : Arrow) (enclosing : Definition) :
    ArrowReach :=
  match enclosing.lookup? written.left.name with
  | none => .blocked .undeclaredSource
  | some (.permission _) => .blocked .permissionSource
  | some (.relation source) =>
    let branches := source.subjectTypes.foldl (index.follow written.right.name) []
    if branches.isEmpty then .blocked .undefinedTypes
    else .reached (branches.map PlacedBranch.branch)

/-- A place is known from some paths exactly when its own path is among them. -/
theorem known_iff {index : DefinitionIndex schema} {path : String} {place : schema.Place}
    (found : index.get? path = some place) (target : String) (paths : List String) :
    ((paths.eraseDups.filterMap index.get?).map (PlacedBranch.ofPlace target)).any
        (·.place = place) = true ↔ path ∈ paths := by
  simp only [List.any_map, List.any_eq_true, List.mem_filterMap, List.mem_eraseDups,
    Function.comp_apply, decide_eq_true_iff]
  constructor
  · -- One place is found under one name, which is that of the definition there.
    rintro ⟨other, ⟨written, listed, foundToo⟩, same⟩
    obtain rfl : other = place := same
    rwa [← name_of_get? found, name_of_get? foundToo]
  · -- The path itself leads to the place.
    intro listed
    exact ⟨place, ⟨path, listed, found⟩, rfl⟩

/-- Following types one by one leads to each place that is found for them, once. -/
theorem foldl_follow_eq (index : DefinitionIndex schema) (target : String)
    (types : List SubjectType) :
    types.foldl (index.follow target) [] =
      ((types.map (·.path)).eraseDups.filterMap index.get?).map (.ofPlace target) := by
  -- The induction takes the last type off, as the loop adds a branch at the end.
  induction types using List.reverseRecOn with
  | nil => rfl
  | append_singleton types last ih =>
    rw [List.foldl_append, List.foldl_cons, List.foldl_nil, ih, follow, List.map_append,
      List.map_singleton, eraseDups_concat]
    cases found : index.get? last.path with
    | none =>
      -- A path that is not found leads nowhere, whether it is new or not.
      dsimp only
      by_cases listed : last.path ∈ types.map (·.path)
      · rw [if_pos listed]
      · rw [if_neg listed]
        simp [found]
    | some place =>
      -- A path that was met before leads to a known place, and any other to a new one.
      dsimp only
      by_cases listed : last.path ∈ types.map (·.path)
      · rw [if_pos listed, if_pos ((known_iff found target _).mpr listed)]
      · rw [if_neg listed, if_neg (mt (known_iff found target _).mp listed)]
        simp [found]

/-- The branches that are followed one by one are those of the relation. -/
theorem map_branch_foldl_follow (schema : Schema) (source : Relation) (target : String) :
    (source.subjectTypes.foldl ((ofSchema schema).follow target) []).map PlacedBranch.branch =
      schema.arrowBranches source target := by
  rw [foldl_follow_eq, Schema.arrowBranches, List.map_map]
  -- What is found by the index is the place of what is found in the schema.
  have found : schema.definition? = fun path =>
      ((ofSchema schema).get? path).map schema.definitionAt :=
    funext (definition?_eq_get? schema)
  rw [found, ← List.map_filterMap, List.map_map]
  rfl

/-- Following an arrow by the index reaches what the arrow reaches. -/
theorem resolveArrow_ofSchema (schema : Schema) (written : Arrow) (enclosing : Definition) :
    (ofSchema schema).resolveArrow written enclosing = schema.resolveArrow written enclosing := by
  -- Both look the left name up in the same definition.
  unfold resolveArrow Schema.resolveArrow
  cases enclosing.lookup? written.left.name with
  | none => rfl
  | some member =>
    cases member with
    | permission declared => rfl
    | relation source =>
      -- Without a branch both are blocked, and with one both reach the same branches.
      dsimp only
      rw [← map_branch_foldl_follow]
      cases source.subjectTypes.foldl ((ofSchema schema).follow written.right.name) [] <;> rfl

/-- Two definitions of one name that hold the same are told apart by their places. -/
example :
    let twice : Schema := ⟨[userType, folderType, userType]⟩
    (ofSchema twice).isVisible (0 : Fin 3) = true ∧ (ofSchema twice).isVisible (2 : Fin 3) = false ∧
      (ofSchema twice).definitions = [userType, folderType] := by
  decide +kernel

end DefinitionIndex

end AuthSchema
