import AuthSchema.Editor.Fold
import AuthSchema.Proofs.Schema.WellFormed
import Mathlib.Data.List.Perm.Basic

/-!
What can be folded in a schema that is read is its outline.

* The outline lists each definition over several lines, and behind it its permissions over several.
* Definitions stand one after another, and so do permissions.
* A permission stands inside its own definition, which is the last one listed before it.
-/

namespace AuthSchema

/-- What there is to fold in a definition, whatever lines it takes: itself, then its permissions. -/
def Definition.foldCandidates (definition : Definition) : List Fold :=
  ⟨definition.range, .definition⟩ ::
    definition.permissions.map fun permission => ⟨permission.range, .permission⟩

/-- What there is to fold in a schema, definition by definition. -/
def Schema.outline (schema : Schema) : List Fold :=
  schema.definitions.flatMap Definition.foldCandidates

/-- One fold comes before another: it starts first, and ends first where both are of one kind. -/
structure Fold.Precedes (first second : Fold) : Prop where
  start_lt : first.range.start < second.range.start
  apart : first.kind = second.kind → first.range.stop ≤ second.range.start

/-- The outline is a way to list all that there is to fold. -/
theorem Schema.foldCandidates_perm (schema : Schema) :
    schema.foldCandidates.Perm schema.outline := by
  -- Each definition is moved from the front to before its own permissions.
  unfold foldCandidates
  rw [List.map_flatMap]
  exact List.map_append_flatMap_perm _ _ _

section Definition

variable {tokens : List Token} {definition : Definition}

/-- A permission starts behind the name of its definition, and stands inside the definition. -/
theorem Definition.WellFormed.permission_inside (formed : definition.WellFormed tokens)
    {permission : Permission} (declared : permission ∈ definition.permissions) :
    definition.range.start < permission.range.start ∧
      permission.range.stop ≤ definition.range.stop := by
  have listed : Member.permission permission ∈ definition.members :=
    Definition.mem_members.mpr (.inr ⟨permission, declared, rfl⟩)
  -- A permission is a member, and members stand inside their definition, behind its name.
  refine ⟨?_, (formed.members_within _ listed).stop_le⟩
  -- The keyword and the name of the definition come first.
  calc definition.range.start
      ≤ definition.nameRange.start := formed.name_within.start_le
    _ < definition.nameRange.stop := formed.name_over.proper
    _ ≤ permission.range.start := formed.members_after _ listed

/-- What there is to fold in a definition takes some text inside it. -/
theorem Definition.WellFormed.fold_within (formed : definition.WellFormed tokens) {fold : Fold}
    (listed : fold ∈ definition.foldCandidates) :
    fold.range.start < fold.range.stop ∧ fold.range.Within definition.range := by
  -- A fold is the definition itself or one of its permissions.
  rcases List.mem_cons.mp listed with rfl | inBody
  · exact ⟨formed.range_over.proper, .refl _⟩
  · obtain ⟨permission, declared, rfl⟩ := List.mem_map.mp inBody
    obtain ⟨start_lt, stop_le⟩ := formed.permission_inside declared
    exact ⟨(formed.permissions permission declared).range_over.proper, start_lt.le, stop_le⟩

/-- A definition comes before its permissions, and these come one after another. -/
theorem Definition.WellFormed.pairwise_precedes (formed : definition.WellFormed tokens) :
    definition.foldCandidates.Pairwise Fold.Precedes := by
  apply List.pairwise_cons.mpr
  constructor
  · -- The definition goes on past its permissions, but it is of another kind.
    intro fold inBody
    obtain ⟨permission, declared, rfl⟩ := List.mem_map.mp inBody
    exact ⟨(formed.permission_inside declared).1, by simp⟩
  · -- Permissions are in sequence, and all of one kind.
    apply List.pairwise_map.mpr
    have sequence := formed.permissions_inSequence
    apply (sequence.increasing.and sequence.before).imp
    intro first second both
    exact ⟨both.1, fun _ => both.2⟩

end Definition

section Read

variable {options : Parse.Options} {source : String} {schema : Schema}

/-- In a schema that is read, each definition is well formed over the tokens that it took. -/
theorem exists_wellFormed_of_read (read : (parseWith options source).schema? = some schema)
    {definition : Definition} (declared : definition ∈ schema.definitions) :
    ∃ tokens, definition.WellFormed tokens := by
  obtain ⟨outlines, definitions, ordered⟩ := exists_outlines read
  rw [definitions] at declared
  obtain ⟨outline, listed, rfl⟩ := List.mem_map.mp declared
  -- The tokens of the definition itself are enough for its own shape.
  exact ⟨outline.tokens, outline.wellFormed (ordered.item listed) (List.Sublist.refl _)⟩

/-- In a schema that is read, the outline is in the order of the text. -/
theorem pairwise_outline (read : (parseWith options source).schema? = some schema) :
    schema.outline.Pairwise Fold.Precedes := by
  obtain ⟨outlines, definitions, ordered⟩ := exists_outlines read
  have sequence : Range.InSequence Definition.range schema.definitions := by
    rw [definitions]
    exact Range.InSequence.map_iff.mpr (ordered.inSequence fun outline _ => outline.spans)
  -- Inside a definition the order is known, so only folds of different definitions are left.
  apply List.pairwise_flatMap.mpr
  constructor
  · -- One definition is in order by itself.
    intro definition declared
    obtain ⟨_, formed⟩ := exists_wellFormed_of_read read declared
    exact formed.pairwise_precedes
  · -- All that there is in one definition ends before any later definition starts.
    apply List.Pairwise.imp_of_mem _ sequence.before
    intro first second declared alsoDeclared before fold inFirst other inSecond
    obtain ⟨_, formed⟩ := exists_wellFormed_of_read read declared
    obtain ⟨_, alsoFormed⟩ := exists_wellFormed_of_read read alsoDeclared
    obtain ⟨proper, within⟩ := formed.fold_within inFirst
    obtain ⟨_, otherWithin⟩ := alsoFormed.fold_within inSecond
    have apart : fold.range.stop ≤ other.range.start :=
      within.stop_le.trans (before.trans otherWithin.start_le)
    exact ⟨proper.trans_le apart, fun _ => apart⟩

/-- What can be folded in a schema that is read is the part of its outline over several lines. -/
theorem folds_eq (read : (parseWith options source).schema? = some schema) :
    schema.folds = schema.outline.filter (·.range.isMultiline) := by
  apply Range.sortByStart_eq (schema.foldCandidates_perm.filter _)
  -- The outline is sorted already, and stays so where some of it is left out.
  apply List.Pairwise.sublist List.filter_sublist
  exact (pairwise_outline read).imp Fold.Precedes.start_lt

end Read

/-- The definitions of the outline are those of the schema. -/
theorem Schema.filter_outline_definition (schema : Schema) :
    schema.outline.filter (·.kind = .definition) =
      (schema.definitions.map Definition.range).map (⟨·, .definition⟩) := by
  rw [outline, List.filter_flatMap, List.map_map, List.map_eq_flatMap]
  congr 1
  funext definition
  -- The definition itself is kept, and its permissions are of the other kind.
  simp [Definition.foldCandidates]

/-- The permissions of the outline are those of the schema. -/
theorem Schema.filter_outline_permission (schema : Schema) :
    schema.outline.filter (·.kind = .permission) =
      ((schema.definitions.flatMap Definition.permissions).map Permission.range).map
        (⟨·, .permission⟩) := by
  rw [outline, List.filter_flatMap, List.map_map, List.map_flatMap]
  congr 1
  funext definition
  -- The definition itself is left out, and all its permissions are kept.
  rw [Definition.foldCandidates, List.filter_cons_of_neg (by simp), List.filter_eq_self.mpr]
  · rfl
  · simp

/-- A range around one that takes several lines takes several lines too. -/
theorem Range.Within.isMultiline {inner outer : Range} (within : inner.Within outer)
    (multiline : inner.isMultiline) : outer.isMultiline := by
  -- The outer range starts on no later line, and stops on no earlier one.
  have start_le := Position.le_iff.mp within.start_le
  have stop_le := Position.le_iff.mp within.stop_le
  simp only [Range.isMultiline, decide_eq_true_eq] at multiline ⊢
  omega

section Read

variable {options : Parse.Options} {source : String} {schema : Schema}

/-- The folds of one kind are the declarations of that kind that take several lines. -/
theorem map_range_folds (read : (parseWith options source).schema? = some schema)
    {kind : FoldKind} {ranges : List Range}
    (declared : schema.outline.filter (·.kind = kind) = ranges.map (⟨·, kind⟩)) :
    (schema.folds.filter (·.kind = kind)).map Fold.range = ranges.filter Range.isMultiline := by
  -- It does not matter which of the two parts of the outline is taken first.
  rw [folds_eq read, List.filter_comm, declared, List.filter_map, List.map_map]
  -- What is left of each fold is its range.
  exact List.map_id _

/-- A permission over several lines is folded behind its definition, with none other between. -/
theorem exists_folds_split (read : (parseWith options source).schema? = some schema)
    {definition : Definition} (declared : definition ∈ schema.definitions)
    {permission : Permission} (listed : permission ∈ definition.permissions)
    (wide : definition.range.isMultiline) (multiline : permission.range.isMultiline) :
    ∃ before between after,
      schema.folds = before ++ ⟨definition.range, .definition⟩ ::
        (between ++ ⟨permission.range, .permission⟩ :: after) ∧
      ∀ fold ∈ between, fold.kind = .permission := by
  obtain ⟨front, back, split⟩ := List.append_of_mem declared
  obtain ⟨earlier, later, inside⟩ := List.append_of_mem listed
  -- Between the two stand those of the earlier permissions that take several lines.
  let foldsOf (others : List Permission) : List Fold :=
    (others.map fun other => ⟨other.range, .permission⟩).filter (·.range.isMultiline)
  refine ⟨(front.flatMap Definition.foldCandidates).filter (·.range.isMultiline), foldsOf earlier,
    foldsOf later ++ (back.flatMap Definition.foldCandidates).filter (·.range.isMultiline), ?_, ?_⟩
  · -- The outline falls apart where the definition and its permission stand.
    rw [folds_eq read, Schema.outline, split]
    simp [Definition.foldCandidates, inside, multiline, wide, foldsOf]
  · -- All that stands between the two are permissions.
    intro fold among
    obtain ⟨other, _, rfl⟩ := List.mem_map.mp (List.mem_filter.mp among).1
    rfl

/--
What can be folded in a schema that is read is a properly nested outline.

* The folds start one after another, and each ends on a later line than it starts.
* There is one fold for each definition and for each permission that takes several lines, in
  document order, and there is no other.
* Of two folds of one kind, the first ends before the second starts.
* A permission that is folded stands inside its own definition and starts behind its start. That
  definition is folded too, and no other one is listed between the two.
-/
theorem folds_outline (read : (parseWith options source).schema? = some schema) :
    Range.Increasing Fold.range schema.folds ∧
      (∀ fold ∈ schema.folds, fold.range.start.line < fold.range.stop.line) ∧
      (schema.folds.filter (·.kind = .definition)).map Fold.range =
        (schema.definitions.map Definition.range).filter Range.isMultiline ∧
      (schema.folds.filter (·.kind = .permission)).map Fold.range =
        ((schema.definitions.flatMap Definition.permissions).map Permission.range).filter
          Range.isMultiline ∧
      (schema.folds.Pairwise fun first second =>
        first.kind = second.kind → first.range.stop ≤ second.range.start) ∧
      ∀ definition ∈ schema.definitions, ∀ permission ∈ definition.permissions,
        permission.range.isMultiline →
          definition.range.start < permission.range.start ∧
          permission.range.stop ≤ definition.range.stop ∧
          ∃ before between after,
            schema.folds = before ++ ⟨definition.range, .definition⟩ ::
              (between ++ ⟨permission.range, .permission⟩ :: after) ∧
            ∀ fold ∈ between, fold.kind = .permission := by
  -- Leaving out what takes one line keeps the order.
  have precedes : schema.folds.Pairwise Fold.Precedes := by
    rw [folds_eq read]
    exact (pairwise_outline read).sublist List.filter_sublist
  refine ⟨precedes.imp Fold.Precedes.start_lt, ?_,
    map_range_folds read schema.filter_outline_definition,
    map_range_folds read schema.filter_outline_permission, precedes.imp Fold.Precedes.apart, ?_⟩
  · -- Only what takes several lines is folded.
    intro fold listed
    rw [folds_eq read] at listed
    simpa [Range.isMultiline] using (List.mem_filter.mp listed).2
  · intro definition declared permission listed multiline
    obtain ⟨_, formed⟩ := exists_wellFormed_of_read read declared
    obtain ⟨start_lt, stop_le⟩ := formed.permission_inside listed
    -- A definition around several lines takes several lines, and so it is folded as well.
    have within : permission.range.Within definition.range := ⟨start_lt.le, stop_le⟩
    exact ⟨start_lt, stop_le,
      exists_folds_split read declared listed (within.isMultiline multiline) multiline⟩

end Read

/-- A text with a faulty permission, and with a body that the next definition cuts short. -/
def unclosedLines : String :=
  "definition a \x7b permission p = r +\n s\n permission oops\n permission q = (s\n & r)\n" ++
    "definition b \x7b \x7d definition c \x7b\n permission v = nil \x7d"

/-- The unclosed definition is folded up to its last token, with both permissions inside. -/
theorem folds_outline_unclosedLines :
    ∃ schema, (parseWith .bestEffort unclosedLines).schema? = some schema ∧
      schema.folds = [⟨⟨⟨1, 1⟩, ⟨5, 6⟩⟩, .definition⟩, ⟨⟨⟨1, 16⟩, ⟨2, 3⟩⟩, .permission⟩,
        ⟨⟨⟨4, 2⟩, ⟨5, 6⟩⟩, .permission⟩, ⟨⟨⟨6, 18⟩, ⟨7, 22⟩⟩, .definition⟩] ∧
      Range.Increasing Fold.range schema.folds ∧
      (schema.definitions.map Definition.range).filter Range.isMultiline =
        [⟨⟨1, 1⟩, ⟨5, 6⟩⟩, ⟨⟨6, 18⟩, ⟨7, 22⟩⟩] := by
  obtain ⟨schema, read, folds⟩ :
      ∃ schema ∈ (parseWith .bestEffort unclosedLines).schema?,
        schema.folds = [⟨⟨⟨1, 1⟩, ⟨5, 6⟩⟩, .definition⟩, ⟨⟨⟨1, 16⟩, ⟨2, 3⟩⟩, .permission⟩,
          ⟨⟨⟨4, 2⟩, ⟨5, 6⟩⟩, .permission⟩, ⟨⟨⟨6, 18⟩, ⟨7, 22⟩⟩, .definition⟩] := by
    decide +kernel
  -- The ranges of the folds were computed, and those of the definitions follow from them.
  obtain ⟨increasing, _, definitions, _⟩ := folds_outline read
  refine ⟨schema, read, folds, increasing, ?_⟩
  rw [← definitions, folds]
  rfl

end AuthSchema
