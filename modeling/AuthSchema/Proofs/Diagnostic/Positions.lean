import Mathlib.Data.List.Perm.Subperm
import AuthSchema.Proofs.Diagnostic.References
import AuthSchema.Proofs.Diagnostic.Shadowed
import AuthSchema.Proofs.Editor.Highlights

/-!
Where reports stand: each at a highlighted name, and no two of them at the same one.

* A declaration is reported at its own name, and a reference at one of the names inside its mark.
* Since names start apart, so do the reports, and sorting leaves only one order for them.
-/

namespace AuthSchema

/-- A report stands at a highlighted name, which is unresolved only where the report says so. -/
structure Diagnostic.StandsAt (diagnostic : Diagnostic) (highlight : Highlight) : Prop where
  range_eq : highlight.range = diagnostic.range
  shown : highlight.kind = .unresolved ∧
      diagnostic.code? ∈ [some "E0001", some "E0002", some "E0003"] ∨
    highlight.kind ≠ .unresolved ∧
      diagnostic.code? ∈ [some "E0004", some "E0005", some "E0006", some "W0001"]

/-- The name of a member is shown as what the member is. -/
theorem HighlightKind.ofMember?_some_ne (member : Member) :
    HighlightKind.ofMember? (some member) ≠ .unresolved := by
  cases member <;> simp [ofMember?]

/-- An arrow that does not reach its right name everywhere is reported there. -/
theorem Diagnostic.standsAt_of_arrowTarget? {written : Arrow} {reach : ArrowReach}
    {diagnostic : Diagnostic} (reported : arrowTarget? written reach = some diagnostic) :
    diagnostic.StandsAt ⟨written.right.range, .ofMember? reach.targets.head?⟩ := by
  unfold arrowTarget? at reported
  dsimp only at reported
  split at reported
  · -- Without a missing target there is no report at all.
    cases reported
  · -- What the arrow reaches decides both the code and how the name is shown.
    cases targets : reach.targets with
    | nil =>
      rw [if_neg (by simp [ArrowReach.isResolved, targets]), Option.some_inj] at reported
      rw [← reported]
      exact ⟨rfl, .inl ⟨rfl, by simp [Problem.report, Problem.code]⟩⟩
    | cons first others =>
      rw [if_pos (by simp [ArrowReach.isResolved, targets]), Option.some_inj] at reported
      rw [← reported]
      exact ⟨rfl, .inr ⟨HighlightKind.ofMember?_some_ne first,
        by simp [Problem.report, Problem.code]⟩⟩

namespace Schema

variable {schema : Schema} {site : Site} {diagnostic : Diagnostic} {mark : Mark}

/-- A reference of a mark is reported at one of the names in the mark. -/
theorem Reported.exists_highlight (reported : schema.Reported site diagnostic)
    (holds : site ∈ mark.sites) (placed : site.reference.WellPlaced) :
    ∃ other ∈ mark.sites, ∃ highlight ∈ (schema.resolve other).highlights,
      diagnostic.StandsAt highlight := by
  -- Each kind of report names a place, and that place is highlighted for its reference.
  cases reported with
  | @undefinedType written _ absent =>
    -- A type that is not defined is shown as unresolved at its path.
    refine ⟨_, holds, ⟨written.pathRange, .unresolved⟩, ?_, rfl, .inl ⟨rfl, ?_⟩⟩
    · simp [resolve, resolveType?, absent, Resolution.highlights]
    · simp [Diagnostic.undefinedType, Problem.report, Problem.code]
  | @undefinedSuffix written _ definition name found suffix absent =>
    have placed : written.WellPlaced := placed
    -- A suffix that is written has a place, and the report stands there.
    obtain ⟨place, at_⟩ := placed.exists_place suffix
    refine ⟨_, holds, ⟨place, .unresolved⟩, ?_, ?_, .inl ⟨rfl, ?_⟩⟩
    · simp [resolve, resolveType?, found, suffix, absent, Resolution.highlights, at_,
        HighlightKind.ofMember?]
    · simp [Diagnostic.undefinedSuffix, Problem.report, at_]
    · simp [Diagnostic.undefinedSuffix, Problem.report, Problem.code]
  | @undefinedMember written _ absent =>
    -- A name that is not declared is shown as unresolved where it stands.
    refine ⟨_, holds, ⟨written.range, .unresolved⟩, ?_, rfl, .inl ⟨rfl, ?_⟩⟩
    · simp [resolve, absent, Resolution.highlights, HighlightKind.ofMember?]
    · simp [Diagnostic.undefinedMember, Problem.report, Problem.code]
  | @invalidArrowSource written enclosing blocked =>
    -- The report stands at the left name, which is another reference of the same mark.
    obtain ⟨declared, found⟩ : ∃ declared, enclosing.lookup? written.left.name =
        some (.permission declared) := by
      unfold resolveArrow at blocked
      split at blocked
      · cases blocked
      · rename_i declared found
        exact ⟨declared, found⟩
      · split at blocked <;> cases blocked
    have left : ⟨.name written.left, enclosing⟩ ∈ mark.sites := by
      cases mark <;> simp_all [Mark.sites]
    refine ⟨_, left, ⟨written.left.range, .permission⟩, ?_, rfl, .inr ⟨by simp, ?_⟩⟩
    · simp [resolve, found, Resolution.highlights, HighlightKind.ofMember?]
    · simp [Diagnostic.invalidArrowSource, Problem.report, Problem.code]
  | @arrowTarget written enclosing branches _ reached missing =>
    refine ⟨_, holds, _, ?_, Diagnostic.standsAt_of_arrowTarget? missing⟩
    simp [resolve, reached, Resolution.highlights]

/-- The reports of a schema are those of both checks, in document order. -/
theorem check_eq (schema : Schema) : schema.check =
    Range.sortByStart Diagnostic.range (schema.checkDeclarations ++ schema.checkReferences) := by
  simp [check, runPasses, runPass]

/-- The highlights of all references are those of the marks. -/
theorem referenceHighlights_eq (schema : Schema) :
    schema.referenceHighlights = schema.marks.flatMap fun mark =>
      mark.sites.flatMap fun site => (schema.resolve site).highlights := by
  rw [referenceHighlights, resolvedSites, sites_eq, List.flatMap_map, List.flatMap_assoc]

end Schema

section Read

variable {options : Parse.Options} {source : String} {schema : Schema}

/-- In a schema that is read, reports about references stand at different names in references. -/
theorem map_range_checkReferences_sublist
    (read : (parseWith options source).schema? = some schema) :
    (schema.checkReferences.map Diagnostic.range).Sublist
      (schema.referenceHighlights.map Highlight.range) := by
  rw [Schema.checkReferences_eq, Schema.sites_eq, List.filterMap_flatMap,
    schema.referenceHighlights_eq, List.map_flatMap, List.map_flatMap]
  -- Marks are apart, and each of them has at most one report, at one of its names.
  refine .flatMap_right _ fun mark among => ?_
  have single := schema.length_filterMap_report?_le_one mark
  have anchored : ∀ diagnostic ∈ mark.sites.filterMap schema.report?, diagnostic.range ∈
      (mark.sites.flatMap fun site => (schema.resolve site).highlights).map Highlight.range := by
    intro diagnostic emitted
    obtain ⟨site, holds, reported⟩ := List.mem_filterMap.mp emitted
    have proper := (marks_inSequence read).proper mark among
    have placed := ((wellPlaced_of_read read among).site proper holds).1
    obtain ⟨other, listed, highlight, shown, stands⟩ :=
      (Schema.report?_eq_some_iff.mp reported).exists_highlight holds placed
    exact List.mem_map.mpr ⟨highlight, List.mem_flatMap.mpr ⟨other, listed, shown⟩,
      stands.range_eq⟩
  -- A mark has one report at most, so nothing else is to be placed in order.
  match reports : mark.sites.filterMap schema.report? with
  | [] => exact List.nil_sublist _
  | [diagnostic] =>
    rw [List.map_singleton, List.singleton_sublist]
    exact anchored diagnostic (by simp [reports])
  | first :: second :: others =>
    rw [reports] at single
    simp at single

/-- In a schema that is read, reports about declarations stand at different declared names. -/
theorem map_range_checkDeclarations_subperm
    (read : (parseWith options source).schema? = some schema) :
    (schema.checkDeclarations.map Diagnostic.range).Subperm
      (schema.declarationHighlights.map Highlight.range) := by
  -- Where a definition stands in the list is of no matter for where its name is written.
  have forget : schema.definitions = schema.definitions.zipIdx.map Prod.fst := by simp
  rw [Schema.checkDeclarations, Schema.declarationHighlights, List.map_flatMap, List.map_flatMap,
    forget, List.flatMap_map, ← forget]
  -- In each definition, the report of its path comes first, and then those of its members.
  refine ⟨schema.definitions.zipIdx.flatMap fun entry =>
    (schema.duplicateDefinition? entry.1 entry.2).toList.map Diagnostic.range ++
      entry.1.shadowed.map Member.nameRange, ?_, ?_⟩
  · -- Members are reported at the names of those that are not found.
    refine .flatMap_left _ fun entry listed => ?_
    have declared : entry.1 ∈ schema.definitions := List.fst_mem_of_mem_zipIdx listed
    rw [List.map_append]
    exact (inOrder_of_read read declared).map_range_duplicateMembers_perm.symm.append_left _
  · -- Each report has a declared name, with the path of the definition in front.
    refine .flatMap_right _ fun entry _ => ?_
    have names : entry.1.highlights.map Highlight.range =
        [entry.1.nameRange] ++ entry.1.members.map Member.nameRange := by
      simp [Definition.highlights, Function.comp_def]
    rw [names]
    refine .append ?_ (List.filter_sublist.map Member.nameRange)
    cases reported : schema.duplicateDefinition? entry.1 entry.2 with
    | none => exact List.nil_sublist _
    | some diagnostic => simp [(Schema.eq_of_duplicateDefinition? reported).2]

/-- In a schema that is read, all reports together stand at different highlighted names. -/
theorem map_range_reports_subperm (read : (parseWith options source).schema? = some schema) :
    ((schema.checkDeclarations ++ schema.checkReferences).map Diagnostic.range).Subperm
      (schema.highlights.map Highlight.range) := by
  -- Sorting the highlights changes only their order.
  have sorted : schema.highlights.Perm
      (schema.declarationHighlights ++ schema.referenceHighlights) :=
    Range.sortByStart_perm _
  refine .trans ?_ (sorted.map Highlight.range).symm.subperm
  -- Declarations come with declared names, and references with names in references.
  rw [List.map_append, List.map_append]
  exact (map_range_checkDeclarations_subperm read).append
    (map_range_checkReferences_sublist read).subperm

/-- In a schema that is read, no two reports start together. -/
theorem increasing_check (read : (parseWith options source).schema? = some schema) :
    Range.Increasing Diagnostic.range schema.check := by
  -- Names stand one after another, so no two of them start together.
  have starts : ((schema.highlights.map Highlight.range).map Range.start).Nodup := by
    rw [List.map_map]
    exact List.pairwise_map.mpr
      ((highlights_inSequence read).increasing.imp fun earlier => earlier.ne)
  obtain ⟨ranges, same, within⟩ := map_range_reports_subperm read
  -- The names at which the reports stand start apart, and so do the reports.
  have apart := (same.map Range.start).nodup_iff.mp (starts.sublist (within.map Range.start))
  rw [List.map_map] at apart
  rw [schema.check_eq]
  exact Range.increasing_sortByStart apart

/-- In a schema that is read, a declaration is reported at its highlighted name. -/
theorem exists_highlight_of_checkDeclarations
    (read : (parseWith options source).schema? = some schema) {diagnostic : Diagnostic}
    (reported : diagnostic ∈ schema.checkDeclarations) :
    ∃ highlight ∈ schema.declarationHighlights, diagnostic.StandsAt highlight := by
  rcases Schema.cases_of_mem_checkDeclarations reported with
    ⟨index, definition, placed, found⟩ | ⟨definition, declared, found⟩
  · -- A path that was defined before is shown as a type all the same.
    obtain ⟨code_eq, range_eq⟩ := Schema.eq_of_duplicateDefinition? found
    refine ⟨⟨definition.nameRange, .type⟩, ?_, range_eq.symm, .inr ⟨by simp, by simp [code_eq]⟩⟩
    exact List.mem_flatMap.mpr ⟨definition, List.mem_of_getElem? placed, List.mem_cons_self⟩
  · -- A member that is not found is still shown as what it declares.
    have reports := (inOrder_of_read read declared).map_range_duplicateMembers_perm
    obtain ⟨member, shadowed, atName⟩ :=
      List.mem_map.mp (reports.mem_iff.mp (List.mem_map_of_mem found))
    have listed := (Definition.mem_shadowed.mp shadowed).1
    refine ⟨⟨member.nameRange, .ofMember? (some member)⟩, ?_, atName,
      .inr ⟨HighlightKind.ofMember?_some_ne member,
        by simp [Definition.code_of_mem_duplicateMembers found]⟩⟩
    exact List.mem_flatMap.mpr ⟨definition, declared,
      List.mem_cons_of_mem _ (List.mem_map.mpr ⟨member, listed, rfl⟩)⟩

/-- In a schema that is read, a reference is reported at a highlighted name. -/
theorem exists_highlight_of_checkReferences
    (read : (parseWith options source).schema? = some schema) {diagnostic : Diagnostic}
    (reported : diagnostic ∈ schema.checkReferences) :
    ∃ highlight ∈ schema.referenceHighlights, diagnostic.StandsAt highlight := by
  obtain ⟨site, listed, emitted⟩ := Schema.mem_checkReferences.mp reported
  -- The report may stand at the other name of the same mark.
  obtain ⟨mark, among, holds, placed, _⟩ := exists_mark_of_read read listed
  obtain ⟨other, otherHolds, highlight, shown, stands⟩ :=
    (Schema.report?_eq_some_iff.mp emitted).exists_highlight holds placed
  refine ⟨highlight, ?_, stands⟩
  rw [schema.referenceHighlights_eq]
  exact List.mem_flatMap.mpr ⟨mark, among, List.mem_flatMap.mpr ⟨other, otherHolds, shown⟩⟩

/--
In a schema that is read, every report stands at a highlighted name of its own.

* The reports are in order, and no two of them start together.
* The name is shown as unresolved for references to nothing, and as what it is for all others.
* The order in which declarations and references are checked makes no difference.
-/
theorem check_stands_at_highlights (read : (parseWith options source).schema? = some schema) :
    Range.Increasing Diagnostic.range schema.check ∧
      (∀ diagnostic ∈ schema.check, ∃! highlight,
        highlight ∈ schema.highlights ∧ diagnostic.StandsAt highlight) ∧
      schema.runPasses [.references, .declarations] = schema.check := by
  have increasing := increasing_check read
  -- Both lists are sorted, which changes nothing but the order.
  have reports : schema.check.Perm (schema.checkDeclarations ++ schema.checkReferences) := by
    rw [schema.check_eq]
    exact Range.sortByStart_perm _
  have shown : schema.highlights.Perm
      (schema.declarationHighlights ++ schema.referenceHighlights) :=
    Range.sortByStart_perm _
  refine ⟨increasing, ?_, ?_⟩
  · intro diagnostic reported
    have stands : ∃ highlight ∈ schema.highlights, diagnostic.StandsAt highlight := by
      simp only [shown.mem_iff, List.mem_append]
      -- A report comes from one of the two checks, and each of them has its names.
      rcases List.mem_append.mp (reports.mem_iff.mp reported) with declaring | referring
      · obtain ⟨highlight, listed, stands⟩ := exists_highlight_of_checkDeclarations read declaring
        exact ⟨highlight, .inl listed, stands⟩
      · obtain ⟨highlight, listed, stands⟩ := exists_highlight_of_checkReferences read referring
        exact ⟨highlight, .inr listed, stands⟩
    obtain ⟨highlight, listed, stands⟩ := stands
    refine ⟨highlight, ⟨listed, stands⟩, ?_⟩
    -- No other name starts where the report does.
    rintro other ⟨otherListed, otherStands⟩
    refine (highlights_inSequence read).increasing.eq_of_start_eq otherListed listed ?_
    rw [otherStands.range_eq, stands.range_eq]
  · -- Both orders report the same, and there is only one way to sort it.
    refine Range.sortByStart_eq (.trans ?_ reports.symm) increasing
    simpa [Schema.runPass] using List.perm_append_comm

end Read

/-- A text with every report that a schema can have. -/
def allReports : String :=
  "definition a \x7b relation r: a | b | c permission p = p->r + r->p + r->q + s relation r: a \x7d" ++
    "definition b \x7b\x7d definition a \x7b\x7d"

/-- The reports come in document order from either order of the checks, each at its own name. -/
theorem check_stands_at_highlights_allReports :
    ∃ schema, (parseWith .strict allReports).schema? = some schema ∧
      schema.check.map Diagnostic.code? =
        [some "E0001", some "E0004", some "W0001", some "E0003", some "E0002", some "E0006",
          some "E0005"] ∧
      Range.Increasing Diagnostic.range schema.check ∧
      (∀ diagnostic ∈ schema.check, ∃! highlight,
        highlight ∈ schema.highlights ∧ diagnostic.StandsAt highlight) ∧
      schema.runPasses [.references, .declarations] = schema.check := by
  obtain ⟨schema, read, codes⟩ :
      ∃ schema ∈ (parseWith .strict allReports).schema?, schema.check.map Diagnostic.code? =
        [some "E0001", some "E0004", some "W0001", some "E0003", some "E0002", some "E0006",
          some "E0005"] := by
    decide +kernel
  exact ⟨schema, read, codes, check_stands_at_highlights read⟩

end AuthSchema
