import AuthSchema.Proofs.Diagnostic.Duplicates
import AuthSchema.Proofs.Schema.Marks

/-!
How references to nothing are reported: every one is accounted for, and none more than once.

* An arrow is silent where its left name, or the types of its relation, are reported instead.
* Both names of an arrow together have at most one report.
-/

namespace AuthSchema

/-- A report has the code of its problem, at the place that is given. -/
theorem Problem.isAt_report (problem : Problem) (range : Range) (message : String)
    (related : List RelatedPlace) :
    (problem.report range message related).isAt problem.code range := by
  simp [Diagnostic.isAt, report]

namespace Schema

variable {schema : Schema} {site : Site} {diagnostic : Diagnostic}

/-- The report of a reference, where there is one. -/
def report? (schema : Schema) (site : Site) : Option Diagnostic :=
  (⟨schema.resolve site, site.enclosing⟩ : ResolvedSite).diagnostic?

/-- References are checked one by one, and some of them give a report. -/
theorem checkReferences_eq (schema : Schema) :
    schema.checkReferences = schema.sites.filterMap schema.report? := by
  rw [checkReferences, resolvedSites, List.filterMap_map]
  rfl

/-- A report about references comes from one of them. -/
theorem mem_checkReferences :
    diagnostic ∈ schema.checkReferences ↔
      ∃ site ∈ schema.sites, schema.report? site = some diagnostic := by
  rw [checkReferences_eq, List.mem_filterMap]

/-- The left name of an arrow is a reference of its own. -/
theorem left_mem_sites {written : Arrow} {enclosing : Definition}
    (listed : ⟨.arrowTarget written, enclosing⟩ ∈ schema.sites) :
    ⟨.name written.left, enclosing⟩ ∈ schema.sites := by
  obtain ⟨mark, among, holds⟩ := exists_mark listed
  -- Only the mark of the arrow holds its right side, and it holds the left one as well.
  cases mark with
  | declared highlight => simp [Mark.sites] at holds
  | type other around => simp [Mark.sites] at holds
  | name other around => simp [Mark.sites] at holds
  | arrow other around =>
    obtain ⟨rfl, rfl⟩ : written = other ∧ enclosing = around := by simpa [Mark.sites] using holds
    rw [schema.sites_eq]
    exact List.mem_flatMap.mpr ⟨_, among, by simp [Mark.sites]⟩

/-- What is wrong with a reference, and how that is reported. -/
inductive Reported (schema : Schema) : Site → Diagnostic → Prop where
  /-- The path of a type is not defined. -/
  | undefinedType {written : SubjectType} {enclosing : Definition}
    (absent : schema.definition? written.path = none) :
    Reported schema ⟨.type written, enclosing⟩ (.undefinedType written)
  /-- The path of a type is defined, but what stands after its hash is not declared there. -/
  | undefinedSuffix {written : SubjectType} {enclosing definition : Definition} {name : String}
    (found : schema.definition? written.path = some definition)
    (suffix : written.suffix = some name) (absent : definition.lookup? name = none) :
    Reported schema ⟨.type written, enclosing⟩ (.undefinedSuffix written definition)
  /-- A name is not declared in the definition around it. -/
  | undefinedMember {written : NameRef} {enclosing : Definition}
    (absent : enclosing.lookup? written.name = none) :
    Reported schema ⟨.name written, enclosing⟩ (.undefinedMember written enclosing)
  /-- An arrow follows a permission. -/
  | invalidArrowSource {written : Arrow} {enclosing : Definition}
    (blocked : schema.resolveArrow written enclosing = .blocked .permissionSource) :
    Reported schema ⟨.arrowTarget written, enclosing⟩ (.invalidArrowSource written)
  /-- Some of the definitions that an arrow reaches do not declare its right name. -/
  | arrowTarget {written : Arrow} {enclosing : Definition} {branches : List ArrowBranch}
    {diagnostic : Diagnostic}
    (reached : schema.resolveArrow written enclosing = .reached branches)
    (missing : Diagnostic.arrowTarget? written (.reached branches) = some diagnostic) :
    Reported schema ⟨.arrowTarget written, enclosing⟩ diagnostic

/-- The report of a reference says what is wrong with it. -/
theorem report?_eq_some_iff : schema.report? site = some diagnostic ↔
    schema.Reported site diagnostic := by
  -- Each kind of reference has its own ways to fail, and no others.
  obtain ⟨reference, enclosing⟩ := site
  constructor
  · intro reported
    -- The report is computed from what the reference stands for, so that is split first.
    cases reference with
    | type written =>
      simp only [report?, resolve, resolveType?, ResolvedSite.diagnostic?] at reported
      cases found : schema.definition? written.path with
      | none =>
        simp only [found, Option.map_none, Option.some.injEq] at reported
        exact reported ▸ .undefinedType found
      | some definition =>
        -- The path is found here, so only a suffix can still be wrong.
        cases suffix : written.suffix with
        | none => simp [found, suffix] at reported
        | some name =>
          cases absent : definition.lookup? name with
          | none =>
            simp only [found, suffix, absent, Option.map_some, Option.bind_some, Option.isSome_some,
              Option.isNone_none, Bool.and_self, if_true, Option.some.injEq] at reported
            exact reported ▸ .undefinedSuffix found suffix absent
          | some member => simp [found, suffix, absent] at reported
    | name written =>
      simp only [report?, resolve, ResolvedSite.diagnostic?] at reported
      cases absent : enclosing.lookup? written.name with
      | none =>
        simp only [absent, Option.some.injEq] at reported
        exact reported ▸ .undefinedMember absent
      | some member => simp [absent] at reported
    | arrowTarget written =>
      simp only [report?, resolve, ResolvedSite.diagnostic?] at reported
      cases reach : schema.resolveArrow written enclosing with
      | reached branches =>
        simp only [reach, Arrow.diagnostic?] at reported
        exact .arrowTarget reach reported
      | blocked obstacle =>
        -- Only a permission on the left is reported here.
        cases obstacle with
        | permissionSource =>
          simp only [reach, Arrow.diagnostic?, Option.some.injEq] at reported
          exact reported ▸ .invalidArrowSource reach
        | undeclaredSource => simp [reach, Arrow.diagnostic?] at reported
        | undefinedTypes => simp [reach, Arrow.diagnostic?] at reported
  · rintro (absent | ⟨found, suffix, absent⟩ | absent | blocked | ⟨reached, missing⟩)
    · simp [report?, resolve, resolveType?, ResolvedSite.diagnostic?, absent]
    · simp [report?, resolve, resolveType?, ResolvedSite.diagnostic?, found, suffix, absent]
    · simp [report?, resolve, ResolvedSite.diagnostic?, absent]
    · simp [report?, resolve, ResolvedSite.diagnostic?, blocked, Arrow.diagnostic?]
    · simpa [report?, resolve, ResolvedSite.diagnostic?, reached, Arrow.diagnostic?] using missing

end Schema

/-- The report of an arrow that reaches definitions is at its right name. -/
theorem Diagnostic.arrowTarget?_eq_some {written : Arrow} {reach : ArrowReach}
    {diagnostic : Diagnostic} (reported : arrowTarget? written reach = some diagnostic) :
    diagnostic.range = written.right.range ∧
      (diagnostic.severity = .error ↔ reach.isResolved = false) := by
  -- A warning is given where some target is there, an error where there is none.
  unfold arrowTarget? at reported
  dsimp only at reported
  split at reported
  · cases reported
  · split at reported
    · rename_i resolved
      cases reported
      exact ⟨rfl, by simp [Problem.report, Problem.severity, resolved]⟩
    · rename_i unresolved
      cases reported
      exact ⟨rfl, by simp [Problem.report, Problem.severity, unresolved]⟩

/-- An arrow whose right name no definition declares is reported at that name. -/
theorem Diagnostic.arrowTarget?_of_unresolved {written : Arrow} {branches : List ArrowBranch}
    (nonempty : branches ≠ []) (unresolved : (ArrowReach.reached branches).isResolved = false) :
    ∃ diagnostic, arrowTarget? written (.reached branches) = some diagnostic ∧
      diagnostic.isAt "E0003" written.right.range := by
  -- No branch has a target, so that all of them are missing.
  have absent : ∀ branch ∈ branches, branch.target? = none := by
    simpa [ArrowReach.isResolved, ArrowReach.targets, ArrowReach.branches] using unresolved
  have missing : (ArrowReach.reached branches).missing = branches := by
    refine List.filter_eq_self.mpr ?_
    intro branch listed
    simp [absent branch listed]
  simp [arrowTarget?, missing, nonempty, unresolved, isAt, Problem.report, Problem.code]

namespace Schema

variable {schema : Schema} {site : Site} {diagnostic : Diagnostic}

/-- An error is reported only where a reference is not resolved. -/
theorem Reported.unresolved (reported : schema.Reported site diagnostic)
    (isError : diagnostic.severity = .error) : (schema.resolve site).isResolved = false := by
  -- An arrow may be reported as a warning, and only its error says that nothing is reached.
  cases reported with
  | undefinedType absent => simp [resolve, resolveType?, absent, Resolution.isResolved]
  | undefinedSuffix found suffix absent =>
    simp [resolve, resolveType?, found, suffix, absent, Resolution.isResolved]
  | undefinedMember absent => simp [resolve, absent, Resolution.isResolved]
  | invalidArrowSource blocked =>
    simp [resolve, blocked, Resolution.isResolved, ArrowReach.isResolved, ArrowReach.targets,
      ArrowReach.branches]
  | arrowTarget reached missing =>
    simpa [resolve, reached, Resolution.isResolved] using
      (Diagnostic.arrowTarget?_eq_some missing).2.mp isError

/-- A report stands where its reference is written. -/
theorem Reported.within (reported : schema.Reported site diagnostic)
    (placed : site.reference.WellPlaced) :
    diagnostic.range.Within site.reference.extent ∧
      diagnostic.range.start < diagnostic.range.stop := by
  -- The place of a report is one of the names of the reference, each of which stands inside it.
  cases reported with
  | @undefinedType written _ absent =>
    have placed : written.WellPlaced := placed
    exact ⟨⟨placed.path_start.ge, placed.path_stop⟩, placed.path_proper⟩
  | @undefinedSuffix written _ definition name found suffix absent =>
    have placed : written.WellPlaced := placed
    -- A suffix that is missing was written, so it has a place.
    obtain ⟨place, at_⟩ := placed.exists_place suffix
    have range_eq : (Diagnostic.undefinedSuffix written definition).range = place := by
      simp [Diagnostic.undefinedSuffix, Problem.report, at_]
    rw [range_eq]
    exact ⟨placed.suffix_within at_, placed.suffix_proper place at_⟩
  | @undefinedMember written _ absent => exact ⟨.refl _, placed⟩
  | @invalidArrowSource written _ blocked =>
    have placed : written.WellPlaced := placed
    exact ⟨placed.left_within, placed.left_proper⟩
  | @arrowTarget written _ branches _ reached missing =>
    have placed : written.WellPlaced := placed
    rw [(Diagnostic.arrowTarget?_eq_some missing).1]
    exact ⟨placed.right_within, placed.right_proper⟩

/-- The references of one mark have at most one report. -/
theorem length_filterMap_report?_le_one (schema : Schema) (mark : Mark) :
    (mark.sites.filterMap schema.report?).length ≤ 1 := by
  -- Only an arrow has two references, and never do both of them fail by themselves.
  cases mark with
  | declared highlight => simp [Mark.sites]
  | type written enclosing => exact List.length_filterMap_le _ _
  | name written enclosing => exact List.length_filterMap_le _ _
  | arrow written enclosing =>
    -- Where the left name is not declared, the arrow itself is silent.
    cases found : enclosing.lookup? written.left.name with
    | none =>
      have silent : schema.report? ⟨.arrowTarget written, enclosing⟩ = none := by
        simp [report?, resolve, resolveArrow, found, ResolvedSite.diagnostic?, Arrow.diagnostic?]
      rw [Mark.sites, List.filterMap_cons, List.filterMap_cons, silent]
      cases schema.report? ⟨.name written.left, enclosing⟩ <;> simp
    | some member =>
      -- The left name is declared, so that only the arrow can be reported.
      have silent : schema.report? ⟨.name written.left, enclosing⟩ = none := by
        simp [report?, resolve, found, ResolvedSite.diagnostic?]
      rw [Mark.sites, List.filterMap_cons, silent]
      exact List.length_filterMap_le _ _

/-- A reference to nothing is reported as an error, with some code and at some place. -/
def ReportsAt (schema : Schema) (code : String) (range : Range) : Prop :=
  ∃ diagnostic ∈ schema.checkReferences,
    diagnostic.severity = .error ∧ diagnostic.isAt code range

/-- What must be reported for a reference that is not resolved. -/
def AccountsFor (schema : Schema) (resolved : ResolvedSite) : Prop :=
  match resolved.resolution with
  | .type written _ =>
    schema.ReportsAt "E0001" written.pathRange ∨
      ∃ place ∈ written.suffixRange, schema.ReportsAt "E0002" place
  | .name written _ => schema.ReportsAt "E0002" written.range
  | .arrowTarget written reach =>
    schema.ReportsAt "E0003" written.right.range ∨
      (reach = .blocked .undeclaredSource ∧ schema.ReportsAt "E0002" written.left.range) ∨
      (reach = .blocked .permissionSource ∧ schema.ReportsAt "E0004" written.left.range) ∨
      (reach = .blocked .undefinedTypes ∧
        ∃ source, resolved.enclosing.lookup? written.left.name = some (.relation source) ∧
          source.subjectTypes ≠ [] ∧
          ∀ type ∈ source.subjectTypes, schema.ReportsAt "E0001" type.pathRange)

/-- A reference of the schema with something wrong is reported. -/
theorem reportsAt_of_reported {code : String} {range : Range} (listed : site ∈ schema.sites)
    (reported : schema.Reported site diagnostic) (isError : diagnostic.severity = .error)
    (atRange : diagnostic.isAt code range) : schema.ReportsAt code range := by
  have emitted := report?_eq_some_iff.mpr reported
  exact ⟨diagnostic, mem_checkReferences.mpr ⟨site, listed, emitted⟩, isError, atRange⟩

/-- A type that is not resolved is reported at its path, or at its suffix. -/
theorem accountsFor_type {written : SubjectType} {enclosing : Definition}
    (listed : ⟨.type written, enclosing⟩ ∈ schema.sites) (placed : written.WellPlaced)
    (unresolved : (Resolution.type written (schema.resolveType? written)).isResolved = false) :
    schema.ReportsAt "E0001" written.pathRange ∨
      ∃ place ∈ written.suffixRange, schema.ReportsAt "E0002" place := by
  -- Without its definition the path is to blame, and otherwise the suffix.
  cases found : schema.definition? written.path with
  | none =>
    exact .inl (reportsAt_of_reported listed (.undefinedType found) rfl
      (Problem.undefinedType.isAt_report _ _ _))
  | some definition =>
    cases suffix : written.suffix with
    | none => simp [resolveType?, found, suffix, Resolution.isResolved] at unresolved
    | some name =>
      have absent : definition.lookup? name = none := by
        simpa [resolveType?, found, suffix, Resolution.isResolved] using unresolved
      obtain ⟨place, at_⟩ := placed.exists_place suffix
      have report := Problem.undefinedMember.isAt_report (written.suffixRange.getD written.range)
      rw [at_, Option.getD_some] at report
      refine .inr ⟨place, at_, ?_⟩
      refine reportsAt_of_reported listed (.undefinedSuffix found suffix absent) rfl ?_
      rw [Diagnostic.undefinedSuffix, at_]
      exact report _ _

/-- Where an arrow reaches no definition, no type of its relation is defined. -/
theorem definition?_eq_none_of_arrowBranches {source : Relation} {target : String}
    (nowhere : schema.arrowBranches source target = []) {type : SubjectType}
    (listed : type ∈ source.subjectTypes) : schema.definition? type.path = none := by
  -- Every path of the relation was looked up, and none led anywhere.
  have undefined : ∀ path ∈ (source.subjectTypes.map (·.path)).eraseDups,
      schema.definition? path = none := by
    simpa [arrowBranches, List.filterMap_eq_nil_iff] using nowhere
  exact undefined type.path (List.mem_eraseDups.mpr (List.mem_map_of_mem listed))

/-- The types of a relation that a definition of the schema declares are references. -/
theorem type_mem_sites {enclosing : Definition} (declared : enclosing ∈ schema.definitions)
    {source : Relation} {name : String} (found : enclosing.lookup? name = some (.relation source))
    {type : SubjectType} (listed : type ∈ source.subjectTypes) :
    ⟨.type type, enclosing⟩ ∈ schema.sites :=
  mem_sites.mpr ⟨declared, .relation source, (Definition.mem_of_lookup? found).1,
    List.mem_map_of_mem listed⟩

end Schema

section Read

variable {options : Parse.Options} {source : String} {schema : Schema}

/-- In a schema that is read, a reference that is not resolved is accounted for. -/
theorem accountsFor_of_unresolved (read : (parseWith options source).schema? = some schema)
    {site : Site} (listed : site ∈ schema.sites)
    (unresolved : (schema.resolve site).isResolved = false) :
    schema.AccountsFor ⟨schema.resolve site, site.enclosing⟩ := by
  -- What is not resolved depends on the kind of reference, and an arrow has four ways to fail.
  obtain ⟨mark, _, _, placed, _⟩ := exists_mark_of_read read listed
  have declared := (Schema.mem_sites.mp listed).1
  obtain ⟨reference, enclosing⟩ := site
  cases reference with
  | type written => exact Schema.accountsFor_type listed placed unresolved
  | name written =>
    have absent : enclosing.lookup? written.name = none := by
      simpa [Schema.resolve, Resolution.isResolved] using unresolved
    exact Schema.reportsAt_of_reported listed (.undefinedMember absent) rfl
      (Problem.undefinedMember.isAt_report _ _ _)
  | arrowTarget written =>
    cases found : enclosing.lookup? written.left.name with
    | none =>
      -- The left name is a reference of its own, and reported there.
      have reach : schema.resolveArrow written enclosing = .blocked .undeclaredSource := by
        simp [Schema.resolveArrow, found]
      exact .inr (.inl ⟨reach, Schema.reportsAt_of_reported (Schema.left_mem_sites listed)
        (.undefinedMember found) rfl (Problem.undefinedMember.isAt_report _ _ _)⟩)
    | some member =>
      cases member with
      | permission declaration =>
        -- The arrow itself is reported, since its left name is found.
        have reach : schema.resolveArrow written enclosing = .blocked .permissionSource := by
          simp [Schema.resolveArrow, found]
        exact .inr (.inr (.inl ⟨reach, Schema.reportsAt_of_reported listed
          (.invalidArrowSource reach) rfl (Problem.invalidArrowSource.isAt_report _ _ _)⟩))
      | relation origin =>
        cases branches : schema.arrowBranches origin written.right.name with
        | nil =>
          -- The types of the relation are references as well, and there is at least one.
          have reach : schema.resolveArrow written enclosing = .blocked .undefinedTypes := by
            simp [Schema.resolveArrow, found, branches]
          obtain ⟨among, _⟩ := Definition.mem_of_lookup? found
          have isRelation : origin ∈ enclosing.relations := by
            simpa [Definition.mem_members] using among
          refine .inr (.inr (.inr ⟨reach, origin, found,
            subjectTypes_ne_nil_of_read read declared isRelation, ?_⟩))
          intro type admitted
          have absent := Schema.definition?_eq_none_of_arrowBranches branches admitted
          exact Schema.reportsAt_of_reported (Schema.type_mem_sites declared found admitted)
            (.undefinedType absent) rfl (Problem.undefinedType.isAt_report _ _ _)
        | cons branch others =>
          have reach : schema.resolveArrow written enclosing = .reached (branch :: others) := by
            simp [Schema.resolveArrow, found, branches]
          -- Definitions are reached, and none of them declares the right name.
          have nowhere : (ArrowReach.reached (branch :: others)).isResolved = false := by
            simpa [Schema.resolve, reach, Resolution.isResolved] using unresolved
          obtain ⟨diagnostic, missing, atName⟩ :=
            Diagnostic.arrowTarget?_of_unresolved (List.cons_ne_nil _ _) nowhere
          have isError := (Diagnostic.arrowTarget?_eq_some missing).2.mpr nowhere
          exact .inl (Schema.reportsAt_of_reported listed (.arrowTarget reach missing) isError
            atName)

/-- What accounts for a reference is at least one error. -/
theorem Schema.AccountsFor.exists_error {resolved : ResolvedSite}
    (accounts : schema.AccountsFor resolved) :
    ∃ diagnostic ∈ schema.checkReferences, diagnostic.severity = .error := by
  have isError : ∀ {code : String} {range : Range}, schema.ReportsAt code range →
      ∃ diagnostic ∈ schema.checkReferences, diagnostic.severity = .error := by
    rintro code range ⟨diagnostic, reported, isError, _⟩
    exact ⟨diagnostic, reported, isError⟩
  -- Every way to account for a reference has an error in it.
  unfold AccountsFor at accounts
  split at accounts
  · rcases accounts with reports | ⟨_, _, reports⟩
    · exact isError reports
    · exact isError reports
  · exact isError accounts
  · rcases accounts with reports | ⟨_, reports⟩ | ⟨_, reports⟩ | ⟨_, source, _, nonempty, reports⟩
    · exact isError reports
    · exact isError reports
    · exact isError reports
    · -- A relation admits some type, which is reported.
      obtain ⟨type, _, types_eq⟩ := List.exists_cons_of_ne_nil nonempty
      exact isError (reports type (by simp [types_eq]))

/-- In a schema that is read, a report stands inside the mark of its reference, and inside no other. -/
theorem mark_eq_of_report (read : (parseWith options source).schema? = some schema)
    {mark other : Mark} (among : mark ∈ schema.marks) (otherAmong : other ∈ schema.marks)
    {diagnostic : Diagnostic} (emitted : diagnostic ∈ other.sites.filterMap schema.report?)
    (inside : diagnostic.range.Within mark.range) : other = mark := by
  have sequence := marks_inSequence read
  -- A report stands inside its reference, which stands inside its own mark.
  obtain ⟨site, holds, reported⟩ := List.mem_filterMap.mp emitted
  obtain ⟨placed, within⟩ :=
    (wellPlaced_of_read read otherAmong).site (sequence.proper other otherAmong) holds
  obtain ⟨atSite, proper⟩ := (Schema.report?_eq_some_iff.mp reported).within placed
  have start_le := within.start_le.trans atSite.start_le
  have stop_le := atSite.stop_le.trans within.stop_le
  -- Both marks hold the text of the report, and marks do not share any.
  exact sequence.eq_of_overlap otherAmong among
    ((start_le.trans_lt proper).trans_le inside.stop_le)
    ((inside.start_le.trans_lt proper).trans_le stop_le)

/-- In a schema that is read, at most one report stands inside a mark. -/
theorem countP_within_mark_le_one (read : (parseWith options source).schema? = some schema)
    {mark : Mark} (among : mark ∈ schema.marks) :
    schema.checkReferences.countP (·.range.Within mark.range) ≤ 1 := by
  have sequence := marks_inSequence read
  have proper := sequence.proper mark among
  obtain ⟨first, rest, split⟩ := List.append_of_mem among
  -- The mark comes only once, since it does not end before it starts.
  have apart := sequence.before
  rw [split, List.pairwise_append, List.pairwise_cons] at apart
  have notFirst : mark ∉ first := fun listed =>
    absurd (apart.2.2 mark listed mark (by simp)) proper.not_ge
  have notRest : mark ∉ rest := fun listed => absurd (apart.2.1.1 mark listed) proper.not_ge
  -- Marks elsewhere share no text with this one, and so no reports.
  have elsewhere : ∀ marks : List Mark, mark ∉ marks → (∀ other ∈ marks, other ∈ schema.marks) →
      (marks.flatMap fun other => other.sites.filterMap schema.report?).countP
        (·.range.Within mark.range) = 0 := by
    intro marks absent within
    refine List.countP_eq_zero.mpr ?_
    intro diagnostic emitted inside
    obtain ⟨other, listed, emitted⟩ := List.mem_flatMap.mp emitted
    have same := mark_eq_of_report read among (within other listed) emitted
      (of_decide_eq_true inside)
    exact absent (same ▸ listed)
  have atFirst := elsewhere first notFirst fun other listed => by simp [split, listed]
  have atRest := elsewhere rest notRest fun other listed => by simp [split, listed]
  rw [Schema.checkReferences_eq, Schema.sites_eq, List.filterMap_flatMap, split,
    List.flatMap_append, List.flatMap_cons, List.countP_append, List.countP_append, atFirst, atRest,
    Nat.zero_add, Nat.add_zero]
  exact Nat.le_trans List.countP_le_length (schema.length_filterMap_report?_le_one mark)

/--
In a schema that is read, references to nothing are reported, and none of them twice.

* There is an error exactly when some reference is not resolved.
* Every report stands at a reference, and at most one stands at each, both names of an arrow
  taken together.
* Every reference that is not resolved is accounted for.
-/
theorem checkReferences_accounts_for_unresolved
    (read : (parseWith options source).schema? = some schema) :
    ((∃ diagnostic ∈ schema.checkReferences, diagnostic.severity = .error) ↔
      ∃ resolved ∈ schema.resolvedSites, resolved.resolution.isResolved = false) ∧
    (∀ diagnostic ∈ schema.checkReferences, ∃ site ∈ schema.sites,
      diagnostic.range.Within site.reference.extent) ∧
    (∀ site ∈ schema.sites,
      schema.checkReferences.countP (·.range.Within site.reference.extent) ≤ 1) ∧
    ∀ resolved ∈ schema.resolvedSites, resolved.resolution.isResolved = false →
      schema.AccountsFor resolved := by
  -- The last part is proved first, since the first one follows from it.
  have accounted : ∀ resolved ∈ schema.resolvedSites, resolved.resolution.isResolved = false →
      schema.AccountsFor resolved := by
    intro resolved among unresolved
    obtain ⟨site, listed, rfl⟩ := List.mem_map.mp among
    exact accountsFor_of_unresolved read listed unresolved
  refine ⟨⟨?_, ?_⟩, ?_, ?_, accounted⟩
  · -- A report of an error points at a reference that is not resolved.
    rintro ⟨diagnostic, reported, isError⟩
    obtain ⟨site, listed, emitted⟩ := Schema.mem_checkReferences.mp reported
    exact ⟨_, List.mem_map_of_mem listed,
      (Schema.report?_eq_some_iff.mp emitted).unresolved isError⟩
  · rintro ⟨resolved, among, unresolved⟩
    exact (accounted resolved among unresolved).exists_error
  · -- A report stands at one of the names of its reference.
    intro diagnostic reported
    obtain ⟨site, listed, emitted⟩ := Schema.mem_checkReferences.mp reported
    obtain ⟨mark, _, _, placed, _⟩ := exists_mark_of_read read listed
    exact ⟨site, listed, ((Schema.report?_eq_some_iff.mp emitted).within placed).1⟩
  · intro site listed
    obtain ⟨mark, among, _, _, within⟩ := exists_mark_of_read read listed
    -- What stands inside the reference stands inside its mark.
    refine Nat.le_trans (List.countP_mono_left ?_) (countP_within_mark_le_one read among)
    intro diagnostic _ inside
    simp only [decide_eq_true_eq] at inside ⊢
    exact ⟨within.start_le.trans inside.start_le, inside.stop_le.trans within.stop_le⟩

end Read

/-- A text in which an arrow is silent, since the only type of its relation is not defined. -/
def silentArrow : String :=
  "definition doc \x7b relation parent: folder permission view = parent->view \x7d"

/-- The arrow is not resolved, and the type that blocks it is reported in its place. -/
theorem checkReferences_accounts_for_unresolved_silentArrow :
    ∃ schema, (parseWith .strict silentArrow).schema? = some schema ∧
      (∃ resolved ∈ schema.resolvedSites, resolved.resolution.arrow?.isSome ∧
        resolved.resolution.isResolved = false ∧ schema.AccountsFor resolved) ∧
      ∃ diagnostic ∈ schema.checkReferences, diagnostic.severity = .error := by
  obtain ⟨schema, read, resolved, among, isArrow, unresolved⟩ :
      ∃ schema ∈ (parseWith .strict silentArrow).schema?,
        ∃ resolved ∈ schema.resolvedSites, resolved.resolution.arrow?.isSome ∧
          resolved.resolution.isResolved = false := by
    decide +kernel
  -- The only type of the relation is not defined, and that is what gets reported.
  obtain ⟨anyError, _, _, accounted⟩ := checkReferences_accounts_for_unresolved read
  exact ⟨schema, read,
    ⟨resolved, among, isArrow, unresolved, accounted resolved among unresolved⟩,
    anyError.mpr ⟨resolved, among, unresolved⟩⟩

end AuthSchema
