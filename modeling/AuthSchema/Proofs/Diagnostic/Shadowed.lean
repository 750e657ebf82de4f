import Mathlib.Data.List.Perm.Basic
import AuthSchema.Proofs.Diagnostic.Duplicates
import AuthSchema.Proofs.Schema.Marks

/-!
Which declarations are reported as duplicates: exactly those that are not found under their names.

* A member is reported once it does not speak for its name any more, and only then.
* A definition is reported when an earlier one has its path.
-/

namespace AuthSchema

namespace Definition

variable {definition : Definition} {before : List Member} {member : Member}

/-- The members that are not found under their names. -/
def shadowed (definition : Definition) : List Member :=
  definition.members.filter fun member => definition.lookup? member.name ≠ some member

/-- A member is shadowed when another one, or none, is found under its name. -/
theorem mem_shadowed : member ∈ definition.shadowed ↔
    member ∈ definition.members ∧ definition.lookup? member.name ≠ some member := by
  simp [shadowed]

/-- The members that have come by and do not speak for their names. -/
def silent (definition : Definition) (before : List Member) : List Member :=
  before.filter fun member => definition.speaker? before member.name ≠ some member

/-- A member is silent when another one speaks for its name. -/
theorem mem_silent : member ∈ definition.silent before ↔
    member ∈ before ∧ definition.speaker? before member.name ≠ some member := by
  simp [silent]

/-- The member that a report is about, which is the newcomer or the one that it relieves. -/
def reported? (definition : Definition) (before : List Member) (member : Member) :
    Option Member :=
  (definition.speaker? before member.name).map fun existing =>
    if definition.lookup? member.name = some member then existing else member

/-- A report stands at the name of the member that it is about. -/
theorem map_range_duplicateAt? (definition : Definition) (before : List Member)
    (member : Member) : (definition.duplicateAt? before member).map (·.range) =
      (definition.reported? before member).map (·.nameRange) := by
  -- Both choose by whether the newcomer is found under its name.
  rw [duplicateAt?, reported?, Option.map_map, Option.map_map]
  congr 1
  funext existing
  simp only [Function.comp_apply]
  split
  · rfl
  · rfl

/-- What speaks for a name, where the newcomer has another one, goes on to speak for it. -/
theorem mem_silent_append_of_ne {other : Member} (different : other.name ≠ member.name) :
    other ∈ definition.silent (before ++ [member]) ↔ other ∈ definition.silent before := by
  -- The newcomer has another name, and so is not the member in question.
  have apart : other ≠ member := fun same => different (congrArg Member.name same)
  rw [mem_silent, mem_silent, speaker?_append_of_ne different.symm]
  simp [apart]

/-- One more member makes silent whom its report is about, and nobody else. -/
theorem mem_silent_append (fresh : member ∉ before) {other : Member} :
    other ∈ definition.silent (before ++ [member]) ↔
      other ∈ definition.silent before ∨ definition.reported? before member = some other := by
  -- A report is about a member of the name of the newcomer.
  have reported_name : definition.reported? before member = some other →
      other.name = member.name := by
    intro reported
    obtain ⟨existing, spoke, chosen⟩ := Option.map_eq_some_iff.mp reported
    split at chosen
    · rw [← chosen, (mem_of_speaker? spoke).2]
    · rw [← chosen]
  by_cases different : other.name ≠ member.name
  · -- Only the name of the newcomer can change hands.
    rw [mem_silent_append_of_ne different]
    exact ⟨.inl, fun either => either.resolve_right fun reported =>
      different (reported_name reported)⟩
  have same : other.name = member.name := not_not.mp different
  rw [mem_silent, mem_silent, same, List.mem_append, List.mem_singleton, reported?]
  cases spoke : definition.speaker? before member.name with
  | none =>
    -- Nobody had the name, so that the newcomer speaks for it and nobody is silent.
    have unnamed : other ∉ before := by
      intro listed
      have noOther := (Option.or_eq_none_iff.mp spoke).2
      simpa [same] using List.find?_eq_none.mp noOther other listed
    rw [speaker?_append_of_first spoke]
    simp [unnamed, eq_comm]
  | some existing =>
    obtain ⟨listed, named⟩ := mem_of_speaker? spoke
    have apart : existing ≠ member := fun same => fresh (same ▸ listed)
    by_cases found : definition.lookup? member.name = some member
    · -- The newcomer takes over, and the one that spoke falls silent.
      rw [speaker?_append_of_answer found, Option.map_some, if_pos found]
      simp only [ne_eq, Option.some.injEq]
      constructor
      · rintro ⟨among | rfl, unspoken⟩
        · by_cases spoken : existing = other
          · exact .inr spoken
          · exact .inl ⟨among, spoken⟩
        · exact absurd rfl unspoken
      · rintro (⟨among, _⟩ | rfl)
        · exact ⟨.inl among, fun same => fresh (same ▸ among)⟩
        · exact ⟨.inl listed, apart.symm⟩
    · -- The one that spoke goes on to speak, and the newcomer is silent.
      rw [speaker?_append_of_shadowed spoke found, Option.map_some, if_neg found]
      simp only [ne_eq, Option.some.injEq]
      constructor
      · rintro ⟨among | rfl, unspoken⟩
        · exact .inl ⟨among, unspoken⟩
        · exact .inr rfl
      · rintro (⟨among, unspoken⟩ | rfl)
        · exact ⟨.inl among, unspoken⟩
        · exact ⟨.inr rfl, apart⟩

/-- One more member adds whom its report is about to those that are silent. -/
theorem silent_append_perm (distinct : (before ++ [member]).Nodup) :
    (definition.silent before ++ (definition.reported? before member).toList).Perm
      (definition.silent (before ++ [member])) := by
  -- Members are told apart, so it is enough to see who is silent.
  obtain ⟨distinctBefore, _, apart⟩ := List.nodup_append.mp distinct
  have fresh : member ∉ before := fun listed => apart member listed member (by simp) rfl
  -- Whom a report is about was not silent before.
  have spoke : ∀ other ∈ definition.silent before,
      ∀ reported ∈ (definition.reported? before member).toList, other ≠ reported := by
    intro other silent reported found
    rintro rfl
    obtain ⟨listed, unspoken⟩ := mem_silent.mp silent
    obtain ⟨existing, speaks, chosen⟩ :=
      Option.map_eq_some_iff.mp (Option.mem_toList.mp found)
    split at chosen
    · -- The one that spoke is reported, and to speak is not to be silent.
      rw [chosen] at speaks
      rw [(mem_of_speaker? speaks).2] at unspoken
      exact unspoken speaks
    · -- The newcomer is reported, and it was not there before.
      exact fresh (chosen ▸ listed)
  have distinctReport : (definition.reported? before member).toList.Nodup := by
    cases definition.reported? before member <;> simp
  have distinctAll : (definition.silent before ++
      (definition.reported? before member).toList).Nodup :=
    List.nodup_append.mpr ⟨distinctBefore.filter _, distinctReport, spoke⟩
  have distinctAfter : (definition.silent (before ++ [member])).Nodup := distinct.filter _
  refine (List.perm_ext_iff_of_nodup distinctAll distinctAfter).mpr ?_
  intro other
  rw [mem_silent_append fresh, List.mem_append, Option.mem_toList]

/-- The reports of some members are about those that fall silent while they come by. -/
theorem map_range_duplicatesFrom_perm (definition : Definition) (before later : List Member)
    (distinct : (before ++ later).Nodup) :
    ((definition.silent before).map Member.nameRange ++
        (definition.duplicatesFrom before later).map Diagnostic.range).Perm
      ((definition.silent (before ++ later)).map Member.nameRange) := by
  -- The induction is on the members still to come, and those already silent carry it.
  induction later generalizing before with
  | nil => simp [duplicatesFrom]
  | cons member later ih =>
    -- The newcomer is taken over to those that have come by.
    have split : before ++ member :: later = before ++ [member] ++ later := by simp
    rw [split] at distinct ⊢
    have step : (definition.silent before ++ (definition.reported? before member).toList).Perm
        (definition.silent (before ++ [member])) :=
      silent_append_perm (distinct.sublist (List.sublist_append_left _ _))
    have report : (definition.duplicateAt? before member).toList.map Diagnostic.range =
        (definition.reported? before member).toList.map Member.nameRange := by
      rw [← Option.toList_map, ← Option.toList_map]
      exact congrArg Option.toList (definition.map_range_duplicateAt? before member)
    rw [duplicatesFrom, List.map_append, report, ← List.append_assoc, ← List.map_append]
    exact ((step.map Member.nameRange).append_right _).trans (ih _ distinct)

/-- In a definition that is in order, reports are at the members that are not found. -/
theorem InOrder.map_range_duplicateMembers_perm (inOrder : definition.InOrder) :
    ((definition.duplicateMembers [] definition.members).map Diagnostic.range).Perm
      (definition.shadowed.map Member.nameRange) := by
  -- Members that start apart are different.
  have distinct : definition.members.Nodup := by
    refine inOrder.ranges.imp ?_
    rintro first second earlier rfl
    exact lt_irrefl _ earlier
  -- At the end everything that can be found has come by, and speaks for its name.
  have spoken : definition.silent definition.members = definition.shadowed := by
    refine List.filter_congr ?_
    intro member listed
    obtain ⟨answer, found⟩ := exists_lookup?_of_mem listed
    have answered : definition.speaker? definition.members member.name = some answer :=
      speaker?_eq_some_iff.mpr (.inl ⟨found, (mem_of_lookup? found).1⟩)
    rw [answered, found]
  have reports : ((definition.duplicatesFrom [] definition.members).map Diagnostic.range).Perm
      ((definition.silent definition.members).map Member.nameRange) := by
    simpa [silent] using map_range_duplicatesFrom_perm definition [] definition.members distinct
  rwa [duplicateMembers_eq inOrder (speaks_nil definition) fun _ listed => listed, ← spoken]

/-- Every report about members has the one code for them. -/
theorem code_of_mem_duplicateMembers {seen later : List Member} {diagnostic : Diagnostic}
    (reported : diagnostic ∈ definition.duplicateMembers seen later) :
    diagnostic.code? = some "E0006" := by
  -- The cases are those of the search, and two of them report something.
  fun_induction definition.duplicateMembers seen later with
  | case1 => simp at reported
  | case2 seen member later _ ih => exact ih reported
  | case3 seen member later existing _ _ ih =>
    rcases List.mem_cons.mp reported with rfl | reported
    · rfl
    · exact ih reported
  | case4 seen member later existing _ _ ih =>
    rcases List.mem_cons.mp reported with rfl | reported
    · rfl
    · exact ih reported

end Definition

/-- Reports of one code at one place are counted among the places of that code. -/
theorem Diagnostic.countP_isAt (code : String) (range : Range) (diagnostics : List Diagnostic) :
    diagnostics.countP (isAt code range) =
      ((diagnostics.filter (·.code? = some code)).map (·.range)).count range := by
  rw [List.count, List.countP_map, List.countP_filter]
  refine List.countP_congr ?_
  intro diagnostic _
  simp [isAt, and_comm]

namespace Schema

variable {schema : Schema} {definition : Definition} {index : Nat}

/-- A definition is found under its path exactly when no earlier one has the path. -/
theorem isVisible_eq_false_iff (placed : schema.definitions[index]? = some definition) :
    schema.isVisible index = false ↔
      ∃ earlier ∈ schema.definitions.take index, earlier.name = definition.name := by
  simp [isVisible, placed]

/-- The report of a definition is at its name, and points at the first one of its path. -/
theorem duplicateDefinition?_eq_some_iff (placed : schema.definitions[index]? = some definition)
    {diagnostic : Diagnostic} :
    schema.duplicateDefinition? definition index = some diagnostic ↔
      (∃ earlier ∈ schema.definitions.take index, earlier.name = definition.name) ∧
        ∃ first, schema.definitions.find? (·.name = definition.name) = some first ∧
          diagnostic = .duplicateDefinition definition first := by
  rw [← isVisible_eq_false_iff placed, duplicateDefinition?, definition?]
  -- A definition that can be seen has no report.
  cases schema.isVisible index with
  | true => simp
  | false =>
    simp only [Bool.false_eq_true, if_false, Option.map_eq_some_iff, true_and]
    exact exists_congr fun first => and_congr_right' eq_comm

/-- The report of a definition has the code for definitions, and stands at its name. -/
theorem eq_of_duplicateDefinition? {diagnostic : Diagnostic}
    (reported : schema.duplicateDefinition? definition index = some diagnostic) :
    diagnostic.code? = some "E0005" ∧ diagnostic.range = definition.nameRange := by
  rw [duplicateDefinition?] at reported
  split at reported
  · cases reported
  · obtain ⟨existing, _, rfl⟩ := Option.map_eq_some_iff.mp reported
    exact ⟨rfl, rfl⟩

/-- The reports of one code are those about definitions, and those of the other about members. -/
theorem filter_checkDeclarations (schema : Schema) :
    schema.checkDeclarations.filter (·.code? = some "E0005") =
        schema.definitions.zipIdx.flatMap (fun (definition, index) =>
          (schema.duplicateDefinition? definition index).toList) ∧
      schema.checkDeclarations.filter (·.code? = some "E0006") =
        schema.definitions.flatMap fun definition =>
          definition.duplicateMembers [] definition.members := by
  -- Each check makes reports of its own code only.
  have ofDefinition : ∀ (definition : Definition) (index : Nat),
      ∀ diagnostic ∈ (schema.duplicateDefinition? definition index).toList,
        diagnostic.code? = some "E0005" :=
    fun definition index diagnostic reported =>
      (eq_of_duplicateDefinition? (Option.mem_toList.mp reported)).1
  have ofMembers : ∀ definition : Definition,
      ∀ diagnostic ∈ definition.duplicateMembers [] definition.members,
        diagnostic.code? = some "E0006" :=
    fun definition diagnostic reported => Definition.code_of_mem_duplicateMembers reported
  have forget : schema.definitions = schema.definitions.zipIdx.map Prod.fst := by simp
  refine ⟨?_, ?_⟩
  · -- For definitions, what their members report drops out.
    rw [checkDeclarations, List.filter_flatMap]
    congr 1
    funext ⟨definition, index⟩
    rw [List.filter_append, List.filter_eq_self.mpr, List.filter_eq_nil_iff.mpr, List.append_nil]
    · intro diagnostic reported
      simp [ofMembers definition diagnostic reported]
    · intro diagnostic reported
      simp [ofDefinition definition index diagnostic reported]
  · -- For members, what their definitions report drops out.
    rw [checkDeclarations, List.filter_flatMap, forget, List.flatMap_map, ← forget]
    congr 1
    funext ⟨definition, index⟩
    rw [List.filter_append, List.filter_eq_nil_iff.mpr, List.filter_eq_self.mpr, List.nil_append]
    · intro diagnostic reported
      simp [ofMembers definition diagnostic reported]
    · intro diagnostic reported
      simp [ofDefinition definition index diagnostic reported]

end Schema

section Read

variable {options : Parse.Options} {source : String} {schema : Schema}

/-- In a schema that is read, the reports about definitions are at different names. -/
theorem nodup_range_duplicateDefinitions
    (read : (parseWith options source).schema? = some schema) :
    (schema.definitions.zipIdx.flatMap fun entry =>
      (schema.duplicateDefinition? entry.1 entry.2).toList.map Diagnostic.range).Nodup := by
  -- Each definition has one name, so the names are those of the definitions in order.
  have names : schema.definitions.map Definition.nameRange =
      schema.definitions.zipIdx.flatMap fun entry => [entry.1.nameRange] := by
    have forget : schema.definitions.zipIdx.map Prod.fst = schema.definitions := by simp
    rw [← List.map_eq_flatMap, ← forget, List.map_map, forget]
    rfl
  -- Each definition has at most one report, which is at its name.
  refine (nodup_nameRange_definitions read).sublist ?_
  rw [names]
  refine .flatMap_right _ fun entry _ => ?_
  cases reported : schema.duplicateDefinition? entry.1 entry.2 with
  | none => exact List.nil_sublist _
  | some diagnostic => simp [(Schema.eq_of_duplicateDefinition? reported).2]

/-- In a schema that is read, where its name stands tells a definition. -/
theorem definition_eq_of_nameRange_eq (read : (parseWith options source).schema? = some schema)
    {index place : Nat} {definition other : Definition}
    (placed : schema.definitions[index]? = some definition)
    (otherPlaced : schema.definitions[place]? = some other)
    (same : definition.nameRange = other.nameRange) : index = place ∧ definition = other := by
  have inside : index < (schema.definitions.map Definition.nameRange).length := by
    simpa using (List.getElem?_eq_some_iff.mp placed).1
  -- No two names are at one place, so that the place tells the index.
  have index_eq : index = place := by
    apply (List.getElem?_inj inside (nodup_nameRange_definitions read)).mp
    simp [placed, otherPlaced, same]
  subst index_eq
  exact ⟨rfl, Option.some.inj (placed.symm.trans otherPlaced)⟩

/-- In a schema that is read, a definition is reported once if an earlier one has its path. -/
theorem countP_duplicateDefinition (read : (parseWith options source).schema? = some schema)
    {index : Nat} {definition : Definition}
    (placed : schema.definitions[index]? = some definition) :
    schema.checkDeclarations.countP (·.isAt "E0005" definition.nameRange) =
      if ∃ earlier ∈ schema.definitions.take index, earlier.name = definition.name then 1
      else 0 := by
  -- A place counts once among places that are all different.
  rw [Diagnostic.countP_isAt, schema.filter_checkDeclarations.1, List.map_flatMap,
    (nodup_range_duplicateDefinitions read).count]
  refine if_congr ?_ rfl rfl
  simp only [List.mem_flatMap, List.mem_map, Option.mem_toList]
  constructor
  · rintro ⟨⟨other, place⟩, listed, diagnostic, reported, atName⟩
    -- The name at which the report stands tells the definition that it is about.
    rw [(Schema.eq_of_duplicateDefinition? reported).2] at atName
    obtain ⟨rfl, rfl⟩ := definition_eq_of_nameRange_eq read
      (List.mk_mem_zipIdx_iff_getElem?.mp listed) placed atName
    exact ((Schema.duplicateDefinition?_eq_some_iff placed).mp reported).1
  · -- Some definition has the path, and so there is a first one.
    intro earlier
    have found : (schema.definitions.find? (·.name = definition.name)).isSome := by
      obtain ⟨other, listed, named⟩ := earlier
      exact List.find?_isSome.mpr ⟨other, List.mem_of_mem_take listed, by simpa using named⟩
    obtain ⟨first, found⟩ := Option.isSome_iff_exists.mp found
    have reported :=
      (Schema.duplicateDefinition?_eq_some_iff placed).mpr ⟨earlier, first, found, rfl⟩
    exact ⟨(definition, index), List.mk_mem_zipIdx_iff_getElem?.mpr placed, _, reported, rfl⟩

/-- In a schema that is read, a member is reported once if another one is found. -/
theorem countP_duplicateMember (read : (parseWith options source).schema? = some schema)
    {definition : Definition} (declared : definition ∈ schema.definitions) {member : Member}
    (listed : member ∈ definition.members) :
    schema.checkDeclarations.countP (·.isAt "E0006" member.nameRange) =
      if definition.lookup? member.name = some member then 0 else 1 := by
  -- Definition by definition, the reports are at the members that are not found.
  have reports : ((schema.definitions.flatMap fun definition =>
      definition.duplicateMembers [] definition.members).map Diagnostic.range).Perm
        (schema.definitions.flatMap fun definition =>
          definition.shadowed.map Member.nameRange) := by
    rw [List.map_flatMap]
    exact .flatMap_left _ fun definition declared =>
      (inOrder_of_read read declared).map_range_duplicateMembers_perm
  have distinct : (schema.definitions.flatMap fun definition =>
      definition.shadowed.map Member.nameRange).Nodup :=
    (nodup_nameRange_members read).sublist (.flatMap_right _ fun definition _ =>
      List.filter_sublist.map Member.nameRange)
  -- The name at which a report stands tells the member that it is about.
  have reported : member.nameRange ∈ (schema.definitions.flatMap fun definition =>
      definition.shadowed.map Member.nameRange) ↔
        definition.lookup? member.name ≠ some member := by
    simp only [List.mem_flatMap, List.mem_map, Definition.mem_shadowed]
    constructor
    · rintro ⟨other, otherDeclared, shadowed, ⟨among, unfound⟩, same⟩
      obtain ⟨rfl, rfl⟩ := eq_of_nameRange_eq read otherDeclared declared among listed same
      exact unfound
    · intro unfound
      exact ⟨definition, declared, member, ⟨listed, unfound⟩, rfl⟩
  rw [Diagnostic.countP_isAt, schema.filter_checkDeclarations.2, reports.count_eq, distinct.count]
  -- The place is among those of the reports exactly when the member is not found.
  by_cases found : definition.lookup? member.name = some member
  · rw [if_neg (fun among => reported.mp among found), if_pos found]
  · rw [if_pos (reported.mpr found), if_neg found]

/-- A report is about a definition, or about a member of one. -/
theorem Schema.cases_of_mem_checkDeclarations {diagnostic : Diagnostic}
    (reported : diagnostic ∈ schema.checkDeclarations) :
    (∃ index definition, schema.definitions[index]? = some definition ∧
        schema.duplicateDefinition? definition index = some diagnostic) ∨
      ∃ definition ∈ schema.definitions,
        diagnostic ∈ definition.duplicateMembers [] definition.members := by
  -- Each definition is checked as a whole, its path first and then its members.
  obtain ⟨⟨definition, index⟩, listed, found⟩ := List.mem_flatMap.mp reported
  rcases List.mem_append.mp found with found | found
  · exact .inl ⟨index, definition, List.mk_mem_zipIdx_iff_getElem?.mp listed,
      Option.mem_toList.mp found⟩
  · exact .inr ⟨definition, List.fst_mem_of_mem_zipIdx listed, found⟩

/--
In a schema that is read, exactly the declarations that are not found are reported as duplicates.

* A definition is reported once if an earlier one has its path, and the report points at the first.
* A member is reported once if another one is found under its name.
* There are no other reports.
-/
theorem checkDeclarations_reports_shadowed
    (read : (parseWith options source).schema? = some schema) :
    (∀ (index : Nat) (definition : Definition), schema.definitions[index]? = some definition →
      schema.checkDeclarations.countP (·.isAt "E0005" definition.nameRange) =
        (if ∃ earlier ∈ schema.definitions.take index, earlier.name = definition.name then 1
          else 0) ∧
      ∀ diagnostic ∈ schema.checkDeclarations, diagnostic.isAt "E0005" definition.nameRange →
        ∃ first message, schema.definitions.find? (·.name = definition.name) = some first ∧
          diagnostic.related = [⟨first.nameRange, message⟩]) ∧
    (∀ definition ∈ schema.definitions, ∀ member ∈ definition.members,
      schema.checkDeclarations.countP (·.isAt "E0006" member.nameRange) =
        if definition.lookup? member.name = some member then 0 else 1) ∧
    ∀ diagnostic ∈ schema.checkDeclarations,
      (∃ definition ∈ schema.definitions, diagnostic.isAt "E0005" definition.nameRange) ∨
        ∃ definition ∈ schema.definitions, ∃ member ∈ definition.members,
          diagnostic.isAt "E0006" member.nameRange := by
  refine ⟨?_, fun definition declared member listed => countP_duplicateMember read declared listed,
    ?_⟩
  · intro index definition placed
    refine ⟨countP_duplicateDefinition read placed, ?_⟩
    intro diagnostic reported atName
    simp only [Diagnostic.isAt, Bool.and_eq_true, decide_eq_true_eq] at atName
    rcases Schema.cases_of_mem_checkDeclarations reported with
      ⟨place, other, otherPlaced, found⟩ | ⟨other, _, found⟩
    · -- The report tells its definition by the place, and that points at the first one of the path.
      have same := (Schema.eq_of_duplicateDefinition? found).2.symm.trans atName.2
      obtain ⟨rfl, rfl⟩ := definition_eq_of_nameRange_eq read otherPlaced placed same
      obtain ⟨_, first, isFirst, rfl⟩ :=
        (Schema.duplicateDefinition?_eq_some_iff placed).mp found
      exact ⟨first, _, isFirst, rfl⟩
    · -- A report about a member has another code.
      rw [Definition.code_of_mem_duplicateMembers found] at atName
      exact absurd atName.1 (by decide)
  · intro diagnostic reported
    simp only [Diagnostic.isAt, Bool.and_eq_true, decide_eq_true_eq]
    rcases Schema.cases_of_mem_checkDeclarations reported with
      ⟨place, definition, placed, found⟩ | ⟨definition, declared, found⟩
    · exact .inl ⟨definition, List.mem_of_getElem? placed,
        Schema.eq_of_duplicateDefinition? found⟩
    · -- A report about members stands at one that is shadowed.
      have reports := (inOrder_of_read read declared).map_range_duplicateMembers_perm
      obtain ⟨member, shadowed, atName⟩ :=
        List.mem_map.mp (reports.mem_iff.mp (List.mem_map_of_mem found))
      exact .inr ⟨definition, declared, member, (Definition.mem_shadowed.mp shadowed).1,
        Definition.code_of_mem_duplicateMembers found, atName.symm⟩

end Read

/-- A text that defines a path twice, and in which a relation stands between two namesakes. -/
def namesakes : String :=
  "definition a \x7b permission p = nil relation p: a permission p = nil \x7d definition a \x7b\x7d"

/-- The second definition is reported once, and so is a permission that is not found. -/
theorem checkDeclarations_reports_shadowed_namesakes :
    ∃ schema, (parseWith .strict namesakes).schema? = some schema ∧
      (∃ duplicate ∈ schema.definitions[1]?,
        schema.checkDeclarations.countP (·.isAt "E0005" duplicate.nameRange) = 1) ∧
      ∃ definition ∈ schema.definitions, ∃ member ∈ definition.members,
        definition.lookup? member.name ≠ some member ∧
          schema.checkDeclarations.countP (·.isAt "E0006" member.nameRange) = 1 := by
  obtain ⟨schema, read, ⟨duplicate, placed, earlier⟩, definition, declared, member, listed,
      unfound⟩ :
      ∃ schema ∈ (parseWith .strict namesakes).schema?,
        (∃ duplicate ∈ schema.definitions[1]?,
          ∃ earlier ∈ schema.definitions.take 1, earlier.name = duplicate.name) ∧
        ∃ definition ∈ schema.definitions, ∃ member ∈ definition.members,
          definition.lookup? member.name ≠ some member := by
    decide +kernel
  obtain ⟨ofDefinitions, ofMembers, _⟩ := checkDeclarations_reports_shadowed read
  refine ⟨schema, read, ⟨duplicate, placed, ?_⟩, definition, declared, member, listed, unfound, ?_⟩
  · rw [(ofDefinitions 1 duplicate placed).1, if_pos earlier]
  · rw [ofMembers definition declared member listed, if_neg unfound]

end AuthSchema
