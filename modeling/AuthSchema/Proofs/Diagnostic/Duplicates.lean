import AuthSchema.Diagnostic.Check
import AuthSchema.Proofs.Schema.Members

/-!
Which members are reported as duplicates, and which declaration each report points at.

* While members come by, the first of a name speaks for it until what is found under it has come.
* A report points at the member that spoke for the name at that moment, or that took over then.
-/

namespace AuthSchema

/-- A report of one code at one place. -/
def Diagnostic.isAt (code : String) (range : Range) (diagnostic : Diagnostic) : Bool :=
  diagnostic.code? = some code && diagnostic.range = range

namespace Definition

variable {definition : Definition}

/-- What speaks for a name among some members: what is found under it, or else the first of it. -/
def speaker? (definition : Definition) (before : List Member) (name : String) : Option Member :=
  ((definition.lookup? name).filter (· ∈ before)).or (before.find? (·.name = name))

/-- The report that a member gives rise to, after the members before it. -/
def duplicateAt? (definition : Definition) (before : List Member) (member : Member) :
    Option Diagnostic :=
  (definition.speaker? before member.name).map fun existing =>
    if definition.lookup? member.name = some member then
      .duplicateMember existing member definition
    else
      .duplicateMember member existing definition

/-- The reports of members, after the members before them. -/
def duplicatesFrom (definition : Definition) (before : List Member) :
    List Member → List Diagnostic
  | [] => []
  | member :: later =>
    (definition.duplicateAt? before member).toList ++
      definition.duplicatesFrom (before ++ [member]) later

section Speaker

variable {before : List Member} {member : Member}

/-- A member that is not found under a name does not bring what is. -/
theorem filter_lookup?_append {name : String} (apart : definition.lookup? name ≠ some member) :
    (definition.lookup? name).filter (· ∈ before ++ [member]) =
      (definition.lookup? name).filter (· ∈ before) := by
  -- Something else may be found, but then the newcomer is not it.
  cases found : definition.lookup? name with
  | none => rfl
  | some answer =>
    have other : answer ≠ member := fun same => apart (found.trans (congrArg some same))
    simp [Option.filter_some, other]

/-- A member does not change what speaks for other names. -/
theorem speaker?_append_of_ne {name : String} (other : member.name ≠ name) :
    definition.speaker? (before ++ [member]) name = definition.speaker? before name := by
  -- What is found under a name has that name, and so is another member.
  have apart : definition.lookup? name ≠ some member := fun found => other (mem_of_lookup? found).2
  rw [speaker?, speaker?, filter_lookup?_append apart, List.find?_append]
  simp [other]

/-- What is found under a name speaks for it as soon as it has come by. -/
theorem speaker?_append_of_answer (found : definition.lookup? member.name = some member) :
    definition.speaker? (before ++ [member]) member.name = some member := by
  simp [speaker?, found, Option.filter_some]

/-- The first member of a name speaks for it at first. -/
theorem speaker?_append_of_first (fresh : definition.speaker? before member.name = none) :
    definition.speaker? (before ++ [member]) member.name = some member := by
  -- Nothing spoke for the name, so that no member of it has come by.
  obtain ⟨noAnswer, noOther⟩ := Option.or_eq_none_iff.mp fresh
  by_cases found : definition.lookup? member.name = some member
  · exact speaker?_append_of_answer found
  · -- What is found under the name has not come by yet.
    rw [speaker?, filter_lookup?_append found, noAnswer, List.find?_append, noOther]
    simp

/-- A member that is not found under its name leaves the name to the one that spoke for it. -/
theorem speaker?_append_of_shadowed {existing : Member}
    (spoke : definition.speaker? before member.name = some existing)
    (shadowed : definition.lookup? member.name ≠ some member) :
    definition.speaker? (before ++ [member]) member.name = some existing := by
  rw [speaker?, Option.or_eq_some_iff] at spoke
  rw [speaker?, filter_lookup?_append shadowed, List.find?_append]
  rcases spoke with answered | ⟨unanswered, first⟩
  · -- What is found under the name has come by already, and keeps speaking.
    rw [answered, Option.some_or]
  · -- Otherwise the first member of the name goes on to stand in for it.
    rw [unanswered, first, Option.none_or, Option.some_or]

end Speaker

/-- The newest member seen of each name is the one that speaks for it. -/
def Speaks (definition : Definition) (before seen : List Member) : Prop :=
  ∀ name, seen.find? (·.name = name) = definition.speaker? before name

/-- At first nothing has been seen, and nothing speaks for any name. -/
theorem speaks_nil (definition : Definition) : definition.Speaks [] [] := by
  intro name
  cases found : definition.lookup? name <;> simp [speaker?, found, Option.filter_some]

/-- A member that takes over its name is the newest one seen of it. -/
theorem Speaks.takeOver {before seen : List Member} (speaks : definition.Speaks before seen)
    {member : Member}
    (spoken : definition.speaker? (before ++ [member]) member.name = some member) :
    definition.Speaks (before ++ [member]) (member :: seen) := by
  intro name
  -- Only the name of the member changes hands.
  by_cases same : member.name = name
  · subst same
    rw [spoken, List.find?_cons_of_pos (by simp)]
  · -- Other names keep their speakers, and the newcomer is passed over.
    rw [speaker?_append_of_ne same, List.find?_cons_of_neg (by simpa using same), speaks name]

/-- A member that is not found under its name, where another one spoke for it, changes nothing. -/
theorem Speaks.keep {before seen : List Member} (speaks : definition.Speaks before seen)
    {member existing : Member}
    (spoke : definition.speaker? before member.name = some existing)
    (shadowed : definition.lookup? member.name ≠ some member) :
    definition.Speaks (before ++ [member]) seen := by
  intro name
  by_cases same : member.name = name
  · -- The one that spoke for the name is still the newest one seen of it.
    subst same
    rw [speaks, spoke, speaker?_append_of_shadowed spoke shadowed]
  · rw [speaker?_append_of_ne same, speaks name]

/-- In a definition that is in order, a range tells whether a member is found under its name. -/
theorem InOrder.map_range_lookup?_iff (inOrder : definition.InOrder) {member : Member}
    (listed : member ∈ definition.members) :
    (definition.lookup? member.name).map (·.range) = some member.range ↔
      definition.lookup? member.name = some member := by
  constructor
  · intro same
    -- What is found is a member as well, and no two members start together.
    obtain ⟨answer, found, range_eq⟩ := Option.map_eq_some_iff.mp same
    have answer_eq : answer = member :=
      inOrder.ranges.eq_of_start_eq (mem_of_lookup? found).1 listed (congrArg Range.start range_eq)
    rw [found, answer_eq]
  · intro found
    rw [found]
    rfl

/-- One member gives rise to its report, and leaves the name to whoever speaks for it then. -/
theorem duplicateMembers_cons (inOrder : definition.InOrder) {before seen : List Member}
    (speaks : definition.Speaks before seen) {member : Member}
    (listed : member ∈ definition.members) (later : List Member) :
    ∃ next, definition.Speaks (before ++ [member]) next ∧
      definition.duplicateMembers seen (member :: later) =
        (definition.duplicateAt? before member).toList ++
          definition.duplicateMembers next later := by
  -- What was seen under the name is what speaks for it, and the range tells who is found.
  rw [duplicateMembers, speaks member.name, duplicateAt?]
  cases spoke : definition.speaker? before member.name with
  | none => exact ⟨member :: seen, speaks.takeOver (speaker?_append_of_first spoke), rfl⟩
  | some existing =>
    by_cases found : definition.lookup? member.name = some member
    · -- The newcomer is found under the name, and the one that spoke so far is reported.
      refine ⟨member :: seen, speaks.takeOver (speaker?_append_of_answer found), ?_⟩
      simp only [if_pos ((inOrder.map_range_lookup?_iff listed).mpr found), if_pos found]
      rfl
    · -- The newcomer is not found, and is reported itself.
      refine ⟨seen, speaks.keep spoke found, ?_⟩
      have apart := mt (inOrder.map_range_lookup?_iff listed).mp found
      simp only [if_neg apart, if_neg found]
      rfl

/-- All members give rise to their reports, one after another. -/
theorem duplicateMembers_eq (inOrder : definition.InOrder) {before seen later : List Member}
    (speaks : definition.Speaks before seen)
    (listed : ∀ member ∈ later, member ∈ definition.members) :
    definition.duplicateMembers seen later = definition.duplicatesFrom before later := by
  -- The induction is on the members still to come, and the speakers are its invariant.
  induction later generalizing before seen with
  | nil => rfl
  | cons member later ih =>
    obtain ⟨next, speaksNext, step⟩ :=
      duplicateMembers_cons inOrder speaks (listed member (by simp)) later
    rw [step, ih speaksNext fun other among => listed other (List.mem_cons_of_mem _ among),
      duplicatesFrom]

/-- A report among those of some members comes from one of them, after those before it. -/
theorem mem_duplicatesFrom {before later : List Member} {diagnostic : Diagnostic} :
    diagnostic ∈ definition.duplicatesFrom before later ↔
      ∃ passed member after, later = passed ++ member :: after ∧
        definition.duplicateAt? (before ++ passed) member = some diagnostic := by
  -- The members before the one that gives the report are those passed on the way.
  induction later generalizing before with
  | nil => simp [duplicatesFrom]
  | cons first later ih =>
    rw [duplicatesFrom, List.mem_append, Option.mem_toList, ih]
    -- The report comes from the first member, or from one after it.
    constructor
    · rintro (reported | ⟨passed, member, after, rfl, reported⟩)
      · exact ⟨[], first, later, rfl, by simpa using reported⟩
      · exact ⟨first :: passed, member, after, rfl, by simpa using reported⟩
    · rintro ⟨passed, member, after, split, reported⟩
      cases passed with
      | nil =>
        obtain ⟨rfl, rfl⟩ := List.cons.inj split
        exact .inl (by simpa using reported)
      | cons other passed =>
        obtain ⟨rfl, rfl⟩ := List.cons.inj split
        exact .inr ⟨passed, member, after, rfl, by simpa using reported⟩

/-- The reports of a definition in order are those of its members, each after those before it. -/
theorem mem_duplicateMembers_iff (inOrder : definition.InOrder) {diagnostic : Diagnostic} :
    diagnostic ∈ definition.duplicateMembers [] definition.members ↔
      ∃ before member after, definition.members = before ++ member :: after ∧
        definition.duplicateAt? before member = some diagnostic := by
  -- The search starts with nothing seen, and goes over all members.
  rw [duplicateMembers_eq inOrder (speaks_nil definition) fun _ listed => listed,
    mem_duplicatesFrom]
  simp only [List.nil_append]

/-- A member that repeats a name, while what is found under the name is written later still. -/
def AnsweredLater (definition : Definition) (member : Member) : Prop :=
  (∃ earlier ∈ definition.members,
      earlier.name = member.name ∧ earlier.range.start < member.range.start) ∧
    ∃ answer ∈ definition.lookup? member.name, member.range.start < answer.range.start

/-- Whether a name is answered later is settled by the starts of members. -/
instance (definition : Definition) (member : Member) :
    Decidable (definition.AnsweredLater member) :=
  inferInstanceAs (Decidable (_ ∧ _))

section Report

variable {before after : List Member} {member : Member}

/-- Where members are in order, those before one of them are those that start before it. -/
theorem InOrder.mem_before_iff (inOrder : definition.InOrder)
    (split : definition.members = before ++ member :: after) {other : Member} :
    other ∈ before ↔ other ∈ definition.members ∧ other.range.start < member.range.start := by
  -- Members before it start earlier, and members after it start later.
  have increasing := inOrder.ranges
  rw [Range.Increasing, split, List.pairwise_append, List.pairwise_cons] at increasing
  obtain ⟨_, ⟨afterLater, _⟩, beforeEarlier⟩ := increasing
  constructor
  · intro listed
    exact ⟨by simp [split, listed], beforeEarlier other listed member (by simp)⟩
  · rintro ⟨listed, earlier⟩
    rw [split, List.mem_append, List.mem_cons] at listed
    rcases listed with listed | rfl | listed
    · exact listed
    · exact absurd earlier (lt_irrefl _)
    · exact absurd earlier (afterLater other listed).not_gt

/-- The first member of a name is not written after another one of it. -/
theorem InOrder.not_answeredLater_of_first (inOrder : definition.InOrder)
    (split : definition.members = before ++ member :: after) {first : Member}
    (found : before.find? (·.name = member.name) = some first) :
    ¬ definition.AnsweredLater first := by
  rintro ⟨⟨earlier, listed, named, starts⟩, _⟩
  obtain ⟨isNamed, passed, rest, before_eq, unnamed⟩ := List.find?_eq_some_iff_append.mp found
  have named' : first.name = member.name := by simpa using isNamed
  -- Another one would stand before the first one, where none has the name.
  have splitFirst : definition.members = passed ++ first :: (rest ++ member :: after) := by
    rw [split, before_eq, List.append_assoc, List.cons_append]
  have among : earlier ∈ passed := (inOrder.mem_before_iff splitFirst).mpr ⟨listed, starts⟩
  have other := unnamed earlier among
  simp [named, named'] at other

/-- What speaks for a name is what is found under it, or else the first of it, until that comes. -/
theorem speaker?_eq_some_iff {name : String} {existing : Member} :
    definition.speaker? before name = some existing ↔
      (definition.lookup? name = some existing ∧ existing ∈ before) ∨
        ((∀ answer, definition.lookup? name = some answer → answer ∉ before) ∧
          before.find? (·.name = name) = some existing) := by
  -- Either what is found has come by, or it has not and the first of the name stands in.
  rw [speaker?, Option.or_eq_some_iff, Option.filter_eq_some_iff, Option.filter_eq_none_iff]
  simp

/-- What speaks for a name is a member of that name that has come by. -/
theorem mem_of_speaker? {name : String} {existing : Member}
    (spoke : definition.speaker? before name = some existing) :
    existing ∈ before ∧ existing.name = name := by
  -- Both what is found under a name and the first one of it have the name.
  rcases speaker?_eq_some_iff.mp spoke with ⟨found, listed⟩ | ⟨_, first⟩
  · exact ⟨listed, (mem_of_lookup? found).2⟩
  · exact ⟨List.mem_of_find?_eq_some first, by simpa using List.find?_some first⟩

/-- A member that is found under its name takes it over from the first member of that name. -/
theorem InOrder.not_answeredLater_of_answer (inOrder : definition.InOrder)
    (split : definition.members = before ++ member :: after)
    (found : definition.lookup? member.name = some member) {existing : Member}
    (spoke : definition.speaker? before member.name = some existing) :
    ¬ definition.AnsweredLater existing := by
  rcases speaker?_eq_some_iff.mp spoke with ⟨same, listed⟩ | ⟨_, first⟩
  · -- The member has not come by before.
    obtain rfl : member = existing := Option.some.inj (found.symm.trans same)
    exact absurd ((inOrder.mem_before_iff split).mp listed).2 (lt_irrefl _)
  · exact inOrder.not_answeredLater_of_first split first

/-- What speaks for the name of another member is what is found, unless that is written later. -/
theorem InOrder.speaker?_eq_answer_iff (inOrder : definition.InOrder)
    (split : definition.members = before ++ member :: after) {answer existing : Member}
    (found : definition.lookup? member.name = some answer) (apart : answer ≠ member)
    (spoke : definition.speaker? before member.name = some existing) :
    existing = answer ↔ ¬ definition.AnsweredLater member := by
  obtain ⟨listed, named⟩ := mem_of_speaker? spoke
  have earlier := (inOrder.mem_before_iff split).mp listed
  constructor
  · -- What spoke for the name came before the member, and so does not start later.
    rintro rfl ⟨_, other, otherFound, later⟩
    obtain rfl : existing = other := Option.some.inj (found.symm.trans otherFound)
    exact absurd earlier.2 later.not_gt
  · intro notLater
    by_contra different
    -- What is found has not come by, so that it is written after the member.
    rcases speaker?_eq_some_iff.mp spoke with ⟨same, _⟩ | ⟨absent, _⟩
    · exact different (Option.some.inj (same.symm.trans found))
    · have answerListed : answer ∈ definition.members := (mem_of_lookup? found).1
      have memberListed : member ∈ definition.members := by simp [split]
      have noEarlier : ¬ answer.range.start < member.range.start := fun starts =>
        absent answer found ((inOrder.mem_before_iff split).mpr ⟨answerListed, starts⟩)
      have startsApart : member.range.start ≠ answer.range.start := fun same =>
        apart (inOrder.ranges.eq_of_start_eq memberListed answerListed same).symm
      exact notLater ⟨⟨existing, earlier.1, named, earlier.2⟩, answer, found,
        lt_of_le_of_ne (not_lt.mp noEarlier) startsApart⟩

/--
A report is about a member that is not found under its name.

It points at what is found exactly when that is not written later than a repeated name.
-/
theorem InOrder.exists_of_duplicateAt? (inOrder : definition.InOrder)
    (split : definition.members = before ++ member :: after) {diagnostic : Diagnostic}
    (reported : definition.duplicateAt? before member = some diagnostic) :
    ∃ shadowed ∈ definition.members, ∃ resolved ∈ definition.members, ∃ answer,
      diagnostic = .duplicateMember shadowed resolved definition ∧
        definition.lookup? shadowed.name = some answer ∧ answer ≠ shadowed ∧
        (resolved = answer ↔ ¬ definition.AnsweredLater shadowed) := by
  have memberListed : member ∈ definition.members := by simp [split]
  obtain ⟨existing, spoke, rfl⟩ := Option.map_eq_some_iff.mp reported
  obtain ⟨listed, named⟩ := mem_of_speaker? spoke
  obtain ⟨existingListed, earlier⟩ := (inOrder.mem_before_iff split).mp listed
  by_cases found : definition.lookup? member.name = some member
  · -- The member answers for its name, and the one that spoke for it is reported.
    rw [if_pos found]
    refine ⟨existing, existingListed, member, memberListed, member, rfl, by rw [named, found], ?_,
      fun _ => inOrder.not_answeredLater_of_answer split found spoke, fun _ => rfl⟩
    rintro rfl
    exact absurd earlier (lt_irrefl _)
  · -- Another member is found, and the member itself is reported.
    rw [if_neg found]
    obtain ⟨answer, answered⟩ := exists_lookup?_of_mem memberListed
    have apart : answer ≠ member := fun same => found (answered.trans (congrArg some same))
    exact ⟨member, memberListed, existing, existingListed, answer, rfl, answered, apart,
      inOrder.speaker?_eq_answer_iff split answered apart spoke⟩

/-- A member whose name is answered later is reported. -/
theorem InOrder.exists_duplicate_of_answeredLater (inOrder : definition.InOrder)
    (listed : member ∈ definition.members) (later : definition.AnsweredLater member) :
    ∃ resolved, Diagnostic.duplicateMember member resolved definition ∈
      definition.duplicateMembers [] definition.members := by
  obtain ⟨before, after, split⟩ := List.append_of_mem listed
  obtain ⟨⟨earlier, earlierListed, named, starts⟩, answer, found, answerStarts⟩ := later
  -- An earlier member has the name, so that something speaks for it.
  have among : earlier ∈ before := (inOrder.mem_before_iff split).mpr ⟨earlierListed, starts⟩
  -- The first member of the name is there to speak, even if nothing is found yet.
  have spoken : (definition.speaker? before member.name).isSome := by
    rw [speaker?, Option.isSome_or, Bool.or_eq_true]
    exact .inr (List.find?_isSome.mpr ⟨earlier, among, by simpa using named⟩)
  obtain ⟨resolved, spoke⟩ := Option.isSome_iff_exists.mp spoken
  -- What is found starts later, and so is another member.
  have shadowed : definition.lookup? member.name ≠ some member := by
    intro self
    obtain rfl : answer = member := Option.some.inj (found.symm.trans self)
    exact lt_irrefl _ answerStarts
  refine ⟨resolved, (mem_duplicateMembers_iff inOrder).mpr ⟨before, member, after, split, ?_⟩⟩
  rw [duplicateAt?, spoke, Option.map_some, if_neg shadowed]

end Report

end Definition

/-- The reports of duplicate members are those of the definitions of the schema. -/
theorem Schema.mem_duplicateMembers_of_code {schema : Schema} {diagnostic : Diagnostic}
    (reported : diagnostic ∈ schema.checkDeclarations) (code : diagnostic.code? = some "E0006") :
    ∃ definition ∈ schema.definitions,
      diagnostic ∈ definition.duplicateMembers [] definition.members := by
  obtain ⟨⟨definition, index⟩, listed, found⟩ := List.mem_flatMap.mp reported
  rcases List.mem_append.mp found with found | found
  · -- A report of a duplicate definition has another code.
    rw [Option.mem_toList, duplicateDefinition?] at found
    split at found
    · cases found
    · obtain ⟨existing, _, rfl⟩ := Option.map_eq_some_iff.mp found
      exact absurd code (by simp [Diagnostic.duplicateDefinition, Problem.report, Problem.code])
  · -- All other reports come from the members of one definition.
    exact ⟨definition, List.fst_mem_of_mem_zipIdx listed, found⟩

/-- The reports of a definition of a schema are among those of the schema. -/
theorem Schema.mem_checkDeclarations {schema : Schema} {definition : Definition}
    (declared : definition ∈ schema.definitions) {diagnostic : Diagnostic}
    (reported : diagnostic ∈ definition.duplicateMembers [] definition.members) :
    diagnostic ∈ schema.checkDeclarations := by
  -- A definition has a place in the schema, and its members are checked there.
  obtain ⟨index, inside, rfl⟩ := List.mem_iff_getElem.mp declared
  exact List.mem_flatMap.mpr ⟨(schema.definitions[index], index),
    List.mk_mem_zipIdx_iff_getElem?.mpr (List.getElem?_eq_getElem inside),
    List.mem_append_right _ reported⟩

/-- In a schema that is read, a report of a duplicate member is about a member that is not found. -/
theorem exists_duplicateMember_of_read {options : Parse.Options} {source : String}
    {schema : Schema} (read : (parseWith options source).schema? = some schema)
    {diagnostic : Diagnostic} (reported : diagnostic ∈ schema.checkDeclarations)
    (code : diagnostic.code? = some "E0006") :
    ∃ definition ∈ schema.definitions, ∃ shadowed ∈ definition.members,
      ∃ resolved ∈ definition.members, ∃ answer,
        diagnostic = .duplicateMember shadowed resolved definition ∧
          definition.lookup? shadowed.name = some answer ∧ answer ≠ shadowed ∧
          (resolved = answer ↔ ¬ definition.AnsweredLater shadowed) := by
  obtain ⟨definition, declared, found⟩ := Schema.mem_duplicateMembers_of_code reported code
  have inOrder := inOrder_of_read read declared
  -- A report comes with the members before the one it arises from, which settle whom it points at.
  obtain ⟨before, member, after, split, found⟩ :=
    (Definition.mem_duplicateMembers_iff inOrder).mp found
  exact ⟨definition, declared, inOrder.exists_of_duplicateAt? split found⟩

/--
In a schema that is read, each report of a duplicate member is at the name of a member, and points
at what is found under that name, unless that is written later than a repeated name.

* A report at a name that is answered later points elsewhere.
* Such a report is made for every name that is answered later.
-/
theorem duplicateMember_points_at_answer_iff {options : Parse.Options} {source : String}
    {schema : Schema} (read : (parseWith options source).schema? = some schema) :
    (∀ diagnostic ∈ schema.checkDeclarations, diagnostic.code? = some "E0006" →
      ∃ definition ∈ schema.definitions, ∃ member ∈ definition.members,
        diagnostic.range = member.nameRange) ∧
    ∀ definition ∈ schema.definitions, ∀ member ∈ definition.members,
      (∀ diagnostic ∈ schema.checkDeclarations, diagnostic.code? = some "E0006" →
        diagnostic.range = member.nameRange →
          ∃ answer place, definition.lookup? member.name = some answer ∧
            diagnostic.related = [place] ∧
            (place.range = answer.nameRange ↔ ¬ definition.AnsweredLater member)) ∧
      (definition.AnsweredLater member → ∃ diagnostic ∈ schema.checkDeclarations,
        diagnostic.code? = some "E0006" ∧ diagnostic.range = member.nameRange) := by
  refine ⟨?_, ?_⟩
  · intro diagnostic reported code
    obtain ⟨definition, declared, shadowed, listed, _, _, _, rfl, _⟩ :=
      exists_duplicateMember_of_read read reported code
    exact ⟨definition, declared, shadowed, listed, rfl⟩
  · intro definition declared member listed
    have inOrder := inOrder_of_read read declared
    refine ⟨?_, ?_⟩
    · intro diagnostic reported code atName
      obtain ⟨other, otherDeclared, shadowed, shadowedListed, resolved, resolvedListed, answer, rfl,
        answered, _, points⟩ := exists_duplicateMember_of_read read reported code
      -- The name at which the report is made tells its definition and its member.
      obtain ⟨rfl, rfl⟩ :=
        eq_of_nameRange_eq read otherDeclared declared shadowedListed listed atName
      -- Members are told apart by their names as well as by their ranges.
      have sameName : resolved.nameRange = answer.nameRange ↔ resolved = answer := by
        refine ⟨fun same => ?_, congrArg Member.nameRange⟩
        exact inOrder.names.eq_of_start_eq resolvedListed (Definition.mem_of_lookup? answered).1
          (congrArg Range.start same)
      exact ⟨answer, _, answered, rfl, sameName.trans points⟩
    · -- A name that is answered later is repeated, and so is reported.
      intro later
      obtain ⟨resolved, found⟩ := inOrder.exists_duplicate_of_answeredLater listed later
      exact ⟨_, Schema.mem_checkDeclarations declared found, rfl, rfl⟩

/-- A text in which a repeated permission comes before the relation that answers for its name. -/
def repeatedPermission : String :=
  "definition doc \x7b permission a = nil permission a = nil relation a: doc \x7d"

/-- The repeated permission is answered later, is reported, and its report points elsewhere. -/
theorem duplicateMember_points_at_answer_iff_repeatedPermission :
    ∃ schema, (parseWith .strict repeatedPermission).schema? = some schema ∧
      ∃ definition ∈ schema.definitions, ∃ member ∈ definition.members,
        definition.AnsweredLater member ∧
          ∃ diagnostic ∈ schema.checkDeclarations, diagnostic.code? = some "E0006" ∧
            diagnostic.range = member.nameRange ∧
            ∃ answer place, definition.lookup? member.name = some answer ∧
              diagnostic.related = [place] ∧ place.range ≠ answer.nameRange := by
  obtain ⟨schema, read, definition, declared, member, listed, later⟩ :
      ∃ schema ∈ (parseWith .strict repeatedPermission).schema?,
        ∃ definition ∈ schema.definitions, ∃ member ∈ definition.members,
          definition.AnsweredLater member := by
    decide +kernel
  obtain ⟨_, each⟩ := duplicateMember_points_at_answer_iff read
  obtain ⟨points, reported⟩ := each definition declared member listed
  obtain ⟨diagnostic, found, code, atName⟩ := reported later
  obtain ⟨answer, place, answered, related, same⟩ := points diagnostic found code atName
  exact ⟨schema, read, definition, declared, member, listed, later, diagnostic, found, code, atName,
    answer, place, answered, related, fun pointed => same.mp pointed later⟩

/-- The report of a repeated permission points at the first one, while the relation is found. -/
theorem duplicateMember_points_at_first :
    (parseWith .strict repeatedPermission).schema?.map (fun schema =>
        schema.checkDeclarations.map fun diagnostic =>
          (diagnostic.code?, diagnostic.range, diagnostic.related.map (·.range))) =
      some [(some "E0006", ⟨⟨1, 48⟩, ⟨1, 49⟩⟩, [⟨⟨1, 29⟩, ⟨1, 30⟩⟩]),
        (some "E0006", ⟨⟨1, 29⟩, ⟨1, 30⟩⟩, [⟨⟨1, 65⟩, ⟨1, 66⟩⟩])] ∧
    (parseWith .strict repeatedPermission).schema?.map (fun schema =>
        schema.definitions.map fun definition =>
          (definition.lookup? "a").map (·.nameRange)) =
      some [some ⟨⟨1, 65⟩, ⟨1, 66⟩⟩] := by
  decide +kernel

end AuthSchema
