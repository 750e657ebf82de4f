import AuthSchema.Editor.Navigation
import AuthSchema.Proofs.Reference.Lookup

/-!
Highlighting and navigation agree on every name of a schema that is read.

* A name that is shown as unresolved leads nowhere, and every other name leads somewhere.
* What a name leads to has its text, and is shown the way the name itself is.
-/

namespace AuthSchema

section Read

variable {options : Parse.Options} {source : String} {schema : Schema}

/-- In a schema that is read, a declared name is shown in one way only. -/
theorem kind_eq_of_shown (read : (parseWith options source).schema? = some schema)
    {range : Range} {kind : HighlightKind} (shown : ⟨range, kind⟩ ∈ schema.declarationHighlights)
    {other : Highlight} (otherShown : other ∈ schema.declarationHighlights)
    (same : other.range = range) : other.kind = kind := by
  have among := Schema.mem_declarationHighlights.mp shown
  have otherAmong := Schema.mem_declarationHighlights.mp otherShown
  have sequence := marks_inSequence read
  have proper := sequence.proper _ among
  -- Two marks at one place overlap, and so they are one.
  have marks_eq : Mark.declared other = .declared ⟨range, kind⟩ := by
    refine sequence.eq_of_overlap otherAmong among ?_ ?_
    · simpa [Mark.range, same] using proper
    · simpa [Mark.range, same] using proper
  rw [Mark.declared.inj marks_eq]

end Read

/-- A place to go to is declared in the schema, under a name and shown as some kind. -/
structure Schema.Declares (schema : Schema) (name : String) (kind : HighlightKind)
    (target : NavigationTarget) : Prop where
  name_eq : target.name = name
  shown : ⟨target.nameRange, kind⟩ ∈ schema.declarationHighlights

/-- What navigation makes of a highlighted name that stands for declarations of that name. -/
inductive Schema.Leads (schema : Schema) (name : String) (highlight : Highlight) :
    Option Navigation → Prop where
  /-- A name that is shown as unresolved leads nowhere. -/
  | nowhere (unresolved : highlight.kind = .unresolved) : Leads schema name highlight none
  /-- Any other name leads from its own range to declarations, and is shown as the first one. -/
  | somewhere {first : NavigationTarget} {others : List NavigationTarget}
    (resolved : highlight.kind ≠ .unresolved)
    (declared : schema.Declares name highlight.kind first)
    (alsoDeclared : ∀ other ∈ others, ∃ kind, schema.Declares name kind other) :
    Leads schema name highlight (some ⟨highlight.range, first :: others⟩)

namespace Schema

variable {schema : Schema} {name : String}

/-- A definition that is found under a path declares the path, as a type. -/
theorem declares_definition {definition : Definition}
    (found : schema.definition? name = some definition) :
    schema.Declares name .type definition.target := by
  have named : definition.name = name := by simpa using List.find?_some found
  refine ⟨named, ?_⟩
  exact List.mem_flatMap.mpr ⟨definition, List.mem_of_find?_eq_some found, List.mem_cons_self⟩

/-- A member that is found under a name declares the name, as what it is. -/
theorem declares_member {definition : Definition} (declared : definition ∈ schema.definitions)
    {member : Member} (found : definition.lookup? name = some member) :
    schema.Declares name (.ofMember? (some member)) member.target := by
  -- The members of a definition are highlighted behind its own name.
  obtain ⟨listed, named⟩ := Definition.mem_of_lookup? found
  refine ⟨named, List.mem_flatMap.mpr ⟨definition, declared, List.mem_cons_of_mem _ ?_⟩⟩
  exact List.mem_map.mpr ⟨member, listed, rfl⟩

/-- Members that are found in definitions of the schema are led to, the first one foremost. -/
theorem leads_of_members (members : List Member) (range : Range)
    (declared : ∀ member ∈ members, ∃ definition ∈ schema.definitions,
      definition.lookup? name = some member) :
    schema.Leads name ⟨range, .ofMember? members.head?⟩
      (if !members.isEmpty then some ⟨range, members.map Member.target⟩ else none) := by
  -- Without members the name is unresolved, and otherwise it leads to all of them.
  cases members with
  | nil => exact .nowhere rfl
  | cons first others =>
    obtain ⟨definition, listed, found⟩ := declared first List.mem_cons_self
    have leads : HighlightKind.ofMember? (some first) ≠ .unresolved := by
      cases first <;> simp [HighlightKind.ofMember?]
    -- Each of the others is found in some definition as well.
    refine .somewhere leads (declares_member listed found) ?_
    intro other among
    obtain ⟨member, present, rfl⟩ := List.mem_map.mp among
    obtain ⟨definition, listed, found⟩ := declared member (List.mem_cons_of_mem _ present)
    exact ⟨_, declares_member listed found⟩

/-- The case of one member at most, which is how a name or a suffix is resolved. -/
theorem leads_of_member? {found : Option Member} (range : Range)
    (declared : ∀ member ∈ found, ∃ definition ∈ schema.definitions,
      definition.lookup? name = some member) :
    schema.Leads name ⟨range, .ofMember? found⟩
      (found.map fun member => ⟨range, [member.target]⟩) := by
  -- A member that may be there is a list of one at most.
  have leads := leads_of_members found.toList range (by simpa using declared)
  cases found <;> exact leads

/-- What an arrow stands for is found under its right name, in definitions of the schema. -/
theorem exists_lookup?_of_mem_targets {written : Arrow} {enclosing : Definition} {member : Member}
    (reached : member ∈ (schema.resolveArrow written enclosing).targets) :
    ∃ definition ∈ schema.definitions, definition.lookup? written.right.name = some member := by
  obtain ⟨branch, among, target⟩ := List.mem_filterMap.mp reached
  -- Only an arrow through a relation has branches.
  unfold resolveArrow at among
  cases found : enclosing.lookup? written.left.name with
  | none => simp [found, ArrowReach.branches] at among
  | some left =>
    cases left with
    | permission declared => simp [found, ArrowReach.branches] at among
    | relation followed =>
      have among : branch ∈ schema.arrowBranches followed written.right.name := by
        simp only [found] at among
        split at among
        · simp [ArrowReach.branches] at among
        · rename_i branches
          simpa [branches, ArrowReach.branches] using among
      -- Each branch is a definition that one of the types of the relation names.
      obtain ⟨definition, named, rfl⟩ := List.mem_map.mp among
      obtain ⟨path, _, defined⟩ := List.mem_filterMap.mp named
      exact ⟨definition, List.mem_of_find?_eq_some defined, target⟩

end Schema

/-- A reference whose names are written at their places. -/
def Reference.Spelled (source : String) : Reference → Prop
  | .type written => written.Spelled source
  | .name written => textAt? source written.range = some written.name
  | .arrowTarget written => textAt? source written.right.range = some written.right.name

namespace Schema

variable {schema : Schema} {source : String} {position : Position}

/-- At its path a type leads to its definition, where there is one. -/
theorem leads_of_path {written : SubjectType} (placed : written.WellPlaced)
    (inside : written.pathRange.contains position) :
    schema.Leads written.path
      ⟨written.pathRange, if (schema.resolveType? written).isSome then .type else .unresolved⟩
      ((Resolution.type written (schema.resolveType? written)).navigate? position) := by
  -- The suffix starts behind the path, and so it does not cover the position.
  have elsewhere : written.suffixRange.filter (·.contains position) = none := by
    rw [Option.filter_eq_none_iff]
    intro place present covers
    rw [Range.contains_iff] at inside covers
    exact absurd (inside.2.trans_le ((placed.suffix_after place present).trans covers.1))
      (lt_irrefl _)
  -- Without a definition the path is shown as unresolved.
  cases found : schema.definition? written.path with
  | none =>
    simp only [resolveType?, found, Option.map_none, Resolution.navigate?, Option.bind_none]
    exact .nowhere rfl
  | some definition =>
    simp only [resolveType?, found, Option.map_some, Resolution.navigate?, Option.bind_some,
      Resolution.navigateType, elsewhere]
    exact .somewhere (by simp) (declares_definition found) (by simp)

/-- At its suffix a type leads to the member of that name, where there is one. -/
theorem leads_of_suffix {written : SubjectType} {range : Range} {name : String}
    (present : written.suffixRange = some range) (suffix : written.suffix = some name)
    (inside : range.contains position) :
    schema.Leads name ⟨range, .ofMember? ((schema.resolveType? written).bind (·.relation?))⟩
      ((Resolution.type written (schema.resolveType? written)).navigate? position) := by
  -- The place of the suffix holds the position, so the suffix is chosen before the path.
  have here : written.suffixRange.filter (·.contains position) = some range := by
    simp [present, Option.filter, inside]
  cases found : schema.definition? written.path with
  | none =>
    simp only [resolveType?, found, Option.map_none, Resolution.navigate?, Option.bind_none]
    exact .nowhere rfl
  | some definition =>
    simp only [resolveType?, found, Option.map_some, Resolution.navigate?, Option.bind_some,
      Resolution.navigateType, here, suffix]
    -- The suffix is looked up in the definition that the path leads to.
    exact leads_of_member? range fun member looked =>
      ⟨definition, List.mem_of_find?_eq_some found, looked⟩

/-- A highlighted name of a reference leads to declarations of the name that is written there. -/
theorem leads_of_resolve {site : Site} (declared : site.enclosing ∈ schema.definitions)
    (placed : site.reference.WellPlaced) (spelled : site.reference.Spelled source)
    {highlight : Highlight} (shown : highlight ∈ (schema.resolve site).highlights)
    (inside : highlight.range.contains position) :
    ∃ name, textAt? source highlight.range = some name ∧
      schema.Leads name highlight ((schema.resolve site).navigate? position) := by
  obtain ⟨reference, enclosing⟩ := site
  -- A type has a name for its path and may have one for its suffix, and the others have one each.
  cases reference with
  | type written =>
    rcases List.mem_cons.mp shown with rfl | onSuffix
    · exact ⟨written.path, spelled.path_eq, leads_of_path placed inside⟩
    · obtain ⟨range, present, rfl⟩ := Option.map_eq_some_iff.mp (Option.mem_toList.mp onSuffix)
      -- A suffix with a place has a name, which is the text there.
      have text_eq := spelled.suffix_eq
      rw [present] at text_eq
      obtain ⟨name, suffix, text_eq⟩ := Option.map_eq_some_iff.mp text_eq.symm
      exact ⟨name, text_eq.symm, leads_of_suffix present suffix inside⟩
  | name written =>
    obtain rfl := List.mem_singleton.mp shown
    -- A name is looked up in the definition around it.
    refine ⟨written.name, spelled, leads_of_member? _ ?_⟩
    intro member found
    exact ⟨enclosing, declared, found⟩
  | arrowTarget written =>
    obtain rfl := List.mem_singleton.mp shown
    refine ⟨written.right.name, spelled, leads_of_members _ _ ?_⟩
    intro member reached
    exact exists_lookup?_of_mem_targets reached

end Schema

/-- Where all names of an expression are written at their places, its references are too. -/
theorem Expr.spelled_of_mem_references {source : String} {expr : Expr}
    (spelled : ∀ written ∈ expr.names, textAt? source written.range = some written.name)
    {reference : Reference} (listed : reference ∈ expr.references) : reference.Spelled source := by
  -- Every reference of an expression is one of its names, or both names of an arrow.
  induction expr with
  | reference written =>
    obtain rfl := List.mem_singleton.mp listed
    exact spelled written (by simp [names])
  | arrow written =>
    simp only [references, List.mem_cons, List.not_mem_nil, or_false] at listed
    rcases listed with rfl | rfl
    · exact spelled written.left (by simp [names])
    · exact spelled written.right (by simp [names])
  | nil range => simp [references] at listed
  | binary operator left right range ihLeft ihRight =>
    rcases List.mem_append.mp listed with among | among
    · exact ihLeft (fun written present => spelled written (by simp [names, present])) among
    · exact ihRight (fun written present => spelled written (by simp [names, present])) among

section Read

variable {options : Parse.Options} {source : String} {schema : Schema}

/-- In a schema that is read, the names of a reference are written at their places. -/
theorem spelled_of_mem_sites (read : (parseWith options source).schema? = some schema)
    {site : Site} (listed : site ∈ schema.sites) : site.reference.Spelled source := by
  -- A reference belongs to a member, and the members are spelled as they are written.
  obtain ⟨declared, member, among, present⟩ := Schema.mem_sites.mp listed
  have spelled := spelled_of_read read declared
  rcases Definition.mem_members.mp among with ⟨relation, kept, rfl⟩ | ⟨permission, kept, rfl⟩
  · obtain ⟨type, typeListed, same⟩ := List.mem_map.mp present
    rw [← same]
    exact (spelled.relations relation kept).types type typeListed
  · exact Expr.spelled_of_mem_references (spelled.permissions permission kept).names present

/-- A highlighted name of a reference takes up part of the reference. -/
theorem Reference.WellPlaced.highlight_within {site : Site} (placed : site.reference.WellPlaced)
    {highlight : Highlight} (shown : highlight ∈ (schema.resolve site).highlights) :
    highlight.range.Within site.reference.range := by
  obtain ⟨reference, enclosing⟩ := site
  -- A type reaches from its path to its suffix, and other references are one name each.
  cases reference with
  | type written =>
    have placed : written.WellPlaced := placed
    rcases List.mem_cons.mp shown with rfl | onSuffix
    · exact ⟨placed.path_start.ge, placed.path_stop⟩
    · obtain ⟨range, present, rfl⟩ := Option.map_eq_some_iff.mp (Option.mem_toList.mp onSuffix)
      exact placed.suffix_within present
  | name written =>
    obtain rfl := List.mem_singleton.mp shown
    exact .refl _
  | arrowTarget written =>
    obtain rfl := List.mem_singleton.mp shown
    exact .refl _

/-- In a schema that is read, every highlighted reference leads to declarations of its text. -/
theorem exists_leads (read : (parseWith options source).schema? = some schema)
    {highlight : Highlight} (shown : highlight ∈ schema.referenceHighlights) {position : Position}
    (inside : highlight.range.contains position) :
    ∃ name, textAt? source highlight.range = some name ∧
      schema.Leads name highlight (schema.navigate? position) := by
  -- A highlight belongs to one reference, which covers all positions of the highlight.
  obtain ⟨resolved, among, highlighted⟩ := List.mem_flatMap.mp shown
  obtain ⟨site, listed, rfl⟩ := List.mem_map.mp among
  obtain ⟨mark, _, _, placed, _⟩ := exists_mark_of_read read listed
  -- The reference that is found at the position is the one that is highlighted.
  have found := (siteAt?_eq_some_iff read).mpr
    ⟨listed, (placed.highlight_within highlighted).contains inside⟩
  have navigated : schema.navigate? position = (schema.resolve site).navigate? position := by
    rw [Schema.navigate?, found, Option.bind_some]
  rw [navigated]
  exact Schema.leads_of_resolve (Schema.mem_sites.mp listed).1 placed
    (spelled_of_mem_sites read listed) highlighted inside

/--
Navigation and highlighting agree at every position of a schema that is read.

* A highlighted reference leads nowhere exactly when it is shown as unresolved.
* Where it leads somewhere, it does so from its own range, to declarations whose names are its text
  and are highlighted themselves, and it is shown as the first of them.
* A declared name leads nowhere.
-/
theorem highlights_agree_with_navigation
    (read : (parseWith options source).schema? = some schema) :
    schema.highlights.Perm (schema.declarationHighlights ++ schema.referenceHighlights) ∧
      (∀ token ∈ schema.referenceHighlights, ∀ position, token.range.contains position →
        (schema.navigate? position = none ↔ token.kind = .unresolved) ∧
        ∀ navigation, schema.navigate? position = some navigation →
          navigation.origin = token.range ∧
          (∀ target ∈ navigation.targets, textAt? source token.range = some target.name ∧
            ∃ declared ∈ schema.declarationHighlights, declared.range = target.nameRange) ∧
          ∃ first, navigation.targets.head? = some first ∧
            ∀ declared ∈ schema.declarationHighlights,
              declared.range = first.nameRange → declared.kind = token.kind) ∧
      ∀ token ∈ schema.declarationHighlights, ∀ position, token.range.contains position →
        schema.navigate? position = none := by
  refine ⟨Range.sortByStart_perm _, ?_, ?_⟩
  · intro token shown position inside
    obtain ⟨name, text_eq, leads⟩ := exists_leads read shown inside
    -- Where the navigation leads is known from the highlight alone, so it is split by that.
    generalize schema.navigate? position = outcome at leads
    cases leads with
    | nowhere unresolved => simp [unresolved]
    | @somewhere first others resolved declared alsoDeclared =>
      refine ⟨by simpa using resolved, ?_⟩
      intro navigation same
      obtain rfl := Option.some.inj same
      refine ⟨rfl, ?_, first, rfl, ?_⟩
      · intro target listed
        -- The first one is shown as the reference is, and the others in some way.
        obtain ⟨kind, declares⟩ : ∃ kind, schema.Declares name kind target := by
          rcases List.mem_cons.mp listed with rfl | later
          · exact ⟨_, declared⟩
          · exact alsoDeclared target later
        exact ⟨declares.name_eq ▸ text_eq, _, declares.shown, rfl⟩
      · intro other otherShown atFirst
        exact kind_eq_of_shown read declared.shown otherShown atFirst
  · -- Navigation starts from a reference, and none is found at a declared name.
    intro token shown position inside
    rw [Schema.navigate?, siteAt?_of_declared read shown inside, Option.bind_none]

end Read

/-- A text in which an arrow reaches two definitions and a suffix is not declared. -/
def forkedArrow : String :=
  "definition a \x7b relation v: a#w permission p = r->v relation r: a | b \x7d\n" ++
    "definition b \x7b permission v = nil \x7d"

/-- The arrow is shown as the first of the two members it leads to, and the suffix leads nowhere. -/
theorem highlights_agree_with_navigation_forkedArrow :
    ∃ schema, (parseWith .strict forkedArrow).schema? = some schema ∧
      (∃ navigation, schema.navigate? ⟨1, 50⟩ = some navigation ∧
        navigation.targets.length = 2 ∧ navigation.origin = ⟨⟨1, 50⟩, ⟨1, 51⟩⟩ ∧
        ∀ target ∈ navigation.targets,
          textAt? forkedArrow ⟨⟨1, 50⟩, ⟨1, 51⟩⟩ = some target.name) ∧
      schema.navigate? ⟨1, 30⟩ = none ∧ schema.navigate? ⟨1, 25⟩ = none := by
  obtain ⟨schema, read, onArrow, onSuffix, onName, navigation, navigated, two⟩ :
      ∃ schema ∈ (parseWith .strict forkedArrow).schema?,
        ⟨⟨⟨1, 50⟩, ⟨1, 51⟩⟩, .relation⟩ ∈ schema.referenceHighlights ∧
        ⟨⟨⟨1, 30⟩, ⟨1, 31⟩⟩, .unresolved⟩ ∈ schema.referenceHighlights ∧
        ⟨⟨⟨1, 25⟩, ⟨1, 26⟩⟩, .relation⟩ ∈ schema.declarationHighlights ∧
        ∃ navigation ∈ schema.navigate? ⟨1, 50⟩, navigation.targets.length = 2 := by
    decide +kernel
  obtain ⟨_, references, declarations⟩ := highlights_agree_with_navigation read
  obtain ⟨origin, targets, _⟩ := (references _ onArrow ⟨1, 50⟩ rfl).2 navigation navigated
  refine ⟨schema, read, ⟨navigation, navigated, two, origin, ?_⟩, ?_, ?_⟩
  · exact fun target listed => (targets target listed).1
  · exact (references _ onSuffix ⟨1, 30⟩ rfl).1.mpr rfl
  · exact declarations _ onName ⟨1, 25⟩ rfl

end AuthSchema
