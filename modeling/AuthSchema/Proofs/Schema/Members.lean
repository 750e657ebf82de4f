import AuthSchema.Proofs.Parse.Outline

/-! The members of a definition: how they are found by name, and the order in which they are read. -/

namespace AuthSchema

open Grammar

namespace Definition

variable {definition : Definition} {name : String} {member : Member}

/-- A member of a definition is one of its relations or one of its permissions. -/
theorem mem_members : member ∈ definition.members ↔
    (∃ relation ∈ definition.relations, Member.relation relation = member) ∨
      ∃ permission ∈ definition.permissions, Member.permission permission = member := by
  -- Members are both lists together, brought into document order.
  rw [members, (Range.sortByStart_perm _).mem_iff, List.mem_append, List.mem_map, List.mem_map]

/-- What is found under a name is a member of that name. -/
theorem mem_of_lookup? (found : definition.lookup? name = some member) :
    member ∈ definition.members ∧ member.name = name := by
  -- Relations are searched first, and permissions only where none has the name.
  rw [lookup?, Option.or_eq_some_iff] at found
  rcases found with found | ⟨_, found⟩
  · -- What a search gives has the name that was searched for.
    obtain ⟨relation, first, rfl⟩ := Option.map_eq_some_iff.mp found
    have named : relation.name = name := by simpa using List.find?_some first
    exact ⟨mem_members.mpr (.inl ⟨relation, List.mem_of_find?_eq_some first, rfl⟩), named⟩
  · obtain ⟨permission, first, rfl⟩ := Option.map_eq_some_iff.mp found
    have named : permission.name = name := by simpa using List.find?_some first
    exact ⟨mem_members.mpr (.inr ⟨permission, List.mem_of_find?_eq_some first, rfl⟩), named⟩

/-- Under the name of a member something is found. -/
theorem exists_lookup?_of_mem (listed : member ∈ definition.members) :
    ∃ answer, definition.lookup? member.name = some answer := by
  rw [← Option.isSome_iff_exists, lookup?, Option.isSome_or, Bool.or_eq_true]
  rcases mem_members.mp listed with ⟨relation, declared, rfl⟩ | ⟨permission, declared, rfl⟩
  · -- A relation of the name is found before anything else.
    refine .inl ?_
    simpa [List.find?_isSome] using ⟨relation, declared, rfl⟩
  · -- Where no relation has the name, the permissions are searched as well.
    refine .inr ?_
    simpa [List.find?_isSome] using ⟨permission, declared, rfl⟩

end Definition

/-- Relations and permissions together are all members, in another order. -/
theorem Member.partition_perm (members : List Member) :
    ((members.filterMap Member.relation?).map Member.relation ++
      (members.filterMap Member.permission?).map Member.permission).Perm members := by
  -- Each relation joins the first list, each permission the second one.
  induction members with
  | nil => exact .refl _
  | cons member members ih =>
    cases member with
    | relation declared => exact ih.cons _
    | permission declared =>
      -- A permission comes after all relations, and so has to be moved to the front.
      exact List.perm_middle.trans (ih.cons _)

namespace Grammar.MemberTree

/-- The declared name. -/
def name : MemberTree → Token
  | .relation tree => tree.name.token
  | .permission tree => tree.name.token

/-- A member declares its name where the token of the name stands. -/
theorem nameRange_member (tree : MemberTree) : tree.member.nameRange = tree.name.range := by
  cases tree <;> rfl

/-- A member starts with its keyword. -/
theorem start_range_member (tree : MemberTree) :
    tree.member.range.start = tree.keyword.range.start := by
  cases tree <;> rfl

/-- The keyword is one of the tokens of a member. -/
theorem keyword_mem_tokens (tree : MemberTree) : tree.keyword ∈ tree.tokens := by
  cases tree <;> simp [keyword, tokens, RelationTree.tokens, PermissionTree.tokens]

/-- The declared name is one of the tokens of a member. -/
theorem name_mem_tokens (tree : MemberTree) : tree.name ∈ tree.tokens := by
  cases tree <;> simp [name, tokens, RelationTree.tokens, PermissionTree.tokens]

end Grammar.MemberTree

namespace Outline

/-- The tokens of a member are among those of its definition. -/
theorem mem_tokens_of_member {outline : Outline} {tree : MemberTree}
    (listed : tree ∈ outline.members) {token : Token} (leaf : token ∈ tree.tokens) :
    token ∈ outline.tokens := by
  have inside : token ∈ outline.members.flatMap MemberTree.tokens :=
    List.mem_flatMap.mpr ⟨tree, listed, leaf⟩
  exact List.mem_append_right _ (outline.members_sublist.subset inside)

/-- Tokens of two members of a definition start in the order of the members. -/
theorem pairwise_members {outline : Outline} (ordered : Ordered outline.tokens) :
    outline.members.Pairwise fun first second =>
      ∀ token ∈ first.tokens, ∀ other ∈ second.tokens, token.range.start < other.range.start := by
  -- Faulty members leave gaps between the tokens, and gaps keep the order.
  have leaves : Ordered (outline.members.flatMap MemberTree.tokens) :=
    ordered.right.sublist outline.members_sublist
  exact (List.pairwise_flatMap.mp leaves.increasing).2

/-- The members that were read start one after another. -/
theorem increasing_members {outline : Outline} (ordered : Ordered outline.tokens) :
    Range.Increasing Member.range (outline.members.map MemberTree.member) := by
  refine List.pairwise_map.mpr ((pairwise_members ordered).imp ?_)
  intro first second before
  -- Keywords are tokens, and stand in the order of the members.
  rw [first.start_range_member, second.start_range_member]
  exact before _ first.keyword_mem_tokens _ second.keyword_mem_tokens

/-- The members of an outlined definition are those that were read, in document order. -/
theorem members_definition {outline : Outline} (ordered : Ordered outline.tokens) :
    outline.definition.members = outline.members.map MemberTree.member := by
  -- Both kinds together are all members, which sorting brings back into their order.
  have apart := Member.partition_perm (outline.members.map MemberTree.member)
  rw [← MemberTree.filterMap_relation?, ← MemberTree.filterMap_permission?] at apart
  exact Range.sortByStart_eq apart (increasing_members ordered)

end Outline

/-- A definition whose members, in document order, start one after another, as do their names. -/
structure Definition.InOrder (definition : Definition) : Prop where
  ranges : Range.Increasing Member.range definition.members
  names : Range.Increasing Member.nameRange definition.members

/-- An outlined definition has its members in order. -/
theorem Outline.inOrder {outline : Outline} (ordered : Ordered outline.tokens) :
    outline.definition.InOrder := by
  constructor
  · rw [members_definition ordered]
    exact increasing_members ordered
  · -- The names are tokens as the keywords are.
    rw [members_definition ordered]
    refine List.pairwise_map.mpr ((pairwise_members ordered).imp ?_)
    intro first second before
    rw [first.nameRange_member, second.nameRange_member]
    exact before _ first.name_mem_tokens _ second.name_mem_tokens

section Read

variable {options : Parse.Options} {source : String} {schema : Schema}

/-- Every definition that is read has its members in order. -/
theorem inOrder_of_read (read : (parseWith options source).schema? = some schema)
    {definition : Definition} (declared : definition ∈ schema.definitions) :
    definition.InOrder := by
  obtain ⟨outlines, definitions, ordered⟩ := exists_outlines read
  rw [definitions] at declared
  obtain ⟨outline, listed, rfl⟩ := List.mem_map.mp declared
  -- The order of the members is settled by the tokens of each definition alone.
  exact Outline.inOrder (ordered.item listed)

/-- In a schema that is read, where a name is written tells the definition and the member. -/
theorem eq_of_nameRange_eq (read : (parseWith options source).schema? = some schema)
    {first second : Definition} (firstDeclared : first ∈ schema.definitions)
    (secondDeclared : second ∈ schema.definitions) {member other : Member}
    (firstListed : member ∈ first.members) (secondListed : other ∈ second.members)
    (same : member.nameRange = other.nameRange) : first = second ∧ member = other := by
  obtain ⟨outlines, definitions, ordered⟩ := exists_outlines read
  have inOrder := inOrder_of_read read firstDeclared
  rw [definitions] at firstDeclared secondDeclared
  obtain ⟨outline, outlineListed, rfl⟩ := List.mem_map.mp firstDeclared
  obtain ⟨otherOutline, otherOutlineListed, rfl⟩ := List.mem_map.mp secondDeclared
  -- Both names are written at tokens, and tokens of different definitions start apart.
  have sameOutline : outline = otherOutline := by
    rw [Outline.members_definition (ordered.item outlineListed)] at firstListed
    rw [Outline.members_definition (ordered.item otherOutlineListed)] at secondListed
    obtain ⟨tree, listed, rfl⟩ := List.mem_map.mp firstListed
    obtain ⟨otherTree, otherListed, rfl⟩ := List.mem_map.mp secondListed
    rw [tree.nameRange_member, otherTree.nameRange_member] at same
    exact ordered.eq_of_start_eq outlineListed otherOutlineListed
      (Outline.mem_tokens_of_member listed tree.name_mem_tokens)
      (Outline.mem_tokens_of_member otherListed otherTree.name_mem_tokens)
      (congrArg Range.start same)
  subst sameOutline
  -- Inside one definition the names start one after another.
  exact ⟨rfl, inOrder.names.eq_of_start_eq firstListed secondListed
    (congrArg Range.start same)⟩

end Read

end AuthSchema
