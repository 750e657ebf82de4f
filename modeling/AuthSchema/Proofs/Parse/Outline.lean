import AuthSchema.Proofs.Parse.Accept
import AuthSchema.Proofs.Parse.Taken

/-! What any reader gives, errors or not, is derived from tokens in the order of the text. -/

namespace AuthSchema

open Grammar

/-- A definition as far as it was read, with the tokens that it took on the way. -/
structure Outline where
  header : HeaderTree
  /-- The members that were kept, in document order. -/
  members : List MemberTree
  /-- All tokens after the opening brace, those of faulty members too. -/
  inside : List Token
  members_sublist : (members.flatMap MemberTree.tokens).Sublist inside
  limits : header.path.Unspaced ∧ ∀ member ∈ members, member.WithinLimits

namespace Outline

/-- All tokens from the keyword on. -/
def tokens (outline : Outline) : List Token :=
  outline.header.tokens ++ outline.inside

/-- The definition, which stops where the last of its tokens stops. -/
def definition (outline : Outline) : Definition where
  name := outline.header.path.name
  nameRange := outline.header.path.range
  range := ⟨outline.header.keyword.token.range.start,
    lastStop outline.header.opening.token.range.stop outline.inside⟩
  relations := outline.members.filterMap MemberTree.relation?
  permissions := outline.members.filterMap MemberTree.permission?

end Outline

namespace Parse

/--
What a body keeps is derived from some of the tokens that it takes, and stops with the last.

The tokens of each member stand together.
-/
theorem body_outline (textStop : Position) (room : Nat) (stop : Position) {tokens : List Token}
    (ordered : Ordered tokens) :
    ∃ (members : List MemberTree) (inside : List Token),
      tokens = inside ++ (body textStop room stop tokens).rest ∧
        (members.flatMap MemberTree.tokens).Sublist inside ∧
        (body textStop room stop tokens).members = members.map MemberTree.member ∧
        (body textStop room stop tokens).stop = lastStop stop inside ∧
        (∀ member ∈ members, member.WithinLimits) ∧
        ∀ member ∈ members, member.tokens <:+: tokens := by
  -- The induction follows the body, and each step takes some tokens off the front.
  fun_induction body textStop room stop tokens with
  | case1 => exact ⟨[], [], rfl, .slnil, rfl, rfl, by simp, by simp⟩
  | case2 => exact ⟨[], [], rfl, .slnil, rfl, rfl, by simp, by simp⟩
  | case3 stop room token ahead _ =>
    exact ⟨[], [token], rfl, List.nil_sublist _, rfl, rfl, by simp, by simp⟩
  | case4 => exact ⟨[], [], rfl, .slnil, rfl, rfl, by simp, by simp⟩
  | case5 stop room token ahead _ _ value rest read ih =>
    -- The member that was read has a derivation over the tokens that it took.
    obtain ⟨tree, leaves, rfl, limits⟩ := member_sound read
    rw [leaves] at ordered
    obtain ⟨members, inside, split, within, kept, stops, allLimits, together⟩ := ih ordered.right
    refine ⟨tree :: members, tree.tokens ++ inside, ?_, ?_, ?_, ?_, ?_, ?_⟩
    · rw [leaves, List.append_assoc]
      exact congrArg (tree.tokens ++ ·) split
    · exact within.append_left tree.tokens
    · exact congrArg (tree.member :: ·) kept
    · -- The member stops where the last of its tokens does.
      rw [lastStop_append, (tree.spans ordered.left).lastStop_eq]
      exact stops
    · simpa [limits] using allLimits
    · rw [leaves]
      intro member listed
      rcases List.mem_cons.mp listed with rfl | later
      · exact (List.prefix_append _ _).isInfix
      · exact (together member later).trans (List.suffix_append _ _).isInfix
  | case6 stop room token ahead _ _ fault rest failed next ih =>
    -- The faulty member leaves nothing, but the tokens that are skipped are taken.
    obtain ⟨skipped, split, skipStops, _⟩ := skipMember_eq token.range.stop ahead
    have behind := skipMember_suffix token.range.stop ahead
    obtain ⟨members, inside, later, within, kept, stops, limits, together⟩ :=
      ih (ordered.tail.sublist behind.sublist)
    refine ⟨members, token :: (skipped ++ inside), ?_, ?_, kept, ?_, limits, ?_⟩
    · rw [List.cons_append, List.append_assoc]
      exact congrArg (token :: ·) (split.trans (congrArg (skipped ++ ·) later))
    · exact (within.trans (List.sublist_append_right _ _)).cons _
    · rw [lastStop_cons, lastStop_append, ← skipStops]
      exact stops
    · intro member listed
      exact (together member listed).trans (behind.trans (List.suffix_cons _ _)).isInfix

/-- What a document keeps is outlined by its tokens, one definition after another. -/
theorem document_outlines (textStop : Position) (room : Nat) {tokens : List Token}
    (ordered : Ordered tokens) :
    ∃ outlines : List Outline,
      (document textStop room tokens).definitions = outlines.map Outline.definition ∧
        (outlines.flatMap Outline.tokens).Sublist tokens ∧
        ∀ outline ∈ outlines, ∀ member ∈ outline.members, member.tokens <:+: tokens := by
  -- The induction follows the document, and each step takes a definition or a faulty header.
  fun_induction document textStop room tokens with
  | case1 => exact ⟨[], rfl, List.nil_sublist _, by simp⟩
  | case2 => exact ⟨[], rfl, .slnil, by simp⟩
  | case3 room token ahead found rest read inner later ih =>
    -- The header is derived from the first tokens, and the body from those behind it.
    obtain ⟨header, leaves, rfl, unspaced⟩ := headerAt_sound read
    rw [leaves] at ordered ⊢
    obtain ⟨members, inside, split, within, kept, stops, limits, together⟩ :=
      body_outline textStop (room + 1) (headerOf header).range.stop ordered.right
    have behind := body_rest_suffix textStop (room + 1) (headerOf header).range.stop rest
    obtain ⟨outlines, definitions, tokens_sublist, allTogether⟩ :=
      ih (ordered.right.sublist behind.sublist)
    refine ⟨⟨header, members, inside, within, unspaced, limits⟩ :: outlines, ?_, ?_, ?_⟩
    · -- The outline is defined by the same parts that the header and its body give.
      have whole : (headerOf header).define inner =
          Outline.definition ⟨header, members, inside, within, unspaced, limits⟩ := by
        rw [Header.define, Outline.definition, kept, stops, MemberTree.filterMap_relation?,
          MemberTree.filterMap_permission?]
        rfl
      rw [List.map_cons, ← whole, ← definitions]
    · -- The tokens of the definition come first, and those behind the body are left for the others.
      rw [List.flatMap_cons, Outline.tokens, List.append_assoc]
      refine List.Sublist.append_left ?_ header.tokens
      rw [split]
      exact tokens_sublist.append_left inside
    · -- What stands together behind the body stands together in the whole.
      intro outline listed member among
      rcases List.mem_cons.mp listed with rfl | listed
      · exact (together member among).trans (List.suffix_append _ _).isInfix
      · exact (allTogether outline listed member among).trans
          (behind.trans (List.suffix_append _ _)).isInfix
  | case4 room token ahead fault rest failed later ih =>
    -- A faulty header leaves no definition, and its tokens are passed over.
    have behind : skipToDefinition ahead <:+ token :: ahead :=
      (List.dropWhile_suffix _).trans (List.suffix_cons token ahead)
    obtain ⟨outlines, definitions, within, together⟩ := ih (ordered.sublist behind.sublist)
    refine ⟨outlines, definitions, within.trans behind.sublist, ?_⟩
    intro outline listed member among
    exact (together outline listed member among).trans behind.isInfix

end Parse

section Read

variable {options : Parse.Options} {source : String} {schema : Schema}

/-- A schema that is read has the definitions of the document. -/
theorem definitions_of_read (read : (parseWith options source).schema? = some schema) :
    schema.definitions = (Parse.readTokens options source).definitions := by
  -- Only a strict reader with an error gives no schema, and any other keeps the definitions.
  rw [Parse.parseWith_eq] at read
  dsimp only at read
  split at read
  · cases read
    rfl
  · cases read

/-- Every schema that is read is outlined by tokens of its text, those of a member together. -/
theorem exists_outlines_together (read : (parseWith options source).schema? = some schema) :
    ∃ outlines : List Outline, schema.definitions = outlines.map Outline.definition ∧
      (outlines.flatMap Outline.tokens).Sublist (tokenize source).tokens ∧
      ∀ outline ∈ outlines, ∀ member ∈ outline.members,
        member.tokens <:+: (tokenize source).tokens := by
  obtain ⟨outlines, definitions, within⟩ :=
    Parse.document_outlines (tokenize source).stop options.room (ordered_tokenize source)
  exact ⟨outlines, (definitions_of_read read).trans definitions, within⟩

/-- Every schema that is read, whatever the options, is outlined by tokens of its text. -/
theorem exists_outlines_sublist (read : (parseWith options source).schema? = some schema) :
    ∃ outlines : List Outline, schema.definitions = outlines.map Outline.definition ∧
      (outlines.flatMap Outline.tokens).Sublist (tokenize source).tokens := by
  obtain ⟨outlines, definitions, within, _⟩ := exists_outlines_together read
  exact ⟨outlines, definitions, within⟩

/-- Every schema that is read, whatever the options, is outlined by ordered tokens. -/
theorem exists_outlines (read : (parseWith options source).schema? = some schema) :
    ∃ outlines : List Outline, schema.definitions = outlines.map Outline.definition ∧
      Ordered (outlines.flatMap Outline.tokens) := by
  -- A part of ordered tokens is ordered.
  obtain ⟨outlines, definitions, within⟩ := exists_outlines_sublist read
  exact ⟨outlines, definitions, (ordered_tokenize source).sublist within⟩

end Read

end AuthSchema
