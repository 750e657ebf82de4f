import AuthSchema.Parse.Document
import AuthSchema.Proofs.Parse.Grammar
import AuthSchema.Proofs.Parse.Run

/-! Whatever a production reads has a derivation in the grammar, whose value is the one it gives. -/

namespace AuthSchema

/-- Every finished run took some tokens that stand for its value, and left the others. -/
def Production.Reads {α : Type} (production : Production α)
    (StandsFor : List Token → α → Prop) : Prop :=
  ∀ tokens value rest, production.run tokens = .done value rest →
    ∃ used, tokens = used ++ rest ∧ StandsFor used value

/-- Items one after another, each after a lead. -/
inductive Repeated {α β : Type} (lead : TokenKind → Option β)
    (StandsFor : List Token → α → Prop) : List Token → List (β × α) → Prop where
  /-- No item at all. -/
  | nil : Repeated lead StandsFor [] []
  /-- A lead and its item before others. -/
  | cons {sign : Token} {tag : β} {part later : List Token} {value : α} {more : List (β × α)}
      (leads : lead sign.kind = some tag) (item : StandsFor part value)
      (others : Repeated lead StandsFor later more) :
    Repeated lead StandsFor (sign :: (part ++ later)) ((tag, value) :: more)

/-- Repetition reads items one after another. -/
theorem Production.reads_many {α β : Type} {lead : TokenKind → Option β} {item : Production α}
    {StandsFor : List Token → α → Prop} (reads : item.Reads StandsFor) :
    (many lead item).Reads (Repeated lead StandsFor) := by
  intro tokens
  -- The induction follows the repetition, which goes on with what each item left.
  show ∀ value rest, readMany lead item tokens = .done value rest → _
  fun_induction readMany lead item tokens with
  | case1 =>
    intro value rest result
    cases result
    exact ⟨[], rfl, .nil⟩
  | case2 token ahead leads =>
    intro value rest result
    cases result
    exact ⟨[], rfl, .nil⟩
  | case3 token ahead tag leads first left ran ih =>
    intro value rest result
    obtain ⟨more, later, rfl⟩ := Outcome.map_eq_done_iff.mp result
    -- The item took its part, and the repetition took the others behind it.
    obtain ⟨part, rfl, item⟩ := reads _ _ _ ran
    obtain ⟨others, rfl, repeated⟩ := ih more rest later
    exact ⟨token :: (part ++ others), by simp, .cons leads item repeated⟩
  | case4 token ahead tag leads fault left ran =>
    -- A lead without its item is a failure, and not the end of the repetition.
    intro value rest result
    cases result

/-- What an expression is read as: the derived expression and the text it takes. -/
def Grammar.ExprTree.operand {rank : Grammar.Rank} (tree : Grammar.ExprTree rank) :
    Parse.Operand :=
  ⟨tree.expr, tree.extent⟩

namespace Parse

open Grammar Production

/-- Tokens and a value that are those of one derivation, which keeps to some limits. -/
def Derived {Tree α : Type} (leaves : Tree → List Token) (meaning : Tree → α)
    (Limits : Tree → Prop) (used : List Token) (value : α) : Prop :=
  ∃ tree, leaves tree = used ∧ meaning tree = value ∧ Limits tree

/-- Operands of one rank, in which at most some number of parentheses are nested. -/
def DerivesOperand (rank : Rank) (depth : Nat) : List Token → Operand → Prop :=
  Derived (fun tree : ExprTree rank => tree.tokens) ExprTree.operand (·.nesting ≤ depth)

/-- Paths without blanks, with where they are written. -/
def DerivesPath : List Token → String × Range → Prop :=
  Derived PathTree.tokens (fun tree => (tree.name, tree.range)) PathTree.Unspaced

/-- Types whose paths have no blanks. -/
def DerivesType : List Token → SubjectType → Prop :=
  Derived TypeTree.tokens TypeTree.subjectType (·.path.Unspaced)

/--
Operands joined by operators of one rank are grouped from the left.

The chain reads items of one kind, and stands for what a first item and joining make of them.
-/
theorem reads_chain {operator : TokenKind → Option Operator} {item : Production Operand}
    {Item Chain : List Token → Operand → Prop} (reads : item.Reads Item)
    (single : ∀ used value, Item used value → Chain used value)
    (join : ∀ before left sign tag part right, Chain before left →
      operator sign.kind = some tag → Item part right →
        Chain (before ++ sign :: part) (left.combine (tag, right))) :
    (chain operator item).Reads Chain := by
  -- Each further item joins all that was read before it.
  have grouped : ∀ {later more}, Repeated operator Item later more → ∀ before left,
      Chain before left → Chain (before ++ later) (more.foldl Operand.combine left) := by
    intro later more repeated
    induction repeated with
    | nil =>
      intro before left chained
      simpa using chained
    | cons leads item _ ih =>
      intro before left chained
      simpa using ih _ _ (join _ _ _ _ _ _ chained leads item)
  intro tokens value rest result
  -- The run of a chain is the run of its first item and that of the repetition behind it.
  simp only [chain, run_bind_eq_done_iff, run_pure, Outcome.done.injEq] at result
  obtain ⟨first, afterFirst, ranFirst, more, _, ranMore, rfl, rfl⟩ := result
  obtain ⟨used, rfl, item⟩ := reads _ _ _ ranFirst
  obtain ⟨later, rfl, repeated⟩ := reads_many reads _ _ _ ranMore
  exact ⟨used ++ later, by simp, grouped repeated used first (single used first item)⟩

/-- A name in an expression is one identifier. -/
theorem run_nameRef_eq_done {expected : Expectation} {tokens rest : List Token} {value : NameRef}
    (result : (nameRef expected).run tokens = .done value rest) :
    ∃ leaf : TokenOf .identifier, tokens = leaf.token :: rest ∧ ExprTree.nameRef leaf = value := by
  -- A production that takes one token and changes it finishes on that token alone.
  simp only [nameRef, run_bind_eq_done_iff, run_take_eq_done_iff, run_pure,
    Outcome.done.injEq] at result
  obtain ⟨token, _, ⟨rfl, isName⟩, rfl, rfl⟩ := result
  exact ⟨⟨token, isName⟩, rfl, rfl⟩

/-- A name or an arrow nests no parentheses, so that any depth allows it. -/
theorem reads_nameOrArrow (depth : Nat) : nameOrArrow.Reads (DerivesOperand .factor depth) := by
  intro tokens value rest result
  simp only [nameOrArrow, run_bind_eq_done_iff] at result
  obtain ⟨first, afterFirst, ranFirst, sign?, afterSign, tried, finished⟩ := result
  obtain ⟨left, rfl, rfl⟩ := run_nameRef_eq_done ranFirst
  rcases run_take?_eq_done_iff.mp tried with ⟨sign, rfl, rfl, isArrow⟩ | ⟨rfl, rfl, _⟩
  · -- An arrow sign is ahead, and a second name has to follow it.
    simp only [run_bind_eq_done_iff, run_pure, Outcome.done.injEq] at finished
    obtain ⟨second, afterSecond, ranSecond, rfl, rfl⟩ := finished
    obtain ⟨right, rfl, rfl⟩ := run_nameRef_eq_done ranSecond
    exact ⟨[left.token, sign, right.token], rfl, .arrow left ⟨sign, isArrow⟩ right, rfl, rfl,
      Nat.zero_le _⟩
  · -- Without the sign the name stands alone.
    simp only [run_pure, Outcome.done.injEq] at finished
    obtain ⟨rfl, rfl⟩ := finished
    exact ⟨[left.token], rfl, .name left, rfl, rfl, Nat.zero_le _⟩

/-- What may stand in parentheses when some depth is allowed: an expression one level less deep. -/
def ReadsNested (nested : Option (Production Operand)) (depth : Nat) : Prop :=
  ∀ inner, nested = some inner →
    ∃ below, depth = below + 1 ∧ inner.Reads (DerivesOperand .expression below)

/-- A factor of some depth has expressions of one level less in its parentheses. -/
theorem reads_factor {nested : Option (Production Operand)} {depth : Nat}
    (reads : ReadsNested nested depth) : (factor nested).Reads (DerivesOperand .factor depth) := by
  intro tokens value rest result
  simp only [factor, run_bind_eq_done_iff] at result
  obtain ⟨keyword?, afterKeyword, triedNil, finished⟩ := result
  rcases run_take?_eq_done_iff.mp triedNil with ⟨keyword, rfl, rfl, isNil⟩ | ⟨rfl, rfl, _⟩
  · -- The keyword is a factor by itself.
    simp only [run_pure, Outcome.done.injEq] at finished
    obtain ⟨rfl, rfl⟩ := finished
    exact ⟨[keyword], rfl, .nil ⟨keyword, isNil⟩, rfl, rfl, Nat.zero_le _⟩
  · simp only [run_bind_eq_done_iff] at finished
    obtain ⟨opening?, afterOpening, triedParen, inside⟩ := finished
    rcases run_take?_eq_done_iff.mp triedParen with ⟨opening, rfl, rfl, isOpening⟩ | ⟨rfl, rfl, _⟩
    · -- A parenthesis is only read where an inner production is still allowed.
      cases nested with
      | none => simp [parenthesized] at inside
      | some inner =>
        obtain ⟨below, rfl, readsInner⟩ := reads inner rfl
        simp only [parenthesized, takeSign, run_bind_eq_done_iff, run_take_eq_done_iff, run_pure,
          Outcome.done.injEq] at inside
        obtain ⟨operand, afterInner, ranInner, closing, _, ⟨rfl, isClosing⟩, rfl, rfl⟩ := inside
        obtain ⟨used, rfl, tree, rfl, rfl, shallow⟩ := readsInner _ _ _ ranInner
        refine ⟨opening :: (tree.tokens ++ [closing]), by simp,
          .parens ⟨opening, isOpening⟩ tree ⟨closing, isClosing⟩, rfl, rfl, ?_⟩
        exact Nat.succ_le_succ shallow
    · -- Neither the keyword nor a parenthesis is ahead, so that a name has to be.
      exact reads_nameOrArrow depth _ _ _ inside

/-- A term is factors joined by `&`. -/
theorem reads_term {nested : Option (Production Operand)} {depth : Nat}
    (reads : ReadsNested nested depth) : (term nested).Reads (DerivesOperand .term depth) := by
  refine reads_chain (reads_factor reads) ?_ ?_
  · -- A factor alone is a term.
    rintro used value ⟨tree, rfl, rfl, shallow⟩
    exact ⟨.factor tree, rfl, rfl, shallow⟩
  · rintro before left sign tag part right ⟨first, rfl, rfl, shallow⟩ leads
      ⟨second, rfl, rfl, shallowSecond⟩
    -- Only the ampersand joins factors.
    have isSign : sign.kind = .ampersand ∧ tag = .intersection := by
      unfold factorOperator at leads
      split at leads <;> simp_all
    obtain ⟨isSign, rfl⟩ := isSign
    exact ⟨.intersection first ⟨sign, isSign⟩ second, rfl, rfl,
      Nat.max_le.mpr ⟨shallow, shallowSecond⟩⟩

/-- Terms joined by `+` and `-` are an expression. -/
theorem reads_terms {nested : Option (Production Operand)} {depth : Nat}
    (reads : ReadsNested nested depth) :
    (chain termOperator (term nested)).Reads (DerivesOperand .expression depth) := by
  refine reads_chain (reads_term reads) ?_ ?_
  · -- A term alone is an expression.
    rintro used value ⟨tree, rfl, rfl, shallow⟩
    exact ⟨.term tree, rfl, rfl, shallow⟩
  · rintro before left sign tag part right ⟨first, rfl, rfl, shallow⟩ leads
      ⟨second, rfl, rfl, shallowSecond⟩
    -- The sign decides between the two operators of this rank.
    have isSign : (sign.kind = .plus ∧ tag = .union) ∨ (sign.kind = .minus ∧ tag = .exclusion) := by
      unfold termOperator at leads
      split at leads <;> simp_all
    rcases isSign with ⟨isSign, rfl⟩ | ⟨isSign, rfl⟩
    · exact ⟨.union first ⟨sign, isSign⟩ second, rfl, rfl, Nat.max_le.mpr ⟨shallow, shallowSecond⟩⟩
    · exact ⟨.exclusion first ⟨sign, isSign⟩ second, rfl, rfl,
        Nat.max_le.mpr ⟨shallow, shallowSecond⟩⟩

/-- An expression of some depth derives in the grammar with no deeper nesting. -/
theorem reads_expression (depth : Nat) :
    (expression depth).Reads (DerivesOperand .expression depth) := by
  -- Each level of parentheses uses up one level of depth.
  induction depth with
  | zero =>
    -- Without any depth left no parenthesis is read.
    refine reads_terms ?_
    intro inner impossible
    cases impossible
  | succ depth ih =>
    refine reads_terms ?_
    intro inner same
    cases same
    exact ⟨depth, rfl, ih⟩

/-- A path is one name, or two names that touch their slash. -/
theorem reads_path (expected : Expectation) : (path expected).Reads DerivesPath := by
  intro tokens value rest result
  simp only [path, run_bind_eq_done_iff, run_take_eq_done_iff] at result
  obtain ⟨first, _, ⟨rfl, isName⟩, slash?, afterSlash, tried, finished⟩ := result
  rcases run_take?_eq_done_iff.mp tried with ⟨slash, rfl, rfl, isSlash⟩ | ⟨rfl, rfl, _⟩
  · simp only [run_bind_eq_done_iff, run_take_eq_done_iff] at finished
    obtain ⟨second, _, ⟨rfl, isSecond⟩, finished⟩ := finished
    -- The production only finishes on tokens that stand side by side.
    split at finished
    · rename_i adjacent
      simp only [run_pure, Outcome.done.injEq] at finished
      obtain ⟨rfl, rfl⟩ := finished
      refine ⟨[first, slash, second], rfl,
        .pair ⟨first, isName⟩ ⟨slash, isSlash⟩ ⟨second, isSecond⟩, rfl, rfl, ?_⟩
      simpa [Token.isAdjacent, PathTree.Unspaced] using adjacent
    · simp at finished
  · -- Without a slash the first name is the whole path.
    simp only [run_pure, Outcome.done.injEq] at finished
    obtain ⟨rfl, rfl⟩ := finished
    exact ⟨[first], rfl, .single ⟨first, isName⟩, rfl, rfl, trivial⟩

/-- A type is a path with one of the three suffixes. -/
theorem reads_typeRef : typeRef.Reads DerivesType := by
  intro tokens value rest result
  simp only [typeRef, run_bind_eq_done_iff] at result
  obtain ⟨named, afterPath, ranPath, hash?, afterHash, triedHash, finished⟩ := result
  obtain ⟨used, rfl, tree, rfl, rfl, unspaced⟩ := reads_path _ _ _ _ ranPath
  rcases run_take?_eq_done_iff.mp triedHash with ⟨hash, rfl, rfl, isHash⟩ | ⟨rfl, rfl, _⟩
  · -- A hash is ahead, and a name has to follow it.
    simp only [run_bind_eq_done_iff, run_take_eq_done_iff, run_pure,
      Outcome.done.injEq] at finished
    obtain ⟨name, _, ⟨rfl, isName⟩, rfl, rfl⟩ := finished
    exact ⟨tree.tokens ++ [hash, name], by simp,
      ⟨tree, .relation ⟨hash, isHash⟩ ⟨name, isName⟩⟩, rfl, rfl, unspaced⟩
  · simp only [run_bind_eq_done_iff] at finished
    obtain ⟨colon?, afterColon, triedColon, finished⟩ := finished
    rcases run_take?_eq_done_iff.mp triedColon with ⟨colon, rfl, rfl, isColon⟩ | ⟨rfl, rfl, _⟩
    · -- A colon is ahead, and only a star may follow it here.
      simp only [run_bind_eq_done_iff, run_take_eq_done_iff, run_pure,
        Outcome.done.injEq] at finished
      obtain ⟨star, _, ⟨rfl, isStar⟩, rfl, rfl⟩ := finished
      exact ⟨tree.tokens ++ [colon, star], by simp,
        ⟨tree, .wildcard ⟨colon, isColon⟩ ⟨star, isStar⟩⟩, rfl, rfl, unspaced⟩
    · -- With neither sign ahead the path is the whole type.
      simp only [run_pure, Outcome.done.injEq] at finished
      obtain ⟨rfl, rfl⟩ := finished
      exact ⟨tree.tokens, rfl, ⟨tree, .none⟩, by simp [TypeTree.tokens, SuffixTree.tokens], rfl,
        unspaced⟩

/-- Types one after another, each after a bar, are the further types of a relation. -/
theorem furtherTypes_of_repeated {used : List Token} {items : List (Unit × SubjectType)}
    (repeated : Repeated typeSeparator DerivesType used items) :
    ∃ more : List (TokenOf .pipe × TypeTree),
      furtherTokens more = used ∧
        more.map (fun (_, type) => type.subjectType) = items.map Prod.snd ∧
          ∀ type ∈ more.map Prod.snd, type.path.Unspaced := by
  -- The induction follows the repetition, and each item gives one more bar and type.
  induction repeated with
  | nil => exact ⟨[], rfl, rfl, by simp⟩
  | @cons sign tag part later value items leads item others ih =>
    obtain ⟨tree, rfl, rfl, unspaced⟩ := item
    obtain ⟨more, rfl, values, limits⟩ := ih
    -- Only the bar leads to one more type.
    have isBar : sign.kind = .pipe := by
      unfold typeSeparator at leads
      split at leads <;> simp_all
    refine ⟨(⟨sign, isBar⟩, tree) :: more, by simp [furtherTokens], by simp [values], ?_⟩
    simpa [unspaced] using limits

/-- A relation after its keyword is a derivation that starts with the keyword. -/
theorem relation_sound {keyword : Token} (isKeyword : keyword.kind = .relation)
    {ahead rest : List Token} {value : Relation}
    (result : (relation keyword).run ahead = .done value rest) :
    ∃ tree : RelationTree, keyword :: ahead = tree.tokens ++ rest ∧ tree.relation = value ∧
      ∀ type ∈ tree.types, type.path.Unspaced := by
  -- The run is peeled apart token by token, up to the types.
  simp only [relation, takeSign, run_bind_eq_done_iff, run_take_eq_done_iff, run_pure,
    Outcome.done.injEq] at result
  obtain ⟨name, _, ⟨rfl, isName⟩, colon, _, ⟨rfl, isColon⟩, first, afterFirst, ranFirst,
    items, _, ranMore, rfl, rfl⟩ := result
  obtain ⟨_, rfl, firstTree, rfl, rfl, unspaced⟩ := reads_typeRef _ _ _ ranFirst
  obtain ⟨_, rfl, repeated⟩ := reads_many reads_typeRef _ _ _ ranMore
  obtain ⟨more, rfl, values, limits⟩ := furtherTypes_of_repeated repeated
  refine ⟨⟨⟨keyword, isKeyword⟩, ⟨name, isName⟩, ⟨colon, isColon⟩, firstTree, more⟩,
    by simp [RelationTree.tokens], ?_, ?_⟩
  · -- The last type is read off the values on one side and off the derivations on the other.
    have same : items.map Prod.snd = (more.map Prod.snd).map TypeTree.subjectType := by
      rw [← values, List.map_map]
      rfl
    simp only [RelationTree.relation, RelationTree.types, List.map_cons, same, List.getLastD_map]
  · simpa [RelationTree.types, unspaced] using limits

/-- A permission after its keyword is a derivation that starts with the keyword. -/
theorem permission_sound {keyword : Token} (isKeyword : keyword.kind = .permission)
    {ahead rest : List Token} {value : Permission}
    (result : (permission keyword).run ahead = .done value rest) :
    ∃ tree : PermissionTree, keyword :: ahead = tree.tokens ++ rest ∧ tree.permission = value ∧
      tree.expression.nesting ≤ 128 := by
  simp only [permission, takeSign, run_bind_eq_done_iff, run_take_eq_done_iff, run_pure,
    Outcome.done.injEq] at result
  obtain ⟨name, _, ⟨rfl, isName⟩, equals, _, ⟨rfl, isEquals⟩, operand, _, ran, rfl, rfl⟩ := result
  -- The expression has all the depth there is, which is the limit of the grammar.
  obtain ⟨_, rfl, tree, rfl, rfl, shallow⟩ := reads_expression _ _ _ _ ran
  exact ⟨⟨⟨keyword, isKeyword⟩, ⟨name, isName⟩, ⟨equals, isEquals⟩, tree⟩,
    by simp [PermissionTree.tokens], rfl, shallow⟩

/-- A member that is read is a derivation from its first token on. -/
theorem member_sound {first : Token} {ahead rest : List Token} {value : Member}
    (result : member first ahead = .done value rest) :
    ∃ tree : MemberTree, first :: ahead = tree.tokens ++ rest ∧ tree.member = value ∧
      tree.WithinLimits := by
  -- The keyword decides which of the two productions runs, and any other token fails.
  unfold member at result
  split at result
  · rename_i isKeyword
    obtain ⟨declared, ran, rfl⟩ := Outcome.map_eq_done_iff.mp result
    obtain ⟨tree, leaves, rfl, limits⟩ := relation_sound isKeyword ran
    exact ⟨.relation tree, leaves, rfl, limits⟩
  · rename_i isKeyword
    obtain ⟨declared, ran, rfl⟩ := Outcome.map_eq_done_iff.mp result
    obtain ⟨tree, leaves, rfl, limits⟩ := permission_sound isKeyword ran
    exact ⟨.permission tree, leaves, rfl, limits⟩
  · cases result

/-- The header that a derivation stands for. -/
def headerOf (tree : HeaderTree) : Header :=
  ⟨tree.path.name, tree.path.range,
    ⟨tree.keyword.token.range.start, tree.opening.token.range.stop⟩⟩

/-- A header and a body that are derived define what their derivation stands for. -/
theorem define_headerOf (tree : DefinitionTree) (errors : List SyntaxError) (rest : List Token) :
    (headerOf tree.header).define
        ⟨tree.members.map MemberTree.member, errors, tree.closing.token.range.stop, rest⟩ =
      tree.definition := by
  -- The two lists of members are split in the same way on both sides.
  rw [Header.define, ← MemberTree.filterMap_relation?, ← MemberTree.filterMap_permission?]
  rfl

/-- A header that is read is a derivation from its first token on. -/
theorem headerAt_sound {first : Token} {ahead rest : List Token} {value : Header}
    (result : headerAt first ahead = .done value rest) :
    ∃ tree : HeaderTree, first :: ahead = tree.tokens ++ rest ∧ headerOf tree = value ∧
      tree.path.Unspaced := by
  -- Any other first token fails at once.
  unfold headerAt at result
  split at result
  · rename_i isKeyword
    simp only [header, takeSign, run_bind_eq_done_iff, run_take_eq_done_iff, run_pure,
      Outcome.done.injEq] at result
    obtain ⟨named, _, ranPath, opening, _, ⟨rfl, isOpening⟩, rfl, rfl⟩ := result
    obtain ⟨_, rfl, tree, rfl, rfl, unspaced⟩ := reads_path _ _ _ _ ranPath
    exact ⟨⟨⟨first, isKeyword⟩, tree, ⟨opening, isOpening⟩⟩, by simp [HeaderTree.tokens], rfl,
      unspaced⟩
  · cases result

/-- A body without errors is members up to a closing brace. -/
theorem body_sound {textStop stop : Position} {room : Nat} {tokens : List Token}
    (roomy : 0 < room) (faultless : (body textStop room stop tokens).errors = []) :
    ∃ (members : List MemberTree) (closing : TokenOf .rightBrace) (rest : List Token),
      tokens = members.flatMap MemberTree.tokens ++ closing.token :: rest ∧
        body textStop room stop tokens =
          ⟨members.map MemberTree.member, [], closing.token.range.stop, rest⟩ ∧
        ∀ member ∈ members, member.WithinLimits := by
  -- Without an error, only members and the closing brace are left of the cases.
  fun_induction body textStop room stop tokens with
  | case1 => omega
  | case2 => simp [Body.withError] at faultless
  | case3 stop room token ahead isClosing =>
    exact ⟨[], ⟨token, isClosing⟩, ahead, rfl, rfl, by simp⟩
  | case4 => simp [Body.withError] at faultless
  | case5 stop room token ahead _ _ value rest result ih =>
    obtain ⟨tree, leaves, rfl, limits⟩ := member_sound result
    -- The later members come from the tokens that this one left.
    obtain ⟨members, closing, left, rfl, read, allLimits⟩ := ih (by omega) faultless
    refine ⟨tree :: members, closing, left, ?_, ?_, ?_⟩
    -- The leaves of the member come before those of the others.
    · rw [leaves, List.flatMap_cons, List.append_assoc]
    · rw [read]
      rfl
    · simpa [limits] using allLimits
  | case6 => simp [Body.withError] at faultless

/-- A document without errors is the definitions of a schema. -/
theorem document_sound {textStop : Position} {room : Nat} {tokens : List Token}
    (roomy : 0 < room) (faultless : (document textStop room tokens).errors = []) :
    ∃ tree : SchemaTree, tree.tokens = tokens ∧ tree.WithinLimits ∧
      tree.schema.definitions = (document textStop room tokens).definitions := by
  -- The induction follows the document, definition by definition.
  fun_induction document textStop room tokens with
  | case1 => omega
  | case2 => exact ⟨⟨[]⟩, rfl, by simp [SchemaTree.WithinLimits], rfl⟩
  | case3 room token ahead header rest result inner later ih =>
    -- No error in the body and none after it, so that the body leaves all the room it had.
    obtain ⟨noneInside, noneLater⟩ := List.append_eq_nil_iff.mp faultless
    obtain ⟨head, leaves, rfl, unspaced⟩ := headerAt_sound result
    obtain ⟨members, closing, left, rfl, read, limits⟩ := body_sound (by omega) noneInside
    obtain ⟨tree, tokens_eq, allLimits, definitions⟩ := ih (by simp [noneInside]) noneLater
    refine ⟨⟨⟨head, members, closing⟩ :: tree.definitions⟩, ?_, ?_, ?_⟩
    · have left_eq : inner.rest = left := congrArg Body.rest read
      rw [leaves, ← left_eq, ← tokens_eq]
      simp [SchemaTree.tokens, DefinitionTree.tokens]
    · intro definition declared
      rcases List.mem_cons.mp declared with rfl | declared
      · exact ⟨unspaced, limits⟩
      · exact allLimits definition declared
    · -- The body that was read gives the definition its members and its end.
      have inner_eq : inner = _ := read
      rw [inner_eq, define_headerOf ⟨head, members, closing⟩, ← definitions]
      rfl
  | case4 => simp at faultless

end Parse

end AuthSchema
