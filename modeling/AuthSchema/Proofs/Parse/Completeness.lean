import AuthSchema.Proofs.Parse.Soundness
import AuthSchema.Proofs.Parse.Step

/-! Every derivation of the grammar that keeps to the limits is read back from its tokens. -/

namespace AuthSchema.Parse

open Grammar Production

/-- Once the first item is read, a chain is what the repetition makes of it. -/
theorem run_chain_of_first {operator : TokenKind → Option Operator} {item : Production Operand}
    {tokens rest : List Token} {first : Operand} (reads : item.run tokens = .done first rest) :
    (chain operator item).run tokens =
      (readMany operator item rest).map (·.foldl Operand.combine first) := by
  -- What is done with the items of a repetition is the same whether it finishes or fails.
  simp only [chain, run_bind, reads, run_many]
  cases readMany operator item rest <;> rfl

/-- A chain that has come to an operator and an item after it has joined the two. -/
theorem readMany_foldl_of_lead {operator : TokenKind → Option Operator}
    {item : Production Operand} {sign : Token} {tag : Operator} {tokens rest : List Token}
    {left right : Operand} (leads : operator sign.kind = some tag)
    (reads : item.run tokens = .done right rest) :
    (readMany operator item (sign :: tokens)).map (·.foldl Operand.combine left) =
      (readMany operator item rest).map (·.foldl Operand.combine (left.combine (tag, right))) := by
  -- Folding takes the first item of the list at once, and so the two sides agree.
  rw [readMany_of_lead leads reads]
  cases readMany operator item rest <;> rfl

/-- What may stand in the parentheses of an expression of some depth. -/
def nestedAt : Nat → Option (Production Operand)
  | 0 => none
  | depth + 1 => some (expression depth)

/-- An expression is terms joined by `+` and `-`, at every depth. -/
theorem expression_eq (depth : Nat) :
    expression depth = chain termOperator (term (nestedAt depth)) := by
  cases depth <;> rfl

/--
A derivation is read back from its tokens, where the tokens after them do not extend it.

A term or an expression that is followed by operators of its own rank goes on with these.
-/
def ReadBack (depth : Nat) : (rank : Rank) → ExprTree rank → Prop
  | .factor, tree => ∀ rest, nextKind rest ≠ some .arrow →
    (factor (nestedAt depth)).run (tree.tokens ++ rest) = .done tree.operand rest
  | .term, tree => ∀ rest, nextKind rest ≠ some .arrow →
    (term (nestedAt depth)).run (tree.tokens ++ rest) =
      (readMany factorOperator (factor (nestedAt depth)) rest).map
        (·.foldl Operand.combine tree.operand)
  | .expression, tree => ∀ rest, nextKind rest ≠ some .arrow →
    nextKind rest ≠ some .ampersand →
      (expression depth).run (tree.tokens ++ rest) =
        (readMany termOperator (term (nestedAt depth)) rest).map
          (·.foldl Operand.combine tree.operand)

/-- A term ends where no ampersand is ahead. -/
theorem ReadBack.term_run {depth : Nat} {tree : ExprTree .term} (back : ReadBack depth .term tree)
    {rest : List Token} (noArrow : nextKind rest ≠ some .arrow)
    (noAmpersand : nextKind rest ≠ some .ampersand) :
    (term (nestedAt depth)).run (tree.tokens ++ rest) = .done tree.operand rest := by
  -- The operand is done as soon as the repetition has no lead.
  rw [back rest noArrow, readMany_of_no_lead]
  · rfl
  · -- Only an ampersand would go on with the term.
    intro kind ahead
    unfold factorOperator
    split
    · exact absurd ahead noAmpersand
    · rfl

/-- An expression ends where no operator is ahead. -/
theorem ReadBack.expression_run {depth : Nat} {tree : ExprTree .expression}
    (back : ReadBack depth .expression tree) {rest : List Token}
    (noArrow : nextKind rest ≠ some .arrow) (noAmpersand : nextKind rest ≠ some .ampersand)
    (noPlus : nextKind rest ≠ some .plus) (noMinus : nextKind rest ≠ some .minus) :
    (expression depth).run (tree.tokens ++ rest) = .done tree.operand rest := by
  rw [back rest noArrow noAmpersand, readMany_of_no_lead]
  · rfl
  · -- Only a plus or a minus sign would go on with the expression.
    intro kind ahead
    unfold termOperator
    split
    · exact absurd ahead noPlus
    · exact absurd ahead noMinus
    · rfl

/-- One more term after an operator extends an expression that is read back. -/
theorem ReadBack.join_terms {depth : Nat} {left : ExprTree .expression} {right : ExprTree .term}
    (leftBack : ReadBack depth .expression left) (rightBack : ReadBack depth .term right)
    {sign : Token} {tag : Operator} (leads : termOperator sign.kind = some tag)
    {rest : List Token} (noArrow : nextKind rest ≠ some .arrow)
    (noAmpersand : nextKind rest ≠ some .ampersand) :
    (expression depth).run (left.tokens ++ sign :: (right.tokens ++ rest)) =
      (readMany termOperator (term (nestedAt depth)) rest).map
        (·.foldl Operand.combine (left.operand.combine (tag, right.operand))) := by
  -- The sign is an operator, so it is neither an arrow nor an ampersand.
  rw [leftBack, readMany_foldl_of_lead leads (rightBack.term_run noArrow noAmpersand)]
  · rintro same
    simp [Option.some.inj same, termOperator] at leads
  · rintro same
    simp [Option.some.inj same, termOperator] at leads

/-- Every derivation is read back at any depth that its nesting does not exceed. -/
theorem readBack {rank : Rank} (tree : ExprTree rank) :
    ∀ depth, tree.nesting ≤ depth → ReadBack depth rank tree := by
  -- The induction is on the derivation, and the depth only changes at parentheses.
  induction tree with
  | term only ih =>
    -- A term alone is the first item of its expression, and the repetition goes on behind it.
    intro depth shallow rest noArrow noAmpersand
    rw [expression_eq]
    exact run_chain_of_first ((ih depth shallow).term_run noArrow noAmpersand)
  | union left sign right ihLeft ihRight =>
    intro depth shallow rest noArrow noAmpersand
    obtain ⟨shallowLeft, shallowRight⟩ := Nat.max_le.mp shallow
    -- The operator is the only thing in which this case and the next one differ.
    have leads : termOperator sign.token.kind = some .union := by simp [termOperator]
    rw [ExprTree.tokens, List.append_assoc, List.cons_append]
    exact (ihLeft depth shallowLeft).join_terms (ihRight depth shallowRight) leads noArrow
      noAmpersand
  | exclusion left sign right ihLeft ihRight =>
    intro depth shallow rest noArrow noAmpersand
    obtain ⟨shallowLeft, shallowRight⟩ := Nat.max_le.mp shallow
    have leads : termOperator sign.token.kind = some .exclusion := by simp [termOperator]
    rw [ExprTree.tokens, List.append_assoc, List.cons_append]
    exact (ihLeft depth shallowLeft).join_terms (ihRight depth shallowRight) leads noArrow
      noAmpersand
  | factor only ih =>
    -- A factor alone is the first item of its term, and the repetition goes on behind it.
    intro depth shallow rest noArrow
    exact run_chain_of_first (ih depth shallow rest noArrow)
  | intersection left sign right ihLeft ihRight =>
    intro depth shallow rest noArrow
    obtain ⟨shallowLeft, shallowRight⟩ := Nat.max_le.mp shallow
    have leads : factorOperator sign.token.kind = some .intersection := by simp [factorOperator]
    -- The left side goes on with the ampersand, after which the right side is read.
    have joined := ihLeft depth shallowLeft (sign.token :: (right.tokens ++ rest)) (by simp)
    rw [readMany_foldl_of_lead leads (ihRight depth shallowRight rest noArrow)] at joined
    rw [ExprTree.tokens, List.append_assoc, List.cons_append]
    exact joined
  | name only =>
    intro depth _ rest noArrow
    -- No arrow sign is ahead, so that the name is all that is taken.
    simp [ExprTree.tokens, factor, nameOrArrow, nameRef, run_bind, run_take?_of_ne,
      run_take_of_kind, noArrow, ExprTree.operand, ExprTree.expr, ExprTree.extent,
      ExprTree.nameRef]
  | arrow left sign right =>
    intro depth _ rest noArrow
    -- The sign is ahead, and the second name is taken behind it.
    simp [ExprTree.tokens, factor, nameOrArrow, nameRef, run_bind, run_take?_of_ne,
      run_take?_of_kind, run_take_of_kind, ExprTree.operand, ExprTree.expr, ExprTree.extent,
      ExprTree.nameRef]
  | nil keyword =>
    intro depth _ rest noArrow
    -- The keyword is tried first, and needs nothing of what follows.
    simp [ExprTree.tokens, factor, run_bind, run_take?_of_kind, ExprTree.operand, ExprTree.expr,
      ExprTree.extent]
  | parens opening inner closing ih =>
    intro depth shallow rest noArrow
    -- The parentheses use up one level, and the closing one ends the expression inside.
    obtain ⟨below, rfl⟩ : ∃ below, depth = below + 1 :=
      ⟨depth - 1, by simp only [ExprTree.nesting] at shallow; omega⟩
    have inside : (expression below).run (inner.tokens ++ closing.token :: rest) =
        .done inner.operand (closing.token :: rest) :=
      (ih below (Nat.le_of_succ_le_succ shallow)).expression_run (by simp) (by simp) (by simp)
        (by simp)
    simp [ExprTree.tokens, factor, parenthesized, nestedAt, takeSign, run_bind, run_take?_of_ne,
      run_take?_of_kind, run_take_of_kind, inside, ExprTree.operand, ExprTree.expr,
      ExprTree.extent]

/-- A token at which a member ends is ahead, or none at all. -/
def MemberEndsAt (tokens : List Token) : Prop :=
  ∀ kind, nextKind tokens = some kind → endsMember kind = true

/-- Where a member ends, no token that could go on with it is ahead. -/
theorem MemberEndsAt.nextKind_ne {tokens : List Token} (ends : MemberEndsAt tokens)
    {kind : TokenKind} (inner : endsMember kind = false) : nextKind tokens ≠ some kind := by
  -- A kind that ends a member is not an inner one.
  intro ahead
  simp [ends kind ahead] at inner

/-- An unspaced path is read back, where no slash is ahead. -/
theorem path_complete (expected : Expectation) {tree : PathTree} (unspaced : tree.Unspaced)
    {rest : List Token} (noSlash : nextKind rest ≠ some .slash) :
    (path expected).run (tree.tokens ++ rest) = .done (tree.name, tree.range) rest := by
  -- The name alone ends where no slash is ahead, and the pair ends with its second name.
  cases tree with
  | single name =>
    simp [PathTree.tokens, path, run_bind, run_take_of_kind, run_take?_of_ne, noSlash,
      PathTree.name, PathTree.range]
  | pair first slash second =>
    -- The production compares the offsets that the derivation says are the same.
    obtain ⟨before, after⟩ := unspaced
    simp [PathTree.tokens, path, run_bind, run_take_of_kind, run_take?_of_kind,
      Token.isAdjacent, before, after, PathTree.name, PathTree.range, joinPath]

/-- A type is read back, where nothing that extends it is ahead. -/
theorem typeRef_complete {tree : TypeTree} (unspaced : tree.path.Unspaced) {rest : List Token}
    (noSlash : nextKind rest ≠ some .slash) (noHash : nextKind rest ≠ some .hash)
    (noColon : nextKind rest ≠ some .colon) :
    typeRef.run (tree.tokens ++ rest) = .done tree.subjectType rest := by
  obtain ⟨named, suffix⟩ := tree
  cases suffix with
  | none =>
    -- Neither sign of a suffix is ahead, so that the path is all there is.
    simp [TypeTree.tokens, SuffixTree.tokens, typeRef, run_bind,
      path_complete .typeName unspaced noSlash, run_take?_of_ne, noHash, noColon,
      TypeTree.subjectType]
  | relation hash name =>
    -- The hash ends the path, since it is no slash.
    have read : (path .typeName).run (named.tokens ++ hash.token :: name.token :: rest) = _ :=
      path_complete .typeName unspaced (by simp)
    simp [TypeTree.tokens, SuffixTree.tokens, typeRef, run_bind, read, run_take?_of_kind,
      run_take_of_kind, TypeTree.subjectType]
  | wildcard colon star =>
    -- The colon ends the path, since it is no slash either.
    have read : (path .typeName).run (named.tokens ++ colon.token :: star.token :: rest) = _ :=
      path_complete .typeName unspaced (by simp)
    simp [TypeTree.tokens, SuffixTree.tokens, typeRef, run_bind, read, run_take?_of_ne,
      run_take?_of_kind, run_take_of_kind, TypeTree.subjectType]

/-- After a type comes a bar or the end of the relation, and neither extends the type. -/
theorem furtherTypes_nextKind_ne (more : List (TokenOf .pipe × TypeTree)) {rest : List Token}
    (ends : MemberEndsAt rest) {kind : TokenKind} (noBar : kind ≠ .pipe)
    (inner : endsMember kind = false) : nextKind (furtherTokens more ++ rest) ≠ some kind := by
  -- The first token behind the type decides, which is a bar where there are more types.
  cases more with
  | nil => exact ends.nextKind_ne inner
  | cons item _ =>
    intro ahead
    exact noBar (by simpa [furtherTokens] using ahead.symm)

/-- A type among those of a relation is read back. -/
theorem typeRef_complete_before {tree : TypeTree} (unspaced : tree.path.Unspaced)
    (more : List (TokenOf .pipe × TypeTree)) {rest : List Token} (ends : MemberEndsAt rest) :
    typeRef.run (tree.tokens ++ (furtherTokens more ++ rest)) =
      .done tree.subjectType (furtherTokens more ++ rest) :=
  typeRef_complete unspaced (furtherTypes_nextKind_ne more ends (by decide) rfl)
    (furtherTypes_nextKind_ne more ends (by decide) rfl)
    (furtherTypes_nextKind_ne more ends (by decide) rfl)

/-- The further types of a relation are read back up to where the relation ends. -/
theorem furtherTypes_complete (more : List (TokenOf .pipe × TypeTree))
    (unspaced : ∀ type ∈ more.map Prod.snd, type.path.Unspaced) {rest : List Token}
    (ends : MemberEndsAt rest) :
    readMany typeSeparator typeRef (furtherTokens more ++ rest) =
      .done (more.map fun (_, type) => ((), type.subjectType)) rest := by
  induction more with
  | nil =>
    -- Only a bar would lead to one more type.
    refine readMany_of_no_lead ?_
    intro kind ahead
    unfold typeSeparator
    split
    · exact absurd ahead (ends.nextKind_ne rfl)
    · rfl
  | cons item more ih =>
    -- The bar leads to the type, which ends at the next bar or at the end of the relation.
    obtain ⟨bar, type⟩ := item
    have later := ih fun type listed => unspaced type (List.mem_cons_of_mem _ listed)
    have read := typeRef_complete_before (unspaced type (by simp)) more ends
    have tokens_eq : furtherTokens ((bar, type) :: more) ++ rest =
        bar.token :: (type.tokens ++ (furtherTokens more ++ rest)) := by
      simp [furtherTokens]
    have leads : typeSeparator bar.token.kind = some () := by simp [typeSeparator]
    rw [tokens_eq, readMany_of_lead leads read, later]
    rfl

/-- A relation is read back after its keyword. -/
theorem relation_complete {tree : RelationTree}
    (unspaced : ∀ type ∈ tree.types, type.path.Unspaced) {rest : List Token}
    (ends : MemberEndsAt rest) :
    (relation tree.keyword.token).run (tree.tokens.tail ++ rest) = .done tree.relation rest := by
  obtain ⟨keyword, name, colon, first, more⟩ := tree
  have read := typeRef_complete_before (unspaced first (by simp [RelationTree.types])) more ends
  have others := furtherTypes_complete more
    (fun type listed => unspaced type (List.mem_cons_of_mem _ listed)) ends
  -- The values of the further types are those of their derivations.
  have values : (more.map fun (_, type) => ((), type.subjectType)).map Prod.snd =
      (more.map Prod.snd).map TypeTree.subjectType := by
    simp [Function.comp_def]
  -- What the run takes is the keyword's tail, token by token, and then the types.
  simp only [RelationTree.tokens, List.tail_cons, List.cons_append, List.append_assoc, relation,
    takeSign, run_bind, TokenOf.kind_token, run_take_of_kind, read, run_many, others, run_pure,
    values, List.getLastD_map]
  rfl

/-- A permission is read back after its keyword. -/
theorem permission_complete {tree : PermissionTree} (shallow : tree.expression.nesting ≤ 128)
    {rest : List Token} (ends : MemberEndsAt rest) :
    (permission tree.keyword.token).run (tree.tokens.tail ++ rest) =
      .done tree.permission rest := by
  -- No operator is ahead where a member ends.
  have read := (readBack tree.expression maxNesting shallow).expression_run
    (ends.nextKind_ne rfl) (ends.nextKind_ne rfl) (ends.nextKind_ne rfl) (ends.nextKind_ne rfl)
  simp [PermissionTree.tokens, permission, takeSign, run_bind, run_take_of_kind, read,
    PermissionTree.permission, ExprTree.operand]

/-- A member is read back from its keyword on. -/
theorem member_complete {tree : MemberTree} (limits : tree.WithinLimits) {rest : List Token}
    (ends : MemberEndsAt rest) :
    member tree.keyword (tree.tokens.tail ++ rest) = .done tree.member rest := by
  -- The keyword decides the production, and what it reads is wrapped as a member.
  cases tree with
  | relation tree =>
    simp [member, MemberTree.keyword, MemberTree.tokens, relation_complete limits ends,
      Outcome.map, MemberTree.member]
  | permission tree =>
    simp [member, MemberTree.keyword, MemberTree.tokens, permission_complete limits ends,
      Outcome.map, MemberTree.member]

/-- A header is read back from its keyword on. -/
theorem headerAt_complete {tree : HeaderTree} (unspaced : tree.path.Unspaced)
    (rest : List Token) :
    headerAt tree.keyword.token (tree.tokens.tail ++ rest) = .done (headerOf tree) rest := by
  -- The opening brace ends the path.
  have read : (path .definitionName).run (tree.path.tokens ++ tree.opening.token :: rest) = _ :=
    path_complete .definitionName unspaced (by simp)
  simp [headerAt, HeaderTree.tokens, header, takeSign, run_bind, read, run_take_of_kind, headerOf]

/-- Members up to a closing brace are read back without an error. -/
theorem body_complete {members : List MemberTree}
    (limits : ∀ member ∈ members, member.WithinLimits) (closing : TokenOf .rightBrace)
    (rest : List Token) (textStop : Position) {room : Nat} (roomy : 0 < room) (stop : Position) :
    body textStop room stop (members.flatMap MemberTree.tokens ++ closing.token :: rest) =
      ⟨members.map MemberTree.member, [], closing.token.range.stop, rest⟩ := by
  -- The stop is general, since each member that is read moves it.
  induction members generalizing stop with
  | nil => exact body_of_close roomy closing.kind_eq
  | cons tree members ih =>
    have later := ih (fun member listed => limits member (List.mem_cons_of_mem _ listed))
    -- The keyword of the next member, or the brace, ends this one.
    have ends : MemberEndsAt (members.flatMap MemberTree.tokens ++ closing.token :: rest) := by
      intro kind ahead
      cases members with
      | nil =>
        obtain rfl : TokenKind.rightBrace = kind := by simpa using ahead
        rfl
      | cons next _ =>
        rw [List.flatMap_cons, next.tokens_eq_cons] at ahead
        obtain rfl : next.keyword.kind = kind := by simpa using ahead
        rcases next.keyword_kind with same | same <;> rw [same] <;> rfl
    rw [List.flatMap_cons, tree.tokens_eq_cons, List.append_assoc, List.cons_append,
      body_of_member roomy (member_complete (limits tree (by simp)) ends), later]
    rfl

/-- The definitions of a schema are read back without an error. -/
theorem document_complete {definitions : List DefinitionTree}
    (limits : ∀ tree ∈ definitions, tree.WithinLimits) (textStop : Position) {room : Nat}
    (roomy : 0 < room) :
    document textStop room (definitions.flatMap DefinitionTree.tokens) =
      ⟨definitions.map DefinitionTree.definition, []⟩ := by
  -- One definition at a time, with those behind it as the rest of its body.
  induction definitions with
  | nil => exact document_nil
  | cons tree definitions ih =>
    obtain ⟨unspaced, memberLimits⟩ := limits tree (by simp)
    -- The body has no error, so that the later definitions have all the room.
    have later := ih (fun tree listed => limits tree (List.mem_cons_of_mem _ listed))
    have head := headerAt_complete unspaced (tree.members.flatMap MemberTree.tokens ++
      tree.closing.token :: definitions.flatMap DefinitionTree.tokens)
    have inside := body_complete memberLimits tree.closing
      (definitions.flatMap DefinitionTree.tokens) textStop roomy (headerOf tree.header).range.stop
    have tokens_eq : (tree :: definitions).flatMap DefinitionTree.tokens =
        tree.header.keyword.token :: (tree.header.tokens.tail ++
          (tree.members.flatMap MemberTree.tokens ++
            tree.closing.token :: definitions.flatMap DefinitionTree.tokens)) := by
      simp [DefinitionTree.tokens, HeaderTree.tokens]
    rw [tokens_eq, document_of_header roomy head inside, define_headerOf tree]
    simp only [List.length_nil, Nat.sub_zero, later]
    rfl

end AuthSchema.Parse
