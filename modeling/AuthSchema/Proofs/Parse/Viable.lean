import AuthSchema.Proofs.Parse.Accept
import AuthSchema.Proofs.Parse.Phrases
import AuthSchema.Proofs.Parse.Step

/-!
The first error stands at the earliest token at which it can be told that the text is no schema.

* Up to an unexpected token, the text could still go on to a schema, and with it no more.
* Where the text ends too early, it could go on to a schema, but is none.
* Text up to a spaced path or a parenthesis nested too deeply could still go on to a schema.
-/

namespace AuthSchema.Parse

open Production Grammar Computability

section Path

variable {later : Language TokenKind} {word : List TokenKind}

/-- Behind a name comes what follows the path, or else a slash and another name. -/
theorem identifier_cons_mem_paths_mul (among : .identifier :: word ∈ paths * later) :
    word ∈ single {.slash} * (single {.identifier} * later) ∨ word ∈ later := by
  -- The choice behind the first name is told apart once the languages are multiplied out.
  rw [paths_eq, mul_assoc, add_mul, one_mul, mul_assoc, cons_mem_single_mul] at among
  exact (Language.mem_add _ _ _).mp among.2

/-- Behind a name and a slash comes another name, where what follows does not start with a slash. -/
theorem identifier_slash_cons_mem_paths_mul (avoids : Avoids later {.slash})
    (among : .identifier :: .slash :: word ∈ paths * later) :
    word ∈ single {.identifier} * later := by
  have slashed := (identifier_cons_mem_paths_mul among).resolve_right (avoids .slash rfl word)
  exact (cons_mem_single_mul.mp slashed).2

/-- A path goes on with a slash only, and fails behind both of its names where it is spaced. -/
theorem recognizes_path (expected : Expectation) (depth : Nat) :
    (path expected).Recognizes paths {.slash} depth := by
  intro tokens
  -- The tokens are asked for one by one, and each that is missing ends the path.
  by_cases named : nextKind tokens = some .identifier
  swap
  · rw [run_path_of_ne named]
    have phrase : [.identifier] ∈ paths := ⟨.single (leaf _), rfl⟩
    refine .refuse phrase ?_
    intro later _ word starts
    -- Every path starts with a name, whatever follows it.
    rw [paths_eq, mul_assoc]
    exact starts.notMem_single_mul (by simpa using named) _
  obtain ⟨first, rest, rfl, isName⟩ := nextKind_eq_some_iff.mp named
  by_cases slashed : nextKind rest = some .slash
  swap
  · -- Without a slash the name is all there is.
    rw [run_path_single isName slashed]
    have split : first :: rest = [first] ++ rest := rfl
    have kinds : kindsOf [first] = [.identifier] := by simp [isName]
    refine .done split (kinds ▸ ⟨.single (leaf _), rfl⟩) ?_
    intro later _ word starts among
    rw [kinds] at among
    refine (identifier_cons_mem_paths_mul among).resolve_left ?_
    exact starts.notMem_single_mul (by simpa using slashed) _
  obtain ⟨slash, rest, rfl, isSlash⟩ := nextKind_eq_some_iff.mp slashed
  have pair : [.identifier, .slash, .identifier] ∈ paths := ⟨.pair (leaf _) (leaf _) (leaf _), rfl⟩
  by_cases paired : nextKind rest = some .identifier
  swap
  · -- The slash can only be that of the path, since what follows a path does not start with one.
    rw [run_path_open isName isSlash paired]
    have split : first :: slash :: rest = [first, slash] ++ rest := rfl
    have kinds : kindsOf [first, slash] = [.identifier, .slash] := by simp [isName, isSlash]
    refine .failed split ⟨[.identifier], kinds ▸ pair⟩ ?_ trivial
    intro what _ later avoids word starts among
    rw [kinds] at among
    exact starts.notMem_single_mul (by simpa using paired) _
      (identifier_slash_cons_mem_paths_mul avoids among)
  obtain ⟨second, rest, rfl, isSecond⟩ := nextKind_eq_some_iff.mp paired
  rw [run_path_pair isName isSlash isSecond]
  have split : first :: slash :: second :: rest = [first, slash, second] ++ rest := rfl
  have kinds : kindsOf [first, slash, second] = [.identifier, .slash, .identifier] := by
    simp [isName, isSlash, isSecond]
  split
  · -- What follows a whole path is all that is left of the word.
    refine .done split (kinds ▸ pair) ?_
    intro later avoids word _ among
    rw [kinds] at among
    exact (cons_mem_single_mul.mp (identifier_slash_cons_mem_paths_mul avoids among)).2
  · -- Blanks around the slash make no difference to the kinds.
    rename_i spaced
    refine .failed split ⟨[], by simpa [kinds] using pair⟩ (by simp) ?_
    exact ⟨[], slash, rfl, isName, isSlash, isSecond, by simpa using spaced⟩

end Path

/-- A type goes on with all that its path goes on with, and with either of its two suffixes. -/
theorem recognizes_typeRef (depth : Nat) :
    typeRef.Recognizes types {.slash, .hash, .colon} depth := by
  rw [types_eq, typeRef]
  have nothing : ([] : List TokenKind) ∈
      single {.hash} * single {.identifier} + (single {.colon} * single {.star} + 1) :=
    .inr (.inr rfl)
  refine recognizes_bind (recognizes_path _ depth) ?_ balanced_paths nothing ?_
    (Set.Subset.refl _)
  · rintro ⟨name, pathRange⟩
    -- The hash is tried first and the colon second, and neither has to be there.
    refine recognizes_choice (by simp) ?_ ?_ ?_ (by simp)
    · intro hash
      exact recognizes_map _ (recognizes_take _ _)
    · refine recognizes_choice (by simp) ?_ (recognizes_pure _) avoids_one (by simp)
      intro colon
      exact recognizes_map _ (recognizes_take _ _)
    · exact (avoids_single_mul (by simp)).add avoids_one
  · -- No suffix starts with a slash, nor does what follows a type without one.
    intro later avoids
    refine Avoids.mul ?_ (avoids.mono (by simp))
    exact (avoids_single_mul (by simp)).add ((avoids_single_mul (by simp)).add avoids_one)

/-- Only a bar leads to one more type. -/
@[simp] theorem leadsOf_typeSeparator : leadsOf typeSeparator = {.pipe} := by
  -- There are only so many kinds, and each is decided by evaluation.
  ext kind
  cases kind <;> simp [leadsOf, typeSeparator]

/-- Only an ampersand leads to one more factor. -/
@[simp] theorem leadsOf_factorOperator : leadsOf factorOperator = {.ampersand} := by
  ext kind
  cases kind <;> simp [leadsOf, factorOperator]

/-- Only a plus or a minus sign leads to one more term. -/
@[simp] theorem leadsOf_termOperator : leadsOf termOperator = {.plus, .minus} := by
  ext kind
  cases kind <;> simp [leadsOf, termOperator]

/-- A relation goes on with all that a type goes on with, and with one more type behind a bar. -/
theorem recognizes_relation (keyword : Token) (depth : Nat) :
    (relation keyword).Recognizes
      (single {.identifier} * (single {.colon} * (types * (single {.pipe} * types)∗)))
      {.slash, .hash, .colon, .pipe} depth := by
  rw [relation, ← leadsOf_typeSeparator]
  refine recognizes_take_bind (by simp) fun name => ?_
  refine recognizes_take_bind (by simp) fun colon => ?_
  -- The bar is none of the signs that go on with a type, so that it is always a separator.
  exact recognizes_separated (recognizes_typeRef depth) balanced_types (by simp) (by simp)
    (by simp [Set.insert_subset_iff]) (by simp)

/-- The signs that go on with an expression of a rank. -/
def signs : Rank → Set TokenKind
  | .factor => {.arrow}
  | .term => {.arrow, .ampersand}
  | .expression => {.arrow, .ampersand, .plus, .minus}

/-- A name goes on with an arrow only. -/
theorem recognizes_nameOrArrow (depth : Nat) :
    nameOrArrow.Recognizes (single {.identifier} * (single {.arrow} * single {.identifier} + 1))
      (signs .factor) depth := by
  have name : ∀ (goesOn : Set TokenKind) (expected : Expectation),
      (nameRef expected).Recognizes (single {.identifier}) goesOn depth :=
    fun goesOn expected => recognizes_map _ (recognizes_take .identifier expected)
  have nothing : ([] : List TokenKind) ∈ single {.arrow} * single {.identifier} + 1 := .inr rfl
  rw [nameOrArrow]
  -- The name may be followed by anything, since the arrow is asked for behind it.
  refine recognizes_bind (name ∅ .operand) (fun left => ?_) (balanced_single (by simp)) nothing
    (fun _ _ => avoids_empty) (Set.Subset.refl _)
  refine recognizes_choice (by simp) (fun arrow => ?_) (recognizes_pure _) avoids_one ?_
  · exact recognizes_map _ (name _ .operandAfterArrow)
  · exact fun _ => rfl

/-- A parenthesis for which there is no more room is where the failure stands. -/
theorem follows_parenthesized_none {opening : Token} (isOpening : opening.kind = .leftParen)
    (goesOn : Set TokenKind) (ahead : List Token) :
    ((parenthesized none opening).run ahead).Follows
      (single {.leftParen} * (operands .expression * single {.rightParen})) goesOn 1
      (opening :: ahead) := by
  have split : opening :: ahead = [opening] ++ ahead := rfl
  have kinds : kindsOf [opening] = [.leftParen] := by simp [isOpening]
  have inner : [.nil] ∈ operands .expression := ⟨.term (.factor (.nil (leaf _))), rfl⟩
  -- The parenthesis itself is taken, and could still be closed behind any expression.
  refine .failed split ⟨[.nil, .rightParen], ?_⟩ (by simp) ?_
  · rw [kinds, List.singleton_append, cons_mem_single_mul]
    exact ⟨rfl, Language.append_mem_mul inner ⟨.rightParen, rfl, rfl⟩⟩
  · exact ⟨⟨[], rfl⟩, isOpening, by simp [kinds]⟩

/-- Inside a parenthesis, one more is open. -/
theorem follows_parenthesized_some {expression : Production Operand} {depth : Nat}
    (recognizes : expression.Recognizes (operands .expression) (signs .expression) depth)
    {opening : Token} (isOpening : opening.kind = .leftParen) (goesOn : Set TokenKind)
    (ahead : List Token) :
    ((parenthesized (some expression) opening).run ahead).Follows
      (single {.leftParen} * (operands .expression * single {.rightParen})) goesOn (depth + 1)
      (opening :: ahead) := by
  have inside : (parenthesized (some expression) opening).Recognizes
      (operands .expression * single {.rightParen}) goesOn depth := by
    have closing : [.rightParen] ∈ single {.rightParen} := ⟨.rightParen, rfl, rfl⟩
    refine recognizes_bind recognizes (fun inner => ?_) (balanced_operands _) closing ?_
      (Set.Subset.refl _)
    · exact recognizes_map _ (recognizes_take _ _)
    · intro later _
      exact avoids_single_mul (by simp [signs])
  -- The parenthesis is open in all that follows it, up to the one that closes it.
  have opens : [opening.kind].count .leftParen + depth =
      [opening.kind].count .rightParen + (depth + 1) := by
    simp [isOpening, Nat.add_comm]
  exact (inside ahead).lead isOpening opens

/-- The token ahead tells which factor comes, and so rules out all others. -/
theorem recognizes_factor {nested : Option (Production Operand)} {depth : Nat}
    (inside : ∀ opening ahead, opening.kind = .leftParen →
      ((parenthesized nested opening).run ahead).Follows
        (single {.leftParen} * (operands .expression * single {.rightParen})) (signs .factor) depth
        (opening :: ahead)) :
    (factor nested).Recognizes (operands .factor) (signs .factor) depth := by
  rw [factors_eq, factor]
  refine recognizes_choice (by simp) (fun keyword => recognizes_pure _) ?_ ?_ ?_
  -- What stands in parentheses is followed from the parenthesis on, where a failure may stand.
  · refine recognizes_branch inside (recognizes_nameOrArrow depth) (avoids_single_mul (by simp)) ?_
    exact fun empty => absurd empty nil_notMem_single_mul
  · exact (avoids_single_mul (by simp)).add (avoids_single_mul (by simp))
  · rintro (empty | empty)
    · exact absurd empty nil_notMem_single_mul
    · exact absurd empty nil_notMem_single_mul

/-- Terms and expressions are lists of what binds tighter, separated by their operators. -/
theorem recognizes_chains {nested : Option (Production Operand)} {depth : Nat}
    (recognizes : (factor nested).Recognizes (operands .factor) (signs .factor) depth) :
    (chain termOperator (term nested)).Recognizes (operands .expression) (signs .expression)
      depth := by
  -- A term is a list of factors in the same way as an expression is one of terms.
  have ofTerm : (term nested).Recognizes (operands .term) (signs .term) depth := by
    rw [terms_eq, ← leadsOf_factorOperator]
    exact recognizes_separated recognizes (balanced_operands .factor) (by simp) (by simp [signs])
      (by simp [signs]) (by simp [signs])
  rw [expressions_eq, ← leadsOf_termOperator]
  exact recognizes_separated ofTerm (balanced_operands .term) (by simp) (by simp [signs])
    (by simp [signs, Set.insert_subset_iff]) (by simp [signs, Set.insert_subset_iff])

/-- The first parenthesis that is nested too deeply is one more than are allowed. -/
theorem recognizes_expression (depth : Nat) :
    (expression depth).Recognizes (operands .expression) (signs .expression) (depth + 1) := by
  -- Each level of parentheses adds one that is open, and the innermost level admits none.
  induction depth with
  | zero =>
    refine recognizes_chains (recognizes_factor ?_)
    exact fun opening ahead isOpening => follows_parenthesized_none isOpening _ ahead
  | succ depth ih =>
    refine recognizes_chains (recognizes_factor ?_)
    exact fun opening ahead isOpening => follows_parenthesized_some ih isOpening _ ahead

/-- A permission goes on with all that an expression goes on with. -/
theorem recognizes_permission (keyword : Token) :
    (permission keyword).Recognizes
      (single {.identifier} * (single {.equals} * operands .expression)) (signs .expression)
      (maxNesting + 1) := by
  rw [permission]
  refine recognizes_take_bind (by simp) fun name => ?_
  refine recognizes_take_bind (by simp) fun equals => ?_
  exact recognizes_map _ (recognizes_expression maxNesting)

/-- The signs that go on with a member. -/
def memberSigns : Set TokenKind :=
  {.slash, .hash, .colon, .pipe} ∪ signs .expression

/-- Without one of the two keywords ahead, no member starts. -/
theorem notMem_members_mul {tokens : List Token} {word : List TokenKind}
    (starts : StartsAt tokens word) (noRelation : nextKind tokens ≠ some .relation)
    (noPermission : nextKind tokens ≠ some .permission) (later : Language TokenKind) :
    word ∉ members * later := by
  rw [members_eq, add_mul, Language.mem_add]
  rintro (ofRelation | ofPermission)
  -- Both kinds of members start with a keyword of their own.
  · rw [phrasesOf_relation, mul_assoc] at ofRelation
    exact starts.notMem_single_mul (by simpa using noRelation) _ ofRelation
  · rw [phrasesOf_permission, mul_assoc] at ofPermission
    exact starts.notMem_single_mul (by simpa using noPermission) _ ofPermission

/-- A keyword leads to one of the two kinds of members, and anything else to none. -/
theorem follows_member (first : Token) (ahead : List Token) :
    (member first ahead).Follows members memberSigns (maxNesting + 1) (first :: ahead) := by
  unfold member
  split
  · rename_i isRelation
    have follows := (recognizes_relation first (maxNesting + 1) ahead).map Member.relation
    rw [members_eq, phrasesOf_relation, phrasesOf_permission]
    refine (follows.leadSign isRelation (by simp [isRelation])).inl Set.subset_union_left ?_
    -- A word that starts at the keyword of a relation is no permission.
    intro later _ word starts
    rw [mul_assoc]
    exact starts.notMem_single_mul (by simp [isRelation]) _
  · rename_i isPermission
    have follows := (recognizes_permission first ahead).map Member.permission
    rw [members_eq, phrasesOf_relation, phrasesOf_permission]
    refine (follows.leadSign isPermission (by simp [isPermission])).inr Set.subset_union_right ?_
    -- A word that starts at the keyword of a permission is no relation.
    intro later _ word starts
    rw [mul_assoc]
    exact starts.notMem_single_mul (by simp [isPermission]) _
  · rename_i noRelation noPermission
    have phrase : [.permission, .identifier, .equals, .nil] ∈ members :=
      ⟨.permission ⟨leaf _, leaf _, leaf _, .term (.factor (.nil (leaf _)))⟩, rfl⟩
    refine .refuse phrase ?_
    intro later _ word starts
    exact notMem_members_mul starts (by simpa using noRelation) (by simpa using noPermission) later

/-- Nothing goes on with a header, which ends with its brace. -/
theorem recognizes_header (keyword : Token) (depth : Nat) :
    (header keyword).Recognizes (paths * single {.leftBrace}) ∅ depth := by
  have brace : [.leftBrace] ∈ single {.leftBrace} := ⟨.leftBrace, rfl, rfl⟩
  rw [header]
  refine recognizes_bind (recognizes_path _ depth) ?_ balanced_paths brace ?_
    (Set.Subset.refl _)
  · rintro ⟨name, nameRange⟩
    exact recognizes_map _ (recognizes_take _ _)
  -- The brace is no slash, so that nothing goes on with the path.
  · intro later _
    exact avoids_single_mul (by simp)

/-- Only a definition keyword starts a header. -/
theorem follows_headerAt (first : Token) (ahead : List Token) (depth : Nat) :
    (headerAt first ahead).Follows headers ∅ depth (first :: ahead) := by
  rw [headers_eq]
  unfold headerAt
  split
  · rename_i isDefinition
    exact (recognizes_header first depth ahead).leadSign isDefinition (by simp [isDefinition])
  · rename_i other
    -- Any header would be refused here, and there is one.
    obtain ⟨word, phrase⟩ := (recognizes_header first depth []).exists_mem
    refine .refuse (cons_mem_single_mul.mpr ⟨rfl, phrase⟩) ?_
    intro later _ word starts
    rw [mul_assoc]
    exact starts.notMem_single_mul (by simpa using other) _

section Body

variable {tokens : List Token} {word : List TokenKind} {later : Language TokenKind}

/-- A body is over with a closing brace, or goes on with a member. -/
theorem mem_bodies_mul :
    word ∈ bodies * later ↔
      word ∈ single {.rightBrace} * later ∨ word ∈ members * (bodies * later) := by
  rw [bodies, mul_assoc]
  exact mem_kstar_mul

/-- No member starts with a sign that goes on with another one. -/
theorem avoids_members {starts : Set TokenKind} (noRelation : .relation ∉ starts)
    (noPermission : .permission ∉ starts) : Avoids members starts := by
  rw [members_eq, phrasesOf_relation, phrasesOf_permission]
  exact (avoids_single_mul (by simpa using noRelation)).add
    (avoids_single_mul (by simpa using noPermission))

/-- Behind a member comes a closing brace or another member, and neither goes on with it. -/
theorem avoids_bodies_mul (later : Language TokenKind) : Avoids (bodies * later) memberSigns := by
  rw [bodies, mul_assoc]
  have inner : Avoids members memberSigns :=
    avoids_members (by simp [memberSigns, signs]) (by simp [memberSigns, signs])
  exact inner.kstar.mul (avoids_single_mul (by simp [memberSigns, signs]))

/-- Where a body is not over, it is a member and then the rest of the body. -/
theorem follows_bodies {α : Type} {outcome : Outcome α} {goesOn : Set TokenKind} {depth : Nat}
    (open_ : nextKind tokens ≠ some .rightBrace)
    (follows : outcome.Follows (members * bodies) goesOn depth tokens) :
    outcome.Follows bodies goesOn depth tokens := by
  refine follows.widen ?_ (Set.Subset.refl _) ?_
  -- One member more in front of a body is a body.
  · rw [bodies, ← mul_assoc]
    exact mul_le_mul_left mul_kstar_le_kstar _
  · intro later _ word starts among
    rw [mul_assoc]
    refine (mem_bodies_mul.mp among).resolve_left ?_
    exact starts.notMem_single_mul (by simpa using open_) _

/-- A body must go on where neither a member nor a closing brace is ahead. -/
theorem follows_bodies_unclosed {α : Type} {what : Expectation} {goesOn : Set TokenKind}
    {depth : Nat} (open_ : nextKind tokens ≠ some .rightBrace)
    (noRelation : nextKind tokens ≠ some .relation)
    (noPermission : nextKind tokens ≠ some .permission) :
    (Outcome.failed (.expected what) tokens : Outcome α).Follows bodies goesOn depth tokens := by
  refine .refuse rightBrace_mem_bodies ?_
  intro later _ word starts among
  rcases mem_bodies_mul.mp among with closing | onward
  · exact starts.notMem_single_mul (by simpa using open_) _ closing
  · exact notMem_members_mul starts noRelation noPermission _ onward

/-- A closing brace ends a body, since no member starts with one. -/
theorem follows_bodies_closed {token : Token} {ahead : List Token}
    (closes : token.kind = .rightBrace) (goesOn : Set TokenKind) (depth : Nat) :
    (Outcome.done () ahead).Follows bodies goesOn depth (token :: ahead) := by
  have brace : (Outcome.done () ahead).Follows (single {.rightBrace} * 1) goesOn depth
      (token :: ahead) :=
    (recognizes_pure () ahead).leadSign closes (by simp [closes])
  rw [mul_one] at brace
  refine brace.widen ?_ (Set.Subset.refl goesOn) ?_
  -- A brace alone is a body of no members.
  · rw [bodies]
    exact le_mul_of_one_le_left' one_le_kstar
  · intro later _ word starts among
    refine (mem_bodies_mul.mp among).resolve_right ?_
    exact notMem_members_mul starts (by simp [closes]) (by simp [closes]) _

end Body

/-- What is told of an outcome: no error and what is left, or the fault as the first error. -/
def Told {α : Type} (textStop : Position) (errors : List SyntaxError) (rest : List Token) :
    Outcome α → Prop
  | .done _ left => errors = [] ∧ rest = left
  | .failed fault left => errors.head? = some (fault.report left textStop)

section Document

variable {textStop stop : Position} {room : Nat} {tokens : List Token}

/-- The first error of a body is where its kinds stop to be those of a body. -/
theorem exists_follows_body (roomy : 0 < room) :
    ∃ outcome : Outcome Unit, outcome.Follows bodies ∅ (maxNesting + 1) tokens ∧
      Told textStop (body textStop room stop tokens).errors
        (body textStop room stop tokens).rest outcome := by
  -- Members are read one by one, and the first error is the first outcome that failed.
  fun_induction body textStop room stop tokens with
  | case1 => omega
  | case2 stop room =>
    -- At the end of the text neither a brace nor a member is ahead.
    exact ⟨.failed body.unclosed [], follows_bodies_unclosed (by simp) (by simp) (by simp), rfl⟩
  | case3 stop room token ahead closes =>
    exact ⟨.done () ahead, follows_bodies_closed closes _ _, rfl, rfl⟩
  | case4 stop room token ahead open_ opens =>
    -- A definition cannot start inside a body.
    refine ⟨.failed body.unclosed (token :: ahead), ?_, rfl⟩
    exact follows_bodies_unclosed (by simp [opens]) (by simp [opens]) (by simp [opens])
  | case5 stop room token ahead open_ inside value rest read ih =>
    obtain ⟨outcome, follows, told⟩ := ih (by omega)
    refine ⟨outcome, follows_bodies (by simpa using open_) ?_, told⟩
    -- The member is a phrase, and the rest of the body follows it.
    have ofMember := follows_member token ahead
    rw [read] at ofMember
    exact ofMember.andThen follows balanced_members (fun later _ => avoids_bodies_mul later)
      (Set.Subset.refl _)
  | case6 stop room token ahead open_ inside fault rest failed next ih =>
    refine ⟨.failed fault rest, follows_bodies (by simpa using open_) ?_, rfl⟩
    -- The member is begun, and any body could have followed it.
    have ofMember := follows_member token ahead
    rw [failed] at ofMember
    exact ofMember.abandon rightBrace_mem_bodies fun later _ => avoids_bodies_mul later

/-- Where a document is not over, it is a definition and then the rest of the document. -/
theorem follows_sentences {α : Type} {outcome : Outcome α} {token : Token} {ahead : List Token}
    {depth : Nat}
    (follows : outcome.Follows (definitions * sentences) Set.univ depth (token :: ahead)) :
    outcome.Follows sentences Set.univ depth (token :: ahead) := by
  rw [sentences_eq] at follows ⊢
  refine follows.widen mul_kstar_le_kstar (Set.Subset.refl _) ?_
  intro later avoids word starts among
  rw [mul_assoc]
  refine (mem_kstar_mul.mp among).resolve_left ?_
  -- Nothing but the end of the text comes behind a document.
  intro behind
  obtain ⟨rest, rfl⟩ := List.head?_eq_some_iff.mp (starts.trans (nextKind_cons token ahead))
  exact avoids token.kind (Set.mem_univ _) rest behind

/-- The first error of a document is where its kinds stop to be those of a schema. -/
theorem exists_follows_document (roomy : 0 < room) :
    ∃ outcome : Outcome Unit, outcome.Follows sentences Set.univ (maxNesting + 1) tokens ∧
      Told textStop (document textStop room tokens).errors [] outcome := by
  have nothing : [] ∈ sentences := ⟨⟨[]⟩, rfl⟩
  -- Definitions are read one by one, up to the first outcome that failed or the end of the text.
  fun_induction document textStop room tokens with
  | case1 => omega
  | case2 room =>
    refine ⟨.done () [], .done (List.nil_append []).symm nothing ?_, rfl, rfl⟩
    intro later _ word starts among
    -- Nothing is ahead, and every definition starts with a keyword.
    obtain rfl : word = [] := List.head?_eq_none_iff.mp starts
    rw [sentences_eq] at among
    refine (mem_kstar_mul.mp among).resolve_right ?_
    rw [definitions_eq, headers_eq, mul_assoc, mul_assoc]
    exact nil_notMem_single_mul
  | case3 room token ahead header rest read inner later ih =>
    have ofHeader := follows_headerAt token ahead (maxNesting + 1)
    rw [read] at ofHeader
    obtain ⟨outcome, ofBody, told⟩ : ∃ outcome : Outcome Unit,
        outcome.Follows bodies ∅ (maxNesting + 1) rest ∧
          Told textStop inner.errors inner.rest outcome :=
      exists_follows_body roomy
    have ofDefinition : outcome.Follows definitions ∅ (maxNesting + 1) (token :: ahead) := by
      rw [definitions_eq]
      exact ofHeader.andThen ofBody balanced_headers (fun _ _ => avoids_empty)
        (Set.Subset.refl ∅)
    cases outcome with
    | done _ left =>
      -- Without an error in the body, the document goes on behind it with all its room.
      obtain ⟨faultless, rfl⟩ := told
      obtain ⟨last, follows, toldLater⟩ := ih (by simp [faultless])
      refine ⟨last, follows_sentences ?_, ?_⟩
      · exact ofDefinition.andThen follows balanced_definitions (fun _ _ => avoids_empty)
          (Set.Subset.refl _)
      · rw [faultless, List.nil_append]
        exact toldLater
    | failed fault left =>
      -- The first error of the body is the first one of the document.
      refine ⟨.failed fault left, follows_sentences ?_, ?_⟩
      · exact ofDefinition.abandon nothing fun _ _ => avoids_empty
      · show (inner.errors ++ later.errors).head? = some (fault.report left textStop)
        rw [List.head?_append, told]
        rfl
  | case4 room token ahead fault rest failed later ih =>
    refine ⟨.failed fault rest, follows_sentences ?_, rfl⟩
    -- The header is begun, and an empty body could have closed the definition.
    have ofHeader := follows_headerAt token ahead (maxNesting + 1)
    rw [failed] at ofHeader
    rw [definitions_eq, mul_assoc]
    have closed := Language.append_mem_mul rightBrace_mem_bodies nothing
    exact ofHeader.abandon closed fun _ _ => avoids_empty

end Document

end AuthSchema.Parse

namespace AuthSchema

open Grammar

/--
Where an error stands among the tokens of a text.

* Up to the token of an unexpected or unknown token the text could still go on to a schema, and
  with that token it cannot.
* A text that ends unexpectedly could go on to a schema, but is none.
* With a spaced path, or with the one parenthesis too many, the text could still go on to a schema.
-/
def SyntaxError.StandsEarliest (tokens : List Token) (error : SyntaxError) : Prop :=
  match error.cause with
  | .unknownToken _ | .unexpected _ _ =>
    ∃ before token after, tokens = before ++ token :: after ∧ error.range = token.range ∧
      Viable (kindsOf before) ∧ ¬Viable (kindsOf (before ++ [token]))
  | .unexpectedEnd _ => Viable (kindsOf tokens) ∧ kindsOf tokens ∉ sentences
  | .spacedPath _ =>
    ∃ before first slash second after, tokens = before ++ first :: slash :: second :: after ∧
      first.kind = .identifier ∧ slash.kind = .slash ∧ second.kind = .identifier ∧
      (first.isAdjacent slash && slash.isAdjacent second) = false ∧
      error.range = first.range.cover second.range ∧
      Viable (kindsOf (before ++ [first, slash, second]))
  | .nestedTooDeeply =>
    ∃ before opening after, tokens = before ++ opening :: after ∧ opening.kind = .leftParen ∧
      error.range = opening.range ∧
      (kindsOf (before ++ [opening])).count .leftParen =
        (kindsOf (before ++ [opening])).count .rightParen + 129 ∧
      Viable (kindsOf (before ++ [opening]))

/-- A failure that follows the grammar is reported where it stands. -/
theorem standsEarliest_report {fault : Fault} {rest tokens : List Token} {textStop : Position}
    (follows : (Outcome.failed fault rest : Outcome Unit).Follows sentences Set.univ
      (Parse.maxNesting + 1) tokens) : (fault.report rest textStop).StandsEarliest tokens := by
  cases follows with
  | @failed _ used _ split viable stuck placed =>
    subst split
    cases fault with
    | expected what =>
      -- Behind a whole schema only the end of the text comes, so that what is stuck is no sentence.
      have notSentence : ∀ word, StartsAt rest word → kindsOf used ++ word ∉ sentences := by
        intro word starts
        have behind := stuck what rfl 1 avoids_one word starts
        rwa [mul_one] at behind
      cases rest with
      | nil =>
        have whole := notSentence [] rfl
        rw [List.append_nil] at whole ⊢
        exact ⟨viable, whole⟩
      | cons token after =>
        -- Any schema that goes on from here would start with the token that is stuck.
        have notViable : ¬Viable (kindsOf (used ++ [token])) := by
          rintro ⟨more, sentence⟩
          rw [kindsOf_append, List.append_assoc] at sentence
          exact notSentence (token.kind :: more) rfl sentence
        by_cases unknown : token.kind = .unknown
        · rw [Fault.report, if_pos unknown]
          exact ⟨used, token, after, rfl, rfl, viable, notViable⟩
        · rw [Fault.report, if_neg unknown]
          exact ⟨used, token, after, rfl, rfl, viable, notViable⟩
    | spacedPath first second =>
      -- The path is whole, and the fault is only about the blanks in it.
      obtain ⟨before, slash, rfl, isFirst, isSlash, isSecond, apart⟩ := placed
      exact ⟨before, first, slash, second, rest, by simp, isFirst, isSlash, isSecond, apart, rfl,
        viable⟩
    | tooDeep opening =>
      -- The parenthesis is the last token taken, and all that are open are counted up to it.
      obtain ⟨⟨before, rfl⟩, isOpening, count⟩ := placed
      exact ⟨before, opening, rest, by simp, isOpening, rfl, count, viable⟩

/-- A strict reader reports an error no sooner and no later than the text stops to be a schema. -/
theorem standsEarliest_of_parse_eq_error {source : String} {error : SyntaxError}
    (refused : parse source = .error error) :
    error.StandsEarliest (tokenize source).tokens := by
  obtain ⟨outcome, follows, told⟩ : ∃ outcome : Outcome Unit,
      outcome.Follows sentences Set.univ (Parse.maxNesting + 1) (tokenize source).tokens ∧
        Parse.Told (tokenize source).stop (Parse.readTokens .strict source).errors [] outcome :=
    Parse.exists_follows_document (Parse.Options.room_pos .strict)
  -- The one error of a strict reader is the first one of the document.
  rw [parse, Parse.toResult_parseWith] at refused
  cases outcome with
  | done _ rest =>
    -- Without an error the text would be read as a schema.
    rw [told.1] at refused
    cases refused
  | failed fault rest =>
    have first : (Parse.readTokens .strict source).errors.head? =
        some (fault.report rest (tokenize source).stop) := told
    rw [first] at refused
    cases refused
    exact standsEarliest_report follows

/-- A parenthesis where a type must come. -/
def missingType : String :=
  "definition a \x7b relation r: ) \x7d"

/-- Up to the parenthesis the text is a beginning of schemas, and with it of none. -/
theorem standsEarliest_of_parse_eq_error_missingType :
    parse missingType = .error ⟨.unexpected .typeName ")", ⟨⟨1, 28⟩, ⟨1, 29⟩⟩⟩ ∧
      SyntaxError.StandsEarliest (tokenize missingType).tokens
        ⟨.unexpected .typeName ")", ⟨⟨1, 28⟩, ⟨1, 29⟩⟩⟩ := by
  have refused : parse missingType =
      .error ⟨.unexpected .typeName ")", ⟨⟨1, 28⟩, ⟨1, 29⟩⟩⟩ := by
    decide +kernel
  exact ⟨refused, standsEarliest_of_parse_eq_error refused⟩

end AuthSchema
