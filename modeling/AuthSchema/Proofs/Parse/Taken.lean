import AuthSchema.Parse.Document
import AuthSchema.Proofs.Parse.Run
import AuthSchema.Proofs.Parse.Span

/-! Which tokens a production takes, whether it finishes or fails. -/

namespace AuthSchema

/-- The kinds that frame declarations: the keywords that open them, and braces. -/
def TokenKind.frames (kind : TokenKind) : Bool :=
  kind.opensDeclaration || kind = .leftBrace || kind = .rightBrace

namespace Production

variable {α β : Type} {allowed : TokenKind → Bool}

/-- Every run takes only tokens of allowed kinds, also when it fails. -/
def Takes (production : Production α) (allowed : TokenKind → Bool) : Prop :=
  ∀ tokens, ∃ taken, tokens = taken ++ (production.run tokens).rest ∧
    ∀ token ∈ taken, allowed token.kind = true

/-- What takes tokens of some kinds takes only tokens of more kinds. -/
theorem Takes.mono {production : Production α} {wider : TokenKind → Bool}
    (takes : production.Takes allowed)
    (covers : ∀ kind, allowed kind = true → wider kind = true) : production.Takes wider := by
  intro tokens
  obtain ⟨taken, split, kinds⟩ := takes tokens
  exact ⟨taken, split, fun token listed => covers _ (kinds token listed)⟩

/-- A production that does nothing takes no token, of whatever kind. -/
theorem takes_pure (value : α) : (pure value : Production α).Takes allowed :=
  fun _ => ⟨[], rfl, by simp⟩

/-- A failure takes no token, of whatever kind. -/
theorem takes_fail (fault : Fault) : (fail fault : Production α).Takes allowed :=
  fun _ => ⟨[], rfl, by simp⟩

/-- Two productions in a row take what the first takes, and then what the second takes. -/
theorem takes_bind {first : Production α} {next : α → Production β}
    (takesFirst : first.Takes allowed) (takesNext : ∀ value, (next value).Takes allowed) :
    (first >>= next).Takes allowed := by
  intro tokens
  obtain ⟨taken, split, kinds⟩ := takesFirst tokens
  rw [run_bind]
  -- A failed first production ends the run, and what it took is all that was taken.
  cases ran : first.run tokens with
  | failed fault rest => exact ⟨taken, by simpa [ran] using split, kinds⟩
  | done value rest =>
    obtain ⟨more, splitMore, kindsMore⟩ := takesNext value rest
    rw [ran, Outcome.rest_done] at split
    -- What the first production left is where the second one starts.
    refine ⟨taken ++ more, ?_, ?_⟩
    · rw [List.append_assoc, ← splitMore]
      exact split
    · intro token listed
      rcases List.mem_append.mp listed with listed | listed
      · exact kinds token listed
      · exact kindsMore token listed

/-- Trying to take a token takes at most one, of the asked kind. -/
theorem takes_take? {kind : TokenKind} (accepted : allowed kind = true) :
    (take? kind).Takes allowed := by
  intro tokens
  -- Nothing is taken unless a token of the asked kind is ahead.
  by_cases ahead : nextKind tokens = some kind
  · cases tokens with
    | nil => simp at ahead
    | cons token rest =>
      have asked : token.kind = kind := by simpa using ahead
      rw [run_take?_of_kind asked]
      exact ⟨[token], rfl, by simpa [asked] using accepted⟩
  · rw [run_take?_of_ne ahead]
    exact ⟨[], rfl, by simp⟩

/-- Taking a token takes at most one, of the asked kind. -/
theorem takes_take {kind : TokenKind} (accepted : allowed kind = true) (expected : Expectation) :
    (take kind expected).Takes allowed := by
  refine takes_bind (takes_take? accepted) ?_
  intro found
  -- A token of another kind is left where it is.
  cases found with
  | none => exact takes_fail _
  | some token => exact takes_pure token

/-- Repetition takes leads and what its items take. -/
theorem takes_many {lead : TokenKind → Option β} {item : Production α}
    (leads : ∀ kind tag, lead kind = some tag → allowed kind = true) (takes : item.Takes allowed) :
    (many lead item).Takes allowed := by
  intro tokens
  -- The induction follows the repetition, and a failed item still took tokens of its own.
  show ∃ taken, tokens = taken ++ (readMany lead item tokens).rest ∧ _
  fun_induction readMany lead item tokens with
  | case1 => exact ⟨[], rfl, by simp⟩
  | case2 => exact ⟨[], rfl, by simp⟩
  | case3 token ahead tag led value rest ran ih =>
    -- The lead, the tokens of its item and those of the items behind it are taken in that order.
    obtain ⟨taken, split, kinds⟩ := takes ahead
    obtain ⟨more, splitMore, kindsMore⟩ := ih
    rw [ran, Outcome.rest_done] at split
    refine ⟨token :: (taken ++ more), ?_, ?_⟩
    · rw [Outcome.rest_map, List.cons_append, List.append_assoc, ← splitMore, ← split]
    · intro other listed
      rcases List.mem_cons.mp listed with rfl | listed
      · exact leads _ tag led
      · rcases List.mem_append.mp listed with listed | listed
        · exact kinds other listed
        · exact kindsMore other listed
  | case4 token ahead tag led fault rest ran =>
    -- The lead is taken before its item fails, and so are the first tokens of the item.
    obtain ⟨taken, split, kinds⟩ := takes ahead
    rw [ran] at split
    refine ⟨token :: taken, congrArg (token :: ·) split, ?_⟩
    intro other listed
    rcases List.mem_cons.mp listed with rfl | listed
    · exact leads _ tag led
    · exact kinds other listed

end Production

namespace Parse

open Production

/-- The kinds of tokens inside a member, where nothing frames another declaration. -/
def isInner (kind : TokenKind) : Bool :=
  !kind.frames

/-- A path takes names and a slash. -/
theorem takes_path (expected : Expectation) : (path expected).Takes isInner := by
  -- The kind of each token asked for is an inner one, which evaluation shows.
  refine takes_bind (takes_take (by rfl) _) fun first => ?_
  refine takes_bind (takes_take? (by rfl)) fun slash? => ?_
  cases slash? with
  | none => exact takes_pure _
  | some slash =>
    refine takes_bind (takes_take (by rfl) _) fun second => ?_
    split
    · exact takes_pure _
    · exact takes_fail _

/-- A type takes a path and its suffix. -/
theorem takes_typeRef : typeRef.Takes isInner := by
  refine takes_bind (takes_path _) fun named => ?_
  refine takes_bind (takes_take? (by rfl)) fun hash? => ?_
  -- A hash is tried first, and a colon only where there is none.
  cases hash? with
  | some hash => exact takes_bind (takes_take (by rfl) _) fun name => takes_pure _
  | none =>
    refine takes_bind (takes_take? (by rfl)) fun colon? => ?_
    cases colon? with
    | some colon => exact takes_bind (takes_take (by rfl) _) fun star => takes_pure _
    | none => exact takes_pure _

/-- After its keyword, a relation takes no token that frames a declaration. -/
theorem takes_relation (keyword : Token) : (relation keyword).Takes isInner := by
  -- Only the bar separates types, and it is inner.
  have leads : ∀ kind tag, typeSeparator kind = some tag → isInner kind = true := by
    intro kind tag led
    cases kind with
    | pipe => rfl
    | _ => cases led
  refine takes_bind (takes_take (by rfl) _) fun name => ?_
  refine takes_bind (takes_take (by rfl) _) fun colon => ?_
  refine takes_bind takes_typeRef fun first => ?_
  exact takes_bind (takes_many leads takes_typeRef) fun more => takes_pure _

/-- A name or an arrow takes names and the arrow sign. -/
theorem takes_nameOrArrow : nameOrArrow.Takes isInner := by
  have takesName : ∀ expected, (nameRef expected).Takes isInner := fun expected =>
    takes_bind (takes_take (by rfl) _) fun token => takes_pure _
  refine takes_bind (takesName _) fun left => ?_
  refine takes_bind (takes_take? (by rfl)) fun sign? => ?_
  cases sign? with
  | none => exact takes_pure _
  | some sign => exact takes_bind (takesName _) fun right => takes_pure _

/-- A factor takes what its parentheses take, and the parentheses. -/
theorem takes_factor {nested : Option (Production Operand)}
    (takes : ∀ inner, nested = some inner → inner.Takes isInner) :
    (factor nested).Takes isInner := by
  -- The keyword is tried first, then the parenthesis, and a name is what is left.
  refine takes_bind (takes_take? (by rfl)) fun keyword? => ?_
  cases keyword? with
  | some keyword => exact takes_pure _
  | none =>
    refine takes_bind (takes_take? (by rfl)) fun opening? => ?_
    cases opening? with
    | none => exact takes_nameOrArrow
    | some opening =>
      -- Where no more nesting is allowed the production fails behind the parenthesis.
      cases nested with
      | none => exact takes_fail _
      | some inner =>
        refine takes_bind (takes inner rfl) fun operand => ?_
        exact takes_bind (takes_take (by rfl) _) fun closing => takes_pure _

/-- A chain takes its operands and the operators between them. -/
theorem takes_chain {operator : TokenKind → Option Operator} {item : Production Operand}
    (leads : ∀ kind tag, operator kind = some tag → isInner kind = true)
    (takes : item.Takes isInner) : (chain operator item).Takes isInner :=
  takes_bind takes fun _ => takes_bind (takes_many leads takes) fun _ => takes_pure _

/-- Terms joined by `+` and `-` take no token that frames a declaration. -/
theorem takes_terms {nested : Option (Production Operand)}
    (takes : ∀ inner, nested = some inner → inner.Takes isInner) :
    (chain termOperator (term nested)).Takes isInner := by
  refine takes_chain ?_ (takes_chain ?_ (takes_factor takes))
  · -- Both signs that join terms are inner.
    intro kind tag led
    cases kind with
    | plus => rfl
    | minus => rfl
    | _ => cases led
  · -- The sign that joins factors is inner.
    intro kind tag led
    cases kind with
    | ampersand => rfl
    | _ => cases led

/-- An expression takes no token that frames a declaration, however deep it may be. -/
theorem takes_expression (depth : Nat) : (expression depth).Takes isInner := by
  -- What stands in parentheses is an expression of one level less.
  induction depth with
  | zero =>
    refine takes_terms ?_
    intro inner impossible
    cases impossible
  | succ depth ih =>
    refine takes_terms ?_
    intro inner same
    cases same
    exact ih

/-- After its keyword, a permission takes no token that frames a declaration. -/
theorem takes_permission (keyword : Token) : (permission keyword).Takes isInner := by
  refine takes_bind (takes_take (by rfl) _) fun name => ?_
  refine takes_bind (takes_take (by rfl) _) fun equals => ?_
  exact takes_bind (takes_expression _) fun operand => takes_pure _

/-- After its first token, a member that is read has no token that frames a declaration. -/
theorem inner_of_member {first : Token} {ahead rest : List Token} {value : Member}
    (read : member first ahead = .done value rest) :
    ∃ taken, ahead = taken ++ rest ∧ ∀ token ∈ taken, isInner token.kind = true := by
  -- Each keyword leads to its own production, and both take inner tokens only.
  unfold member at read
  split at read
  · obtain ⟨declared, ran, rfl⟩ := Outcome.map_eq_done_iff.mp read
    simpa only [ran, Outcome.rest_done] using takes_relation first ahead
  · obtain ⟨declared, ran, rfl⟩ := Outcome.map_eq_done_iff.mp read
    simpa only [ran, Outcome.rest_done] using takes_permission first ahead
  · cases read

/-- After its keyword, a header takes no token that opens a definition. -/
theorem takes_header (keyword : Token) : (header keyword).Takes (· != .definition) := by
  -- The path takes no keyword at all, and the brace is none.
  refine takes_bind ((takes_path _).mono ?_) fun named => ?_
  · intro kind inner
    cases kind with
    | definition => cases inner
    | _ => rfl
  · exact takes_bind (takes_take (by rfl) _) fun brace => takes_pure _

/-- After its first token, a header that is read has no token that opens a definition. -/
theorem no_definition_of_headerAt {first : Token} {ahead rest : List Token} {value : Header}
    (read : headerAt first ahead = .done value rest) :
    ∃ taken, ahead = taken ++ rest ∧ ∀ token ∈ taken, token.kind ≠ .definition := by
  -- Only the keyword of a definition leads to a header.
  unfold headerAt at read
  split at read
  · simpa [read] using takes_header first ahead
  · cases read

/-- Skipping passes over tokens that do not end a member, and stops where the last of them does. -/
theorem skipMember_eq (stop : Position) (tokens : List Token) :
    ∃ skipped, tokens = skipped ++ (skipMember stop tokens).2 ∧
      (skipMember stop tokens).1 = lastStop stop skipped ∧
        ∀ token ∈ skipped, endsMember token.kind = false := by
  -- The stop is general, since each skipped token changes it.
  induction tokens generalizing stop with
  | nil => exact ⟨[], rfl, rfl, by simp⟩
  | cons token ahead ih =>
    rw [skipMember]
    split
    · exact ⟨[], rfl, rfl, by simp⟩
    · rename_i inside
      -- The token is skipped, and its stop is the one to go on from.
      obtain ⟨skipped, split, stops, inner⟩ := ih token.range.stop
      refine ⟨token :: skipped, congrArg (token :: ·) split, ?_, ?_⟩
      · rw [stops, lastStop_cons]
      · intro other listed
        rcases List.mem_cons.mp listed with rfl | listed
        · simpa using inside
        · exact inner other listed

end Parse

end AuthSchema
