import AuthSchema.Parse.Declaration
import AuthSchema.Token.Stream

/-!
Whole documents, read past their syntax errors up to a given number of them.

* After a faulty member, reading goes on at the next member, closing brace or definition.
* After a faulty definition, reading goes on at the next definition.
* A body that a definition or the end of the text cuts short is closed there.
-/

namespace AuthSchema.Parse

/-- The tokens at which reading can go on after a faulty member. -/
def endsMember (kind : TokenKind) : Bool :=
  kind.opensDeclaration || kind = .rightBrace

/-- Skips tokens up to one that ends a member, and says where the last skipped token stopped. -/
def skipMember (stop : Position) : List Token → Position × List Token
  | [] => (stop, [])
  | token :: ahead =>
    if endsMember token.kind then (stop, token :: ahead) else skipMember token.range.stop ahead

/-- Skipping leaves a tail of the tokens it was given. -/
theorem skipMember_suffix (stop : Position) (tokens : List Token) :
    (skipMember stop tokens).2 <:+ tokens := by
  -- Tokens are taken from the front one by one, up to the first that ends a member.
  induction tokens generalizing stop with
  | nil => exact List.suffix_refl _
  | cons token ahead ih =>
    rw [skipMember]
    split
    · exact List.suffix_refl _
    · exact (ih _).trans (List.suffix_cons token ahead)

/-- A member, given its first token and the tokens after it. -/
def member (first : Token) (ahead : List Token) : Outcome Member :=
  match first.kind with
  | .relation => ((relation first).run ahead).map Member.relation
  | .permission => ((permission first).run ahead).map Member.permission
  | _ => .failed (.expected .memberOrClose) (first :: ahead)

/-- A member takes its first token. -/
theorem suffix_of_member_done {first : Token} {ahead rest : List Token} {value : Member}
    (result : member first ahead = .done value rest) : rest <:+ ahead := by
  -- Only the two keywords lead to a member, and each production leaves a tail.
  have left : (member first ahead).rest = rest := by rw [result, Outcome.rest_done]
  unfold member at left result
  split at left
  · rw [← left, Outcome.rest_map]
    exact (relation first).rest_suffix ahead
  · rw [← left, Outcome.rest_map]
    exact (permission first).rest_suffix ahead
  · -- Any other token fails, and so does not come to a member.
    simp_all

/-- A body as far as it was read. -/
structure Body where
  /-- The members that were read, in document order. -/
  members : List Member
  /-- The errors on the way, in document order. -/
  errors : List SyntaxError
  /-- Where the last token of the body stops. -/
  stop : Position
  /-- The tokens after the body. -/
  rest : List Token
  deriving DecidableEq, Repr

namespace Body

/-- A body that ends here, with nothing more in it. -/
def close (stop : Position) (rest : List Token) : Body :=
  ⟨[], [], stop, rest⟩

/-- The body with a member in front. -/
def withMember (body : Body) (first : Member) : Body :=
  { body with members := first :: body.members }

/-- The body with an error in front. -/
def withError (body : Body) (first : SyntaxError) : Body :=
  { body with errors := first :: body.errors }

end Body

/--
Reads a body from after its opening brace, while there is room for another error.

The stop given is that of the last token before the ones ahead.
-/
def body (textStop : Position) (room : Nat) (stop : Position) (tokens : List Token) : Body :=
  match room, tokens with
  | 0, tokens => .close stop tokens
  -- An unclosed body ends where the text ends, or where the next definition starts.
  | _ + 1, [] => (Body.close stop []).withError (unclosed.report [] textStop)
  | room + 1, token :: ahead =>
    if token.kind = .rightBrace then
      .close token.range.stop ahead
    else if token.kind = .definition then
      (Body.close stop (token :: ahead)).withError (unclosed.report (token :: ahead) textStop)
    else
      match _ : member token ahead with
      | .done value rest =>
        (body textStop (room + 1) value.range.stop rest).withMember value
      | .failed fault rest =>
        -- No production takes a token that ends a member, so it cannot have passed the next one.
        let next := skipMember token.range.stop ahead
        (body textStop room next.1 next.2).withError (fault.report rest textStop)
termination_by tokens.length
decreasing_by
  · exact Nat.lt_succ_of_le (suffix_of_member_done ‹_›).length_le
  · exact Nat.lt_succ_of_le (skipMember_suffix token.range.stop ahead).length_le
where
  /-- The fault of a body that is not closed. -/
  unclosed : Fault := .expected (.token .rightBrace)

/-- A body leaves a tail of the tokens it was given. -/
theorem body_rest_suffix (textStop : Position) (room : Nat) (stop : Position)
    (tokens : List Token) : (body textStop room stop tokens).rest <:+ tokens := by
  -- The cases are those of the reader: each leaves a tail of what the next one was given.
  fun_induction body textStop room stop tokens with
  | case1 => exact List.suffix_refl _
  | case2 => exact List.suffix_refl _
  | case3 => exact List.suffix_cons _ _
  | case4 => exact List.suffix_refl _
  | case5 stop room token ahead _ _ value rest result ih =>
    exact (ih.trans (suffix_of_member_done result)).trans (List.suffix_cons token ahead)
  | case6 stop room token ahead _ _ fault rest result next ih =>
    exact (ih.trans (skipMember_suffix _ _)).trans (List.suffix_cons token ahead)

/-- The definition of a header and a body. -/
def Header.define (header : Header) (body : Body) : Definition where
  name := header.name
  nameRange := header.nameRange
  range := ⟨header.range.start, body.stop⟩
  -- Each kind keeps the order in which its members were read.
  relations := body.members.filterMap Member.relation?
  permissions := body.members.filterMap Member.permission?

/-- The header of the definition ahead, given its first token and the tokens after it. -/
def headerAt (first : Token) (ahead : List Token) : Outcome Header :=
  if first.kind = .definition then (header first).run ahead
  else .failed (.expected (.token .definition)) (first :: ahead)

/-- A header takes its first token. -/
theorem suffix_of_headerAt_done {first : Token} {ahead rest : List Token} {value : Header}
    (result : headerAt first ahead = .done value rest) : rest <:+ ahead := by
  -- Without the keyword there is no header.
  unfold headerAt at result
  split at result
  · exact (header first).suffix_of_done result
  · cases result

/-- A document as far as it was read. -/
structure Document where
  /-- The definitions that were read, in document order. -/
  definitions : List Definition
  /-- The errors on the way, in document order. -/
  errors : List SyntaxError
  deriving DecidableEq, Repr

/-- Drops the tokens before the next definition. -/
def skipToDefinition (tokens : List Token) : List Token :=
  tokens.dropWhile (·.kind != .definition)

/-- Reads the definitions of a document, while there is room for another error. -/
def document (textStop : Position) (room : Nat) (tokens : List Token) : Document :=
  match room, tokens with
  -- Without room for another error, nothing more is read.
  | 0, _ => ⟨[], []⟩
  | _ + 1, [] => ⟨[], []⟩
  | room + 1, token :: ahead =>
    match _ : headerAt token ahead with
    | .done header rest =>
      -- The errors of the body use up room for later ones.
      let body := body textStop (room + 1) header.range.stop rest
      let later := document textStop (room + 1 - body.errors.length) body.rest
      ⟨header.define body :: later.definitions, body.errors ++ later.errors⟩
    | .failed fault rest =>
      -- No header takes a further definition keyword, so it cannot have passed the next one.
      let later := document textStop room (skipToDefinition ahead)
      ⟨later.definitions, fault.report rest textStop :: later.errors⟩
termination_by tokens.length
decreasing_by
  · exact Nat.lt_succ_of_le
      ((body_rest_suffix _ _ _ _).trans (suffix_of_headerAt_done ‹_›)).length_le
  · exact Nat.lt_succ_of_le (List.dropWhile_suffix _).length_le

end AuthSchema.Parse
