import Mathlib.Data.List.TakeWhile
import AuthSchema.Proofs.Parse.Agreement
import AuthSchema.Proofs.Parse.Span
import AuthSchema.Proofs.Parse.Taken

/-! What a recovering reader keeps, told from the tokens: each definition by where it starts. -/

namespace AuthSchema

/-- The value of an outcome that is done. -/
def Outcome.value? {α : Type} : Outcome α → Option α
  | .done value _ => some value
  | .failed _ _ => none

/-- What a reader finds at each token of a part, one after another, with the rest behind it. -/
def readEach {α : Type} (read : List Token → Option α) : (part rest : List Token) → List α
  | [], _ => []
  | token :: part, rest => (read (token :: (part ++ rest))).toList ++ readEach read part rest

section ReadEach

variable {α : Type} {read : List Token → Option α}

/-- Two parts are read one after the other, where the second one is behind the first. -/
theorem readEach_append (first second rest : List Token) :
    readEach read (first ++ second) rest =
      readEach read first (second ++ rest) ++ readEach read second rest := by
  -- The rest behind the first token includes the second part as well.
  induction first with
  | nil => rfl
  | cons token first ih => simp [readEach, ih]

/-- A part in which no token starts anything gives nothing. -/
theorem readEach_eq_nil {part : List Token} (rest : List Token)
    (barren : ∀ token ∈ part, ∀ ahead, read (token :: ahead) = none) :
    readEach read part rest = [] := by
  -- No token of the part gives anything, the first one included.
  induction part with
  | nil => rfl
  | cons token part ih =>
    rw [readEach, barren token (by simp), ih fun other listed => barren other (by simp [listed])]
    rfl

/-- Reading at each token is reading from each index on. -/
theorem filterMap_range'_eq_readEach (before part rest : List Token) :
    (List.range' before.length part.length).filterMap
        (fun index => read ((before ++ (part ++ rest)).drop index)) =
      readEach read part rest := by
  induction part generalizing before with
  | nil => rfl
  | cons token part ih =>
    -- The first token of the part joins those before it.
    have later := ih (before ++ [token])
    simp only [List.append_assoc, List.singleton_append, List.length_append,
      List.length_singleton] at later
    rw [readEach, ← later, List.length_cons, List.range'_succ, List.filterMap_cons]
    simp only [List.cons_append, List.drop_left]
    cases read (token :: (part ++ rest)) <;> rfl

end ReadEach

namespace Parse

open Grammar

/-- The kinds of tokens at which a body ends. -/
def endsBody (kind : TokenKind) : Bool :=
  kind = .rightBrace || kind = .definition

/-- The tokens of a body, up to one at which it ends. -/
def bodyPart (tokens : List Token) : List Token :=
  tokens.takeWhile fun token => !endsBody token.kind

/-- The tokens from the end of a body on. -/
def afterBody (tokens : List Token) : List Token :=
  tokens.dropWhile fun token => !endsBody token.kind

/-- The closing brace of a body, where it has one. -/
def closing? (tokens : List Token) : Option Token :=
  (afterBody tokens).head?.filter (·.kind = .rightBrace)

/-- The member that starts with the first of some tokens. -/
def memberFrom? : List Token → Option Member
  | [] => none
  | token :: ahead => (member token ahead).value?

/-- A token inside a member starts none. -/
theorem memberFrom?_of_inside {token : Token} (inside : endsMember token.kind = false)
    (ahead : List Token) : memberFrom? (token :: ahead) = none := by
  cases read : member token ahead with
  | failed fault rest => rw [memberFrom?, read, Outcome.value?]
  | done value rest =>
    -- Only a keyword leads to a member, and keywords end the member before them.
    rcases keyword_of_member read with same | same <;> simp [same, endsMember,
      TokenKind.opensDeclaration] at inside

/-- A token inside a member does not end a body. -/
theorem endsBody_of_inside {kind : TokenKind} (inside : endsMember kind = false) :
    endsBody kind = false := by
  -- The two kinds that end a body also end a member.
  cases kind with
  | definition => cases inside
  | rightBrace => cases inside
  | _ => rfl

/-- A token that a member takes after its keyword is inside it. -/
theorem endsMember_of_inner {kind : TokenKind} (inner : isInner kind = true) :
    endsMember kind = false := by
  -- The four kinds that end a member also frame declarations.
  cases kind with
  | definition => cases inner
  | relation => cases inner
  | permission => cases inner
  | rightBrace => cases inner
  | _ => rfl

/-- Tokens inside members neither end a body nor start members in it. -/
theorem body_pass {inside : List Token} (inner : ∀ token ∈ inside, endsMember token.kind = false)
    (rest : List Token) :
    bodyPart (inside ++ rest) = inside ++ bodyPart rest ∧
      afterBody (inside ++ rest) = afterBody rest ∧
        readEach memberFrom? (inside ++ bodyPart rest) (afterBody rest) =
          readEach memberFrom? (bodyPart rest) (afterBody rest) := by
  -- A token inside a member ends neither the member nor the body around it.
  have open_ : ∀ token ∈ inside, (!endsBody token.kind) = true := by
    intro token listed
    rw [endsBody_of_inside (inner token listed)]
    rfl
  refine ⟨List.takeWhile_append_of_pos open_, List.dropWhile_append_of_pos open_, ?_⟩
  rw [readEach_append, readEach_eq_nil, List.nil_append]
  intro token listed ahead
  exact memberFrom?_of_inside (inner token listed) ahead

/-- A token that does not end a body is the first one of it. -/
theorem body_cons {token : Token} (open_ : endsBody token.kind = false) (ahead : List Token) :
    bodyPart (token :: ahead) = token :: bodyPart ahead ∧
      afterBody (token :: ahead) = afterBody ahead := by
  simp [bodyPart, afterBody, open_]

/-- Where a body takes one token and then tokens inside members, it goes on after them. -/
theorem body_cons_pass {token : Token} (open_ : endsBody token.kind = false)
    {inside : List Token} (inner : ∀ other ∈ inside, endsMember other.kind = false)
    (rest : List Token) :
    bodyPart (token :: (inside ++ rest)) = token :: (inside ++ bodyPart rest) ∧
      afterBody (token :: (inside ++ rest)) = afterBody rest ∧
        readEach memberFrom? (token :: (inside ++ bodyPart rest)) (afterBody rest) =
          (memberFrom? (token :: (inside ++ rest))).toList ++
            readEach memberFrom? (bodyPart rest) (afterBody rest) := by
  obtain ⟨part, after, members⟩ := body_pass inner rest
  obtain ⟨partCons, afterCons⟩ := body_cons open_ (inside ++ rest)
  refine ⟨by rw [partCons, part], by rw [afterCons, after], ?_⟩
  -- What the member is read from does not depend on where the body ends.
  have whole : inside ++ bodyPart rest ++ afterBody rest = inside ++ rest := by
    rw [List.append_assoc, bodyPart, afterBody, List.takeWhile_append_dropWhile]
  rw [readEach, whole, members]

/--
A body that does not use up its room has what can be read at each token up to its end.

It stops where its last token stops, and leaves what follows its closing brace.
-/
theorem body_spec {textStop stop : Position} {room : Nat} {tokens : List Token}
    (ordered : Ordered tokens) (spare : (body textStop room stop tokens).errors.length < room) :
    (body textStop room stop tokens).members =
        readEach memberFrom? (bodyPart tokens) (afterBody tokens) ∧
      (body textStop room stop tokens).stop =
        lastStop stop (bodyPart tokens ++ (closing? tokens).toList) ∧
      (body textStop room stop tokens).rest =
        (afterBody tokens).drop (closing? tokens).toList.length := by
  -- Each step takes a stretch of tokens that the two sides pass over alike.
  fun_induction body textStop room stop tokens with
  | case1 => simp [Body.close] at spare
  | case2 => exact ⟨rfl, rfl, rfl⟩
  | case3 stop room token ahead closes =>
    -- The closing brace ends the body and is its last token.
    have part : bodyPart (token :: ahead) = [] := by simp [bodyPart, endsBody, closes]
    have after : afterBody (token :: ahead) = token :: ahead := by
      simp [afterBody, endsBody, closes]
    have brace : closing? (token :: ahead) = some token := by simp [closing?, after, closes]
    rw [part, after, brace]
    exact ⟨rfl, rfl, rfl⟩
  | case4 stop room token ahead _ opens =>
    -- The next definition ends the body and is no part of it.
    have part : bodyPart (token :: ahead) = [] := by simp [bodyPart, endsBody, opens]
    have after : afterBody (token :: ahead) = token :: ahead := by
      simp [afterBody, endsBody, opens]
    have brace : closing? (token :: ahead) = none := by simp [closing?, after, opens]
    rw [part, after, brace]
    exact ⟨rfl, rfl, rfl⟩
  | case5 stop room token ahead open_ inside value rest read ih =>
    -- The member takes its keyword and then only tokens inside it.
    obtain ⟨taken, rfl, inner⟩ := inner_of_member read
    have unended : endsBody token.kind = false := by simp [endsBody, open_, inside]
    obtain ⟨part, after, members⟩ := body_cons_pass unended
      (fun other listed => endsMember_of_inner (inner other listed)) rest
    obtain ⟨ihMembers, ihStop, ihRest⟩ := ih (ordered.tail.right) spare
    have brace : closing? (token :: (taken ++ rest)) = closing? rest := by
      rw [closing?, after, closing?]
    -- Its range stops where the last of these tokens stops.
    obtain ⟨tree, leaves, rfl, _⟩ := member_sound read
    have leaves_eq : token :: taken = tree.tokens := List.append_cancel_right leaves
    have stops : lastStop stop (token :: taken) = tree.member.range.stop := by
      rw [leaves_eq]
      exact (tree.spans (leaves_eq ▸ ordered.left)).lastStop_eq stop
    refine ⟨?_, ?_, ?_⟩
    · rw [part, after, members, memberFrom?, read, ← ihMembers]
      rfl
    · rw [part, brace, ← List.cons_append, List.append_assoc, lastStop_append, stops]
      exact ihStop
    · rw [after, brace]
      exact ihRest
  | case6 stop room token ahead open_ inside fault rest failed next ih =>
    -- Skipping passes over tokens inside the faulty member, and the fault takes up room.
    obtain ⟨skipped, split, stops, inner⟩ := skipMember_eq token.range.stop ahead
    have unended : endsBody token.kind = false := by simp [endsBody, open_, inside]
    obtain ⟨part, after, members⟩ := body_cons_pass unended inner next.2
    rw [← split] at part after members
    have spareLater : (body textStop room next.1 next.2).errors.length < room :=
      Nat.lt_of_succ_lt_succ spare
    obtain ⟨ihMembers, ihStop, ihRest⟩ :=
      ih (ordered.sublist ((skipMember_suffix _ _).sublist.trans (List.sublist_cons_self _ _)))
        spareLater
    have brace : closing? (token :: ahead) = closing? next.2 := by
      rw [closing?, after, closing?]
    refine ⟨?_, ?_, ?_⟩
    · rw [part, after, members, memberFrom?, failed, ← ihMembers]
      rfl
    · -- The fault moves the stop to the end of what was skipped.
      have first : lastStop stop (token :: skipped) = next.1 := by
        rw [lastStop_cons]
        exact stops.symm
      rw [part, brace, ← List.cons_append, List.append_assoc, lastStop_append, first]
      exact ihStop
    · rw [after, brace]
      exact ihRest

/-- The definition of a header and of what can be read after it. -/
def definitionFrom? : List Token → Option Definition
  | [] => none
  | token :: ahead =>
    match headerAt token ahead with
    | .failed _ _ => none
    | .done found rest =>
      some (found.define
        ⟨readEach memberFrom? (bodyPart rest) (afterBody rest), [],
          lastStop found.range.stop (bodyPart rest ++ (closing? rest).toList), []⟩)

/-- A header with a body that does not use up its room is the definition from there on. -/
theorem definitionFrom?_of_header {textStop : Position} {room : Nat} {token : Token}
    {ahead rest : List Token} {found : Header} (ordered : Ordered (token :: ahead))
    (read : headerAt token ahead = .done found rest)
    (spare : (body textStop room found.range.stop rest).errors.length < room) :
    definitionFrom? (token :: ahead) =
      some (found.define (body textStop room found.range.stop rest)) := by
  -- The body starts behind the header, where the order of the tokens still holds.
  have orderedRest : Ordered rest :=
    ordered.sublist ((suffix_of_headerAt_done read).sublist.trans (List.sublist_cons_self _ _))
  obtain ⟨members, stops, _⟩ := body_spec orderedRest spare
  rw [definitionFrom?, read]
  simp only [Header.define, members, stops]

/-- Only the keyword of a definition starts one. -/
theorem definitionFrom?_of_ne {token : Token} (other : token.kind ≠ .definition)
    (ahead : List Token) : definitionFrom? (token :: ahead) = none := by
  rw [definitionFrom?, headerAt, if_neg other]

/-- What a body takes has no keyword of a definition, and its rest comes after it. -/
theorem body_taken {textStop stop : Position} {room : Nat} {tokens : List Token}
    (ordered : Ordered tokens) (spare : (body textStop room stop tokens).errors.length < room) :
    ∃ taken, tokens = taken ++ (body textStop room stop tokens).rest ∧
      ∀ token ∈ taken, token.kind ≠ .definition := by
  obtain ⟨_, _, rest_eq⟩ := body_spec ordered spare
  -- A body is cut at its first closing brace or definition, and neither is inside it.
  have whole : tokens = bodyPart tokens ++ afterBody tokens :=
    List.takeWhile_append_dropWhile.symm
  have open_ : ∀ token ∈ bodyPart tokens, token.kind ≠ .definition := by
    intro token listed same
    have unended := List.mem_takeWhile_imp listed
    simp [endsBody, same] at unended
  cases found : (afterBody tokens).head?.filter (·.kind = .rightBrace) with
  | none =>
    -- A body that is not closed takes its tokens and no more.
    refine ⟨bodyPart tokens, ?_, open_⟩
    rw [rest_eq, closing?, found]
    exact whole
  | some brace =>
    -- The closing brace is taken as well, and is no keyword.
    obtain ⟨ahead, isBrace⟩ := Option.filter_eq_some_iff.mp found
    obtain ⟨after, after_eq⟩ : ∃ after, afterBody tokens = brace :: after :=
      List.head?_eq_some_iff.mp ahead
    refine ⟨bodyPart tokens ++ [brace], ?_, ?_⟩
    · rw [rest_eq, closing?, found, after_eq, List.append_assoc]
      exact whole.trans (by rw [after_eq]; rfl)
    · intro token listed
      rcases List.mem_append.mp listed with listed | listed
      · exact open_ token listed
      · obtain rfl := List.mem_singleton.mp listed
        have closes : token.kind = .rightBrace := by simpa using isBrace
        simp [closes]

/-- Tokens with no keyword of a definition among them start none. -/
theorem readEach_definitionFrom?_eq_nil {part : List Token}
    (barren : ∀ token ∈ part, token.kind ≠ .definition) (rest : List Token) :
    readEach definitionFrom? part rest = [] :=
  readEach_eq_nil rest fun token listed ahead => definitionFrom?_of_ne (barren token listed) ahead

/-- A document that does not use up its room has the definitions that start at its tokens. -/
theorem document_spec {textStop : Position} {room : Nat} {tokens : List Token}
    (ordered : Ordered tokens) (spare : (document textStop room tokens).errors.length < room) :
    (document textStop room tokens).definitions = readEach definitionFrom? tokens [] := by
  -- The induction follows the document, from one keyword of a definition to the next.
  fun_induction document textStop room tokens with
  | case1 => simp at spare
  | case2 => rfl
  | case3 room token ahead found rest read inner later ih =>
    -- The errors of the body and those after it share the room.
    rw [List.length_append] at spare
    have spareInner : inner.errors.length < room + 1 := by omega
    have spareLater : later.errors.length < room + 1 - inner.errors.length := by omega
    -- Neither the header nor the body takes the keyword of a further definition.
    obtain ⟨headTaken, rfl, headBarren⟩ := no_definition_of_headerAt read
    have orderedRest : Ordered rest := ordered.tail.right
    obtain ⟨bodyTaken, rest_eq, bodyBarren⟩ := body_taken orderedRest spareInner
    have orderedLater : Ordered inner.rest :=
      orderedRest.sublist (body_rest_suffix _ _ _ _).sublist
    have behind : readEach definitionFrom? (headTaken ++ rest) [] =
        readEach definitionFrom? inner.rest [] := by
      rw [rest_eq, ← List.append_assoc, readEach_append, readEach_definitionFrom?_eq_nil]
      · rfl
      · intro other listed
        rcases List.mem_append.mp listed with listed | listed
        · exact headBarren other listed
        · exact bodyBarren other listed
    rw [readEach, List.append_nil, definitionFrom?_of_header ordered read spareInner, behind,
      ih orderedLater spareLater]
    rfl
  | case4 room token ahead fault rest failed later ih =>
    have spareLater : later.errors.length < room := Nat.lt_of_succ_lt_succ spare
    have orderedLater : Ordered (skipToDefinition ahead) :=
      ordered.tail.sublist (List.dropWhile_sublist _)
    -- What is skipped has no keyword of a definition.
    have barren : ∀ other ∈ ahead.takeWhile (·.kind != .definition), other.kind ≠ .definition := by
      intro other listed
      simpa using List.mem_takeWhile_imp listed
    have behind : readEach definitionFrom? ahead [] =
        readEach definitionFrom? (skipToDefinition ahead) [] := by
      calc
        readEach definitionFrom? ahead []
        _ = readEach definitionFrom?
              (ahead.takeWhile (·.kind != .definition) ++ skipToDefinition ahead) [] := by
          rw [skipToDefinition, List.takeWhile_append_dropWhile]
        _ = readEach definitionFrom? (skipToDefinition ahead) [] := by
          rw [readEach_append, readEach_definitionFrom?_eq_nil barren, List.nil_append]
    rw [readEach, List.append_nil, definitionFrom?, failed, behind, ← ih orderedLater spareLater]
    rfl

end Parse

end AuthSchema
