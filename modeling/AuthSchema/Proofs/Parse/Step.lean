import AuthSchema.Parse.Document
import AuthSchema.Proofs.Parse.Run

/-!
How a path, a body and a document go on from the token ahead.

Bodies and documents do so while there is room for an error.
-/

namespace AuthSchema.Parse

open Production

section Path

variable {expected : Expectation} {first slash second : Token} {rest : List Token}

/-- Without a name ahead there is no path. -/
theorem run_path_of_ne {tokens : List Token} (noName : nextKind tokens ≠ some .identifier) :
    (path expected).run tokens = .failed (.expected expected) tokens := by
  rw [path, run_bind, run_take_of_ne noName]

/-- A name without a slash behind it is the whole path. -/
theorem run_path_single (isName : first.kind = .identifier)
    (noSlash : nextKind rest ≠ some .slash) :
    (path expected).run (first :: rest) = .done (first.text, first.range) rest := by
  simp only [path, run_bind, run_take_of_kind isName, run_take?_of_ne noSlash, run_pure]

/-- Behind a slash, another name must come. -/
theorem run_path_open (isName : first.kind = .identifier) (isSlash : slash.kind = .slash)
    (noName : nextKind rest ≠ some .identifier) :
    (path expected).run (first :: slash :: rest) =
      .failed (.expected .typeNameAfterSlash) rest := by
  simp only [path, run_bind, run_take_of_kind isName, run_take?_of_kind isSlash,
    run_take_of_ne noName]

/-- Two names with a slash between them are a path where nothing else is between them. -/
theorem run_path_pair (isName : first.kind = .identifier) (isSlash : slash.kind = .slash)
    (isSecond : second.kind = .identifier) :
    (path expected).run (first :: slash :: second :: rest) =
      if first.isAdjacent slash && slash.isAdjacent second then
        .done (joinPath first second, first.range.cover second.range) rest
      else
        .failed (.spacedPath first second) rest := by
  simp only [path, run_bind, run_take_of_kind isName, run_take?_of_kind isSlash,
    run_take_of_kind isSecond]
  -- The condition is the same on both sides, and each branch finishes in its own way.
  split
  · rfl
  · rfl

end Path

variable {textStop stop : Position} {room : Nat} {token : Token} {ahead rest : List Token}

/-- A body that the end of the text cuts short has that error alone. -/
theorem body_nil (roomy : 0 < room) :
    body textStop room stop [] =
      (Body.close stop []).withError (body.unclosed.report [] textStop) := by
  -- With some room left, the recursion opens on the tokens alone.
  obtain ⟨room, rfl⟩ := Nat.exists_eq_add_of_lt roomy
  rw [body]

/-- A closing brace ends a body. -/
theorem body_of_close (roomy : 0 < room) (closes : token.kind = .rightBrace) :
    body textStop room stop (token :: ahead) = .close token.range.stop ahead := by
  obtain ⟨room, rfl⟩ := Nat.exists_eq_add_of_lt roomy
  rw [body, if_pos closes]

/-- A body that the next definition cuts short has that error alone. -/
theorem body_of_definition (roomy : 0 < room) (opens : token.kind = .definition) :
    body textStop room stop (token :: ahead) =
      (Body.close stop (token :: ahead)).withError
        (body.unclosed.report (token :: ahead) textStop) := by
  obtain ⟨room, rfl⟩ := Nat.exists_eq_add_of_lt roomy
  have open_ : token.kind ≠ .rightBrace := by simp [opens]
  rw [body, if_neg open_, if_pos opens]

/-- Only the keyword of a relation or a permission leads to a member. -/
theorem keyword_of_member {value : Member} (read : member token ahead = .done value rest) :
    token.kind = .relation ∨ token.kind = .permission := by
  -- The first token decides, and a token that is no keyword of a member fails.
  unfold member at read
  split at read
  · rename_i isRelation
    exact .inl isRelation
  · rename_i isPermission
    exact .inr isPermission
  · cases read

/-- A member that is read is kept, and the body goes on after it. -/
theorem body_of_member (roomy : 0 < room) {value : Member}
    (read : member token ahead = .done value rest) :
    body textStop room stop (token :: ahead) =
      (body textStop room value.range.stop rest).withMember value := by
  obtain ⟨room, rfl⟩ := Nat.exists_eq_add_of_lt roomy
  -- A keyword of a member neither closes the body nor opens a definition.
  have inner : token.kind ≠ .rightBrace ∧ token.kind ≠ .definition := by
    rcases keyword_of_member read with same | same <;> simp [same]
  rw [body, if_neg inner.1, if_neg inner.2]
  -- How the member is read is known, which leaves one of the two branches.
  split
  · rename_i found left result
    rw [read] at result
    cases result
    rfl
  · rename_i fault left result
    rw [read] at result
    cases result

/-- A member that is not read is an error, and the body goes on at the next token that ends it. -/
theorem body_of_fault (open_ : token.kind ≠ .rightBrace) (inside : token.kind ≠ .definition)
    {fault : Fault} (failed : member token ahead = .failed fault rest) :
    body textStop (room + 1) stop (token :: ahead) =
      (body textStop room (skipMember token.range.stop ahead).1
        (skipMember token.range.stop ahead).2).withError (fault.report rest textStop) := by
  rw [body, if_neg open_, if_neg inside]
  -- How the member fails is known, which leaves the other branch.
  split
  · rename_i found left result
    rw [failed] at result
    cases result
  · rename_i other left result
    rw [failed] at result
    cases result
    rfl

/-- No token ahead ends a document. -/
theorem document_nil : document textStop room [] = ⟨[], []⟩ := by
  cases room <;> rw [document]

/-- A header that is read is followed by its body, and then by the rest of the document. -/
theorem document_of_header (roomy : 0 < room) {found : Header} {inner : Body}
    (read : headerAt token ahead = .done found rest)
    (inside : body textStop room found.range.stop rest = inner) :
    document textStop room (token :: ahead) =
      let later := document textStop (room - inner.errors.length) inner.rest
      ⟨found.define inner :: later.definitions, inner.errors ++ later.errors⟩ := by
  obtain ⟨room, rfl⟩ := Nat.exists_eq_add_of_lt roomy
  rw [document]
  -- How the header is read is known, which leaves one of the two branches.
  split
  · rename_i head left result
    rw [read] at result
    cases result
    simp only [Nat.zero_add] at inside ⊢
    rw [inside]
  · rename_i fault left result
    rw [read] at result
    cases result

/-- A header that is not read is an error, and the document goes on at the next definition. -/
theorem document_of_fault {fault : Fault} (failed : headerAt token ahead = .failed fault rest) :
    document textStop (room + 1) (token :: ahead) =
      let later := document textStop room (skipToDefinition ahead)
      ⟨later.definitions, fault.report rest textStop :: later.errors⟩ := by
  rw [document]
  -- How the header fails is known, which leaves the other branch.
  split
  · rename_i head left result
    rw [failed] at result
    cases result
  · rename_i other left result
    rw [failed] at result
    cases result
    rfl

end AuthSchema.Parse
