import AuthSchema.Proofs.Parse.Accept

/-! Readers with different room for errors find the same first error, or read the same schema. -/

namespace AuthSchema.Parse

open Grammar

variable {textStop stop : Position} {room other : Nat} {tokens : List Token}

/-- A body that has no error with some room is the same with any other. -/
theorem body_eq_of_faultless (roomy : 0 < room) (otherRoomy : 0 < other)
    (faultless : (body textStop room stop tokens).errors = []) :
    body textStop other stop tokens = body textStop room stop tokens := by
  -- The derivation of the body is read back whatever the room.
  obtain ⟨members, closing, rest, rfl, read, limits⟩ := body_sound roomy faultless
  rw [read]
  exact body_complete limits closing rest textStop otherRoomy stop

/-- A document that has no error with some room is the same with any other. -/
theorem document_eq_of_faultless (roomy : 0 < room) (otherRoomy : 0 < other)
    (faultless : (document textStop room tokens).errors = []) :
    document textStop other tokens = document textStop room tokens := by
  obtain ⟨tree, rfl, limits, _⟩ := document_sound roomy faultless
  -- Both are what the derivation of the tokens is read back as.
  have read := document_complete limits textStop roomy
  have otherRead := document_complete limits textStop otherRoomy
  exact otherRead.trans read.symm

/-- The first error of a body does not depend on the room, as long as there is some. -/
theorem head?_errors_body (roomy : 0 < room) (otherRoomy : 0 < other) :
    (body textStop room stop tokens).errors.head? =
      (body textStop other stop tokens).errors.head? := by
  -- The two bodies go on in step until one of them meets an error, which the other meets as well.
  fun_induction body textStop room stop tokens with
  | case1 => omega
  | case2 stop room => rw [body_nil otherRoomy]
  | case3 stop room token ahead closes => rw [body_of_close otherRoomy closes]
  | case4 stop room token ahead _ opens => rw [body_of_definition otherRoomy opens]
  | case5 stop room token ahead _ _ value rest read ih =>
    rw [body_of_member otherRoomy read]
    exact ih (by omega)
  | case6 stop room token ahead open_ inside fault rest failed =>
    -- The error of the member that failed is the first one of both.
    obtain ⟨other, rfl⟩ := Nat.exists_eq_add_of_lt otherRoomy
    rw [Nat.zero_add, body_of_fault open_ inside failed]
    rfl

/-- The first error of a document does not depend on the room, as long as there is some. -/
theorem head?_errors_document (roomy : 0 < room) (other : Nat) (otherRoomy : 0 < other) :
    (document textStop room tokens).errors.head? =
      (document textStop other tokens).errors.head? := by
  -- A body uses up room, so that the room of the other reader varies along the document.
  fun_induction document textStop room tokens generalizing other with
  | case1 => omega
  | case2 => rw [document_nil]
  | case3 room token ahead header rest read inner later ih =>
    rw [document_of_header otherRoomy read rfl]
    simp only [List.head?_append]
    by_cases faultless : inner.errors = []
    · -- Without an error in the body, both documents go on after the same body.
      have same : body textStop other header.range.stop rest = inner :=
        body_eq_of_faultless (by omega) otherRoomy faultless
      rw [same, faultless]
      exact ih (by simp [faultless]) other otherRoomy
    · -- Otherwise the first error of the body is the first one of the document.
      have same : inner.errors.head? =
          (body textStop other header.range.stop rest).errors.head? :=
        head?_errors_body (by omega) otherRoomy
      rw [← same]
      obtain ⟨error, more, errors_eq⟩ := List.exists_cons_of_ne_nil faultless
      simp [errors_eq]
  | case4 room token ahead fault rest failed =>
    -- The error of the header that failed is the first one of both.
    obtain ⟨other, rfl⟩ := Nat.exists_eq_add_of_lt otherRoomy
    rw [Nat.zero_add, document_of_fault failed]
    rfl

/-- A body has at most as many errors as there is room for. -/
theorem length_errors_body_le : (body textStop room stop tokens).errors.length ≤ room := by
  -- Each error takes one place of the room, and nothing else does.
  fun_induction body textStop room stop tokens with
  | case1 => exact Nat.zero_le _
  | case2 => exact Nat.succ_le_succ (Nat.zero_le _)
  | case3 => exact Nat.zero_le _
  | case4 => exact Nat.succ_le_succ (Nat.zero_le _)
  | case5 stop room token ahead _ _ value rest read ih => exact ih
  | case6 stop room token ahead _ _ fault rest failed next ih => exact Nat.succ_le_succ ih

/-- A document has at most as many errors as there is room for. -/
theorem length_errors_document_le : (document textStop room tokens).errors.length ≤ room := by
  fun_induction document textStop room tokens with
  | case1 => exact Nat.zero_le _
  | case2 => exact Nat.zero_le _
  | case3 room token ahead header rest read inner later ih =>
    -- The document only has the room that the body has left.
    have inside : inner.errors.length ≤ room + 1 := length_errors_body_le
    have after : later.errors.length ≤ room + 1 - inner.errors.length := ih
    rw [List.length_append]
    omega
  | case4 room token ahead fault rest failed later ih => exact Nat.succ_le_succ ih

/--
Readers agree whatever their options.

* All come to the same result.
* All find the same first error, and without one they give the same report.
* A recovering reader always gives a schema.
* A strict reader gives none exactly when it finds an error, and then it finds no other.
-/
theorem parseWith_agree (source : String) (first second : Options) :
    (parseWith first source).toResult = (parseWith second source).toResult ∧
      (parseWith first source).errors.head? = (parseWith second source).errors.head? ∧
      ((parseWith first source).errors = [] → parseWith first source = parseWith second source) ∧
      (first.recover = true → ∃ schema, (parseWith first source).schema? = some schema) ∧
      (first.recover = false →
        ((parseWith first source).schema? = none ↔ (parseWith first source).errors ≠ []) ∧
          ((parseWith first source).errors ≠ [] →
            ∃ error, (parseWith first source).errors = [error])) := by
  have heads : (readTokens first source).errors.head? = (readTokens second source).errors.head? :=
    head?_errors_document first.room_pos second.room second.room_pos
  have same : (readTokens first source).errors = [] →
      readTokens second source = readTokens first source :=
    document_eq_of_faultless first.room_pos second.room_pos
  refine ⟨?_, ?_, ?_, ?_, ?_⟩
  · -- A first error is the result of both, and without one both read the same.
    rw [toResult_parseWith, toResult_parseWith, ← heads]
    cases errors : (readTokens first source).errors with
    | nil => rw [same errors]
    | cons error more => rfl
  · rw [parseWith_eq, parseWith_eq]
    exact heads
  · -- Without errors the documents are the same, and both readers keep them.
    rw [parseWith_eq, parseWith_eq]
    intro faultless
    have faultless : (readTokens first source).errors = [] := faultless
    simp [same faultless, faultless]
  · -- A recovering reader gives what it read, errors or not.
    intro recovers
    rw [parseWith_eq, recovers]
    exact ⟨_, rfl⟩
  · intro strict
    -- A strict reader has room for one error.
    have single : (readTokens first source).errors.length ≤ first.room := length_errors_document_le
    rw [Options.room, strict] at single
    rw [parseWith_eq, strict]
    cases errors : (readTokens first source).errors with
    | nil => simp
    | cons error more =>
      have alone : more = [] := by
        rw [errors] at single
        simpa using single
      simp [alone]

/-- Readers agree on a definition, and on one that is not closed, which only one of them keeps. -/
theorem parseWith_agree_unclosed :
    parseWith .bestEffort "definition a\x7b\x7d" = parseWith .strict "definition a\x7b\x7d" ∧
      (parseWith .bestEffort "definition a\x7b").toResult =
        (parseWith .strict "definition a\x7b").toResult ∧
      (∃ schema, (parseWith .bestEffort "definition a\x7b").schema? = some schema) ∧
      (parseWith .strict "definition a\x7b").schema? = none ∧
      ∃ error, (parseWith .strict "definition a\x7b").errors = [error] := by
  -- The closed definition has no error, which the third part of the agreement asks for.
  obtain ⟨_, _, same, _⟩ := parseWith_agree "definition a\x7b\x7d" .bestEffort .strict
  obtain ⟨agree, _, _, kept, _⟩ := parseWith_agree "definition a\x7b" .bestEffort .strict
  obtain ⟨_, _, _, _, dropped⟩ := parseWith_agree "definition a\x7b" .strict .bestEffort
  obtain ⟨absent, alone⟩ := dropped rfl
  have faulty : (parseWith .strict "definition a\x7b").errors ≠ [] := by decide +kernel
  exact ⟨same (by decide +kernel), agree, kept rfl, absent.mpr faulty, alone faulty⟩

end AuthSchema.Parse
