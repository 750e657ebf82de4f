import AuthSchema.Proofs.Parse.Agreement

/-!
Less room for errors only cuts a reading short.

* The errors are the first ones that more room would find, as many as there is room for.
* With room to spare, more of it changes nothing.
* Otherwise the last definition is cut off inside its body, and no other one is changed.
-/

namespace AuthSchema

/-- A definition that starts as another one does, and has only the first of its members. -/
structure Definition.CutFrom (cut full : Definition) : Prop where
  name_eq : cut.name = full.name
  nameRange_eq : cut.nameRange = full.nameRange
  start_eq : cut.range.start = full.range.start
  relations : cut.relations <+: full.relations
  permissions : cut.permissions <+: full.permissions

/-- Every definition is cut from itself, where nothing is cut off. -/
theorem Definition.CutFrom.refl (definition : Definition) : definition.CutFrom definition :=
  ⟨rfl, rfl, rfl, List.prefix_rfl, List.prefix_rfl⟩

namespace Parse

variable {textStop stop : Position} {room other : Nat} {tokens : List Token}

/-- A body with less room than another one, over the same tokens. -/
structure Body.CutFrom (cut full : Body) (room : Nat) : Prop where
  /-- The errors are the first ones, as many as there is room for. -/
  errors : cut.errors = full.errors.take room
  /-- The members are the first ones. -/
  members : cut.members <+: full.members
  /-- With room to spare nothing is cut off. -/
  spare : cut.errors.length < room → cut = full

namespace Body.CutFrom

/-- What has at most as many errors as there is room for is not cut off. -/
theorem refl {body : Body} (fits : body.errors.length ≤ room) : body.CutFrom body room :=
  ⟨(List.take_of_length_le fits).symm, List.prefix_rfl, fun _ => rfl⟩

/-- A member in front of both bodies takes up no room. -/
theorem withMember {cut full : Body} (cuts : cut.CutFrom full room) (member : Member) :
    (cut.withMember member).CutFrom (full.withMember member) room where
  errors := cuts.errors
  members := List.cons_prefix_cons.mpr ⟨rfl, cuts.members⟩
  spare less := by rw [cuts.spare less]

/-- An error in front of both bodies takes up room for one. -/
theorem withError {cut full : Body} (cuts : cut.CutFrom full room) (error : SyntaxError) :
    (cut.withError error).CutFrom (full.withError error) (room + 1) where
  errors := congrArg (error :: ·) cuts.errors
  members := cuts.members
  spare less := by rw [cuts.spare (Nat.lt_of_succ_lt_succ less)]

end Body.CutFrom

/-- Less room cuts a body short. -/
theorem body_cutFrom (stop : Position) (tokens : List Token) (less : room ≤ other) :
    (body textStop room stop tokens).CutFrom (body textStop other stop tokens) room := by
  -- Both bodies take the same steps, until there is no room left for the shorter one.
  fun_induction body textStop room stop tokens generalizing other with
  | case1 stop tokens =>
    -- Without any room nothing is read, which is where every body starts.
    exact ⟨rfl, List.nil_prefix, fun spare => absurd spare (Nat.not_lt_zero _)⟩
  | case2 stop room =>
    -- At the end of the text both bodies end with the same error, for which both have room.
    rw [body_nil (by omega)]
    exact .refl (Nat.succ_le_succ (Nat.zero_le room))
  | case3 stop room token ahead closes =>
    -- At the brace both bodies are closed without an error.
    rw [body_of_close (by omega) closes]
    exact .refl (Nat.zero_le _)
  | case4 stop room token ahead _ opens =>
    -- At the next definition both bodies end with the same error.
    rw [body_of_definition (by omega) opens]
    exact .refl (Nat.succ_le_succ (Nat.zero_le room))
  | case5 stop room token ahead _ _ value rest read ih =>
    -- Both bodies keep the member, and the room is what it was.
    rw [body_of_member (by omega) read]
    exact (ih less).withMember value
  | case6 stop room token ahead open_ inside fault rest failed next =>
    rename_i ih
    -- The fault takes room for one error from both of them.
    obtain ⟨other, rfl⟩ : ∃ others, other = others + 1 := ⟨other - 1, by omega⟩
    rw [body_of_fault open_ inside failed]
    exact (ih (Nat.le_of_succ_le_succ less)).withError _

/-- The definition of a header and a body that is cut short is cut from that of the whole body. -/
theorem Header.define_cutFrom (header : Header) {cut full : Body} (cuts : cut.CutFrom full room) :
    (header.define cut).CutFrom (header.define full) where
  name_eq := rfl
  nameRange_eq := rfl
  start_eq := rfl
  relations := cuts.members.filterMap Member.relation?
  permissions := cuts.members.filterMap Member.permission?

/-- A document with less room than another one, over the same tokens. -/
structure Document.CutFrom (cut full : Document) (room : Nat) : Prop where
  /-- The errors are the first ones, as many as there is room for. -/
  errors : cut.errors = full.errors.take room
  /-- All definitions but the last are the first ones. -/
  dropLast : cut.definitions.dropLast <+: full.definitions
  /-- The last definition is cut from the one in its place. -/
  last : ∀ definition, cut.definitions.getLast? = some definition →
    ∃ whole, full.definitions[cut.definitions.length - 1]? = some whole ∧
      definition.CutFrom whole
  /-- With room to spare nothing is cut off. -/
  spare : cut.errors.length < room → cut = full

namespace Document.CutFrom

variable {cut full : Document}

/-- A document without definitions is cut from every other one where its errors are. -/
theorem of_nil {errors : List SyntaxError} (first : errors = full.errors.take room)
    (spare : errors.length < room → ⟨[], errors⟩ = full) :
    Document.CutFrom ⟨[], errors⟩ full room :=
  ⟨first, List.nil_prefix, by simp, spare⟩

/-- A faulty header takes up room for its error. -/
theorem withError (cuts : cut.CutFrom full room) (error : SyntaxError) :
    Document.CutFrom ⟨cut.definitions, error :: cut.errors⟩
      ⟨full.definitions, error :: full.errors⟩ (room + 1) where
  errors := congrArg (error :: ·) cuts.errors
  dropLast := cuts.dropLast
  last := cuts.last
  spare less := by rw [cuts.spare (Nat.lt_of_succ_lt_succ less)]

/-- A definition in front of both documents takes up room for the errors inside it. -/
theorem withDefinition {errors : List SyntaxError}
    (cuts : cut.CutFrom full (room - errors.length)) (fits : errors.length ≤ room)
    (definition : Definition) :
    Document.CutFrom ⟨definition :: cut.definitions, errors ++ cut.errors⟩
      ⟨definition :: full.definitions, errors ++ full.errors⟩ room where
  errors := by
    -- The errors inside all fit, so that only those behind are cut off.
    show errors ++ cut.errors = (errors ++ full.errors).take room
    rw [List.take_append, List.take_of_length_le fits, cuts.errors]
  dropLast := by
    -- Where nothing follows, the definition itself is the last one.
    cases definitions : cut.definitions with
    | nil => exact List.nil_prefix
    | cons next later =>
      have first := cuts.dropLast
      rw [definitions] at first
      exact List.cons_prefix_cons.mpr ⟨rfl, first⟩
  last := by
    intro last found
    cases definitions : cut.definitions with
    | nil =>
      -- The definition is the only one, and so it stands in the first place.
      rw [definitions] at found
      obtain rfl : definition = last := by simpa using found
      exact ⟨definition, rfl, .refl definition⟩
    | cons next later =>
      -- The last one is that of the documents behind, one place further on.
      rw [definitions, List.getLast?_cons_cons, ← definitions] at found
      obtain ⟨whole, placed, cutLast⟩ := cuts.last last found
      refine ⟨whole, ?_, cutLast⟩
      rw [definitions] at placed
      exact placed
  spare less := by
    -- What is spare of the whole room is spare of what the errors inside leave.
    have less : (errors ++ cut.errors).length < room := less
    rw [List.length_append] at less
    rw [cuts.spare (by omega)]

/-- A document that ends with a definition whose body has used up the room. -/
theorem of_full {inner : Body} {whole : Definition} {definition : Definition}
    {errors : List SyntaxError} (used : inner.errors.length = room)
    (first : inner.errors = errors.take room) (cutLast : definition.CutFrom whole)
    (later : Document) :
    Document.CutFrom ⟨[definition], inner.errors⟩
      ⟨whole :: later.definitions, errors ++ later.errors⟩ room where
  errors := by
    -- The body alone has all the errors there is room for.
    have enough : room ≤ errors.length := by
      rw [first, List.length_take] at used
      omega
    show inner.errors = (errors ++ later.errors).take room
    rw [List.take_append_of_le_length enough, first]
  dropLast := List.nil_prefix
  last := by
    intro last found
    obtain rfl : definition = last := by simpa using found
    exact ⟨whole, rfl, cutLast⟩
  spare less := by
    have less : inner.errors.length < room := less
    omega

end Document.CutFrom

/-- Less room cuts a document short. -/
theorem document_cutFrom (tokens : List Token) (less : room ≤ other) :
    (document textStop room tokens).CutFrom (document textStop other tokens) room := by
  -- The errors of a body use up room, so that what is left of it varies along the document.
  fun_induction document textStop room tokens generalizing other with
  -- Without any room the document has no definition, and neither has the empty text.
  | case1 tokens => exact .of_nil rfl (fun spare => absurd spare (Nat.not_lt_zero _))
  | case2 room => exact .of_nil (by rw [document_nil, List.take_nil]) fun _ => document_nil.symm
  | case3 room token ahead found rest read inner later =>
    rename_i ih
    -- The body is cut first, and how much room it leaves decides what follows.
    have cuts : inner.CutFrom (body textStop other found.range.stop rest) (room + 1) :=
      body_cutFrom found.range.stop rest less
    have fits : inner.errors.length ≤ room + 1 := length_errors_body_le
    rw [document_of_header (by omega) read rfl]
    by_cases spare : inner.errors.length < room + 1
    · -- The body is read as a whole, and both documents go on behind it.
      rw [← cuts.spare spare]
      exact (ih (Nat.sub_le_sub_right less _)).withDefinition fits _
    · -- The body has used up the room, and the document ends with it.
      have used : inner.errors.length = room + 1 := by omega
      have ended : later = ⟨[], []⟩ := by
        show document textStop (room + 1 - inner.errors.length) inner.rest = _
        rw [used, Nat.sub_self, document]
      rw [ended, List.append_nil]
      exact .of_full used cuts.errors (found.define_cutFrom cuts) _
  | case4 room token ahead fault rest failed later =>
    rename_i ih
    -- The fault takes room for one error from both of them.
    obtain ⟨other, rfl⟩ : ∃ others, other = others + 1 := ⟨other - 1, by omega⟩
    rw [document_of_fault failed]
    exact (ih (Nat.le_of_succ_le_succ less)).withError _

/--
Of two recovering readers, the one that stops after fewer errors only cuts short what the other reads.

* It finds the first errors of the other one, and at most as many as it has room for.
* If it finds fewer, both give the same report.
* Its definitions are the first ones of the other reader, the last of which may be cut off.
-/
theorem parseWith_cutFrom (source : String) (fewer more : Options)
    (fewerRecovers : fewer.recover = true) (moreRecovers : more.recover = true)
    (le : fewer.maxErrors ≤ more.maxErrors) :
    (parseWith fewer source).errors.length ≤ max 1 fewer.maxErrors ∧
      (parseWith fewer source).errors =
        (parseWith more source).errors.take (max 1 fewer.maxErrors) ∧
      ((parseWith fewer source).errors.length < max 1 fewer.maxErrors →
        parseWith fewer source = parseWith more source) ∧
      ∃ cut full, (parseWith fewer source).schema? = some cut ∧
        (parseWith more source).schema? = some full ∧
        cut.definitions.dropLast <+: full.definitions ∧
        ∀ definition, cut.definitions.getLast? = some definition →
          ∃ whole, full.definitions[cut.definitions.length - 1]? = some whole ∧
            definition.CutFrom whole := by
  -- A recovering reader has room for one error at least, and for as many as it was asked.
  have fewerRoom : fewer.room = max 1 fewer.maxErrors := by
    rw [Options.room, if_pos fewerRecovers]
  have moreRoom : more.room = max 1 more.maxErrors := by
    rw [Options.room, if_pos moreRecovers]
  have fits : (readTokens fewer source).errors.length ≤ max 1 fewer.maxErrors := by
    rw [← fewerRoom]
    exact length_errors_document_le
  have cuts : (readTokens fewer source).CutFrom (readTokens more source)
      (max 1 fewer.maxErrors) := by
    rw [← fewerRoom]
    exact document_cutFrom _ (by omega)
  -- A recovering reader reports all that the document has.
  rw [parseWith_eq, parseWith_eq, fewerRecovers, moreRecovers]
  refine ⟨fits, cuts.errors, ?_, _, _, rfl, rfl, cuts.dropLast, cuts.last⟩
  intro spare
  rw [cuts.spare spare]

/-- A text with two stray names between the members of its first definition. -/
def twoStrays : String :=
  "definition a \x7b relation r: a oops relation s: a oops relation t: a \x7d definition b \x7b\x7d"

/-- With room for one error, the first of three relations is kept, and the rest is cut off. -/
theorem parseWith_cutFrom_twoStrays :
    (parseWith ⟨true, 1⟩ twoStrays).errors = (parseWith ⟨true, 3⟩ twoStrays).errors.take 1 ∧
      ∃ short long, (parseWith ⟨true, 1⟩ twoStrays).schema? = some short ∧
        (parseWith ⟨true, 3⟩ twoStrays).schema? = some long ∧
        short.definitions.map (·.relations.length) = [1] ∧
        long.definitions.map (·.relations.length) = [3, 0] ∧
        ∃ cut whole, short.definitions = [cut] ∧ long.definitions[0]? = some whole ∧
          cut.CutFrom whole := by
  have keptShort : (parseWith ⟨true, 1⟩ twoStrays).schema?.map
      (·.definitions.map (·.relations.length)) = some [1] := by
    decide +kernel
  have keptLong : (parseWith ⟨true, 3⟩ twoStrays).schema?.map
      (·.definitions.map (·.relations.length)) = some [3, 0] := by
    decide +kernel
  -- The agreement gives the last definition, which evaluation shows to be the only one.
  obtain ⟨_, first, _, short, long, readShort, readLong, _, last⟩ :=
    parseWith_cutFrom twoStrays ⟨true, 1⟩ ⟨true, 3⟩ rfl rfl (by decide)
  rw [readShort, Option.map_some, Option.some_inj] at keptShort
  rw [readLong, Option.map_some, Option.some_inj] at keptLong
  obtain ⟨cut, alone, _⟩ := List.map_eq_singleton_iff.mp keptShort
  obtain ⟨whole, placed, cutLast⟩ := last cut (by rw [alone]; rfl)
  rw [alone] at placed
  exact ⟨first, short, long, readShort, readLong, keptShort, keptLong, cut, whole, alone, placed,
    cutLast⟩

end Parse

end AuthSchema
