import AuthSchema.Parse.Basic
import AuthSchema.Proofs.Parse.Completeness

/-! Reading accepts exactly the texts whose tokens the grammar derives, and gives what is derived. -/

namespace AuthSchema

open Grammar

namespace Parse

/-- Every reader has room for an error at first. -/
theorem Options.room_pos (options : Options) : 0 < options.room := by
  -- A recovering reader has room for at least one error, whatever was asked for.
  unfold Options.room
  split
  · omega
  · exact Nat.one_pos

/-- What the tokens of a text are read as, in the way the options say. -/
def readTokens (options : Options) (source : String) : Document :=
  document (tokenize source).stop options.room (tokenize source).tokens

/-- A report has the errors of the document, and its definitions unless a strict reader fails. -/
theorem parseWith_eq (options : Options) (source : String) :
    parseWith options source =
      ⟨if options.recover || (readTokens options source).errors.isEmpty then
          some ⟨(readTokens options source).definitions⟩
        else
          none,
        (readTokens options source).errors⟩ := by
  unfold parseWith
  dsimp only
  -- Both sides test the same condition, one around the report and one inside it.
  split
  · rename_i kept
    exact congrArg (Report.mk · _) (if_pos kept).symm
  · rename_i dropped
    exact congrArg (Report.mk · _) (if_neg dropped).symm

/-- A report comes to its first error, or else to the definitions of the document. -/
theorem toResult_parseWith (options : Options) (source : String) :
    (parseWith options source).toResult =
      match (readTokens options source).errors.head? with
      | some error => .error error
      | none => .ok ⟨(readTokens options source).definitions⟩ := by
  rw [parseWith_eq, Report.toResult]
  dsimp only
  -- With an error the schema is not looked at, and without one it is always there.
  cases (readTokens options source).errors with
  | nil => simp
  | cons error later => rfl

end Parse

/-- A derivation of a list of tokens, within the limits on paths and on nesting. -/
structure Grammar.SchemaTree.Derives (tree : SchemaTree) (tokens : List Token) : Prop where
  tokens_eq : tree.tokens = tokens
  limits : tree.WithinLimits

/-- A derivation of the tokens of a text is what reading the text gives. -/
theorem parse_eq_ok_of_derives {source : String} {tree : SchemaTree}
    (derives : tree.Derives (tokenize source).tokens) : parse source = .ok tree.schema := by
  have read := Parse.document_complete derives.limits (tokenize source).stop
    Parse.Options.strict.room_pos
  -- The tokens of the text are the leaves, which are read back without an error.
  have leaves : tree.definitions.flatMap DefinitionTree.tokens = (tokenize source).tokens :=
    derives.tokens_eq
  rw [leaves] at read
  unfold parse
  rw [Parse.toResult_parseWith, Parse.readTokens, read]
  rfl

/-- A text that can be read has a derivation of what reading it gives. -/
theorem exists_derives_of_parse_eq_ok {source : String} {schema : Schema}
    (accepted : parse source = .ok schema) :
    ∃ tree : SchemaTree, tree.Derives (tokenize source).tokens ∧ tree.schema = schema := by
  unfold parse at accepted
  rw [Parse.toResult_parseWith] at accepted
  -- Without an error at the head there is none at all.
  split at accepted
  · cases accepted
  · rename_i faultless
    obtain ⟨tree, leaves, limits, definitions⟩ :=
      Parse.document_sound Parse.Options.strict.room_pos (List.head?_eq_none_iff.mp faultless)
    refine ⟨tree, ⟨leaves, limits⟩, ?_⟩
    -- A schema is nothing but its definitions.
    cases accepted
    exact congrArg Schema.mk definitions

/--
A text is read as a schema exactly when its tokens have a derivation within the limits, and the
schema is what every such derivation derives.
-/
theorem parse_eq_ok_iff_derives (source : String) (schema : Schema) :
    parse source = .ok schema ↔
      (∃ tree : SchemaTree, tree.Derives (tokenize source).tokens) ∧
        ∀ tree : SchemaTree, tree.Derives (tokenize source).tokens → tree.schema = schema := by
  constructor
  · intro accepted
    obtain ⟨tree, derives, -⟩ := exists_derives_of_parse_eq_ok accepted
    refine ⟨⟨tree, derives⟩, ?_⟩
    intro other otherDerives
    -- Both are the result of the same reading.
    have same := parse_eq_ok_of_derives otherDerives
    rw [accepted] at same
    exact (Except.ok.inj same).symm
  · -- There is a derivation, and what it derives is what the text is read as.
    rintro ⟨⟨tree, derives⟩, unique⟩
    rw [← unique tree derives]
    exact parse_eq_ok_of_derives derives

end AuthSchema
