import AuthSchema.Parse.Document

/-! Reading a schema from text, either up to the first syntax error or past all of them. -/

namespace AuthSchema

namespace Parse

/-- How to go about syntax errors. -/
structure Options where
  /-- Whether to read on after an error and keep what can be read. -/
  recover : Bool := false
  /-- The number of errors after which a recovering reader stops. -/
  maxErrors : Nat := 100
  deriving DecidableEq, Repr, Inhabited

namespace Options

/-- Stops at the first error and then gives no schema. -/
def strict : Options :=
  {}

/-- Reads on after errors and always gives a schema. -/
def bestEffort : Options :=
  { recover := true }

/-- Sets the number of errors after which to stop, which is at least one. -/
def limitErrors (options : Options) (count : Nat) : Options :=
  -- A reader without room for any error could never stop at one.
  { options with maxErrors := max 1 count }

/-- The number of errors that can be recorded: one for a strict reader, and at least one for any. -/
def room (options : Options) : Nat :=
  if options.recover then max 1 options.maxErrors else 1

end Options

/-- What came of reading a text. -/
structure Report where
  /-- The schema, unless a strict reader found an error. -/
  schema? : Option Schema
  /-- The syntax errors, in document order. -/
  errors : List SyntaxError
  deriving DecidableEq, Repr

namespace Report

/-- Whether any syntax error was found. -/
def hasErrors (report : Report) : Bool :=
  !report.errors.isEmpty

/-- The first error if there is one, and the schema otherwise. -/
def toResult (report : Report) : Except SyntaxError Schema :=
  -- A recovering reader may have a schema and errors at once, and then the error counts.
  match report.errors with
  | error :: _ => .error error
  | [] => .ok (report.schema?.getD ⟨[]⟩)

end Report

end Parse

/-- Reads a schema from text in the way the options say. -/
def parseWith (options : Parse.Options) (source : String) : Parse.Report :=
  let stream := tokenize source
  let document := Parse.document stream.stop options.room stream.tokens
  -- A strict reader gives up what it read before the error.
  if options.recover || document.errors.isEmpty then
    ⟨some ⟨document.definitions⟩, document.errors⟩
  else
    ⟨none, document.errors⟩

/-- Reads a schema from text, or gives the first syntax error. -/
def parse (source : String) : Except SyntaxError Schema :=
  (parseWith .strict source).toResult

end AuthSchema
