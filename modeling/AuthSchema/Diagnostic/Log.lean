import AuthSchema.Diagnostic.Basic

/-! A log of diagnostics in the order in which they were found. -/

namespace AuthSchema

/-- Diagnostics in the order in which they were added. -/
structure DiagnosticLog where
  /-- The diagnostics, the oldest first. -/
  entries : List Diagnostic := []
  deriving DecidableEq, Repr

namespace DiagnosticLog

/-- Adds a diagnostic after the others. -/
def add (log : DiagnosticLog) (diagnostic : Diagnostic) : DiagnosticLog :=
  -- Reports are kept in the order in which they come.
  ⟨log.entries ++ [diagnostic]⟩

/-- The number of diagnostics. -/
def count (log : DiagnosticLog) : Nat :=
  log.entries.length

/-- The number of errors. -/
def errorCount (log : DiagnosticLog) : Nat :=
  log.entries.countP (·.severity = .error)

/-- The number of warnings. -/
def warningCount (log : DiagnosticLog) : Nat :=
  log.entries.countP (·.severity = .warning)

/-- Whether any diagnostic is an error. -/
def hasErrors (log : DiagnosticLog) : Bool :=
  log.entries.any (·.severity = .error)

/-- Hands over all diagnostics and leaves an empty log. -/
def take (log : DiagnosticLog) : List Diagnostic × DiagnosticLog :=
  (log.entries, {})

end DiagnosticLog

end AuthSchema
