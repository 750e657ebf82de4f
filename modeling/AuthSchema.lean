import AuthSchema.Text.LineTable
import AuthSchema.Text.Locator
import AuthSchema.Parse.Basic
import AuthSchema.Diagnostic.Log
import AuthSchema.Diagnostic.Check
import AuthSchema.Editor.Navigation
import AuthSchema.Editor.Highlight
import AuthSchema.Editor.Fold
import AuthSchema.Proofs.Parse.Run
import AuthSchema.Proofs.Parse.Grammar
import AuthSchema.Proofs.Parse.Soundness
import AuthSchema.Proofs.Parse.Completeness
import AuthSchema.Proofs.Parse.Accept
import AuthSchema.Proofs.Parse.Agreement
import AuthSchema.Proofs.Text.Order
import AuthSchema.Proofs.Token.Order
import AuthSchema.Proofs.Parse.Span
import AuthSchema.Proofs.Parse.Recovery
import AuthSchema.Proofs.Parse.Recoverable
import AuthSchema.Proofs.Parse.Outline
import AuthSchema.Proofs.Schema.Members
import AuthSchema.Proofs.Diagnostic.Duplicates
import AuthSchema.Proofs.Diagnostic.Shadowed
import AuthSchema.Proofs.Diagnostic.References
import AuthSchema.Proofs.Text.Cut
import AuthSchema.Proofs.Token.Boundary
import AuthSchema.Proofs.Token.Locality
import AuthSchema.Proofs.Schema.Spelling
import AuthSchema.Proofs.Parse.Moved
import AuthSchema.Proofs.Parse.Reread
import AuthSchema.Proofs.Editor.Agreement
import AuthSchema.Proofs.Schema.WellFormed
import AuthSchema.Proofs.Reference.Lookup
import AuthSchema.Proofs.Text.LineTable
import AuthSchema.Proofs.Token.Lexical
import AuthSchema.Proofs.Schema.Names
import AuthSchema.Proofs.Token.Segmentation
import AuthSchema.Proofs.Editor.Highlights
import AuthSchema.Proofs.Parse.Truncation
import AuthSchema.Proofs.Diagnostic.Positions
import AuthSchema.Proofs.Token.Insertion
import AuthSchema.Proofs.Parse.Alike
import AuthSchema.Proofs.Parse.Phrases
import AuthSchema.Proofs.Parse.Viable
import AuthSchema.Proofs.Parse.Anchors
import AuthSchema.Proofs.Parse.Concatenation
import AuthSchema.Proofs.Text.Locator
import AuthSchema.Proofs.Reference.Arrow
import AuthSchema.Proofs.Editor.Folds
import AuthSchema.Proofs.Editor.Origin
import AuthSchema.Proofs.Reference.Stability
import AuthSchema.Proofs.Parse.Height
import AuthSchema.Proofs.Text.Coordinates
import AuthSchema.Proofs.Parse.Walk
import AuthSchema.Proofs.Parse.Steady
import AuthSchema.Proofs.Parse.Follow
import AuthSchema.Proofs.Parse.Turns
import AuthSchema.Proofs.Parse.Replay
import AuthSchema.Proofs.Token.Located
import AuthSchema.Proofs.Reference.Index
