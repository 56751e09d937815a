import JackSyntax.Grammar.Phrase
import JackSyntax.Grammar.Records
import JackSyntax.Main
import JackSyntax.Proofs.Parse.CorrectPrefix
import JackSyntax.Proofs.Scan.Lossless
import JackSyntax.Proofs.Scan.Determinacy
import JackSyntax.Proofs.Scan.Layout
import JackSyntax.Proofs.Grammar.Calls
import JackSyntax.Proofs.Parse.Calls
import JackSyntax.Proofs.Parse.Limit
import JackSyntax.Proofs.Parse.Nesting
import JackSyntax.Proofs.Parse.Subroutines
import JackSyntax.Proofs.Parse.Kinds
import JackSyntax.Proofs.Parse.Foresight
import JackSyntax.Proofs.Parse.Interchange
import JackSyntax.Proofs.Parse.Suggestions
import JackSyntax.Proofs.Parse.Session
import JackSyntax.Proofs.Scan.Seam
import JackSyntax.Proofs.Excerpt.Caret
import JackSyntax.Proofs.Xml.Faithful
import JackSyntax.Proofs.Xml.Terminals
import JackSyntax.Proofs.Command.Outputs
import JackSyntax.Proofs.Trace.Nested
import JackSyntax.Proofs.Trace.Sexpr
import JackSyntax.Proofs.Parse.Balance
import JackSyntax.Proofs.Command.Sum
import JackSyntax.Proofs.Source.Ending
