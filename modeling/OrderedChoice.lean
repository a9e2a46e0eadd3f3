import OrderedChoice.Ascending
import OrderedChoice.CharClass
import OrderedChoice.CommandLine.Options
import OrderedChoice.CommandLine.Run
import OrderedChoice.Ebnf.Grammar
import OrderedChoice.Ebnf.Reader
import OrderedChoice.Evaluation
import OrderedChoice.Grammar.Basic
import OrderedChoice.Grammar.Datum
import OrderedChoice.Grammar.Draft
import OrderedChoice.Grammar.Error
import OrderedChoice.Grammar.Expr
import OrderedChoice.Input
import OrderedChoice.Machine.Run
import OrderedChoice.Machine.Session
import OrderedChoice.Machine.State
import OrderedChoice.Machine.Step
import OrderedChoice.Main
import OrderedChoice.Pattern
import OrderedChoice.Proofs.Ascending
import OrderedChoice.Proofs.CharClass.Algebra
import OrderedChoice.Proofs.CharClass.Combination
import OrderedChoice.Proofs.CharClass.Membership
import OrderedChoice.Proofs.CommandLine.Display
import OrderedChoice.Proofs.CommandLine.Printed
import OrderedChoice.Proofs.CommandLine.Verdict
import OrderedChoice.Proofs.Derivation.Basic
import OrderedChoice.Proofs.Derivation.Character
import OrderedChoice.Proofs.Derivation.Conformance
import OrderedChoice.Proofs.Derivation.Cut
import OrderedChoice.Proofs.Derivation.Existence
import OrderedChoice.Proofs.Derivation.Extent
import OrderedChoice.Proofs.Derivation.Guard
import OrderedChoice.Proofs.Derivation.Inversion
import OrderedChoice.Proofs.Derivation.Run
import OrderedChoice.Proofs.Derivation.Text
import OrderedChoice.Proofs.Derivation.Whole
import OrderedChoice.Proofs.Ebnf.Acceptance
import OrderedChoice.Proofs.Ebnf.Accounting
import OrderedChoice.Proofs.Ebnf.Completeness
import OrderedChoice.Proofs.Ebnf.Existence
import OrderedChoice.Proofs.Ebnf.Lexical
import OrderedChoice.Proofs.Ebnf.Notation
import OrderedChoice.Proofs.Ebnf.Phrase
import OrderedChoice.Proofs.Ebnf.Printing
import OrderedChoice.Proofs.Ebnf.Readable
import OrderedChoice.Proofs.Ebnf.Reading
import OrderedChoice.Proofs.Ebnf.Refusal
import OrderedChoice.Proofs.Ebnf.Rendering
import OrderedChoice.Proofs.Ebnf.RoundTrip
import OrderedChoice.Proofs.Ebnf.Rules
import OrderedChoice.Proofs.Ebnf.Soundness
import OrderedChoice.Proofs.Ebnf.Start
import OrderedChoice.Proofs.Ebnf.Truncation
import OrderedChoice.Proofs.Evaluation.Exchange
import OrderedChoice.Proofs.Evaluation.Recursion
import OrderedChoice.Proofs.Evaluation.Stop
import OrderedChoice.Proofs.Evaluation.Yields
import OrderedChoice.Proofs.Grammar.Lookup
import OrderedChoice.Proofs.Grammar.References
import OrderedChoice.Proofs.Grammar.Shape
import OrderedChoice.Proofs.Grammar.Validation
import OrderedChoice.Proofs.Machine.Active
import OrderedChoice.Proofs.Machine.Bracket
import OrderedChoice.Proofs.Machine.Calls
import OrderedChoice.Proofs.Machine.Completion
import OrderedChoice.Proofs.Machine.Conservation
import OrderedChoice.Proofs.Machine.Course
import OrderedChoice.Proofs.Machine.Definedness
import OrderedChoice.Proofs.Machine.Depth
import OrderedChoice.Proofs.Machine.Diagnosis
import OrderedChoice.Proofs.Machine.Ending
import OrderedChoice.Proofs.Machine.Examined
import OrderedChoice.Proofs.Machine.Found
import OrderedChoice.Proofs.Machine.Furthest
import OrderedChoice.Proofs.Machine.Lifecycle
import OrderedChoice.Proofs.Machine.Outcome
import OrderedChoice.Proofs.Machine.Readiness
import OrderedChoice.Proofs.Machine.Report
import OrderedChoice.Proofs.Machine.Simulation
import OrderedChoice.Proofs.Machine.Stack
import OrderedChoice.Proofs.Machine.Transition
import OrderedChoice.Proofs.Machine.Visit
import OrderedChoice.Proofs.Machine.Wrapping
import OrderedChoice.Proofs.Pattern.Spelling
import OrderedChoice.Proofs.Rewriting.Flattening
import OrderedChoice.Proofs.Rewriting.LeftRecursion
import OrderedChoice.Proofs.Text.Lines
import OrderedChoice.Proofs.Text.Places
import OrderedChoice.Proofs.Text.SingleLine
import OrderedChoice.Source
import OrderedChoice.Text.Digit
import OrderedChoice.Text.Lines
import OrderedChoice.Text.Printable
import OrderedChoice.Text.Quoted
import OrderedChoice.Tree.Basic
import OrderedChoice.Tree.Outline
