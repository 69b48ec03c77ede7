import MessageLang.Main
import MessageLang.Schedule
import MessageLang.Syntax.Equality
import MessageLang.Syntax.Literal.Free
import MessageLang.Syntax.Traversal
import MessageLang.Proofs.Grammar.Exactness
import MessageLang.Proofs.Evaluation.Patterns
import MessageLang.Proofs.Evaluation.Places
import MessageLang.Proofs.Evaluation.Progress
import MessageLang.Proofs.Evaluation.Yields
import MessageLang.Proofs.Expansion.Accounts
import MessageLang.Proofs.Meaning.Basic
import MessageLang.Proofs.Meaning.Environment
import MessageLang.Proofs.Meaning.Expansion
import MessageLang.Proofs.Meaning.Sexps
import MessageLang.Proofs.RoundTrip.Expressions
import MessageLang.Proofs.RoundTrip.Listings
import MessageLang.Proofs.RoundTrip.Sources
import MessageLang.Proofs.Source.Lines
import MessageLang.Proofs.Syntax.Nodes
import MessageLang.Proofs.Grammar.Spans
import MessageLang.Proofs.Grammar.Errors
import MessageLang.Proofs.Expansion.Failing
import MessageLang.Proofs.Expansion.Idempotence
import MessageLang.Proofs.Expansion.SourceOrder
import MessageLang.Proofs.Evaluation.Misuses
import MessageLang.Proofs.Evaluation.WellFormed
import MessageLang.Proofs.Evaluation.Defects
import MessageLang.Proofs.Expansion.Registrations
import MessageLang.Proofs.Text.MachineForm
import MessageLang.Proofs.Dump.Trees
import MessageLang.Proofs.Syntax.Integers
import MessageLang.Proofs.Evaluation.Conversions
import MessageLang.Proofs.Evaluation.Constants
import MessageLang.Proofs.Expansion.Invocations
import MessageLang.Proofs.Evaluation.Matches
import MessageLang.Proofs.Evaluation.Outputs
import MessageLang.Proofs.Evaluation.FreeNames
import MessageLang.Proofs.Syntax.Quotes
import MessageLang.Proofs.Grammar.Longest
import MessageLang.Proofs.Grammar.Moving
import MessageLang.Proofs.Grammar.Concatenation
import MessageLang.Proofs.Expansion.Relocation
import MessageLang.Proofs.Grammar.Layout
import MessageLang.Proofs.Grammar.BadLiterals
import MessageLang.Proofs.Source.Splitting
import MessageLang.Proofs.Expansion.Firsts
import MessageLang.Proofs.Expansion.Shown
import MessageLang.Proofs.Scheduling
import MessageLang.Evaluation.Operation
import MessageLang.Proofs.Evaluation.Histories
import MessageLang.Proofs.Dump.Layout
import MessageLang.Proofs.Dump.Breaking
