import Simmer.Json.Parts
import Simmer.Logging
import Simmer.RuleSystem
import Simmer.Volume.Stored
import Simmer.Proofs.Roster
import Simmer.Proofs.Selection.Agreement
import Simmer.Proofs.Outcome
import Simmer.Proofs.Bindings
import Simmer.Proofs.Absorption
import Simmer.Proofs.Pattern.Placement
import Simmer.Proofs.Pattern.Matching
import Simmer.Proofs.Mixture.Assignment
import Simmer.Proofs.Template
import Simmer.Proofs.Rule.Closed
import Simmer.Proofs.Reduction.Plain
import Simmer.Proofs.Reduction.Component
import Simmer.Proofs.Mixture.Multiset
import Simmer.Proofs.Reduction.Idempotence
import Simmer.Proofs.Reduction.Measure
import Simmer.Proofs.Reduction.Normal
import Simmer.Proofs.Reduction.Faults
import Simmer.Proofs.Reduction.Recurrence
import Simmer.Proofs.Reduction.Memory
import Simmer.Proofs.Reduction.Componentwise
import Simmer.Proofs.Reduction.Invariant
import Simmer.Proofs.Rule.Origin
import Simmer.Proofs.Printing.Template
import Simmer.Proofs.Text.Cut
import Simmer.Proofs.Printing.Groups
import Simmer.Proofs.Printing.Rule
import Simmer.Proofs.Printing.Definition
import Simmer.Proofs.Printing.RuleSet
import Simmer.Proofs.Rule.Names
import Simmer.Proofs.Reduction.Origin
import Simmer.Proofs.Rule.Locality
import Simmer.Proofs.Reduction.Locality
import Simmer.Proofs.Reduction.Trail
import Simmer.Proofs.RuleSet.Faults
import Simmer.Proofs.RuleSet.Lines
import Simmer.Proofs.Rule.Emptying
import Simmer.Proofs.Reduction.Emptying
import Simmer.Proofs.Printing.Legible
import Simmer.Proofs.Rule.Same
import Simmer.Proofs.RuleSet.Built
import Simmer.Proofs.Pattern.Order
import Simmer.Proofs.Mixture.Order
import Simmer.Proofs.Reduction.Cap
import Simmer.Proofs.Selection.Sieve
import Simmer.Proofs.Rule.Single
import Simmer.Proofs.Rule.Conserving
import Simmer.Proofs.Concise.Expansion
import Simmer.Proofs.Selection.Embedding
import Simmer.Proofs.Concise.Plain
import Simmer.Proofs.Concise.Meaning
import Simmer.Proofs.Grammar.Condition
import Simmer.Proofs.Grammar.Token
import Simmer.Proofs.Grammar.Pattern
import Simmer.Proofs.Grammar.Balance
import Simmer.Proofs.Grammar.Segments
import Simmer.Proofs.Grammar.Groups
import Simmer.Proofs.Grammar.Mixture
import Simmer.Proofs.Verdict
import Simmer.Proofs.Mixture.Hashing
import Simmer.Proofs.TagTable
import Simmer.Proofs.Printing.Json
import Simmer.Proofs.Printing.Settings
import Simmer.Proofs.Volume
