import ContextFree.Grammar.Language
import ContextFree.Grammar.Renaming
import ContextFree.Main
import ContextFree.Proofs.Binary
import ContextFree.Proofs.Chomsky
import ContextFree.Proofs.FreshNames
import ContextFree.Proofs.Greibach.Form
import ContextFree.Proofs.Isolated
import ContextFree.Proofs.NullFree
import ContextFree.Proofs.NullLanguage
import ContextFree.Proofs.UnitFree
import ContextFree.Proofs.UnitReachability
import ContextFree.Proofs.UnitsLeft
import ContextFree.Proofs.UnitCycles
import ContextFree.Proofs.Json.Written
import ContextFree.Proofs.SymbolKinds
import ContextFree.Proofs.Reading
import ContextFree.Proofs.Json.Grammar
import ContextFree.Proofs.Plaintext
import ContextFree.Proofs.NewSymbols
import ContextFree.Proofs.Json.NormalForms
import ContextFree.Proofs.Repetitions
import ContextFree.Proofs.Minting
import ContextFree.Proofs.Chains
import ContextFree.Proofs.ChomskyFixedPoint
import ContextFree.Proofs.Greibach.Obstacle
import ContextFree.Proofs.Greibach.Outcome
import ContextFree.Proofs.Greibach.FixedPoint
import ContextFree.Proofs.Passes
import ContextFree.Proofs.Renaming
import ContextFree.Proofs.Greibach.Renaming
import ContextFree.Proofs.PlainNormalForm
import ContextFree.Proofs.CommandLine.Outcome
import ContextFree.Proofs.CommandLine.WorkingDirectory
import ContextFree.Proofs.MintCalls
import ContextFree.Proofs.TerminalNames
import ContextFree.Proofs.UnitSearch
import ContextFree.Proofs.UnitRefusal
import ContextFree.Proofs.Format.Grammar
import ContextFree.Proofs.Format.Outcome
