import Datalog.Main
import Datalog.Json.Record
import Datalog.Sharing
import Datalog.Proofs.Substitution
import Datalog.Proofs.Unification
import Datalog.Proofs.PatternTrie.Path
import Datalog.Proofs.PatternTrie.History
import Datalog.Proofs.PatternTrie.Order
import Datalog.Proofs.Resolution
import Datalog.Proofs.Queries
import Datalog.Proofs.Residual
import Datalog.Proofs.Model
import Datalog.Proofs.Grammar.Spelling
import Datalog.Proofs.Grammar.Reading
import Datalog.Proofs.Grammar.Texts
import Datalog.Proofs.Loading
import Datalog.Proofs.Grammar.RoundTrip
import Datalog.Proofs.Saturation.Registration
import Datalog.Proofs.Saturation.Closure
import Datalog.Proofs.Saturation.Worklist
import Datalog.Proofs.Engine.History
import Datalog.Proofs.Engine.Content
import Datalog.Proofs.Sharing
import Datalog.Proofs.Engine.OrderIndependence
import Datalog.Proofs.Engine.Batches
import Datalog.Proofs.Engine.Accounting
import Datalog.Proofs.Engine.Registers
import Datalog.Proofs.Engine.Answers
import Datalog.Proofs.Session.Rebuild
import Datalog.Proofs.Session.CommandLine
import Datalog.Proofs.PatternTrie.FirstUse
import Datalog.Proofs.Commutation
import Datalog.Proofs.RangeRestriction
import Datalog.Proofs.Saturation.Restriction
import Datalog.Proofs.Engine.RangeRestriction
import Datalog.Proofs.Distinct
import Datalog.Proofs.Engine.Repetition
import Datalog.Proofs.Engine.Dependence
import Datalog.Proofs.AssocList
import Datalog.Proofs.Renaming
import Datalog.Proofs.PatternTrie.Renaming
import Datalog.Proofs.PatternTrie.Shape
import Datalog.Proofs.Saturation.Renaming
import Datalog.Proofs.Engine.Renaming
import Datalog.Proofs.Unification.FirstFault
import Datalog.Proofs.Engine.Guards
import Datalog.Proofs.Grammar.Position
import Datalog.Proofs.Grammar.Faults
import Datalog.Proofs.Session.Changes
import Datalog.Proofs.Json.Record
import Datalog.Proofs.Session.Opening
import Datalog.Proofs.PatternTrie.Search
