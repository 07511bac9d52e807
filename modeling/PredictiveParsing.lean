import PredictiveParsing.Derivation
import PredictiveParsing.Grammar.Construction
import PredictiveParsing.Grammar.Display
import PredictiveParsing.Journal
import PredictiveParsing.Parser.Descent
import PredictiveParsing.Parser.Matcher
import PredictiveParsing.Proofs.ErrorPosition
import PredictiveParsing.Proofs.NextTerminalDecisions
import PredictiveParsing.Proofs.OverwriteWarnings
import PredictiveParsing.Proofs.RecursiveDescent
import PredictiveParsing.Proofs.ReducedGrammars
import PredictiveParsing.Proofs.RuleOrder
import PredictiveParsing.Proofs.TableTermination
import PredictiveParsing.Tree.Display
import PredictiveParsing.Tree.Validity
import PredictiveParsing.Proofs.MissingTrees
import PredictiveParsing.Proofs.ConsultedTokens
import PredictiveParsing.Proofs.MatchedTokens
import PredictiveParsing.Proofs.CheckedLookUps
import PredictiveParsing.Proofs.CheckedSets
import PredictiveParsing.Proofs.DeclaredSets
import PredictiveParsing.Proofs.CheckedTables
import PredictiveParsing.Proofs.WorkingCopies
import PredictiveParsing.Proofs.LeastFixedPoints
import PredictiveParsing.Proofs.RingSumLaws
import PredictiveParsing.Proofs.PreorderWalks
import PredictiveParsing.Proofs.SymbolNames
import PredictiveParsing.Proofs.WellFormedGrammars
import PredictiveParsing.Proofs.ReadableTexts
import PredictiveParsing.Proofs.WrittenTrees
import PredictiveParsing.Proofs.WrittenRules
import PredictiveParsing.Proofs.PlainOutlines
import PredictiveParsing.Proofs.TableEdits
import PredictiveParsing.Proofs.UnwordedProblems
import PredictiveParsing.Proofs.StackLayout
import PredictiveParsing.Proofs.LeafVisits
