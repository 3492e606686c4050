import PatternGraph.FixedWidth
import PatternGraph.ReachedSet
import PatternGraph.Outline
import PatternGraph.Compilation
import PatternGraph.RuleSet
import PatternGraph.MatchText
import PatternGraph.MatchEquality
import PatternGraph.MatchInspection
import PatternGraph.RegexLanguage
import PatternGraph.RegexRoundTrip
import PatternGraph.Bisimilarity
import PatternGraph.CoherentMatch
import PatternGraph.Proofs.EliminatedLanguage
import PatternGraph.Proofs.CompiledLanguage
import PatternGraph.Proofs.RuleEquations
import PatternGraph.Proofs.SettledRules
import PatternGraph.Proofs.CellLifeCycle
import PatternGraph.Proofs.LookedThrough
import PatternGraph.Proofs.SharedLanguage
import PatternGraph.Proofs.FixedLength
import PatternGraph.Proofs.BuiltMatches
import PatternGraph.Proofs.Derivations
import PatternGraph.Proofs.Renumbering
import PatternGraph.Proofs.LeadingGraph
import PatternGraph.Proofs.DefinitionOrder
import PatternGraph.Proofs.FailedFinish
import PatternGraph.RuleTable
import PatternGraph.Proofs.TableRepresentation
import PatternGraph.Proofs.RenumberedRun
import PatternGraph.Proofs.RuleCalls
import PatternGraph.Proofs.RuleMapRefinement
import PatternGraph.ClassExpression
import PatternGraph.Proofs.ClassDenotation
import PatternGraph.Proofs.HashInjectivity
import PatternGraph.GuardedSearch
import PatternGraph.Proofs.SearchExactness
import PatternGraph.GuardedRecursion
import PatternGraph.Proofs.WalksEnd
import PatternGraph.Proofs.ExactWidth
import PatternGraph.Proofs.MaximalRuns
import PatternGraph.Proofs.OwnCell
import PatternGraph.Proofs.LeftElimination
import PatternGraph.Proofs.MatchAgreement
import PatternGraph.Proofs.TextViews
import PatternGraph.Proofs.MatchKeys
import PatternGraph.Proofs.AdmittedValues
import PatternGraph.Proofs.FoldedOperators
import PatternGraph.Proofs.ReadableInspection
import PatternGraph.Proofs.NestingBound
import PatternGraph.Proofs.Optionality
import PatternGraph.Proofs.StrippedReference
import PatternGraph.Proofs.EscapedText
