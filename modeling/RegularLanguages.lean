import RegularLanguages.Automaton.Basic
import RegularLanguages.Automaton.Equivalence
import RegularLanguages.Automaton.Tableau
import RegularLanguages.History
import RegularLanguages.Lexer.Scan
import RegularLanguages.Main
import RegularLanguages.Proofs.Alphabets
import RegularLanguages.Proofs.Automaton.Description
import RegularLanguages.Proofs.Automaton.Elimination
import RegularLanguages.Proofs.Automaton.EpsilonSearch
import RegularLanguages.Proofs.Automaton.Idempotence
import RegularLanguages.Proofs.Automaton.OrderIndependence
import RegularLanguages.Proofs.Automaton.Printing
import RegularLanguages.Proofs.Automaton.PrunedStates
import RegularLanguages.Proofs.Automaton.Shape
import RegularLanguages.Proofs.Automaton.Tableau
import RegularLanguages.Proofs.CommandLine.Arguments
import RegularLanguages.Proofs.CommandLine.PrintedExpression
import RegularLanguages.Proofs.CommandLine.Verdicts
import RegularLanguages.Proofs.CompiledText
import RegularLanguages.Proofs.DerivedText
import RegularLanguages.Proofs.History
import RegularLanguages.Proofs.Lexer.Declared
import RegularLanguages.Proofs.Lexer.Scan
import RegularLanguages.Proofs.Minimization.Agreement
import RegularLanguages.Proofs.Minimization.Canonical
import RegularLanguages.Proofs.Minimization.FixedPoints
import RegularLanguages.Proofs.Minimization.LoopHeads
import RegularLanguages.Proofs.Regex.Offsets
import RegularLanguages.Proofs.Regex.TrivialLanguages
import RegularLanguages.Proofs.Source.AutomatonGrammar
import RegularLanguages.Proofs.Source.AutomatonText
import RegularLanguages.Proofs.Source.Layout
import RegularLanguages.Proofs.Source.LexerGrammar
import RegularLanguages.Proofs.Source.RegexText
import RegularLanguages.Proofs.Source.Token
import RegularLanguages.Proofs.Source.Tokenization
import RegularLanguages.Regex.Matching
import RegularLanguages.Regex.Simplification
import RegularLanguages.Source.Grammar
import RegularLanguages.Source.Tokenization
