import ByteLexer.Automaton.Construction
import ByteLexer.Automaton.Dump
import ByteLexer.Automaton.Lemmas
import ByteLexer.Automaton.Path
import ByteLexer.Automaton.Run
import ByteLexer.Automaton.SetLabel
import ByteLexer.Automaton.ShortestWord
import ByteLexer.Byte.Utf8
import ByteLexer.Regex.Expr
import ByteLexer.SExpression.Tokens
import ByteLexer.Main
import ByteLexer.Session.Call
import ByteLexer.Proofs.Automaton.Words
import ByteLexer.Proofs.Automaton.Deterministic
import ByteLexer.Proofs.Automaton.Subset
import ByteLexer.Proofs.Automaton.Region
import ByteLexer.Proofs.Automaton.Runs
import ByteLexer.Proofs.Regex.Language
import ByteLexer.Proofs.Automaton.Visits
import ByteLexer.Proofs.Automaton.Diagram
import ByteLexer.Proofs.Automaton.Construction
import ByteLexer.Proofs.Lexer.Merged
import ByteLexer.Proofs.Lexer.Interning
import ByteLexer.Proofs.Lexer.Compiled
import ByteLexer.Proofs.Lexer.States
import ByteLexer.Proofs.Session.Invariant
import ByteLexer.Proofs.Session.Reading
import ByteLexer.Proofs.Session.LongestMatch
import ByteLexer.Proofs.Session.MaximalMunch
import ByteLexer.Proofs.Session.Place
import ByteLexer.Proofs.Session.Streams
import ByteLexer.Proofs.Session.Tiling
import ByteLexer.Proofs.Graph.Shortlex
import ByteLexer.Proofs.Automaton.ShortestWord
import ByteLexer.Proofs.Lexer.Ambiguities
import ByteLexer.Proofs.Session.DeclarationOrder
import ByteLexer.Proofs.Session.Produced
import ByteLexer.Proofs.Automaton.Trim
import ByteLexer.Proofs.Regex.Trim
import ByteLexer.Proofs.Session.LexicalErrors
import ByteLexer.Proofs.Session.Lookahead
import ByteLexer.Proofs.Session.MoreInput
import ByteLexer.Proofs.Session.Lines
import ByteLexer.Proofs.SExpression.Lexemes
import ByteLexer.Proofs.SExpression.Patterns
import ByteLexer.Proofs.SExpression.Reading
import ByteLexer.Proofs.Session.Skipping
import ByteLexer.Proofs.Session.Stuck
import ByteLexer.Proofs.Session.Iteration
import ByteLexer.Proofs.Session.Safety
import ByteLexer.Proofs.Automaton.Powerset
import ByteLexer.Proofs.Automaton.Pruning
import ByteLexer.Proofs.Automaton.Recognition
import ByteLexer.Proofs.Automaton.Requests
import ByteLexer.Proofs.Graph.WayBack
import ByteLexer.Proofs.Automaton.Relabelling
import ByteLexer.Proofs.Automaton.Flattening
import ByteLexer.Proofs.Regex.Flattening
import ByteLexer.Proofs.Lexer.Numbering
import ByteLexer.Proofs.Automaton.Stepping
import ByteLexer.Proofs.Byte.Escape
import ByteLexer.Proofs.Byte.Range
import ByteLexer.Proofs.Byte.Runs
import ByteLexer.Proofs.Byte.Marks
import ByteLexer.Proofs.Text.Quoted
import ByteLexer.Proofs.Text.Separators
import ByteLexer.Proofs.Automaton.Arrows
import ByteLexer.Proofs.Automaton.Dump
import ByteLexer.Proofs.Regex.Labels
import ByteLexer.Proofs.Regex.Dump
import ByteLexer.Proofs.Regex.Namespaces
import ByteLexer.Proofs.Lexer.Validation
import ByteLexer.Proofs.Lexer.Naming
import ByteLexer.Proofs.Lexer.Namespaces
import ByteLexer.Proofs.Automaton.Closure
import ByteLexer.Proofs.Diagnostic.Messages
import ByteLexer.Proofs.Automaton.Pictures
import ByteLexer.Proofs.Byte.Utf8
import ByteLexer.Proofs.Cli.Tokens
