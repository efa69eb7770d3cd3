import MaximalMunch.Automaton.StateSet
import MaximalMunch.Automaton.SymbolMap
import MaximalMunch.Definition.Basic
import MaximalMunch.Definition.Text
import MaximalMunch.Dfa.Basic
import MaximalMunch.Dfa.Listing
import MaximalMunch.Dfa.Run
import MaximalMunch.Dfa.Subset
import MaximalMunch.Diagram.Automata
import MaximalMunch.Diagram.Dot
import MaximalMunch.Error
import MaximalMunch.Expr.Basic
import MaximalMunch.Expr.Outline
import MaximalMunch.Expr.Postfix
import MaximalMunch.Log
import MaximalMunch.Nfa.Basic
import MaximalMunch.Nfa.Compose
import MaximalMunch.Nfa.Listing
import MaximalMunch.Nfa.OfExpr
import MaximalMunch.Pattern.Basic
import MaximalMunch.Pattern.Fault
import MaximalMunch.Pattern.Quoting
import MaximalMunch.Pattern.Sign
import MaximalMunch.Pattern.Token
import MaximalMunch.Proofs.Definition.Assembly
import MaximalMunch.Proofs.Definition.Compile
import MaximalMunch.Proofs.Definition.Liveness
import MaximalMunch.Proofs.Definition.Quoting
import MaximalMunch.Proofs.Definition.Regrouping
import MaximalMunch.Proofs.Definition.Text
import MaximalMunch.Proofs.Dfa.Assembly
import MaximalMunch.Proofs.Dfa.Chain
import MaximalMunch.Proofs.Dfa.Made
import MaximalMunch.Proofs.Dfa.Numbering
import MaximalMunch.Proofs.Dfa.Renaming
import MaximalMunch.Proofs.Dfa.Run
import MaximalMunch.Proofs.Dfa.Subset
import MaximalMunch.Proofs.Diagram.Dfa
import MaximalMunch.Proofs.Diagram.Dot
import MaximalMunch.Proofs.Diagram.Nfa
import MaximalMunch.Proofs.Expr.Faults
import MaximalMunch.Proofs.Expr.Grammar
import MaximalMunch.Proofs.Expr.Outline
import MaximalMunch.Proofs.Expr.Parse
import MaximalMunch.Proofs.Expr.Shunting
import MaximalMunch.Proofs.Nfa.Assembly
import MaximalMunch.Proofs.Nfa.Closure
import MaximalMunch.Proofs.Nfa.Compose
import MaximalMunch.Proofs.Nfa.Made
import MaximalMunch.Proofs.Nfa.OfExpr
import MaximalMunch.Proofs.Nfa.Path
import MaximalMunch.Proofs.Nfa.Renaming
import MaximalMunch.Proofs.Nfa.Sealed
import MaximalMunch.Proofs.Nfa.Seam
import MaximalMunch.Proofs.Nfa.Shape
import MaximalMunch.Proofs.Nfa.Worklist
import MaximalMunch.Proofs.Pattern.Reading
import MaximalMunch.Proofs.Pattern.Writing
import MaximalMunch.Proofs.Scan.Agreement
import MaximalMunch.Proofs.Scan.Alone
import MaximalMunch.Proofs.Scan.Attempt
import MaximalMunch.Proofs.Scan.Buffer
import MaximalMunch.Proofs.Scan.Builder
import MaximalMunch.Proofs.Scan.Calls
import MaximalMunch.Proofs.Scan.Decoding
import MaximalMunch.Proofs.Scan.Delivery
import MaximalMunch.Proofs.Scan.Encoding
import MaximalMunch.Proofs.Scan.Failure
import MaximalMunch.Proofs.Scan.Lanes
import MaximalMunch.Proofs.Scan.Lookahead
import MaximalMunch.Proofs.Scan.Loop
import MaximalMunch.Proofs.Scan.Position
import MaximalMunch.Proofs.Scan.Reference
import MaximalMunch.Proofs.Scan.Replay
import MaximalMunch.Proofs.Scan.Stream
import MaximalMunch.Proofs.Scan.Tandem
import MaximalMunch.Proofs.Scan.Text
import MaximalMunch.Proofs.Scan.Upcoming
import MaximalMunch.Proofs.Text.Escape
import MaximalMunch.Proofs.Text.Label
import MaximalMunch.Proofs.Text.Lines
import MaximalMunch.Proofs.Text.Sequence
import MaximalMunch.Scan.Attempt
import MaximalMunch.Scan.Builder
import MaximalMunch.Scan.Position
import MaximalMunch.Scan.Scanner
import MaximalMunch.Scan.Source
import MaximalMunch.Scan.Span
import MaximalMunch.Scan.Tape
import MaximalMunch.Text.Blank
import MaximalMunch.Text.Column
import MaximalMunch.Text.Escape
import MaximalMunch.Text.Lines
