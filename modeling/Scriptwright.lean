import Scriptwright.Main
import Scriptwright.Proofs.Grammar.Recognition
import Scriptwright.Proofs.Grammar.TypeExpr
import Scriptwright.Proofs.Grammar.Expr
import Scriptwright.Proofs.Grammar.Program
import Scriptwright.Proofs.Grammar.Kinds
import Scriptwright.Proofs.Grammar.Unambiguous
import Scriptwright.Proofs.JavaScript.Syntax
import Scriptwright.Proofs.JavaScript.Unique
import Scriptwright.Proofs.Binary64.Decimal
import Scriptwright.Proofs.JavaScript.Emission
import Scriptwright.Proofs.JavaScript.Reading
import Scriptwright.Proofs.Grammar.Occurrence
import Scriptwright.Proofs.JavaScript.Faithful
import Scriptwright.Proofs.JavaScript.Literal
import Scriptwright.Proofs.Token.Concatenation
import Scriptwright.Proofs.Parser.Relabelling
import Scriptwright.Proofs.Parser.Relabelling.Program
import Scriptwright.Proofs.Compile.Concatenation
import Scriptwright.Proofs.Token.Lexicon
import Scriptwright.Proofs.Token.Cut
import Scriptwright.Proofs.Position
import Scriptwright.Proofs.Token.Extent
import Scriptwright.Proofs.Diagnostic
import Scriptwright.Proofs.Grammar.Height
import Scriptwright.Proofs.JavaScript.Statement
import Scriptwright.Proofs.JavaScript.Outline
import Scriptwright.Proofs.Token.Layout
import Scriptwright.Proofs.Compile.Layout
import Scriptwright.Proofs.Compile.Erasure
import Scriptwright.Proofs.Path
import Scriptwright.Proofs.FileTree
import Scriptwright.Proofs.FileTree.Walk
import Scriptwright.Proofs.Host
import Scriptwright.Proofs.Build
import Scriptwright.Proofs.Command.Check
import Scriptwright.Proofs.Command.Siblings
import Scriptwright.Proofs.Grammar.Induction
import Scriptwright.Proofs.Grammar.Names
import Scriptwright.Proofs.JavaScript.Lexemes
import Scriptwright.Proofs.JavaScript.Pieces
import Scriptwright.Proofs.JavaScript.Numbers
import Scriptwright.Proofs.Parser.Lookahead
import Scriptwright.Proofs.Parser.EndOfText
import Scriptwright.Proofs.Token.Order
import Scriptwright.Proofs.Grammar.Spans
import Scriptwright.Proofs.Grammar.Spans.Program
import Scriptwright.Proofs.Grammar.Chain
import Scriptwright.Proofs.Parser.Blame
import Scriptwright.Proofs.Token.Bytes
import Scriptwright.Proofs.Token.Template
import Scriptwright.Proofs.Position.Search
import Scriptwright.Proofs.Path.Order
import Scriptwright.Proofs.Build.Discovery
import Scriptwright.Proofs.Grammar.Signature
import Scriptwright.Proofs.Grammar.Declared
import Scriptwright.Proofs.Parser.Signature
import Scriptwright.Proofs.Path.Output
import Scriptwright.Proofs.Binary64.Rounding
import Scriptwright.Proofs.Binary64.Shortest
import Scriptwright.Proofs.JavaScript.Numeral
import Scriptwright.Proofs.Grammar.Exchange
