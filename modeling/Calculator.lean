import Calculator.Shape
import Calculator.Expression
import Calculator.Reduction.InPlace
import Calculator.Token.Shorthand
import Calculator.Token.Lexeme
import Calculator.Tree.Failure
import Calculator.Proofs.Absorption
import Calculator.Proofs.Accounting
import Calculator.Proofs.Admission
import Calculator.Proofs.Confluence
import Calculator.Proofs.DoubleBits
import Calculator.Proofs.DoubleOrder
import Calculator.Proofs.FinalRounding
import Calculator.Proofs.FirstFailure
import Calculator.Proofs.Imbalance
import Calculator.Proofs.LexicalGrammar
import Calculator.Proofs.NumberText
import Calculator.Proofs.Range
import Calculator.Proofs.Retyping
import Calculator.Proofs.Resumption
import Calculator.Proofs.Rewriting
import Calculator.Proofs.RoundTrip
import Calculator.Proofs.SafeEvaluation
import Calculator.Proofs.ShortLiterals
import Calculator.Proofs.SignedRounding
import Calculator.Proofs.Spelling
import Calculator.Proofs.TreeSemantics
import Calculator.Proofs.Unabridged
import Calculator.Proofs.Expansion
import Calculator.Proofs.FlatGrammar
import Calculator.Proofs.Respelling
import Calculator.Proofs.Matching

