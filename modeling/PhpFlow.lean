import PhpFlow.Main
import PhpFlow.Proofs.DocTypes
import PhpFlow.Proofs.DocRanges
import PhpFlow.Proofs.Narrowing
import PhpFlow.Proofs.Unused
import PhpFlow.Syntax.Assembly
import PhpFlow.Syntax.Survey
import PhpFlow.Proofs.ArrayKeys
import PhpFlow.Proofs.Building
import PhpFlow.Proofs.Repeating
import PhpFlow.Proofs.Chaining
import PhpFlow.Proofs.Reordering
import PhpFlow.Proofs.Widening
import PhpFlow.Proofs.ClassTests
import PhpFlow.Proofs.Trailing
import PhpFlow.Proofs.VoidReturns
import PhpFlow.Proofs.Merging
import PhpFlow.Proofs.UnionTexts
import PhpFlow.Proofs.Collecting
import PhpFlow.Proofs.NumericStrings
import PhpFlow.Proofs.Quoting
import PhpFlow.Proofs.Words
