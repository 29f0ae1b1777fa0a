import Pep9.Main
import Pep9.Proofs.Compile.Legality
import Pep9.Proofs.Compile.Elision
import Pep9.Proofs.Script.Printing
import Pep9.Proofs.Script.Spans
import Pep9.Proofs.Compile.Presentation
import Pep9.Proofs.Compile.Aliasing
import Pep9.Proofs.Compile.Convention
import Pep9.Proofs.Compile.Selection
import Pep9.Proofs.Compile.Numbers
import Pep9.Proofs.Machine.Budget
import Pep9.Proofs.Machine.Decimals
import Pep9.Proofs.Script.Spacing
import Pep9.Proofs.Compile.ErrorLines
import Pep9.Proofs.Compile.Mangling
import Pep9.Proofs.Script.TreeDecoding
import Pep9.Proofs.Assembly.ObjectText
