import Classwright.Syntax.Outline
import Classwright.Token.Stream
import Classwright.Main
import Classwright.Proofs.Code.Disassembly
import Classwright.Proofs.Syntax.FormatStable
import Classwright.Proofs.Code.Dangling
import Classwright.Proofs.Registry.Exported
import Classwright.Proofs.Unit.StackDiscipline
import Classwright.Proofs.Unit.Diagnostics
import Classwright.Proofs.Unit.Constants
import Classwright.Proofs.Machine.Unfolded
import Classwright.Proofs.Token.Literals
import Classwright.Proofs.Token.Spacing
import Classwright.Proofs.Syntax.Progress
import Classwright.Proofs.Unit.Entry
import Classwright.Proofs.Scope
import Classwright.Proofs.Ty.Unions
import Classwright.Proofs.ClassFile.Delimited
import Classwright.Proofs.ClassFile.Counts
import Classwright.Proofs.ClassFile.Sticky
import Classwright.Proofs.Body.Cases
