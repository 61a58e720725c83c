import Stepwise.Debugger
import Stepwise.Disk
import Stepwise.Event
import Stepwise.Main
import Stepwise.Proofs.Canonical
import Stepwise.Proofs.Compilation
import Stepwise.Proofs.FixedArity
import Stepwise.Proofs.Forms
import Stepwise.Proofs.Lookahead
import Stepwise.Proofs.Lossless
import Stepwise.Proofs.Matching
import Stepwise.Proofs.Postfix
import Stepwise.Proofs.Reading
import Stepwise.Proofs.RoundTrip
import Stepwise.Proofs.Scoping
import Stepwise.Proofs.Termination
import Stepwise.Proofs.Balance
import Stepwise.Proofs.Cursor
import Stepwise.Proofs.Resumption
import Stepwise.Proofs.InputFile
