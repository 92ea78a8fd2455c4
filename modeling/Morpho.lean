import Morpho.CommandLine.Session
import Morpho.Main
import Morpho.Proofs.Simulation
import Morpho.Proofs.Slots
import Morpho.Proofs.EagerResolution
import Morpho.Proofs.Linked
import Morpho.Proofs.SeparateCompilation
import Morpho.Proofs.Expressible
import Morpho.Proofs.Flow.NoFallThrough
import Morpho.Proofs.NameList
import Morpho.Proofs.Caret
import Morpho.Proofs.Precedence
import Morpho.Proofs.Totality
import Morpho.Proofs.Layout
import Morpho.Proofs.Decoding
import Morpho.Proofs.Calls
import Morpho.Proofs.Flow.Heights
import Morpho.Proofs.ScopeDiscipline
import Morpho.Proofs.Flow.Balance
import Morpho.Proofs.Bytes
import Morpho.Proofs.Lossless
import Morpho.Proofs.TailMode
import Morpho.Proofs.DoubleReturn
import Morpho.Proofs.Renaming
import Morpho.Proofs.TwoRuns
import Morpho.Proofs.Lookahead
import Morpho.Proofs.ConsistentRenaming
import Morpho.Proofs.FaithfulText
