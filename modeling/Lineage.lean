import Lineage.Overlay
import Lineage.Proofs.Slice.Lookup
import Lineage.Proofs.Slice.Restore
import Lineage.Proofs.Flow.Reaching
import Lineage.Proofs.Slice.CallTime
import Lineage.Proofs.Flow.Across
import Lineage.Proofs.Slice.Checked
import Lineage.Proofs.Slice.Renumber
import Lineage.Proofs.Flow.Effects
import Lineage.Proofs.Flow.Uses
import Lineage.Proofs.Flow.Loads
import Lineage.Proofs.Flow.ClassBody
import Lineage.Proofs.Flow.Jumps
import Lineage.Proofs.Flow.Join
import Lineage.Proofs.Tree.Traversal
import Lineage.Proofs.Slice.Ending
import Lineage.Proofs.Tree.Names
import Lineage.Proofs.Slice.Lines
