import Interleave.Main
import Interleave.Store.Shelf
import Interleave.Proofs.Tree.RoundTrip
import Interleave.Proofs.Explore.Restore
import Interleave.Proofs.Fingerprint.Traversal
import Interleave.Proofs.Machine.Atomic
import Interleave.Proofs.Fingerprint.Renaming
import Interleave.Proofs.Fingerprint.Termination
import Interleave.Proofs.Search.DepthLimited
import Interleave.Proofs.Store.Bags
import Interleave.Proofs.Choice.Alternatives
import Interleave.Proofs.Program.Places
import Interleave.Proofs.Search.StraightLine
import Interleave.Proofs.Search.Requests
import Interleave.Proofs.Search.Compact
