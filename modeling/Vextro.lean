import Vextro.Verification.Processes.Children
import Vextro.Verification.Pipes.Stream
import Vextro.Verification.Processes.FailedFork
import Vextro.Verification.Heap.Calls
import Vextro.Verification.Files.ByteArray
import Vextro.Verification.Profiles.Guard
import Vextro.Verification.Files.Pagefile
import Vextro.Verification.Wireless.Traffic
import Vextro.Verification.Wireless.Ccm
import Vextro.Verification.Archives.ClusterCache
import Vextro.Verification.Blocks.Linear
import Vextro.Verification.Blocks.Remapping
import Vextro.Verification.Ntfs.Replay
import Vextro.Verification.Sessions.Confinement
import Vextro.Verification.Images.WriteXorExec
import Vextro.Verification.Stdio.Transparency
import Vextro.Verification.Pthread.Release
import Vextro.Verification.Ntfs.Search
import Vextro.Verification.Registry.Map
import Vextro.Verification.Ntfs.Runs
import Vextro.Verification.Ntfs.Fixups
import Vextro.Verification.Ntfs.Geometry
import Vextro.Verification.Paging.Break
import Vextro.Verification.Processes.ForkThread
import Vextro.Verification.Signals.Masks
import Vextro.Verification.Elevation.Prompt
