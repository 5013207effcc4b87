import Ploy.Wave.Finishing
import Ploy.Wave.LastRun
import Ploy.Isolation.RepoGuard
import Ploy.Isolation.CancelRun
import Ploy.Node.Workspace
import Ploy.Server.Uploads
import Ploy.Server.ClaimService
import Ploy.Server.Bundles
import Ploy.Server.Enrolment
import Ploy.Node.Reporting
import Ploy.Stream.Order
import Ploy.Stream.Generations
import Ploy.Stream.Reconnect
import Ploy.Server.TokenRegistry
import Ploy.Run.DerivedStatus
import Ploy.Node.HostUnpack
import Ploy.Spec.ProcessEnvironment
import Ploy.Spec.Agreement
import Ploy.Node.PatchStats
import Ploy.Node.Mounts
import Ploy.Node.RepoSHA
import Ploy.Node.SnapshotModes
import Ploy.Detect.Maven
import Ploy.Domain.RepoURL
import Ploy.Store.Linearisation
import Ploy.Server.SourceCommit
import Ploy.Server.SBOM
import Ploy.Server.GlobalEnv
import Ploy.Run.History
