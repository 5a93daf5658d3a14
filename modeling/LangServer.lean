import LangServer.CommandLine.Documentation
import LangServer.Liveness
import LangServer.Main
import LangServer.Proofs.Belonging
import LangServer.Proofs.Routing
import LangServer.Proofs.Synchronisation
import LangServer.Proofs.Settings.UpToDate
import LangServer.Proofs.Settings.Merging
import LangServer.Proofs.Settings.Shared
import LangServer.Proofs.Folding.Answers
import LangServer.Proofs.Outline
import LangServer.Proofs.Migration
import LangServer.Proofs.Naming
import LangServer.Proofs.Discovery
import LangServer.Proofs.Linting.Replays
import LangServer.Proofs.Linting.FrontEnds
import LangServer.Proofs.Linting.FileIgnores
import LangServer.Proofs.Words
import LangServer.Proofs.Locations
import LangServer.Proofs.Settings.Switches
import LangServer.Proofs.Completion.Bounds
import LangServer.Proofs.Projects
