import Regatta.Api.Clock
import Regatta.Log.Record
import Regatta.Main
import Regatta.Tool.Echo
import Regatta.Tool.Playbook
import Regatta.Tool.StandIn
import Regatta.Proofs.Race.Standalone
import Regatta.Proofs.Service.Explanation
import Regatta.Proofs.Service.Shutdown
import Regatta.Proofs.Log.Sending
import Regatta.Proofs.Service.Transcript
import Regatta.Proofs.Footprint
import Regatta.Proofs.Api.LogStream
import Regatta.Proofs.Batch.Schedule
import Regatta.Proofs.Report.Csv
import Regatta.Proofs.Report.Destination
import Regatta.Proofs.Store.Listing
import Regatta.Proofs.Service.Figures
import Regatta.Proofs.Circuit.Ordered
import Regatta.Proofs.Circuit.Collection
import Regatta.Proofs.Api.Submission
import Regatta.Proofs.Race.Promptness
import Regatta.Proofs.Settings
import Regatta.Proofs.Script
import Regatta.Proofs.Workspace
import Regatta.Proofs.Report.Hundredths
import Regatta.Proofs.Tool.Lines
import Regatta.Proofs.EngineResult
import Regatta.Proofs.Report.Room
