import Tunneld.Limit.Hold
import Tunneld.Limit.RetryHint
import Tunneld.Limit.Pacing
import Tunneld.Acme.Marks
import Tunneld.Acme.Pace
import Tunneld.Acme.Deadline
import Tunneld.Acme.Challenge
import Tunneld.Acme.Backoff
import Tunneld.Acme.Spillover
import Tunneld.Acme.Chain
import Tunneld.Router.Ownership
import Tunneld.Router.Nodes
import Tunneld.Edge.Splice
import Tunneld.Edge.StreamSlot
import Tunneld.Edge.Clients
import Tunneld.Edge.LeastActive
import Tunneld.Edge.Fingerprint
import Tunneld.Wire.Control
import Tunneld.Edge.PacedCopy
import Tunneld.PhoneConn.Bans
import Tunneld.PhoneConn.Newest
import Tunneld.PhoneConn.NoGhost
import Tunneld.PhoneConn.DialBack
import Tunneld.Server.Reserved
import Tunneld.Server.Drain
import Tunneld.Server.Names
import Tunneld.Ban.Matching
import Tunneld.Store.Recovery
import Tunneld.Attest.Verify
import Tunneld.Refused.Job
import Tunneld.Refused.Report
import Tunneld.Config.Size
import Tunneld.Config.Redact
import Tunneld.Client.Retry
import Tunneld.Metrics.Traffic
import Tunneld.Caplog.Windows
import Tunneld.Mesh.Pool
import Tunneld.Client.Control
