import Settle.Config.LogFormat
import Settle.Pass
import Settle.Print.Node
import Settle.Proofs.Binding
import Settle.Proofs.Idempotence
import Settle.Proofs.Reference
import Settle.Proofs.Scoping
import Settle.Wire
import Settle.Proofs.Depth
import Settle.Proofs.Awaited
import Settle.Proofs.Dispatch
import Settle.Proofs.Linked
import Settle.Proofs.Requests
import Settle.Proofs.Events
import Settle.Proofs.Printed
import Settle.Proofs.Copied
import Settle.Proofs.FreshNames
import Settle.Proofs.Parameters
import Settle.Proofs.Scans
import Settle.Proofs.Apart
import Settle.Proofs.Footprint
import Settle.Proofs.Strokes
import Settle.Proofs.Indentation
import Settle.Proofs.Weave
import Settle.Proofs.Ambiguity
import Settle.Proofs.Growth
import Settle.Proofs.Injection
import Settle.Proofs.Unquoted
import Settle.Proofs.Overrun
