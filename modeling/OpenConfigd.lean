import OpenConfigd.Config.Place
import OpenConfigd.Yang.Plan
import OpenConfigd.Config.Typed
import OpenConfigd.Config.Store
import OpenConfigd.Config.Reach
import OpenConfigd.Config.SetGet
import OpenConfigd.Config.OneKey
import OpenConfigd.Go.Ascii
import OpenConfigd.Config.Command
import OpenConfigd.Config.Rebuild
import OpenConfigd.Config.Replay
import OpenConfigd.Config.Copy
import OpenConfigd.Config.Mandatory
import OpenConfigd.Subscribe.Compare
import OpenConfigd.Subscribe.Hub
import OpenConfigd.Subscribe.Commit
import OpenConfigd.Subscribe.Undo
import OpenConfigd.Config.Load
import OpenConfigd.Config.Saved
import OpenConfigd.Subscribe.Agree
import OpenConfigd.Config.Tuple
import OpenConfigd.Config.Encode
import OpenConfigd.Config.Encoded
import OpenConfigd.Yang.Complete
import OpenConfigd.Config.Delete
import OpenConfigd.Config.Edit
import OpenConfigd.Config.Parent
import OpenConfigd.Config.Atomic
import OpenConfigd.Config.Choice
import OpenConfigd.Subscribe.Discard
import OpenConfigd.Subscribe.Registry
import OpenConfigd.Subscribe.Routing
import OpenConfigd.Lib.Runs
import OpenConfigd.Subscribe.Stream
import OpenConfigd.Subscribe.ApiSync
import OpenConfigd.Subscribe.Callback
import OpenConfigd.Config.Order
import OpenConfigd.Config.Built
import OpenConfigd.Config.Faithful
import OpenConfigd.Config.Bools
import OpenConfigd.Go.Map
import OpenConfigd.Quagga.Manager
import OpenConfigd.Quagga.Sync
import OpenConfigd.Subscribe.VrfFilter
import OpenConfigd.Etcd.Watcher
import OpenConfigd.Config.Lexer
import OpenConfigd.Config.LoadSafe
import OpenConfigd.Config.Quoting
import OpenConfigd.Config.Members
import OpenConfigd.Gobgp.Vrf
import OpenConfigd.Gobgp.Neighbor
import OpenConfigd.Gobgp.Config
import OpenConfigd.Lib.LabelTree
import OpenConfigd.Quaggad.Node
import OpenConfigd.Quaggad.Policy
import OpenConfigd.Quaggad.RouteMap
import OpenConfigd.Quaggad.Bgp
import OpenConfigd.Quaggad.Ospf
import OpenConfigd.Quaggad.Loop
import OpenConfigd.Quaggad.Rules
import OpenConfigd.Quaggad.Converge
import OpenConfigd.Quaggad.Modes
import OpenConfigd.Quaggad.References
import OpenConfigd.Vrf.Interfaces
import OpenConfigd.Dhcp.Server
import OpenConfigd.Vrf.Commute
import OpenConfigd.Config.Statements
import OpenConfigd.Config.Required
import OpenConfigd.Subscribe.Siblings
import OpenConfigd.Config.Rollback
import OpenConfigd.Dhcp.Relay
import OpenConfigd.Config.Target
import OpenConfigd.Config.Exact
import OpenConfigd.Subscribe.Pull
import OpenConfigd.Config.ValueSpace
import OpenConfigd.Lib.Ranges
import OpenConfigd.Yang.MapOrder
import OpenConfigd.Gobgp.RibSync
import OpenConfigd.Gobgp.Wan
import OpenConfigd.Vrf.Converge
import OpenConfigd.Vrf.Static
import OpenConfigd.Etcd.Path
import OpenConfigd.Vrf.Daemons
import OpenConfigd.Vrf.Walker
import OpenConfigd.Etcd.Dispatch
import OpenConfigd.Vrf.Dhcp
import OpenConfigd.Vrf.ExecLine
import OpenConfigd.Vrf.Candidate
import OpenConfigd.Vrf.DhcpCandidate
import OpenConfigd.Subscribe.Appended
import OpenConfigd.Subscribe.Idempotent
import OpenConfigd.Config.Lease
import OpenConfigd.Subscribe.Change
import OpenConfigd.Quaggad.Accept
import OpenConfigd.Quaggad.Limits
import OpenConfigd.Quagga.Diff
import OpenConfigd.Vrf.Routes
import OpenConfigd.Config.Lossless
import OpenConfigd.Lib.PointerTree
import OpenConfigd.Quaggad.Heap
import OpenConfigd.Lib.Cells
import OpenConfigd.Quaggad.RouteMapCommit
import OpenConfigd.Quaggad.RouteMapDaemon
import OpenConfigd.Quaggad.RouteMapSimulation
import OpenConfigd.Component.Dependency
import OpenConfigd.Component.System
import OpenConfigd.Cmd.Match
import OpenConfigd.Lib.PathMap
import OpenConfigd.Cmd.Parser
import OpenConfigd.Cmd.Reads
import OpenConfigd.Cmd.Words
import OpenConfigd.Quaggad.Table
