import Padsi.Wayland.Message
import Padsi.Wayland.ProxyBuffer
import Padsi.Wayland.Filter
import Padsi.Wayland.Totality
import Padsi.Wayland.Wire
import Padsi.Wayland.Blocking
import Padsi.Wayland.Tagging
import Padsi.Wayland.Discovery
import Padsi.Wayland.Forward
import Padsi.Lib.Text
import Padsi.Lib.Wildcard
import Padsi.Net.Address
import Padsi.Net.Pattern
import Padsi.Net.Inclusion
import Padsi.Net.Reference
import Padsi.Net.EndPoint
import Padsi.Net.Denotation
import Padsi.Net.RoundTrip
import Padsi.Lib.Selection
import Padsi.Web.Cache
import Padsi.Web.Config
import Padsi.Web.Specificity
import Padsi.Web.Transparency
import Padsi.Lib.Python
import Padsi.Lib.Regex
import Padsi.Fw.Domain
import Padsi.Fw.Endpoint
import Padsi.Fw.PartOf
import Padsi.Fw.Agreement
import Padsi.Fw.NetFlow
import Padsi.Fw.Nft
import Padsi.Fw.Search
import Padsi.Fw.Ruleset
import Padsi.Dns.Rules
import Padsi.Dns.Firewall
import Padsi.Dns.Restriction
import Padsi.Dns.Expiry
import Padsi.Fw.Opening
import Padsi.Dns.Closing
import Padsi.Dns.Unbound
import Padsi.Dns.Channel
import Padsi.Guard.Hooks
import Padsi.Dns.LocalResolved
import Padsi.Config.Clipboard
import Padsi.Dbus.Message
import Padsi.Dbus.Wire
import Padsi.Dbus.Buffer
import Padsi.Dbus.Reassembly
import Padsi.Dbus.Rewrite
import Padsi.Dbus.Router
import Padsi.Dbus.Replies
import Padsi.Usb.Monitor
import Padsi.Lib.Shlex
import Padsi.Usb.Threads
import Padsi.Desktop.Entry
import Padsi.Config.InRules
import Padsi.System.DefaultRoutes
import Padsi.Comm.Calls
import Padsi.Comm.Waiting
import Padsi.Vm.Cleanup
import Padsi.Vm.Commit
import Padsi.Vm.Load
import Padsi.Lib.Savepoint
import Padsi.Vm.Database
import Padsi.Config.Networks
import Padsi.Vm.Admin
import Padsi.Vm.Zones
import Padsi.Vm.Unused
import Padsi.Vm.Merge
import Padsi.Vm.Archive
import Padsi.Agent.Files
import Padsi.System.HostAccess
import Padsi.Bubble.Mounts
import Padsi.Bubble.Merging
import Padsi.Config.Compatible
import Padsi.Fw.DenyLog
import Padsi.Proc.Reaping
import Padsi.Fw.Protocols
import Padsi.Proc.Capabilities
import Padsi.Proc.Signals
import Padsi.User.Cleaner
import Padsi.User.Ending
import Padsi.User.Infra
import Padsi.User.Tasks
import Padsi.User.Versions
import Padsi.Vm.Move
import Padsi.Vm.Naming
import Padsi.System.UserFiles
import Padsi.Vm.Events
import Padsi.Proc.Restarts
import Padsi.Proc.AutoStop
import Padsi.System.Interfaces
import Padsi.Do.Args
