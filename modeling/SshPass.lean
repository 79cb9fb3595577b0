import SshPass.Lib.Borrow
import SshPass.Lib.CallTree
import SshPass.Lib.Stateful
import SshPass.Lib.Hoare
import SshPass.Lib.Merge
import SshPass.Lib.LittleEndian
import SshPass.Lib.Transition
import SshPass.Unix.Kernel
import SshPass.Unix.Registry
import SshPass.Unix.RegistrySpec
import SshPass.Unix.Indices
import SshPass.Unix.Addressing
import SshPass.Unix.Cache
import SshPass.Unix.ReadyIter
import SshPass.Unix.Traffic
import SshPass.Unix.App
import SshPass.Unix.AppSpec
import SshPass.Unix.RegistrationSpec
import SshPass.Unix.Dispatch
import SshPass.Unix.Terminal
import SshPass.EventLoop.Program
import SshPass.EventLoop.Construction
import SshPass.EventLoop.Iteration
import SshPass.EventLoop.Forwarding
import SshPass.EventLoop.Shutdown
import SshPass.EventLoop.Signals
import SshPass.EventLoop.Pty
import SshPass.EventLoop.Unhandled
import SshPass.EventLoop.Wiring
import SshPass.EventLoop.Footprint
import SshPass.EventLoop.Views
import SshPass.EventLoop.Flows
import SshPass.EventLoop.Results
import SshPass.EventLoop.Uncached
import SshPass.EventLoop.Main
import SshPass.EventLoop.Mask
import SshPass.EventLoop.Starvation
import SshPass.EventLoop.Records
import SshPass.EventLoop.Delivery
import SshPass.EventLoop.Progress
