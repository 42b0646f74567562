import Hush.Auth.AgentReply
import Hush.Auth.AuthorizedKeys
import Hush.Auth.EcdsaIdentity
import Hush.Auth.EcdsaKey
import Hush.Auth.Identity
import Hush.Auth.KeyLine
import Hush.Auth.Mpint
import Hush.Auth.Options
import Hush.Auth.Server
import Hush.Bridge.AgentBind
import Hush.Bridge.Forwarded
import Hush.Cli.Forward
import Hush.Cli.Target
import Hush.Client.ServerStreams
import Hush.Connect.HappyEyeballs
import Hush.Driver.Transmit
import Hush.FastSock.MultiSocket
import Hush.FastSock.Receive
import Hush.FileCopy.Agreement
import Hush.FileCopy.Archive
import Hush.FileCopy.Delivery
import Hush.FileCopy.Download
import Hush.FileCopy.Extraction
import Hush.FileCopy.Frames
import Hush.FileCopy.Gnu
import Hush.FileCopy.Landing
import Hush.FileCopy.Limits
import Hush.FileCopy.PartialWrites
import Hush.FileCopy.Plan
import Hush.FileCopy.Privileges
import Hush.FileCopy.Receive
import Hush.FileCopy.ReceiveLimit
import Hush.FileCopy.Relay
import Hush.FileCopy.RemotePath
import Hush.FileCopy.RoundTrip
import Hush.FileCopy.Send
import Hush.FileCopy.SendLimit
import Hush.FileCopy.Server
import Hush.FileCopy.Tar
import Hush.FileCopy.Traversal
import Hush.FileCopy.Truncated
import Hush.FileCopy.Upload
import Hush.FileCopy.Ustar
import Hush.Forwarding.RemoteListeners
import Hush.HostIdentity.Convergence
import Hush.HostIdentity.Explicit
import Hush.HostIdentity.Interleaving
import Hush.KnownHosts.Handshake
import Hush.KnownHosts.Interleaving
import Hush.KnownHosts.Safety
import Hush.KnownHosts.Sequential
import Hush.KnownHosts.Store
import Hush.Lib.AtomicReplace
import Hush.Lib.Base64
import Hush.Lib.Credentials
import Hush.Lib.FileTree
import Hush.Lib.Link
import Hush.Lib.Loop
import Hush.Lib.LossyPath
import Hush.Lib.PostcardCrate
import Hush.Lib.PrefixTree
import Hush.Lib.Processes
import Hush.Lib.SocketAddr
import Hush.Lib.Text
import Hush.Lib.Trace
import Hush.Lib.Wildcard
import Hush.Lib.Wire
import Hush.NwSock.Flows
import Hush.NwSock.Inbox
import Hush.NwSock.Protection
import Hush.NwSock.Reaper
import Hush.Protocol.Frames
import Hush.Protocol.Messages
import Hush.ResetKey.Agreement
import Hush.Roam.History
import Hush.Roam.PathWatch
import Hush.Serve.Connection
import Hush.Serve.Runtime
import Hush.Session.AltScreen
import Hush.Session.Child
import Hush.Session.Cuts
import Hush.Session.Environment
import Hush.Session.EscapeFilter
import Hush.Session.Exit
import Hush.Session.Keys
import Hush.Session.Kitty
import Hush.Session.Output
import Hush.SshConfig.Globs
import Hush.SshConfig.Hosts
import Hush.SshConfig.Parse
import Hush.SshConfig.Scoping
import Hush.SshConfig.Values
