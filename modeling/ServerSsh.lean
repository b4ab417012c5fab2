import ServerSsh.Libc.Memory
import ServerSsh.Libc.Decimal
import ServerSsh.Libc.CutNumbers
import ServerSsh.Libc.Fields
import ServerSsh.Libc.Strings
import ServerSsh.Posix.Signals
import ServerSsh.Posix.Datagrams
import ServerSsh.Transition
import ServerSsh.Evp.Interface
import ServerSsh.Evp.Cbc
import ServerSsh.Evp.Chaining
import ServerSsh.Headers
import ServerSsh.Encrypting.Degree
import ServerSsh.Encrypting.Keys
import ServerSsh.Encrypting.Cipher
import ServerSsh.Encrypting.Handshake
import ServerSsh.Message
import ServerSsh.KeyMaterial
import ServerSsh.KeyAgreement
import ServerSsh.AnyPeer
import ServerSsh.Words
import ServerSsh.CutTexts
import ServerSsh.KeyCollisions
import ServerSsh.RoundTrip
import ServerSsh.Boundaries
import ServerSsh.Relay
import ServerSsh.Receiver
import ServerSsh.UdpSession
import ServerSsh.SignalsOperations
import ServerSsh.Processes
import ServerSsh.AddressHops
import ServerSsh.SpareAdministrator
import ServerSsh.AdvertisedAddress
import ServerSsh.ShellOutput
import ServerSsh.Wire
import ServerSsh.EndOfInput
import ServerSsh.Failures
import ServerSsh.Discovery
import ServerSsh.Replay
import ServerSsh.Tunnel
import ServerSsh.SessionPipes
import ServerSsh.Establishment
import ServerSsh.KeyExchange
import ServerSsh.Interception
import ServerSsh.ClockKeys
import ServerSsh.SessionOrder
import ServerSsh.TcpHandshake
import ServerSsh.Commands
import ServerSsh.CommandWords
import ServerSsh.Upload
import ServerSsh.Dispatch
import ServerSsh.Requests
import ServerSsh.CommandExecution
import ServerSsh.Arguments
import ServerSsh.Search
import ServerSsh.PortSearch
import ServerSsh.Posix.Descriptors
import ServerSsh.Posix.Ends
import ServerSsh.ScannerDescriptors
import ServerSsh.Stutter
import ServerSsh.ServerList
import ServerSsh.Endpoint
import ServerSsh.ClientMain
import ServerSsh.UserLogin
import ServerSsh.SessionProcesses
import ServerSsh.Records
import ServerSsh.LogEntries
