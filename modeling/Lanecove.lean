import Lanecove.Basic.Machine
import Lanecove.Basic.Rekeying
import Lanecove.Basic.Words
import Lanecove.Config.EndpointBuffers
import Lanecove.Config.HexBuffers
import Lanecove.Config.Required
import Lanecove.Config.Unknown
import Lanecove.Handshake.Agreement
import Lanecove.Peer.Bounds
import Lanecove.Peer.ReplaySet
import Lanecove.Peer.Routing
import Lanecove.Safety.AddressTable
import Lanecove.Safety.AllowedSources
import Lanecove.Safety.Cooldown
import Lanecove.Safety.Delivery
import Lanecove.Safety.InitiationReplay
import Lanecove.Safety.RekeyMarks
import Lanecove.Safety.RekeyTiming
import Lanecove.Safety.KeyRetirement
import Lanecove.Safety.OutstandingHandshakes
import Lanecove.Safety.ResponderKeys
import Lanecove.Network.ReplayDrops
import Lanecove.Network.Origin
import Lanecove.Network.Rekey
import Lanecove.Network.Relay
import Lanecove.Network.Secrecy
import Lanecove.Threads.Delivery
import Lanecove.Threads.Locks
import Lanecove.Threads.Sending
import Lanecove.Threads.Shutdown
import Lanecove.Threads.Startup
