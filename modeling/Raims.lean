import Raims.Auth.Handshake
import Raims.Conn.AesConnection
import Raims.Conn.AesStream
import Raims.Conn.ConnectMgr
import Raims.Conn.NotifyCtx
import Raims.Crypt.CounterMode
import Raims.Crypt.Poly1305
import Raims.Crypt.Sha512
import Raims.Graph.AdjDistance
import Raims.Graph.CalcCost
import Raims.Graph.CostByPath
import Raims.Graph.CostRoundTrip
import Raims.Graph.CostText
import Raims.Graph.FindInconsistent
import Raims.Graph.Flood
import Raims.Graph.GraphLinks
import Raims.Graph.InboxRoute
import Raims.Graph.LeastCost
import Raims.Graph.LoadGraph
import Raims.Graph.LoadJson
import Raims.Graph.LoadStatements
import Raims.Graph.PathCount
import Raims.Graph.PathIndex
import Raims.Graph.PathLcm
import Raims.Graph.PrintRoundTrip
import Raims.Graph.SearchCost
import Raims.Graph.SubjectFlood
import Raims.Graph.UpdateGraph
import Raims.Inbox.Delivery
import Raims.Inbox.InboxRecv
import Raims.Inbox.PeerTable
import Raims.Inbox.SendWindow
import Raims.Inbox.StalePackets
import Raims.Inbox.WindowRefs
import Raims.Inbox.WithoutWindows
import Raims.Lib.AgedMap
import Raims.Lib.Keystream
import Raims.Lib.LabelSearch
import Raims.Lib.SlotIndex
import Raims.Lib.StampCache
import Raims.Lib.TwoPointer
import Raims.LinkState.AdjChangeList
import Raims.LinkState.AdjacencyRequest
import Raims.LinkState.AdjacencySync
import Raims.LinkState.ChangeFlood
import Raims.LinkState.CostAgreement
import Raims.LinkState.Replay
import Raims.LinkState.RouteCounts
import Raims.LinkState.RouteLists
import Raims.LinkState.SeqnoBook
import Raims.LinkState.SyncSeqnos
import Raims.LinkState.UpdateCost
import Raims.Msg.Builders
import Raims.Msg.ReadSafety
import Raims.Msg.RoundTrip
import Raims.Pgm.PgmDelivery
import Raims.Pub.Publish
import Raims.Sub.AnyMatch
import Raims.Sub.LiveSubjects
import Raims.Sub.MsgLoss
import Raims.Sub.PeerBloom
import Raims.Sub.SeqnoCache
import Raims.Sub.SeqnoEviction
import Raims.Sub.SeqnoGenerations
import Raims.Sub.SeqnoSizes
import Raims.Sub.SubArray
import Raims.Sub.SubListIter
import Raims.Sub.SubStop
import Raims.Sub.SubsRequest
import Raims.User.ChangePass
import Raims.User.EncryptHmac
import Raims.User.HmacDecrypt
import Raims.User.Membership
import Raims.User.MeshRequest
import Raims.User.PeerKeys
import Raims.User.PeerSession
import Raims.User.PendingPeers
import Raims.User.QueueTimeouts
import Raims.User.RttHistory
import Raims.User.ServiceBuf
import Raims.User.Signatures
import Raims.User.Summaries
import Raims.User.TportRoute
import Raims.User.UrlFilter
import Raims.User.UserList
import Raims.Conn.TcpTransport
