import Peerster.Chain.Blockchain
import Peerster.Chain.Types
import Peerster.Lib.LastTouch
import Peerster.Token
import Peerster.Chain.Ledger
import Peerster.Chain.Pow
import Peerster.Chain.Node
import Peerster.Chain.Application
import Peerster.Chain.Ownership
import Peerster.Chain.History
import Peerster.Chain.Replicas
import Peerster.DataSharing
import Peerster.Gossip.Rumor
import Peerster.Gossip.Handlers
import Peerster.Gossip.Network
import Peerster.Gossip.Numbering
import Peerster.Chain.Preimage
import Peerster.Gossip.Delivery
import Peerster.Chain.Stored
import Peerster.Chain.Links
import Peerster.Chain.Linked
import Peerster.Chain.SelfMined
import Peerster.Chain.Linkage
import Peerster.Chain.Work
import Peerster.Chain.Mempool
import Peerster.Chain.Publishing
import Peerster.Chain.Wakeup
import Peerster.Gossip.Views
import Peerster.Gossip.Routes
import Peerster.Gossip.Exchange
import Peerster.Gossip.Failing
import Peerster.Gossip.Nesting
import Peerster.FilePath
import Peerster.FileStore
import Peerster.Contract
import Peerster.Uploads
import Peerster.Addressing
import Peerster.Transfer
import Peerster.Retries
import Peerster.Search.Handlers
import Peerster.Search.Flooding
import Peerster.Search.Forwarding
import Peerster.Search.Naming
import Peerster.Search.Collecting
import Peerster.Gossip.Verdict
import Peerster.Gossip.Acks
import Peerster.Gossip.Handoff
import Peerster.Gossip.Neighbors
import Peerster.Chain.Restarts
import Peerster.Chain.Viewer
import Peerster.Chain.Touches
import Peerster.Chain.Mining
import Peerster.Lib.Interleaving
import Peerster.Token.Interleaving
import Peerster.Token.Amounts
import Peerster.Search.Local
import Peerster.Lib.RWMutex
import Peerster.Registry
import Peerster.Lib.Chunks
import Peerster.Chunks
import Peerster.Search.Budget
import Peerster.Lib.Slices
import Peerster.Gossip.Sorted
import Peerster.Chain.Batches
import Peerster.Lib.Dissemination
import Peerster.Gossip.Reliable
import Peerster.Gossip.Convergence
import Peerster.Gossip.Unicast
import Peerster.Sharing.Network
import Peerster.Sharing.Downloads
import Peerster.Search.Ring
import Peerster.Search.RingBudgets
import Peerster.Search.RingChannels
import Peerster.Sharing.Finding
import Peerster.Chain.Reads
import Peerster.Gossip.Payloads
import Peerster.Replication.System
import Peerster.Replication.SingleMiner
import Peerster.Replication.Following
import Peerster.Replication.Provenance
