import GoHotstuff.Delivery
import GoHotstuff.PhaseOrder
import GoHotstuff.Anchors
import GoHotstuff.Handlers
import GoHotstuff.Routing
import GoHotstuff.Views
import GoHotstuff.Threads
import GoHotstuff.VoteBinding
import GoHotstuff.ViewOrder
import GoHotstuff.VoteCount
import GoHotstuff.Transport
import GoHotstuff.Iterators
import GoHotstuff.LruHistory
import GoHotstuff.Leadership
import GoHotstuff.Commands
import GoHotstuff.Persistence
import GoHotstuff.FinishedCerts
import GoHotstuff.Collection
import GoHotstuff.Redelivery
import GoHotstuff.Failures
import GoHotstuff.ExecPointer
import GoHotstuff.LockedBranch
import GoHotstuff.NewViewQuorum
import GoHotstuff.Skipping
import GoHotstuff.Ecdsa
import GoHotstuff.ViewChange
import GoHotstuff.Sending
import GoHotstuff.Validity
import GoHotstuff.Locking
import GoHotstuff.Conformance
import GoHotstuff.RecentBlocks
import GoHotstuff.Advance
import GoHotstuff.Rounds
import GoHotstuff.Progress
import GoHotstuff.Lib.ForkJoin
import GoHotstuff.ParallelVerify
import GoHotstuff.Connections
import GoHotstuff.Cluster
import GoHotstuff.Carrying
import GoHotstuff.Deployment
