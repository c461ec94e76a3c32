import Fdfs2qq.Lib.ListSplit
import Fdfs2qq.Lib.LinkedRow
import Fdfs2qq.Lib.KeyedList
import Fdfs2qq.Lib.Machine
import Fdfs2qq.Bpt.Key
import Fdfs2qq.Bpt.Store
import Fdfs2qq.Bpt.WellFormed
import Fdfs2qq.Bpt.Search
import Fdfs2qq.Bpt.Insert
import Fdfs2qq.Bpt.Remove
import Fdfs2qq.Bpt.StoreProofs
import Fdfs2qq.Bpt.Tower
import Fdfs2qq.Bpt.Levels
import Fdfs2qq.Bpt.Fence
import Fdfs2qq.Bpt.Shape
import Fdfs2qq.Bpt.WellFormedProofs
import Fdfs2qq.Bpt.SearchProofs
import Fdfs2qq.Bpt.SplitProofs
import Fdfs2qq.Bpt.ClimbProofs
import Fdfs2qq.Bpt.InsertProofs
import Fdfs2qq.Bpt.Defects
import Fdfs2qq.Bpt.BorrowProofs
import Fdfs2qq.Bpt.LossProofs
import Fdfs2qq.Bpt.MergeProofs
import Fdfs2qq.Bpt.LossClimb
import Fdfs2qq.Bpt.BoundProofs
import Fdfs2qq.Bpt.LeafProofs
import Fdfs2qq.Bpt.RemoveProofs
import Fdfs2qq.Bpt.LeafChain
import Fdfs2qq.Bpt.Calls
import Fdfs2qq.Bpt.CallProofs
import Fdfs2qq.Bpt.Reach
import Fdfs2qq.Bpt.Reopen
import Fdfs2qq.Lib.Tiling
import Fdfs2qq.Bpt.Edits
import Fdfs2qq.Bpt.EditProofs
import Fdfs2qq.Bpt.Extents
import Fdfs2qq.Bpt.BlockBytes
import Fdfs2qq.Bpt.ImageRuns
import Fdfs2qq.Bpt.Separators
import Fdfs2qq.Bpt.Rotation
import Fdfs2qq.Bpt.Overrun
import Fdfs2qq.Bpt.LastSlotCalls
import Fdfs2qq.Bpt.Paging
import Fdfs2qq.Bpt.Queries
import Fdfs2qq.Bpt.Boundary
import Fdfs2qq.Bpt.Delegate
import Fdfs2qq.Box.StorageProofs
import Fdfs2qq.Box.Routes
import Fdfs2qq.Jobschedule.ProducerCli
import Fdfs2qq.Jobschedule.Steps
import Fdfs2qq.Jobschedule.WorkQueue
import Fdfs2qq.Jobschedule.Delivery
import Fdfs2qq.Jobschedule.Ownership
import Fdfs2qq.Jobschedule.VolumnQueue
import Fdfs2qq.Jobschedule.Response
import Fdfs2qq.Jobschedule.Pairing
import Fdfs2qq.Transfer.DbMongodb
import Fdfs2qq.Transfer.UpsertErrors
import Fdfs2qq.Box.BoxObject
import Fdfs2qq.Box.Framing
import Fdfs2qq.Jobschedule.ConsumerCli
import Fdfs2qq.Jobschedule.Reading
import Fdfs2qq.Jobschedule.Meaning
import Fdfs2qq.Jobschedule.Untrusted
import Fdfs2qq.Jobschedule.Decoding
import Fdfs2qq.Base64Proofs
import Fdfs2qq.Jobschedule.VolumnNames
import Fdfs2qq.Common.Workqueue
import Fdfs2qq.Common.WorkqueueSteps
import Fdfs2qq.Common.WorkqueueProofs
import Fdfs2qq.Common.WorkqueueRest
import Fdfs2qq.Common.WorkqueueShutdown
import Fdfs2qq.Common.Ini
import Fdfs2qq.Common.IniProofs
import Fdfs2qq.Common.IniValues
import Fdfs2qq.Box.StorageReader
import Fdfs2qq.Common.WorkqueueJobs
import Fdfs2qq.Jobschedule.ConsumerServer
import Fdfs2qq.Jobschedule.ServerProofs
import Fdfs2qq.Jobschedule.Pipeline
import Fdfs2qq.Transfer.Sockopt
import Fdfs2qq.Bpt.SearchCost
import Fdfs2qq.Common.Base64
import Fdfs2qq.Common.Base64RoundTrip
