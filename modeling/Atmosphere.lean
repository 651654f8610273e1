import Atmosphere.Kern.IpcLock
import Atmosphere.Kern.DeviceAddressSpace
import Atmosphere.Kern.BlockCoupling
import Atmosphere.Kern.OptimizedMemory
import Atmosphere.Kern.PriorityQueueRun
import Atmosphere.Kern.SchedulerPinning
import Atmosphere.Kern.UserMutexRun
import Atmosphere.Kern.Arm64.PageTableSeparate
import Atmosphere.Kern.ResourceLimit
import Atmosphere.Kern.ThreadAffinity
import Atmosphere.Sm.AccessRestriction
import Atmosphere.Sm.MitmProcess
import Atmosphere.Sm.Resumption
import Atmosphere.Kern.MessageDelivery
import Atmosphere.Fs.IndirectRead
import Atmosphere.Fs.AlignmentMatching
import Atmosphere.Fs.IntegrityRun
import Atmosphere.Fs.BuddyHeapRun
import Atmosphere.Kern.MemoryManagerCalls
import Atmosphere.Kern.PriorityInheritanceCalls
import Atmosphere.Kern.FreeArea
import Atmosphere.Dmnt.FrozenAddresses
import Atmosphere.Tipc.DeferralManager
import Atmosphere.Kvdb.Commit
import Atmosphere.Util.BitSet
